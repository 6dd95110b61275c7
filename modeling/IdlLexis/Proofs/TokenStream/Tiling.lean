import IdlLexis.Proofs.TokenStream.Placement
/-!
A text is read to its end without a gap. Its lexemes fill it, none of them is empty, and only at
the end of the text does a reader find the end. So every draw that hands out a token moves the
stream on, and after as many draws as the text has bytes nothing is left.
-/

namespace IdlLexis

open Lexeme (Cuts Piece Placed)

namespace Reader

variable {text : Bytes}

/-- A zero byte of the text is a lexeme like any other; the end comes only where no byte is
left. -/
theorem next_end_iff (htext : text.length < Offset.limit) (offset : Nat) :
    ∃ x, ((Source.ofBytes text).readerAt offset).next =
        .ok (x, (Source.ofBytes text).readerAt (offset + x.length)) ∧
      (x.category = .endOfText ↔ text.length ≤ offset) ∧ (x.length = 0 ↔ text.length ≤ offset) := by
  by_cases hoffset : text.length ≤ offset
  · exact ⟨_, next_end htext hoffset, iff_of_true rfl hoffset, iff_of_true rfl hoffset⟩
  · obtain ⟨x, hnext, hlies⟩ := next_liesIn htext (Nat.lt_of_not_le hoffset)
    have hlength : x.length ≠ 0 := by
      have hlt : offset < offset + x.length := hlies.start_lt
      omega
    exact ⟨x, hnext, iff_of_false hlies.first.category_ne_endOfText hoffset,
      iff_of_false hlength hoffset⟩

end Reader

namespace TokenStream

variable {t t' : TokenStream} {text : Bytes} {pieces rest : List Piece} {token : Token}
  {cooked : List (Token × List Diagnostic)} {diagnostics : List Diagnostic} {ends : Nat}

/-- What may be drawn after other tokens: a token that lies behind them, is not empty and stops
where the stream then stands, or, once each lexeme that is more than a separator has been handed
out, the end of the text, which is empty and lies behind the last byte. -/
structure Follows (text : Bytes) (found : List Lexeme) (earlier : List Token) (token : Token)
    (t : TokenStream) : Prop where
  ofText : token.isEnd = false →
    (∀ before ∈ earlier, before.span.stop ≤ token.span.start) ∧
      token.span.start < token.span.stop ∧ token.span.stop = t.position
  ofEnd : token.isEnd = true →
    token.span = .point text.length ∧ t.position = text.length ∧
      ∀ x ∈ Placed.row 0 found, x.isTrivia = false → ∃ before ∈ earlier, before.span = x.span

theorem Faces.position_add (h : t.Faces text pieces) :
    t.position + (pieces.flatMap Piece.bytes).length = text.length := by
  obtain ⟨passed, left, hstands, hcuts, rfl⟩ := h
  rw [hstands.position_eq, hcuts.flatMap_bytes, List.length_append]

theorem Faces.position_of_nil (h : t.Faces text []) : t.position = text.length := h.position_add

theorem follows_end (h : (ofBytes text).Delivers text pieces cooked ends t []) (before : Nat) :
    Follows text (pieces.map Piece.toLexeme) (delivered text cooked before) (endOf text) t := by
  refine ⟨fun hgoes => absurd hgoes Bool.noConfusion, fun _ => ⟨rfl, h.faces.position_of_nil, ?_⟩⟩
  intro x hx htrivia
  have hall : cookAll 0 1 pieces = cooked := h.cooked_eq.trans (List.append_nil cooked)
  have hspan : x.span ∈ cooked.map (·.1.span) := by
    rw [← hall, map_span_cookAll]
    exact List.mem_map_of_mem (List.mem_filter.mpr ⟨hx, by rw [htrivia]; rfl⟩)
  obtain ⟨entry, hentry, heq⟩ := List.mem_map.mp hspan
  exact ⟨entry.1, List.mem_append_left _ (List.mem_map_of_mem hentry), heq⟩

theorem follows_cooked (hcuts : Cuts text pieces)
    (hcooked : cooked ++ [(token, diagnostics)] <+: cookAll 0 1 pieces)
    (hstop : token.span.stop = t.position) (hgoes : token.isEnd = false) :
    Follows text (pieces.map Piece.toLexeme) (delivered text cooked 0) token t := by
  have hordered : (delivered text cooked 0 ++ delivered text [(token, diagnostics)] 0).Pairwise
      fun a b => a.span.stop ≤ b.span.start := by
    rw [delivered_append (.inl rfl)]
    exact delivered_ordered hcuts hcooked
  have hmem : (token, diagnostics) ∈ cookAll 0 1 pieces :=
    hcooked.subset (List.mem_append_right cooked (List.mem_singleton.mpr rfl))
  obtain ⟨x, _, hlies, hcook⟩ := exists_placed hcuts hmem
  refine ⟨fun _ => ⟨?_, ?_, hstop⟩, fun hend => absurd (hgoes.symm.trans hend) Bool.false_ne_true⟩
  · intro before hbefore
    exact (List.pairwise_append.mp hordered).2.2 before hbefore token (List.mem_singleton.mpr rfl)
  · rw [span_of_cookAt hcook]
    exact hlies.start_lt

/-- While a draw still gives a token of the text, fewer tokens have been handed out than the text
has bytes. -/
theorem Delivers.length_lt {t'' : TokenStream} {left : List Piece} (hcuts : Cuts text pieces)
    (h : (ofBytes text).Delivers text pieces cooked ends t rest)
    (h' : t.Delivers text rest [(token, diagnostics)] 0 t'' left) :
    (delivered text cooked ends).length < text.length := by
  obtain rfl : ends = 0 := (h.nothing_after_end h').resolve_right (List.cons_ne_nil _ _)
  have hmore := (h.trans h').isPrefix.length_le
  have hbound := length_cookAll_le hcuts
  rw [List.length_append, List.length_singleton] at hmore
  rw [delivered, List.replicate_zero, List.append_nil, List.length_map]
  omega

/-- Reading a text comes to an end and leaves no gap. Its lexemes are not empty and fill it, a
reader finds the end at the end of the text and nowhere before, and a stream hands out tokens one
behind the other and, after as many draws as the text has bytes, the end of the text. -/
theorem scan_tiles (htext : text.length + 1 < Offset.limit) :
    ∃ found, lexemes text = .ok found ∧ (∀ x ∈ found, 0 < x.length) ∧
      (found.map Lexeme.length).sum = text.length ∧
      (∀ offset, ∃ x, ((Source.ofBytes text).readerAt offset).next =
          .ok (x, (Source.ofBytes text).readerAt (offset + x.length)) ∧
        (x.category = .endOfText ↔ text.length ≤ offset) ∧
        (x.length = 0 ↔ text.length ≤ offset)) ∧
      ∀ requests, ∃ responses t token t',
        (ofBytes text).session requests = .ok (responses, t) ∧ t.next = .ok (token, t') ∧
          Follows text found (responses.flatMap Response.handed) token t' ∧
          (text.length ≤ requests.count .next → token.isEnd = true) := by
  have hlimit : text.length < Offset.limit := by omega
  obtain ⟨pieces, hcuts⟩ := exists_cuts hlimit
  refine ⟨_, lexemes_eq hlimit hcuts, hcuts.length_pos, hcuts.sum_length,
    Reader.next_end_iff hlimit, ?_⟩
  intro requests
  obtain ⟨responses, t, rest, cooked, ends, hsession, hhanded, hdelivers⟩ :=
    session_ofBytes htext hcuts requests
  obtain ⟨token, t', left, hnext, hcase⟩ := hdelivers.faces.next_delivers
  refine ⟨responses, t, token, t', hsession, hnext, ?_⟩
  rw [hhanded]
  rcases hcase with ⟨rfl, hlater⟩ | ⟨diagnostics, hgoes, hstop, hlater⟩
  · obtain rfl : left = [] := hlater.ended.resolve_left Nat.one_ne_zero
    have hall := hdelivers.trans hlater
    rw [List.append_nil] at hall
    exact ⟨follows_end hall ends, fun _ => rfl⟩
  · obtain rfl : ends = 0 :=
      (hdelivers.nothing_after_end hlater).resolve_right (List.cons_ne_nil _ _)
    have hcount := count_next_le hsession
    have hlength := hdelivers.length_lt hcuts hlater
    rw [hhanded] at hcount
    refine ⟨follows_cooked hcuts (hdelivers.trans hlater).isPrefix hstop hgoes, ?_⟩
    intro henough
    omega

/-- A zero byte between two others, which ends the text no more than they do. -/
theorem scan_tiles_zero :
    let text : Bytes := [0x61, 0x00, 0x62]
    text.length + 1 < Offset.limit ∧
      ∃ found, lexemes text = .ok found ∧ (∀ x ∈ found, 0 < x.length) ∧
        (found.map Lexeme.length).sum = text.length ∧
        (∀ offset, ∃ x, ((Source.ofBytes text).readerAt offset).next =
            .ok (x, (Source.ofBytes text).readerAt (offset + x.length)) ∧
          (x.category = .endOfText ↔ text.length ≤ offset) ∧
          (x.length = 0 ↔ text.length ≤ offset)) ∧
        ∀ requests, ∃ responses t token t',
          (ofBytes text).session requests = .ok (responses, t) ∧ t.next = .ok (token, t') ∧
            Follows text found (responses.flatMap Response.handed) token t' ∧
            (text.length ≤ requests.count .next → token.isEnd = true) :=
  ⟨by decide, scan_tiles (by decide)⟩

end TokenStream

end IdlLexis
