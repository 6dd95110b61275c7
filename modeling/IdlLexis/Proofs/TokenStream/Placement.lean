import IdlLexis.Proofs.TokenStream.Refinement
/-!
Where lexemes and tokens lie. Each lexeme of a text is the first one of what the text holds from
its start on, and a token lies where the lexeme that it was cooked from lies.
-/

namespace IdlLexis

open Lexeme (Category Cuts First Piece Placed)

namespace Lexeme

namespace Placed

variable {x : Placed} {category : Category} {front left tail text : Bytes} {pieces : List Piece}

structure LiesIn (x : Placed) (text : Bytes) : Prop where
  first : First x.category (x.span.bytes text) (text.drop x.span.start)
  start_lt : x.span.start < x.span.stop
  stop_le : x.span.stop ≤ text.length

theorem liesIn_front (passed : Bytes) (hfirst : First category front (front ++ tail)) :
    LiesIn ⟨category, passed.length, passed.length + front.length⟩
      (passed ++ (front ++ tail)) := by
  have hpos := List.length_pos_iff.mpr hfirst.ne_nil
  constructor
  · rw [Span.bytes_front, List.drop_left]
    exact hfirst
  · dsimp only
    omega
  · rw [List.length_append, List.length_append]
    dsimp only
    omega

theorem liesIn_row (hcuts : Cuts left pieces) (passed : Bytes) :
    ∀ x ∈ row passed.length (pieces.map Piece.toLexeme), x.LiesIn (passed ++ left) := by
  induction hcuts generalizing passed with
  | nil =>
      intro x hx
      cases hx
  | @cons category front tail pieces hfirst _ ih =>
      have hrest := ih (passed ++ front)
      rw [List.length_append, List.append_assoc] at hrest
      rw [row_cons]
      exact List.forall_mem_cons.mpr ⟨liesIn_front passed hfirst, hrest⟩

theorem LiesIn.length_bytes (h : x.LiesIn text) :
    (x.span.bytes text).length = x.span.stop - x.span.start := by
  rw [Span.bytes, List.length_drop, List.length_take, Nat.min_eq_left h.stop_le]

/-- Where a lexeme starts says which one it is. -/
theorem LiesIn.unique {y : Placed} (hx : x.LiesIn text) (hy : y.LiesIn text)
    (hstart : x.span.start = y.span.start) : x = y := by
  have hxlt := hx.start_lt
  have hylt := hy.start_lt
  have hfirst := hy.first
  rw [← hstart] at hfirst
  obtain ⟨hcategory, hbytes⟩ := first_unique hx.first hfirst
  have hlength := congrArg List.length hbytes
  rw [hx.length_bytes, hy.length_bytes] at hlength
  have hstop : x.span.stop = y.span.stop := by omega
  obtain ⟨category, start, stop⟩ := x
  obtain ⟨category', start', stop'⟩ := y
  dsimp only at hstart hcategory hstop
  rw [hcategory, hstart, hstop]

/-- A comment that is left open takes all that is left of its text. -/
theorem LiesIn.stop_openComment (h : x.LiesIn text) (hx : x.category = .openComment) :
    x.span.stop = text.length := by
  have hfirst := h.first
  rw [hx] at hfirst
  have hlength := h.length_bytes
  rw [hfirst.openComment, List.length_drop] at hlength
  have hlt := h.start_lt
  have hle := h.stop_le
  omega

theorem le_start_row (offset : Nat) (found : List Lexeme) :
    ∀ x ∈ row offset found, offset ≤ x.span.start := by
  induction found generalizing offset with
  | nil =>
      intro x hx
      cases hx
  | cons x found ih =>
      refine List.forall_mem_cons.mpr ⟨Nat.le_refl _, ?_⟩
      intro y hy
      exact Nat.le_trans (Nat.le_add_right ..) (ih _ y hy)

theorem length_row (offset : Nat) (found : List Lexeme) :
    (row offset found).length = found.length := by
  induction found generalizing offset with
  | nil => rfl
  | cons x found ih => rw [row, List.length_cons, List.length_cons, ih]

theorem row_ordered (offset : Nat) (found : List Lexeme) :
    (row offset found).Pairwise fun x y => x.span.stop ≤ y.span.start := by
  induction found generalizing offset with
  | nil => exact .nil
  | cons x found ih => exact .cons (le_start_row (offset + x.length) found) (ih _)

end Placed

end Lexeme

namespace Reader

variable {text : Bytes} {offset : Nat}

theorem faces_ofBytes (htext : text.length < Offset.limit) (offset : Nat) :
    ((Source.ofBytes text).readerAt offset).Faces (text.drop offset) := by
  have hfaces := faces_readerAt (Source.ofBytes text) offset
  rwa [Source.bytes_ofBytes_of_lt htext] at hfaces

/-- In the text a reader takes a lexeme that lies in it, and moves on to where that stops. -/
theorem next_liesIn (htext : text.length < Offset.limit) (hoffset : offset < text.length) :
    ∃ x, ((Source.ofBytes text).readerAt offset).next =
        .ok (x, (Source.ofBytes text).readerAt (offset + x.length)) ∧
      Placed.LiesIn ⟨x.category, offset, offset + x.length⟩ text := by
  have hfaces := faces_ofBytes htext offset
  have hne : text.drop offset ≠ [] := mt List.drop_eq_nil_iff.mp (by omega)
  obtain ⟨category, front, tail, hdrop, hfirst⟩ := hfaces.exists_first hne
  have hlies := Placed.liesIn_front (text.take offset) hfirst
  rw [← hdrop, List.take_append_drop, List.length_take, Nat.min_eq_left (by omega)] at hlies
  have hstop : offset + front.length ≤ (Source.ofBytes text).length := by
    rw [Source.length_ofBytes_of_lt htext]
    exact hlies.stop_le
  rw [hdrop] at hfaces
  refine ⟨⟨category, front.length⟩, ?_, hlies⟩
  rw [hfaces.next_of_first hfirst, readerAt_after hstop]

/-- From the end of the text on a reader takes the end of the text, and stays. -/
theorem next_end (htext : text.length < Offset.limit) (hoffset : text.length ≤ offset) :
    ((Source.ofBytes text).readerAt offset).next =
      .ok (⟨.endOfText, 0⟩, (Source.ofBytes text).readerAt offset) := by
  have hfaces := faces_ofBytes htext offset
  rw [List.drop_eq_nil_of_le hoffset] at hfaces
  exact hfaces.next_nil

end Reader

namespace TokenStream

variable {text : Bytes} {pieces : List Piece} {x : Placed} {token : Token}
  {diagnostics : List Diagnostic}

theorem span_of_cookAt (h : cookAt text x = some (token, diagnostics)) : token.span = x.span := by
  obtain ⟨reading, _, hreading⟩ := Option.map_eq_some_iff.mp h
  rw [← Token.span_ofReading x.span (lineAt text x.span.start) reading, hreading]

/-- Every cooked token comes from a lexeme of the text, cooked where it lies. -/
theorem exists_placed (hcuts : Cuts text pieces)
    (hcooked : (token, diagnostics) ∈ cookAll 0 1 pieces) :
    ∃ x ∈ Placed.row 0 (pieces.map Piece.toLexeme), x.LiesIn text ∧
      cookAt text x = some (token, diagnostics) := by
  have hrow := map_cookAt_row [] pieces
  rw [List.nil_append, hcuts.flatMap_bytes] at hrow
  have hmem : some (token, diagnostics) ∈ (cookAll 0 1 pieces).map some :=
    List.mem_map_of_mem hcooked
  change _ = (cookAll 0 1 pieces).map some at hrow
  rw [← hrow] at hmem
  obtain ⟨x, hx, hcook⟩ := List.mem_map.mp hmem
  have hplaced := (List.mem_filter.mp hx).1
  exact ⟨x, hplaced, Placed.liesIn_row hcuts [] x hplaced, hcook⟩

theorem cookAll_ordered (pieces : List Piece) :
    (cookAll 0 1 pieces).Pairwise fun a b => a.1.span.stop ≤ b.1.span.start := by
  have hrow := (Placed.row_ordered 0 (pieces.map Piece.toLexeme)).filter (!·.isTrivia)
  have hspans : (((Placed.row 0 (pieces.map Piece.toLexeme)).filter (!·.isTrivia)).map
      Placed.span).Pairwise fun a b => a.stop ≤ b.start := List.pairwise_map.mpr hrow
  rw [← map_span_cookAll 0 1 pieces] at hspans
  exact List.pairwise_map.mp hspans

theorem length_cookAll_le (hcuts : Cuts text pieces) :
    (cookAll 0 1 pieces).length ≤ text.length := by
  have hspans := congrArg List.length (map_span_cookAll 0 1 pieces)
  have hrow := List.length_filter_le (!·.isTrivia) (Placed.row 0 (pieces.map Piece.toLexeme))
  rw [List.length_map, List.length_map] at hspans
  rw [Placed.length_row, List.length_map] at hrow
  exact hspans ▸ Nat.le_trans hrow hcuts.length_le

theorem Delivers.isPrefix {t : TokenStream} {rest : List Piece}
    {cooked : List (Token × List Diagnostic)} {ends : Nat}
    (h : (ofBytes text).Delivers text pieces cooked ends t rest) : cooked <+: cookAll 0 1 pieces :=
  ⟨_, h.cooked_eq.symm⟩

theorem session_ofBytes (htext : text.length + 1 < Offset.limit) (hcuts : Cuts text pieces)
    (requests : List Request) :
    ∃ responses t rest cooked ends, (ofBytes text).session requests = .ok (responses, t) ∧
      responses.flatMap Response.handed = delivered text cooked ends ∧
      (ofBytes text).Delivers text pieces cooked ends t rest :=
  (faces_ofBytes_of_lt htext hcuts).session_delivers requests

/-! What a stream delivers from the beginning of its text on lies in the text in this order. -/

variable {cooked : List (Token × List Diagnostic)} {ends : Nat}

theorem mem_delivered (hcuts : Cuts text pieces) (hcooked : cooked <+: cookAll 0 1 pieces)
    (htoken : token ∈ delivered text cooked ends) :
    token = endOf text ∨ ∃ diagnostics, ∃ x ∈ Placed.row 0 (pieces.map Piece.toLexeme),
      x.LiesIn text ∧ cookAt text x = some (token, diagnostics) := by
  rcases List.mem_append.mp htoken with hfront | hend
  · obtain ⟨⟨_, diagnostics⟩, hmem, rfl⟩ := List.mem_map.mp hfront
    exact .inr ⟨diagnostics, exists_placed hcuts (hcooked.subset hmem)⟩
  · exact .inl (List.eq_of_mem_replicate hend)

theorem delivered_ordered (hcuts : Cuts text pieces) (hcooked : cooked <+: cookAll 0 1 pieces) :
    (delivered text cooked ends).Pairwise fun a b => a.span.stop ≤ b.span.start := by
  refine List.pairwise_append.mpr ⟨?_, ?_, ?_⟩
  · exact List.pairwise_map.mpr ((cookAll_ordered pieces).sublist hcooked.sublist)
  · exact List.pairwise_replicate.mpr (.inr (Nat.le_refl _))
  · intro a ha b hb
    obtain ⟨⟨_, diagnostics⟩, hmem, rfl⟩ := List.mem_map.mp ha
    obtain ⟨x, _, hlies, hcook⟩ := exists_placed hcuts (hcooked.subset hmem)
    rw [List.eq_of_mem_replicate hb, span_of_cookAt hcook]
    exact hlies.stop_le

end TokenStream

end IdlLexis
