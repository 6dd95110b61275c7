import IdlLexis.Proofs.TokenStream.Safety
/-!
A stream refines one uninterrupted reading of its text. Lay the lexemes of the text end to end,
drop those that only separate tokens, and cook each of the others where it lies: these are the
tokens and the diagnostics that the stream gives, although it reads each lexeme afresh.
-/

namespace IdlLexis

namespace Lexeme

/-- A lexeme's category and the offsets between which it lies. -/
structure Placed where
  category : Category
  span : Span

namespace Placed

def isTrivia (x : Placed) : Bool := x.category.isTrivia

/-- The lexemes end to end from an offset on. -/
def row (offset : Nat) : List Lexeme → List Placed
  | [] => []
  | x :: rest => ⟨x.category, offset, offset + x.length⟩ :: row (offset + x.length) rest

variable {p : Piece} {offset : Nat} {pieces : List Piece}

theorem row_cons (offset : Nat) (p : Piece) (pieces : List Piece) :
    row offset ((p :: pieces).map Piece.toLexeme) =
      ⟨p.category, offset, offset + p.bytes.length⟩ ::
        row (offset + p.bytes.length) (pieces.map Piece.toLexeme) := rfl

theorem kept_of_trivia (h : p.category.isTrivia = true) :
    (row offset ((p :: pieces).map Piece.toLexeme)).filter (!·.isTrivia) =
      (row (offset + p.bytes.length) (pieces.map Piece.toLexeme)).filter (!·.isTrivia) := by
  rw [row_cons, List.filter_cons_of_neg (by simp [isTrivia, h])]

theorem kept_of_token (h : p.category.isTrivia = false) :
    (row offset ((p :: pieces).map Piece.toLexeme)).filter (!·.isTrivia) =
      ⟨p.category, offset, offset + p.bytes.length⟩ ::
        (row (offset + p.bytes.length) (pieces.map Piece.toLexeme)).filter (!·.isTrivia) := by
  rw [row_cons, List.filter_cons_of_pos (by simp [isTrivia, h])]

end Placed

end Lexeme

open Lexeme (Cuts Piece Placed)

/-! Spans that lie end to end cover what lies between the first offset and the last. -/

namespace Span

def Tiles : Nat → List Span → Nat → Prop
  | start, [], stop => start = stop
  | start, s :: rest, stop => s.start = start ∧ s.start ≤ s.stop ∧ Tiles s.stop rest stop

variable {start middle stop : Nat} {spans more : List Span}

theorem Tiles.le (h : Tiles start spans stop) : start ≤ stop := by
  induction spans generalizing start with
  | nil => exact Nat.le_of_eq h
  | cons s spans ih =>
      obtain ⟨rfl, hle, htiles⟩ := h
      exact Nat.le_trans hle (ih htiles)

theorem Tiles.append (h : Tiles start spans middle) (hmore : Tiles middle more stop) :
    Tiles start (spans ++ more) stop := by
  induction spans generalizing start with
  | nil =>
      obtain rfl : start = middle := h
      exact hmore
  | cons s spans ih =>
      obtain ⟨hstart, hle, htiles⟩ := h
      exact ⟨hstart, hle, ih htiles⟩

theorem bytes_append (text : Bytes) (hstart : start ≤ middle) (hmiddle : middle ≤ stop) :
    bytes ⟨start, middle⟩ text ++ bytes ⟨middle, stop⟩ text = bytes ⟨start, stop⟩ text := by
  have hfront : text.take middle = (text.take stop).take middle := by
    rw [List.take_take, Nat.min_eq_left hmiddle]
  have hback : (text.take stop).drop middle =
      ((text.take stop).drop start).drop (middle - start) := by
    rw [List.drop_drop, Nat.add_sub_cancel' hstart]
  rw [bytes, bytes, bytes, hfront, hback, List.drop_take, List.take_append_drop]

theorem Tiles.flatMap_bytes (h : Tiles start spans stop) (text : Bytes) :
    spans.flatMap (bytes · text) = bytes ⟨start, stop⟩ text := by
  induction spans generalizing start with
  | nil =>
      obtain rfl : start = stop := h
      rw [List.flatMap_nil, bytes, List.drop_eq_nil_of_le (List.length_take_le ..)]
  | cons s spans ih =>
      obtain ⟨rfl, hle, htiles⟩ := h
      rw [List.flatMap_cons, ih htiles]
      exact bytes_append text hle htiles.le

end Span

namespace TokenStream

/-- The line on which an offset lies. -/
def lineAt (text : Bytes) (offset : Nat) : Nat := 1 + newlines (text.take offset)

/-- Cooks a lexeme from its own category, bytes, offset and line. -/
def cookAt (text : Bytes) (x : Placed) : Option (Token × List Diagnostic) :=
  (Token.meaning x.category (x.span.bytes text)).map
    (Token.ofReading x.span (lineAt text x.span.start))

/-- What lies before, between and after tokens, from an offset up to the end of their text. -/
def gaps (offset stop : Nat) : List Token → List Span
  | [] => [⟨offset, stop⟩]
  | token :: rest => ⟨offset, token.span.start⟩ :: gaps token.span.stop stop rest

variable {text : Bytes} {pieces : List Piece}

/-! The pieces of a text, cooked one after another, are its lexemes cooked where they lie. -/

theorem cookAt_front (passed left : Bytes) (p : Piece) :
    cookAt (passed ++ (p.bytes ++ left))
        ⟨p.category, passed.length, passed.length + p.bytes.length⟩ =
      (Token.meaning p.category p.bytes).map
        (Token.ofReading ⟨passed.length, passed.length + p.bytes.length⟩
          (1 + newlines passed)) := by
  rw [cookAt, Span.bytes_front, lineAt, List.take_left]

theorem map_cookAt_row (passed : Bytes) (pieces : List Piece) :
    ((Placed.row passed.length (pieces.map Piece.toLexeme)).filter (!·.isTrivia)).map
        (cookAt (passed ++ pieces.flatMap Piece.bytes)) =
      (cookAll passed.length (1 + newlines passed) pieces).map some := by
  induction pieces generalizing passed with
  | nil => rfl
  | cons p pieces ih =>
      have hnext := ih (passed ++ p.bytes)
      rw [List.length_append, newlines_append, List.append_assoc, ← Nat.add_assoc] at hnext
      rw [List.flatMap_cons]
      cases hmeaning : Token.meaning p.category p.bytes with
      | none =>
          have htrivia := (Token.meaning_eq_none_iff _ _).mp hmeaning
          rw [cookAll_of_none hmeaning, Placed.kept_of_trivia htrivia]
          exact hnext
      | some reading =>
          have hcook := cookAt_front passed (pieces.flatMap Piece.bytes) p
          rw [hmeaning, Option.map_some] at hcook
          rw [cookAll_of_some hmeaning, Placed.kept_of_token (isTrivia_eq_false hmeaning),
            List.map_cons, List.map_cons, hcook, hnext]

theorem map_span_cookAll (offset line : Nat) (pieces : List Piece) :
    (cookAll offset line pieces).map (·.1.span) =
      ((Placed.row offset (pieces.map Piece.toLexeme)).filter (!·.isTrivia)).map Placed.span := by
  induction pieces generalizing offset line with
  | nil => rfl
  | cons p pieces ih =>
      cases hmeaning : Token.meaning p.category p.bytes with
      | none =>
          have htrivia := (Token.meaning_eq_none_iff _ _).mp hmeaning
          rw [cookAll_of_none hmeaning, Placed.kept_of_trivia htrivia, ih]
      | some reading =>
          rw [cookAll_of_some hmeaning, Placed.kept_of_token (isTrivia_eq_false hmeaning),
            List.map_cons, List.map_cons, ih, Token.span_ofReading]

/-! Between two tokens lie separators, end to end. -/

/-- Separators of the row lie end to end over the span. -/
def Separated (row : List Placed) (gap : Span) : Prop :=
  ∃ run, run <:+: row ∧ (∀ x ∈ run, x.isTrivia = true) ∧
    Span.Tiles gap.start (run.map Placed.span) gap.stop

theorem gaps_separated (run : List Placed) (start offset line : Nat) {stop : Nat}
    (hrun : ∀ x ∈ run, x.isTrivia = true) (htiles : Span.Tiles start (run.map Placed.span) offset)
    (hstop : stop = offset + (pieces.flatMap Piece.bytes).length) :
    ∀ gap ∈ gaps start stop ((cookAll offset line pieces).map Prod.fst),
      Separated (run ++ Placed.row offset (pieces.map Piece.toLexeme)) gap := by
  induction pieces generalizing run start offset line with
  | nil =>
      intro gap hgap
      obtain rfl : stop = offset := hstop
      rw [List.mem_singleton.mp hgap]
      exact ⟨run, (List.prefix_append run _).isInfix, hrun, htiles⟩
  | cons p pieces ih =>
      rw [List.flatMap_cons, List.length_append, ← Nat.add_assoc] at hstop
      let x : Placed := ⟨p.category, offset, offset + p.bytes.length⟩
      have hx : Span.Tiles offset ([x].map Placed.span) (offset + p.bytes.length) :=
        ⟨rfl, Nat.le_add_right .., rfl⟩
      cases hmeaning : Token.meaning p.category p.bytes with
      | none =>
          have htrivia := (Token.meaning_eq_none_iff _ _).mp hmeaning
          have hlonger : ∀ y ∈ run ++ [x], y.isTrivia = true :=
            List.forall_mem_append.mpr ⟨hrun, List.forall_mem_singleton.mpr htrivia⟩
          have htiled : Span.Tiles start ((run ++ [x]).map Placed.span)
              (offset + p.bytes.length) := by
            rw [List.map_append]
            exact htiles.append hx
          have hgaps := ih _ _ _ (line + newlines p.bytes) hlonger htiled hstop
          rw [List.append_assoc] at hgaps
          rw [cookAll_of_none hmeaning]
          exact hgaps
      | some reading =>
          rw [cookAll_of_some hmeaning, List.map_cons]
          intro gap hgap
          rcases List.mem_cons.mp hgap with rfl | hgap
          · rw [Token.span_ofReading]
            exact ⟨run, (List.prefix_append run _).isInfix, hrun, htiles⟩
          · rw [Token.span_ofReading] at hgap
            obtain ⟨found, hfound, htrivia, htiled⟩ :=
              ih [] _ _ _ (by simp) rfl hstop gap hgap
            refine ⟨found, hfound.trans ?_, htrivia, htiled⟩
            exact ((List.suffix_cons x _).trans (List.suffix_append run _)).isInfix

theorem readTokens_of_cuts (htext : text.length + 1 < Offset.limit) (hcuts : Cuts text pieces) :
    readTokens text =
      .ok ((cookAll 0 1 pieces).map Prod.fst, (cookAll 0 1 pieces).flatMap Prod.snd) := by
  obtain ⟨last, htokens, hlog, _⟩ := (faces_ofBytes_of_lt htext hcuts).tokens
  rw [readTokens, htokens, Fault.ok_bind]
  dsimp only
  rw [hlog]
  rfl

/-- The tokens and the diagnostics of a text are its lexemes laid end to end, without separators,
each cooked on its own. Tokens lie where these lexemes lie, and separators fill the gaps. -/
structure Refines (text : Bytes) (found : List Lexeme) (tokens : List Token)
    (diagnostics : List Diagnostic) (cooked : List (Token × List Diagnostic)) : Prop where
  lexemes_eq : lexemes text = .ok found
  readTokens_eq : readTokens text = .ok (tokens, diagnostics)
  cooked_eq :
    ((Placed.row 0 found).filter (!·.isTrivia)).map (cookAt text) = cooked.map some
  tokens_eq : tokens = cooked.map Prod.fst
  diagnostics_eq : diagnostics = cooked.flatMap Prod.snd
  spans_eq :
    tokens.map Token.span = ((Placed.row 0 found).filter (!·.isTrivia)).map Placed.span
  gaps_filled : ∀ gap ∈ gaps 0 text.length tokens, ∃ run, run <:+: Placed.row 0 found ∧
    (∀ x ∈ run, x.isTrivia = true) ∧ Span.Tiles gap.start (run.map Placed.span) gap.stop ∧
    run.flatMap (·.span.bytes text) = gap.bytes text

theorem readTokens_refines (htext : text.length + 1 < Offset.limit) :
    ∃ found tokens diagnostics cooked, Refines text found tokens diagnostics cooked := by
  have hlimit : text.length < Offset.limit := by omega
  obtain ⟨pieces, hcuts⟩ := exists_cuts hlimit
  refine ⟨_, _, _, cookAll 0 1 pieces, lexemes_eq hlimit hcuts, readTokens_of_cuts htext hcuts,
    ?_, rfl, rfl, ?_, ?_⟩
  · have hrow := map_cookAt_row [] pieces
    rw [List.nil_append, hcuts.flatMap_bytes] at hrow
    exact hrow
  · rw [List.map_map]
    exact map_span_cookAll 0 1 pieces
  · intro gap hgap
    have hlength : text.length = 0 + (pieces.flatMap Piece.bytes).length := by
      rw [hcuts.flatMap_bytes, Nat.zero_add]
    obtain ⟨run, hrun, htrivia, htiles⟩ :=
      gaps_separated [] 0 0 1 (by simp) rfl hlength gap hgap
    refine ⟨run, hrun, htrivia, htiles, ?_⟩
    rw [← htiles.flatMap_bytes text, List.flatMap_map]

/-- A word, a comment that ends its line, and an open quote on the next line. -/
theorem readTokens_refines_open_quote :
    let text : Bytes := [0x61, 0x20, 0x23, 0x0a, 0x22, 0x62]
    text.length + 1 < Offset.limit ∧
      ∃ found tokens diagnostics cooked, Refines text found tokens diagnostics cooked :=
  ⟨by decide, readTokens_refines (by decide)⟩

end TokenStream

end IdlLexis
