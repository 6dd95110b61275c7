import IdlLexis.Proofs.Lexeme.Lookahead
import IdlLexis.Proofs.RoundTrip
import IdlLexis.Proofs.TokenStream.Placement
/-!
A text can be written anew from what its tokens cover, each on lines of its own. The lexemes of
that text are those of the old one that are more than separators, with line feeds between them. So
it reads as the same tokens and complaints, whatever stood between or beside the tokens before, and
to write it anew once more changes nothing.
-/

namespace IdlLexis

open Lexeme (Category Cuts First Piece Placed)

namespace Lexeme

variable {category : Category} {front tail text : Bytes} {pieces : List Piece}

/-! A lexeme is the same lexeme by itself, and before a line feed unless it is a comment left
open. -/

theorem First.alone (h : First category front (front ++ tail)) :
    First category front (front ++ []) := by
  by_cases hcategory : category = .openComment
  · subst hcategory
    rw [← h.openComment] at h
    rwa [List.append_nil]
  · exact h.of_nearby hcategory List.nil_prefix

theorem First.before_line (h : First category front (front ++ tail))
    (hcategory : category ≠ .openComment) (more : Bytes) :
    First category front (front ++ Byte.lineFeed :: more) := by
  apply h.of_nearby hcategory
  rw [nearby_lineFeed]
  exact List.nil_prefix

theorem Cuts.singleton (h : First category front (front ++ [])) :
    Cuts front [⟨category, front⟩] := by
  have hcuts := Cuts.cons h .nil
  rwa [List.append_nil] at hcuts

/-! The pieces of a text that are more than separators. -/

def kept (pieces : List Piece) : List Piece := pieces.filter (!·.category.isTrivia)

theorem kept_cons_of_trivia {p : Piece} (h : p.category.isTrivia = true) :
    kept (p :: pieces) = kept pieces := List.filter_cons_of_neg (by simp [h])

theorem kept_cons_of_token {p : Piece} (h : p.category.isTrivia = false) :
    kept (p :: pieces) = p :: kept pieces := List.filter_cons_of_pos (by simp [h])

theorem kept_intersperse (pieces : List Piece) :
    kept ((kept pieces).intersperse lineFeed) = kept pieces := by
  have hall : ∀ p ∈ kept pieces, p.category.isTrivia = false := by
    intro p hp
    simpa using (List.mem_filter.mp hp).2
  generalize kept pieces = lasting at hall
  fun_induction List.intersperse lineFeed lasting with
  | case1 => rfl
  | case2 p => exact kept_cons_of_token (hall p (by simp))
  | case3 p q rest ih =>
      obtain ⟨hp, hrest⟩ := List.forall_mem_cons.mp hall
      rw [kept_cons_of_token hp, kept_cons_of_trivia rfl, ih hrest]

theorem meanings_kept (pieces : List Piece) :
    (kept pieces).filterMap Piece.meaning = pieces.filterMap Piece.meaning := by
  induction pieces with
  | nil => rfl
  | cons p pieces ih =>
      cases htrivia : p.category.isTrivia with
      | true =>
          have hnone : p.meaning = none := (Token.meaning_eq_none_iff _ _).mpr htrivia
          rw [kept_cons_of_trivia htrivia, List.filterMap_cons_none hnone, ih]
      | false => rw [kept_cons_of_token htrivia, List.filterMap_cons, List.filterMap_cons, ih]

theorem Cuts.apart (h : Cuts text pieces) :
    Cuts ([Byte.lineFeed].intercalate ((kept pieces).map Piece.bytes))
      ((kept pieces).intersperse lineFeed) := by
  induction h with
  | nil => exact .nil
  | @cons category front tail pieces hfirst htail ih =>
      cases htrivia : category.isTrivia with
      | true =>
          rw [kept_cons_of_trivia htrivia]
          exact ih
      | false =>
          rw [kept_cons_of_token htrivia]
          cases hkept : kept pieces with
          | nil =>
              rw [List.map_singleton, List.intercalate_singleton]
              exact .singleton hfirst.alone
          | cons q rest =>
              have hcategory : category ≠ .openComment := by
                rintro rfl
                obtain rfl : tail = [] := List.self_eq_append_right.mp hfirst.openComment
                obtain rfl := htail.unique .nil
                contradiction
              rw [hkept] at ih
              rw [List.map_cons, List.map_cons, List.intercalate_cons_cons,
                List.intersperse_cons_cons, List.append_assoc, List.singleton_append]
              exact .cons (hfirst.before_line hcategory _) ih.after_lineFeed

/-! A placed lexeme with the bytes that it covers is a piece again. -/

def Placed.piece (text : Bytes) (x : Placed) : Piece := ⟨x.category, x.span.bytes text⟩

theorem Placed.map_piece_row (passed : Bytes) (pieces : List Piece) :
    (row passed.length (pieces.map Piece.toLexeme)).map
        (piece (passed ++ pieces.flatMap Piece.bytes)) = pieces := by
  induction pieces generalizing passed with
  | nil => rfl
  | cons p pieces ih =>
      have hrest := ih (passed ++ p.bytes)
      rw [List.length_append, List.append_assoc] at hrest
      rw [row_cons, List.map_cons, List.flatMap_cons, hrest, piece, Span.bytes_front]

theorem Cuts.map_bytes_kept (h : Cuts text pieces) :
    ((Placed.row 0 (pieces.map Piece.toLexeme)).filter (!·.isTrivia)).map (·.span.bytes text) =
      (kept pieces).map Piece.bytes := by
  have hrow := Placed.map_piece_row [] pieces
  rw [List.nil_append, h.flatMap_bytes, List.length_nil] at hrow
  have hkept := congrArg (fun found => (kept found).map Piece.bytes) hrow
  rw [← hkept, kept, List.filter_map, List.map_map]
  rfl

end Lexeme

open Lexeme (kept kept_intersperse meanings_kept)

namespace TokenStream

variable {text : Bytes} {pieces : List Piece}

/-- What the tokens cover of the text, with a line feed between any two of them. -/
def apart (text : Bytes) (tokens : List Token) : Bytes :=
  [Byte.lineFeed].intercalate (tokens.map fun token => (ofBytes text).textOf token.span)

theorem textOf_ofBytes (htext : text.length < Offset.limit) (span : Span) :
    (ofBytes text).textOf span = span.bytes text := by
  rw [textOf, Source.textBetween_eq, ofBytes, Source.bytes_ofBytes_of_lt htext]

theorem apart_eq (htext : text.length < Offset.limit) (hcuts : Cuts text pieces) :
    apart text ((cookAll 0 1 pieces).map Prod.fst) =
      [Byte.lineFeed].intercalate ((kept pieces).map Piece.bytes) := by
  have hspans := congrArg (List.map (·.bytes text)) (map_span_cookAll 0 1 pieces)
  rw [List.map_map, List.map_map] at hspans
  rw [apart, ← hcuts.map_bytes_kept, List.map_map]
  congr 1
  simpa [textOf_ofBytes htext, Function.comp_def] using hspans

/-- A text written anew from its tokens reads as the same tokens, with the same complaints, and is
what it would be written as. -/
theorem readTokens_apart (htext : text.length + 1 < Offset.limit) :
    ∃ tokens diagnostics, readTokens text = .ok (tokens, diagnostics) ∧
      ((apart text tokens).length + 1 < Offset.limit →
        ∃ again reports, readTokens (apart text tokens) = .ok (again, reports) ∧
          again.map Token.kind = tokens.map Token.kind ∧
          reports.map Diagnostic.complaint = diagnostics.map Diagnostic.complaint ∧
          apart (apart text tokens) again = apart text tokens) := by
  have hlimit : text.length < Offset.limit := by omega
  obtain ⟨pieces, hcuts⟩ := exists_cuts hlimit
  refine ⟨_, _, readTokens_of_cuts htext hcuts, ?_⟩
  rw [apart_eq hlimit hcuts]
  intro hapart
  have hlines := hcuts.apart
  have hmeanings : ((kept pieces).intersperse Lexeme.lineFeed).filterMap Piece.meaning =
      pieces.filterMap Piece.meaning := by
    rw [← meanings_kept, kept_intersperse, meanings_kept]
  refine ⟨_, _, readTokens_of_cuts hapart hlines, ?_, ?_, ?_⟩
  · have hkinds := kinds_cookAll 0 1 ((kept pieces).intersperse Lexeme.lineFeed)
    rw [hmeanings, ← kinds_cookAll 0 1] at hkinds
    rw [List.map_map, List.map_map]
    exact hkinds
  · rw [complaints_cookAll, complaints_cookAll, hmeanings]
  · rw [apart_eq (by omega) hlines, kept_intersperse]

/-- The text `0xg/**/1.5e"` is written anew as `0`, `xg`, `1.5`, `e` and an open quote. -/
theorem readTokens_apart_open_quote :
    let text : Bytes := [0x30, 0x78, 0x67, 0x2f, 0x2a, 0x2a, 0x2f, 0x31, 0x2e, 0x35, 0x65, 0x22]
    let lines : Bytes := [0x30, 0x0a, 0x78, 0x67, 0x0a, 0x31, 0x2e, 0x35, 0x0a, 0x65, 0x0a, 0x22]
    text.length + 1 < Offset.limit ∧ lines.length + 1 < Offset.limit ∧
      ∃ tokens diagnostics again reports, readTokens text = .ok (tokens, diagnostics) ∧
        apart text tokens = lines ∧ readTokens lines = .ok (again, reports) ∧
        again.map Token.kind = tokens.map Token.kind ∧
        reports.map Diagnostic.complaint = diagnostics.map Diagnostic.complaint ∧
        apart lines again = lines := by
  intro text lines
  have htext : text.length + 1 < Offset.limit := by decide
  obtain ⟨tokens, diagnostics, hread, hrest⟩ := readTokens_apart htext
  have hlines : (readTokens text).toOption.map (fun found => apart text found.1) = some lines := by
    decide +kernel
  rw [hread] at hlines
  have hapart : apart text tokens = lines := Option.some.inj hlines
  rw [hapart] at hrest
  obtain ⟨again, reports, hagain⟩ := hrest (by decide)
  exact ⟨htext, by decide, tokens, diagnostics, again, reports, hread, hapart, hagain⟩

end TokenStream

end IdlLexis
