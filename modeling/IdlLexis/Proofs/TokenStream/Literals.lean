import IdlLexis.Proofs.Literal.Agreement
import IdlLexis.Proofs.TokenStream.Placement
/-!
Literals of a text. Wherever a reader starts, a number or a quoted literal that it takes has the
form that decoding expects, so decoding complains about its value or not at all. What a stream
says about a quote that is left open therefore never comes from a literal.
-/

namespace IdlLexis

open Lexeme (Category Cuts First Piece Placed)

/-! What a complaint says about the lexeme that it is made of. -/

namespace Token

variable {category : Category} {front text : Bytes} {complaint : Complaint}

theorem Kind.ofLiteral_eq_error {α : Type} {make : α → Kind}
    {value : Except Literal.Failure α} (h : Kind.ofLiteral make value = .error complaint) :
    ∃ failure, value = .error failure ∧ complaint = ⟨failure.code, failure.message⟩ := by
  cases value with
  | ok value => contradiction
  | error failure =>
      cases h
      exact ⟨failure, rfl, rfl⟩

/-- A literal complains about its value, so of a quote or a comment that is left open nothing but
the lexeme for it complains. -/
theorem code_of_complaint (hfirst : First category front text)
    (hmeaning : meaning category front = some (.error complaint)) :
    (complaint.code = .openQuote → category = .openQuote) ∧
      (complaint.code = .openComment → category = .openComment) := by
  have hdecodes := hfirst.decodes
  have hliteral : complaint.code ∈ [Diagnostic.Code.integer, .real, .escape, .encoding] →
      (complaint.code = .openQuote → category = .openQuote) ∧
        (complaint.code = .openComment → category = .openComment) := by
    intro hmem
    constructor <;> intro hcode <;> rw [hcode] at hmem <;> exact absurd hmem (by decide)
  cases category with
  | integer | hexInteger =>
      obtain ⟨failure, hdecode, rfl⟩ := Kind.ofLiteral_eq_error (Option.some.inj hmeaning)
      obtain rfl := hdecodes.integer (by simp) failure hdecode
      exact hliteral (by simp [Literal.Failure.code])
  | real =>
      obtain ⟨failure, hdecode, rfl⟩ := Kind.ofLiteral_eq_error (Option.some.inj hmeaning)
      obtain rfl := hdecodes.real rfl failure hdecode
      exact hliteral (by simp [Literal.Failure.code])
  | quoted quote =>
      obtain ⟨failure, hdecode, rfl⟩ := Kind.ofLiteral_eq_error (Option.some.inj hmeaning)
      rcases hdecodes.quoted quote rfl failure hdecode with ⟨shown, rfl | rfl⟩ | rfl <;>
        exact hliteral (by simp [Literal.Failure.code])
  | strayByte | openQuote | openComment =>
      cases hmeaning
      constructor <;> intro hcode <;> first | rfl | contradiction
  | _ => cases hmeaning

end Token

namespace TokenStream

variable {t : TokenStream} {text : Bytes} {pieces rest : List Piece} {d : Diagnostic}
  {cooked : List (Token × List Diagnostic)} {ends : Nat}

/-- Each entry of the log comes from a lexeme of the text that means a complaint. -/
theorem Delivers.exists_complaint (hcuts : Cuts text pieces)
    (h : (ofBytes text).Delivers text pieces cooked ends t rest) (hd : d ∈ t.log.toList) :
    ∃ x ∈ Placed.row 0 (pieces.map Piece.toLexeme), x.LiesIn text ∧
      ∃ complaint, Token.meaning x.category (x.span.bytes text) = some (.error complaint) ∧
        d = ⟨complaint.code, lineAt text x.span.start, x.span.start, complaint.message⟩ := by
  rw [h.log_eq] at hd
  obtain ⟨⟨token, diagnostics⟩, hmem, hd⟩ := List.mem_flatMap.mp hd
  obtain ⟨x, hx, hlies, hcook⟩ := exists_placed hcuts (h.isPrefix.subset hmem)
  obtain ⟨reading, hmeaning, hreading⟩ := Option.map_eq_some_iff.mp hcook
  cases reading with
  | ok kind =>
      cases hreading
      cases hd
  | error complaint =>
      cases hreading
      exact ⟨x, hx, hlies, complaint, hmeaning, List.mem_singleton.mp hd⟩

theorem decodes_endOfText (text : Bytes) : Literal.Decodes .endOfText text := by
  refine ⟨?_, ?_, ?_⟩
  · intro hcategory
    rcases hcategory with h | h <;> contradiction
  · intro hcategory
    contradiction
  · intro quote hcategory
    contradiction

/-- Every literal that a scan of a text takes decodes, or fails by its value alone, and a
diagnostic of an open quote comes from a lexeme that is one. -/
theorem scan_decodes (htext : text.length + 1 < Offset.limit) :
    (∀ offset, ∃ x r, ((Source.ofBytes text).readerAt offset).next = .ok (x, r) ∧
      Literal.Decodes x.category (Span.bytes ⟨offset, offset + x.length⟩ text)) ∧
    ∃ found, lexemes text = .ok found ∧
      (∀ x ∈ Placed.row 0 found, Literal.Decodes x.category (x.span.bytes text)) ∧
      ∀ requests, ∃ responses t, (ofBytes text).session requests = .ok (responses, t) ∧
        ∀ d ∈ t.log.toList, d.code = .openQuote →
          ∃ x ∈ Placed.row 0 found, x.category = .openQuote ∧ x.span.start = d.offset := by
  have hlimit : text.length < Offset.limit := by omega
  obtain ⟨pieces, hcuts⟩ := exists_cuts hlimit
  refine ⟨?_, _, lexemes_eq hlimit hcuts, ?_, ?_⟩
  · intro offset
    by_cases hoffset : text.length ≤ offset
    · exact ⟨_, _, Reader.next_end hlimit hoffset, decodes_endOfText _⟩
    · obtain ⟨x, hnext, hlies⟩ := Reader.next_liesIn hlimit (Nat.lt_of_not_le hoffset)
      exact ⟨x, _, hnext, hlies.first.decodes⟩
  · intro x hx
    exact (Placed.liesIn_row hcuts [] x hx).first.decodes
  · intro requests
    obtain ⟨responses, t, rest, cooked, ends, hsession, _, hdelivers⟩ :=
      session_ofBytes htext hcuts requests
    refine ⟨responses, t, hsession, ?_⟩
    intro d hd hcode
    obtain ⟨x, hx, hlies, complaint, hmeaning, rfl⟩ := hdelivers.exists_complaint hcuts hd
    exact ⟨x, hx, (Token.code_of_complaint hlies.first hmeaning).1 hcode, rfl⟩

/-- A string that ends in an escaped backslash, an escape of too few digits, and a quote that a
backslash leaves open. -/
theorem scan_decodes_backslashes :
    let text : Bytes :=
      [0x22, 0x61, 0x5c, 0x5c, 0x22, 0x22, 0x5c, 0x78, 0x31, 0x22, 0x0a, 0x27, 0x5c, 0x27]
    text.length + 1 < Offset.limit ∧
      (∀ offset, ∃ x r, ((Source.ofBytes text).readerAt offset).next = .ok (x, r) ∧
        Literal.Decodes x.category (Span.bytes ⟨offset, offset + x.length⟩ text)) ∧
      ∃ found, lexemes text = .ok found ∧
        (∀ x ∈ Placed.row 0 found, Literal.Decodes x.category (x.span.bytes text)) ∧
        ∀ requests, ∃ responses t, (ofBytes text).session requests = .ok (responses, t) ∧
          ∀ d ∈ t.log.toList, d.code = .openQuote →
            ∃ x ∈ Placed.row 0 found, x.category = .openQuote ∧ x.span.start = d.offset :=
  ⟨by decide, scan_decodes (by decide)⟩

end TokenStream

end IdlLexis
