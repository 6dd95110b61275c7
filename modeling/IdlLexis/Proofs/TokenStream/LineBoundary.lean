import IdlLexis.Proofs.Lexeme.Lookahead
import IdlLexis.Proofs.TokenStream.Refinement
/-!
A line feed outside comments parts its text in two that know nothing of each other. The lexemes on
either side are those that the side has by itself, and so are the tokens and the diagnostics, but
that what comes after the line feed lies further on.
-/

namespace IdlLexis

/-! The same thing further on in a text. -/

def Span.shift (offset : Nat) (s : Span) : Span := ⟨s.start + offset, s.stop + offset⟩

def Token.shift (offset lines : Nat) (t : Token) : Token :=
  ⟨t.kind, t.span.shift offset, t.line + lines⟩

def Diagnostic.shift (offset lines : Nat) (d : Diagnostic) : Diagnostic :=
  ⟨d.code, d.line + lines, d.offset + offset, d.message⟩

theorem Token.ofReading_shift (span : Span) (offset line lines : Nat)
    (reading : Except Complaint Token.Kind) :
    Token.ofReading (span.shift offset) (line + lines) reading =
      Prod.map (Token.shift offset lines) (List.map (Diagnostic.shift offset lines))
        (Token.ofReading span line reading) := by
  cases reading <;> rfl

namespace Lexeme

variable {before after : Bytes} {pieces others : List Piece}

/-- No lexeme goes on over a line feed, so it is what it is if the text ends there. -/
theorem Cuts.append_line (hbefore : Cuts before pieces)
    (hclosed : ∀ p ∈ pieces, p.category ≠ .openComment) (hafter : Cuts after others) :
    Cuts (before ++ Byte.lineFeed :: after) (pieces ++ lineFeed :: others) := by
  induction hbefore with
  | nil => exact hafter.after_lineFeed
  | @cons category front tail pieces hfirst _ ih =>
      obtain ⟨hcategory, hrest⟩ := List.forall_mem_cons.mp hclosed
      rw [List.append_assoc, List.cons_append]
      exact .cons (hfirst.of_nearby_eq hcategory (nearby_append_lineFeed _ _ _)) (ih hrest)

end Lexeme

open Lexeme (Cuts Piece)

namespace TokenStream

variable {before after : Bytes} {found : List Lexeme}

theorem cookAll_append (offset line : Nat) (pieces others : List Piece) :
    cookAll offset line (pieces ++ others) =
      cookAll offset line pieces ++
        cookAll (offset + (pieces.flatMap Piece.bytes).length)
          (line + newlines (pieces.flatMap Piece.bytes)) others := by
  induction pieces generalizing offset line with
  | nil => rfl
  | cons p pieces ih =>
      rw [List.cons_append, cookAll, cookAll, ih, List.flatMap_cons, List.length_append,
        newlines_append, List.append_assoc, Nat.add_assoc, Nat.add_assoc]

theorem cookAll_shift (offset line count lines : Nat) (pieces : List Piece) :
    cookAll (offset + count) (line + lines) pieces =
      (cookAll offset line pieces).map
        (Prod.map (Token.shift count lines) (List.map (Diagnostic.shift count lines))) := by
  induction pieces generalizing offset line with
  | nil => rfl
  | cons p pieces ih =>
      have hrest := ih (offset + p.bytes.length) (line + newlines p.bytes)
      rw [Nat.add_right_comm offset, Nat.add_right_comm line] at hrest
      cases hmeaning : Token.meaning p.category p.bytes with
      | none => rw [cookAll_of_none hmeaning, cookAll_of_none hmeaning, hrest]
      | some reading =>
          have hspan := Token.ofReading_shift ⟨offset, offset + p.bytes.length⟩ count line lines
            reading
          rw [Span.shift, Nat.add_right_comm] at hspan
          rw [cookAll_of_some hmeaning, cookAll_of_some hmeaning, List.map_cons, hrest, hspan]

/-- What the pieces after a line feed cook to is what they cook to by themselves, further on. -/
theorem cookAll_append_line {pieces : List Piece} (hbefore : Cuts before pieces)
    (others : List Piece) :
    cookAll 0 1 (pieces ++ Lexeme.lineFeed :: others) =
      cookAll 0 1 pieces ++
        (cookAll 0 1 others).map
          (Prod.map (Token.shift (before.length + 1) (1 + newlines before))
            (List.map (Diagnostic.shift (before.length + 1) (1 + newlines before)))) := by
  rw [cookAll_append, hbefore.flatMap_bytes, cookAll_of_none rfl, ← cookAll_shift,
    ← Nat.add_comm (1 + newlines before) 1]
  rfl

/-- Two texts with a line feed between them are read as each of them is alone, unless a comment
that the first leaves open swallows the second. -/
theorem scan_append_lineFeed (htext : before.length + 1 + after.length + 1 < Offset.limit)
    (hfound : lexemes before = .ok found) (hclosed : ∀ x ∈ found, x.category ≠ .openComment) :
    ∃ later tokens diagnostics laterTokens laterDiagnostics,
      lexemes after = .ok later ∧
      lexemes (before ++ Byte.lineFeed :: after) = .ok (found ++ ⟨.newline, 1⟩ :: later) ∧
      readTokens before = .ok (tokens, diagnostics) ∧
      readTokens after = .ok (laterTokens, laterDiagnostics) ∧
      readTokens (before ++ Byte.lineFeed :: after) =
        .ok (tokens ++ laterTokens.map (Token.shift (before.length + 1) (1 + newlines before)),
          diagnostics ++
            laterDiagnostics.map
              (Diagnostic.shift (before.length + 1) (1 + newlines before))) := by
  have hlimit : before.length < Offset.limit := by omega
  have hlimit' : after.length < Offset.limit := by omega
  obtain ⟨pieces, hbefore⟩ := exists_cuts hlimit
  obtain ⟨others, hafter⟩ := exists_cuts hlimit'
  obtain rfl : pieces.map Piece.toLexeme = found :=
    Except.ok.inj ((lexemes_eq hlimit hbefore).symm.trans hfound)
  have hpieces : ∀ p ∈ pieces, p.category ≠ .openComment :=
    fun p hp => hclosed _ (List.mem_map_of_mem hp)
  have hcuts := hbefore.append_line hpieces hafter
  have hlength : (before ++ Byte.lineFeed :: after).length + 1 < Offset.limit := by
    rw [List.length_append, List.length_cons]
    omega
  refine ⟨_, _, _, _, _, lexemes_eq hlimit' hafter, ?_, readTokens_of_cuts (by omega) hbefore,
    readTokens_of_cuts (by omega) hafter, ?_⟩
  · rw [lexemes_eq (by omega) hcuts, List.map_append]
    rfl
  · rw [readTokens_of_cuts hlength hcuts, cookAll_append_line hbefore, List.map_append,
      List.flatMap_append, List.map_map, List.flatMap_map, List.map_flatMap, List.map_map]
    rfl

/-- A zero that could begin a hexadecimal integer, and a quote that a backslash leaves open, before
another open quote. -/
theorem scan_append_lineFeed_open_quote :
    let before : Bytes := [0x30, 0x78, 0x22, 0x5c]
    let after : Bytes := [0x22]
    let found : List Lexeme := [⟨.integer, 1⟩, ⟨.word, 1⟩, ⟨.openQuote, 2⟩]
    before.length + 1 + after.length + 1 < Offset.limit ∧ lexemes before = .ok found ∧
      (∀ x ∈ found, x.category ≠ .openComment) ∧
      ∃ later tokens diagnostics laterTokens laterDiagnostics,
        lexemes after = .ok later ∧
        lexemes (before ++ Byte.lineFeed :: after) = .ok (found ++ ⟨.newline, 1⟩ :: later) ∧
        readTokens before = .ok (tokens, diagnostics) ∧
        readTokens after = .ok (laterTokens, laterDiagnostics) ∧
        readTokens (before ++ Byte.lineFeed :: after) =
          .ok (tokens ++ laterTokens.map (Token.shift (before.length + 1) (1 + newlines before)),
            diagnostics ++
              laterDiagnostics.map
                (Diagnostic.shift (before.length + 1) (1 + newlines before))) := by
  have hfound : lexemes [0x30, 0x78, 0x22, 0x5c] =
      .ok [⟨.integer, 1⟩, ⟨.word, 1⟩, ⟨.openQuote, 2⟩] :=
    Fault.eq_ok_of_toOption (by decide +kernel)
  exact ⟨by decide, hfound, by decide, scan_append_lineFeed (by decide) hfound (by decide)⟩

end TokenStream

end IdlLexis
