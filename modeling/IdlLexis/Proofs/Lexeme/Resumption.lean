import IdlLexis.Proofs.TokenStream.Placement
/-!
Readings begun or taken up anywhere. What a reader has yet to read is settled by the text that it
faces, whatever lies before it. So a reading that begins at an offset gives the lexemes of the text
from there on, and one that is broken off and taken up where it stopped gives those that are left.
-/

namespace IdlLexis

open Lexeme (Cuts Piece)

/-- The first lexemes of a text, and then its end as often as there are too few of them. -/
def Lexeme.firstOf (count : Nat) (found : List Lexeme) : List Lexeme :=
  found.take count ++ List.replicate (count - found.length) ⟨.endOfText, 0⟩

namespace Reader

variable {r : Reader} {text : Bytes} {pieces : List Piece}

theorem Inside.readerAt_offset (h : r.Inside) : r.source.readerAt r.offset = r := by
  rw [Source.readerAt, Nat.min_eq_left h]

/-- A reader gives the pieces that it faces one by one, and then the end again and again. After
any number of times it faces the pieces that are left. -/
theorem Faces.nextTimes (h : r.Faces text) (hcuts : Cuts text pieces) (count : Nat) :
    ∃ last rest,
      r.nextTimes count = .ok (Lexeme.firstOf count (pieces.map Piece.toLexeme), last) ∧
        last.source = r.source ∧ last.Faces rest ∧ Cuts rest (pieces.drop count) := by
  induction count generalizing r text pieces with
  | zero =>
      refine ⟨r, text, ?_, rfl, h, hcuts⟩
      rw [Lexeme.firstOf, List.take_zero, Nat.zero_sub]
      rfl
  | succ count ih =>
      cases hcuts with
      | nil =>
          obtain ⟨last, rest, htimes, hsource, hfaces, hrest⟩ := ih h .nil
          rw [List.drop_nil] at hrest
          refine ⟨last, rest, ?_, hsource, hfaces, hrest⟩
          rw [nextTimes_succ h.next_nil, htimes, Fault.map_ok]
          simp [Lexeme.firstOf, List.replicate_succ]
      | @cons category front tail pieces hfirst htail =>
          obtain ⟨last, rest, htimes, hsource, hfaces, hrest⟩ := ih h.after htail
          refine ⟨last, rest, ?_, hsource, hfaces, hrest⟩
          rw [nextTimes_succ (h.next_of_first hfirst), htimes, Fault.map_ok]
          simp [Lexeme.firstOf, Piece.toLexeme]

end Reader

variable {text : Bytes}

/-- A reading begun at any offset gives the lexemes of the text from there on, and its end after
them. It may be broken off after any number of them: a reader put where it stopped gives those
that are left. -/
theorem lexemes_readerAt (htext : text.length + 1 < Offset.limit) (offset : Nat) :
    ∃ found, lexemes (text.drop (min offset text.length)) = .ok found ∧
      (∃ last, ((Source.ofBytes text).readerAt offset).lexemes = .ok (found, last)) ∧
      ∀ count, ∃ stop,
        ((Source.ofBytes text).readerAt offset).nextTimes count =
          .ok (Lexeme.firstOf count found, stop) ∧
        ∃ last, ((Source.ofBytes text).readerAt stop.offset).lexemes =
          .ok (found.drop count, last) := by
  have hlimit : text.length < Offset.limit := by omega
  have hdrop : text.drop (min offset text.length) = text.drop offset := by
    rcases Nat.le_total offset text.length with hle | hle
    · rw [Nat.min_eq_left hle]
    · rw [Nat.min_eq_right hle, List.drop_length, List.drop_eq_nil_of_le hle]
  have hshort : (text.drop offset).length < Offset.limit := by
    rw [List.length_drop]
    omega
  have hfaces := Reader.faces_ofBytes hlimit offset
  obtain ⟨pieces, hcuts⟩ := hfaces.exists_cuts
  rw [hdrop]
  refine ⟨_, lexemes_eq hshort hcuts, ⟨_, hfaces.lexemes hcuts⟩, ?_⟩
  intro count
  obtain ⟨stop, rest, htimes, hsource, hstop, hrest⟩ := hfaces.nextTimes hcuts count
  have hreader : (Source.ofBytes text).readerAt stop.offset = stop := by
    have hsame := hstop.inside.readerAt_offset
    rwa [hsource] at hsame
  refine ⟨stop, htimes, ?_⟩
  rw [hreader, hstop.lexemes hrest, List.map_drop]
  exact ⟨_, rfl⟩

/-- The text `"/*0x1*/+7` from inside its open quote on, where a comment begins. -/
theorem lexemes_readerAt_inside_quote :
    let text : Bytes := [0x22, 0x2f, 0x2a, 0x30, 0x78, 0x31, 0x2a, 0x2f, 0x2b, 0x37]
    text.length + 1 < Offset.limit ∧
      ∃ found, lexemes (text.drop (min 1 text.length)) = .ok found ∧
        (∃ last, ((Source.ofBytes text).readerAt 1).lexemes = .ok (found, last)) ∧
        ∀ count, ∃ stop,
          ((Source.ofBytes text).readerAt 1).nextTimes count =
            .ok (Lexeme.firstOf count found, stop) ∧
          ∃ last, ((Source.ofBytes text).readerAt stop.offset).lexemes =
            .ok (found.drop count, last) :=
  ⟨by decide, lexemes_readerAt (by decide) 1⟩

end IdlLexis
