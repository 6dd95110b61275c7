import IdlLexis.Source.Rest
/-!
How far a reader may look. Behind a text stand zero bytes up to the next multiple of 64, so how
many there are depends on its length: from one, if a multiple of 64 comes right after it, to a
whole row of 64. A reader may look as far as they go, and no further. Where fewer than three of
them follow a text, a look two places ahead from its end is a fault.
-/

namespace IdlLexis

namespace Source

variable {text : Bytes}

theorem size_ofBytes_of_lt (htext : text.length < Offset.limit) :
    (ofBytes text).padded.size = text.length / 64 * 64 + 64 := by
  rw [size_ofBytes, length_ofBytes_of_lt htext, paddedSize_eq htext]

end Source

namespace Reader

variable {text : Bytes} {offset ahead : Nat}

theorem readerAt_of_le (htext : text.length < Offset.limit) (hoffset : offset ≤ text.length) :
    (Source.ofBytes text).readerAt offset = ⟨Source.ofBytes text, offset⟩ := by
  have hinside : offset ≤ (Source.ofBytes text).length := by
    rwa [Source.length_ofBytes_of_lt htext]
  simp only [Source.readerAt, Nat.min_eq_left hinside]

/-! A look gives a byte of the text or a zero byte behind it, and is a fault behind these. -/

theorem look_of_lt (htext : text.length < Offset.limit) (hoffset : offset ≤ text.length)
    (hahead : offset + ahead < text.length / 64 * 64 + 64) :
    ((Source.ofBytes text).readerAt offset).look ahead = .ok (text.getD (offset + ahead) 0) := by
  rw [← Source.size_ofBytes_of_lt htext] at hahead
  have hread := (Source.ofBytes text).padded_eq hahead
  rw [Source.bytes_ofBytes_of_lt htext] at hread
  rw [readerAt_of_le htext hoffset]
  exact look_eq_ok.mpr hread

theorem look_of_le (htext : text.length < Offset.limit) (hoffset : offset ≤ text.length)
    (hahead : text.length / 64 * 64 + 64 ≤ offset + ahead) :
    ((Source.ofBytes text).readerAt offset).look ahead = .error .outsideText := by
  rw [← Source.size_ofBytes_of_lt htext] at hahead
  have hread := Array.getElem?_eq_none hahead
  rw [readerAt_of_le htext hoffset]
  simp only [look, hread]

/-- From the offset on a reader can look at the byte there and at the next `reach` ones: bytes of
the text, and zero bytes behind it. -/
def SeesAhead (text : Bytes) (offset reach : Nat) : Prop :=
  ∀ ahead ≤ reach,
    ((Source.ofBytes text).readerAt offset).look ahead = .ok (text.getD (offset + ahead) 0)

/-- A reader sees as far as the layout of its text goes. -/
theorem seesAhead_iff_lt (htext : text.length < Offset.limit) (hoffset : offset ≤ text.length)
    (reach : Nat) : SeesAhead text offset reach ↔ offset + reach < text.length / 64 * 64 + 64 := by
  constructor
  · intro hsees
    apply Nat.lt_of_not_le
    intro hbeyond
    have hlook := hsees reach (Nat.le_refl _)
    rw [look_of_le htext hoffset hbeyond] at hlook
    contradiction
  · intro hlt ahead hahead
    exact look_of_lt htext hoffset (by omega)

/-- The end of the text is where a reader sees least. -/
theorem forall_seesAhead_iff (htext : text.length < Offset.limit) (reach : Nat) :
    (∀ offset ≤ text.length, SeesAhead text offset reach) ↔ text.length % 64 + reach < 64 := by
  constructor
  · intro hsees
    have hend := (seesAhead_iff_lt htext (Nat.le_refl _) reach).mp (hsees _ (Nat.le_refl _))
    omega
  · intro hlt offset hoffset
    exact (seesAhead_iff_lt htext hoffset reach).mpr (by omega)

/-- A reader in its text sees the byte before it, and the one or two after that exactly where they
still lie in the layout; a look behind the layout is a fault. So a text can be seen two bytes ahead
everywhere if and only if three zero bytes or more follow it. -/
theorem seesAhead_two_iff (htext : text.length < Offset.limit) :
    (∀ offset ≤ text.length,
      SeesAhead text offset 0 ∧
      (SeesAhead text offset 1 ↔ offset + 1 < text.length / 64 * 64 + 64) ∧
      (SeesAhead text offset 2 ↔ offset + 2 < text.length / 64 * 64 + 64) ∧
      ∀ ahead, text.length / 64 * 64 + 64 ≤ offset + ahead →
        ((Source.ofBytes text).readerAt offset).look ahead = .error .outsideText) ∧
    ((∀ offset ≤ text.length, SeesAhead text offset 1) ↔ text.length % 64 ≠ 63) ∧
    ((∀ offset ≤ text.length, SeesAhead text offset 2) ↔ text.length % 64 < 62) := by
  refine ⟨?_, ?_, ?_⟩
  · intro offset hoffset
    refine ⟨?_, ?_, ?_, ?_⟩
    · exact (seesAhead_iff_lt htext hoffset 0).mpr (by omega)
    · exact seesAhead_iff_lt htext hoffset 1
    · exact seesAhead_iff_lt htext hoffset 2
    · exact fun _ hahead => look_of_le htext hoffset hahead
  · rw [forall_seesAhead_iff htext]
    omega
  · rw [forall_seesAhead_iff htext]
    omega

/-- A text that two zero bytes follow. -/
theorem seesAhead_two_iff_two_zeros :
    let text : Bytes := List.replicate 62 0x61
    text.length < Offset.limit ∧
      (∀ offset ≤ text.length,
        SeesAhead text offset 0 ∧
        (SeesAhead text offset 1 ↔ offset + 1 < text.length / 64 * 64 + 64) ∧
        (SeesAhead text offset 2 ↔ offset + 2 < text.length / 64 * 64 + 64) ∧
        ∀ ahead, text.length / 64 * 64 + 64 ≤ offset + ahead →
          ((Source.ofBytes text).readerAt offset).look ahead = .error .outsideText) ∧
      ((∀ offset ≤ text.length, SeesAhead text offset 1) ↔ text.length % 64 ≠ 63) ∧
      ((∀ offset ≤ text.length, SeesAhead text offset 2) ↔ text.length % 64 < 62) :=
  ⟨by decide, seesAhead_two_iff (by decide)⟩

/-- A text that one zero byte follows: from its end a reader sees this byte and nothing more. -/
theorem not_seesAhead_one_zero :
    let text : Bytes := List.replicate 63 0x61
    text.length + 1 < Offset.limit ∧ 63 ≤ text.length ∧
      ((Source.ofBytes text).readerAt 63).look 0 = .ok 0 ∧
      ((Source.ofBytes text).readerAt 63).look 1 = .error .outsideText ∧
      ((Source.ofBytes text).readerAt 63).look 2 = .error .outsideText ∧
      ¬ SeesAhead text 63 1 ∧ ¬ SeesAhead text 63 2 := by
  intro text
  have htext : text.length < Offset.limit := by decide
  have hend : 63 ≤ text.length := by decide
  refine ⟨by decide, hend, ?_, ?_, ?_, ?_, ?_⟩
  · exact look_of_lt htext hend (by decide)
  · exact look_of_le htext hend (by decide)
  · exact look_of_le htext hend (by decide)
  · exact mt (seesAhead_iff_lt htext hend 1).mp (by decide)
  · exact mt (seesAhead_iff_lt htext hend 2).mp (by decide)

end Reader

end IdlLexis
