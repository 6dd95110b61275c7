import IdlLexis.Source.Rest
import Mathlib.Order.Bounds.Defs
/-!
The layout of a text. It holds the bytes of the text and after them nothing but zero bytes, up to
the first multiple of 64 behind the text, so there is at least one of them. A reader may be put at
any offset; it stands at the end of the text from there on and nowhere before, whatever bytes the
text holds.
-/

namespace IdlLexis

namespace Source

variable {text : Bytes} {length : Nat}

/-! The size. -/

theorem isLeast_paddedSize (h : length < Offset.limit) :
    IsLeast {size | 64 ∣ size ∧ length < size} (paddedSize length) := by
  rw [paddedSize_eq h]
  constructor
  · exact ⟨⟨length / 64 + 1, by omega⟩, by omega⟩
  · rintro size ⟨⟨rows, rfl⟩, hlt⟩
    have hrows : length / 64 < rows := Nat.div_lt_of_lt_mul hlt
    omega

theorem size_ofBytes_eq (htext : text.length < Offset.limit) :
    (ofBytes text).padded.size = paddedSize text.length := by
  rw [size_ofBytes, length_ofBytes_of_lt htext]

/-! What stands in it. -/

theorem drop_padded (s : Source) :
    s.padded.toList.drop s.length = List.replicate (s.padded.size - s.length) 0 := by
  rw [List.eq_replicate_iff, List.length_drop, Array.length_toList]
  refine ⟨rfl, ?_⟩
  intro b hb
  obtain ⟨i, hget⟩ := List.mem_iff_getElem?.mp hb
  rw [List.getElem?_drop, Array.getElem?_toList] at hget
  obtain ⟨hi, _⟩ := Array.getElem?_eq_some_iff.mp hget
  rw [s.padding _ (Nat.le_add_right ..) hi] at hget
  exact (Option.some.inj hget).symm

/-- Behind the bytes of its text a layout holds zero bytes. -/
theorem toList_padded (s : Source) :
    s.padded.toList = s.bytes ++ List.replicate (s.padded.size - s.length) 0 := by
  rw [← drop_padded, bytes, List.take_append_drop]

/-! Readers put at an offset. -/

theorem atEnd_readerAt (s : Source) (offset : Nat) :
    (s.readerAt offset).atEnd = .ok (decide (s.length ≤ offset)) := by
  rw [(Reader.faces_readerAt s offset).atEnd]
  refine congrArg Except.ok (Bool.eq_iff_iff.mpr ?_)
  rw [List.isEmpty_iff, List.drop_eq_nil_iff, length_bytes, decide_eq_true_eq]

/-- To be put at an offset is to go there from the beginning, but not beyond the end. -/
theorem advance_reader (s : Source) (offset : Nat) :
    s.reader.advance (min offset s.length) = .ok (s.readerAt offset) := by
  have hlimit := s.length_lt_limit
  have hadd := Offset.add_of_lt (show 0 + min offset s.length < Offset.limit by omega)
  rw [Nat.zero_add] at hadd
  exact Fault.bind_eq_ok.mpr ⟨_, hadd, rfl⟩

/-- The source lays the text out for reading. -/
structure Holds (s : Source) (text : Bytes) : Prop where
  bytes_eq : s.bytes = text
  length_eq : s.length = text.length
  padded_eq : s.padded.toList = text ++ List.replicate (s.padded.size - text.length) 0
  size_eq : s.padded.size = paddedSize text.length
  size_isLeast : IsLeast {size | 64 ∣ size ∧ text.length < size} s.padded.size
  /-- What a reader of the layout takes for granted. -/
  zero_behind : s.length < s.padded.size ∧ s.padded[s.length]? = some 0
  /-- A reader may be put at any offset. -/
  readers : ∀ offset, s.reader.advance (min offset s.length) = .ok (s.readerAt offset) ∧
    (s.readerAt offset).offset = min offset text.length ∧
    (s.readerAt offset).atEnd = .ok (decide (text.length ≤ offset))

theorem ofBytes_holds (htext : text.length < Offset.limit) : (ofBytes text).Holds text := by
  have hbytes := bytes_ofBytes_of_lt htext
  have hlength := length_ofBytes_of_lt htext
  have hsize := size_ofBytes_eq htext
  constructor
  case bytes_eq => exact hbytes
  case length_eq => exact hlength
  case padded_eq => rw [toList_padded, hbytes, hlength]
  case size_eq => exact hsize
  case size_isLeast =>
    rw [hsize]
    exact isLeast_paddedSize htext
  case zero_behind =>
    have hlt := (ofBytes text).length_lt_size
    exact ⟨hlt, (ofBytes text).padding _ (Nat.le_refl _) hlt⟩
  case readers =>
    intro offset
    refine ⟨advance_reader _ offset, ?_, ?_⟩
    · rw [← hlength]
      rfl
    · rw [atEnd_readerAt, hlength]

/-- A text that ends in a zero byte, and behind which there is room for one more only. -/
theorem ofBytes_holds_last_zero :
    let text : Bytes := List.replicate 62 0x61 ++ [0x00]
    text.length < Offset.limit ∧ (ofBytes text).Holds text :=
  ⟨by decide, ofBytes_holds (by decide)⟩

end Source

end IdlLexis
