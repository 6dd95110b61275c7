import IdlLexis.Source.Reader
/-!
What a reader has before it is the rest of the text. As long as a reader stands in the text or at
its end, each read and each move is a function of that rest alone, and none of them is a fault.
-/

namespace IdlLexis

namespace Source

@[simp] theorem length_bytes (s : Source) : s.bytes.length = s.length := by
  have hlt := s.length_lt_size
  simp only [bytes, List.length_take, Array.length_toList]
  omega

theorem bytes_ofBytes_of_lt {text : Bytes} (h : text.length < Offset.limit) :
    (ofBytes text).bytes = text := by
  rw [bytes_ofBytes]
  exact List.take_of_length_le (Nat.le_pred_of_lt h)

theorem length_ofBytes_of_lt {text : Bytes} (h : text.length < Offset.limit) :
    (ofBytes text).length = text.length := by
  rw [← length_bytes, bytes_ofBytes_of_lt h]

theorem padded_of_lt (s : Source) {i : Nat} (h : i < s.length) :
    s.padded[i]? = s.bytes[i]? := by
  rw [bytes, List.getElem?_take_of_lt h, Array.getElem?_toList]

/-- A read of the layout gives a byte of the text, or the zero that follows it. -/
theorem padded_eq (s : Source) {i : Nat} (h : i < s.padded.size) :
    s.padded[i]? = some (s.bytes.getD i 0) := by
  by_cases hi : i < s.length
  · rw [padded_of_lt s hi, List.getD_eq_getElem?_getD, List.getElem?_eq_getElem (by simpa using hi)]
    rfl
  · have hlength : s.bytes.length ≤ i := by
      rw [length_bytes]
      omega
    rw [s.padding i (by omega) h, List.getD_eq_getElem?_getD, List.getElem?_eq_none hlength]
    rfl

/-- The padding holds no byte but zero, so any other byte in the layout is one of the text. -/
theorem padded_eq_some_iff (s : Source) {i : Nat} {b : Byte} (hb : b ≠ 0) :
    s.padded[i]? = some b ↔ s.bytes[i]? = some b := by
  by_cases hi : i < s.length
  · rw [padded_of_lt s hi]
  · have hnone : s.bytes[i]? = none := by
      apply List.getElem?_eq_none
      rw [length_bytes]
      omega
    rw [hnone]
    constructor
    · intro h
      obtain ⟨hsize, _⟩ := Array.getElem?_eq_some_iff.mp h
      rw [s.padding i (by omega) hsize] at h
      cases h
      exact absurd rfl hb
    · intro h
      cases h

end Source

namespace Reader

def rest (r : Reader) : Bytes := r.source.bytes.drop r.offset

/-- The reader stands in the text, or at its end. -/
def Inside (r : Reader) : Prop := r.offset ≤ r.source.length

/-- The reader `count` places on. -/
def after (r : Reader) (count : Nat) : Reader := { r with offset := r.offset + count }

@[simp] theorem source_after (r : Reader) (count : Nat) : (r.after count).source = r.source := rfl

@[simp] theorem offset_after (r : Reader) (count : Nat) :
    (r.after count).offset = r.offset + count := rfl

@[simp] theorem after_after (r : Reader) (first second : Nat) :
    (r.after first).after second = r.after (first + second) := by
  simp only [after, Nat.add_assoc]

theorem inside_reader (s : Source) : s.reader.Inside := Nat.zero_le _

theorem inside_readerAt (s : Source) (offset : Nat) : (s.readerAt offset).Inside :=
  Nat.min_le_right ..

theorem rest_readerAt (s : Source) (offset : Nat) :
    (s.readerAt offset).rest = s.bytes.drop offset := by
  by_cases h : offset ≤ s.length
  · rw [rest, Source.readerAt, Nat.min_eq_left h]
  · rw [rest, Source.readerAt, Nat.min_eq_right (by omega),
      List.drop_eq_nil_of_le (by simp), List.drop_eq_nil_of_le (by rw [Source.length_bytes]; omega)]

theorem length_rest (r : Reader) : r.rest.length = r.source.length - r.offset := by
  simp [rest]

theorem rest_after (r : Reader) (count : Nat) : (r.after count).rest = r.rest.drop count := by
  simp [rest, List.drop_drop]

/-! A reader that is inside faces the rest of the text. -/

structure Faces (r : Reader) (text : Bytes) : Prop where
  inside : r.Inside
  rest_eq : r.rest = text

namespace Faces

variable {r : Reader} {front tail text : Bytes} {a b : Byte}

theorem offset_add_length (h : r.Faces text) : r.offset + text.length = r.source.length := by
  have hinside : r.offset ≤ r.source.length := h.inside
  have hlength := r.length_rest
  rw [h.rest_eq] at hlength
  omega

theorem after (h : r.Faces (front ++ tail)) : (r.after front.length).Faces tail := by
  refine ⟨?_, ?_⟩
  · have hlength := h.offset_add_length
    rw [List.length_append] at hlength
    change r.offset + front.length ≤ r.source.length
    omega
  · rw [rest_after, h.rest_eq, List.drop_left]

theorem after_cons (h : r.Faces (a :: tail)) : (r.after 1).Faces tail :=
  @after r [a] tail h

theorem after_cons_cons (h : r.Faces (a :: b :: tail)) : (r.after 2).Faces tail :=
  @after r [a, b] tail h

theorem eq_toEnd (h : r.Faces []) : r = r.toEnd := by
  have hlength := h.offset_add_length
  rw [List.length_nil, Nat.add_zero] at hlength
  rw [toEnd, ← hlength]

theorem after_eq_toEnd (h : r.Faces text) : r.after text.length = r.toEnd := by
  rw [Reader.after, toEnd, h.offset_add_length]

/-- There is a byte to read up to and including the zero that follows the text. -/
theorem look (h : r.Faces (front ++ tail)) : r.look front.length = .ok (tail.headD 0) := by
  have hlength := h.offset_add_length
  have hlt := r.source.length_lt_size
  rw [List.length_append] at hlength
  have hget : r.source.bytes.getD (r.offset + front.length) 0 = tail.headD 0 := by
    rw [List.getD_eq_getElem?_getD, ← List.getElem?_drop]
    change (r.rest[front.length]?).getD 0 = tail.headD 0
    rw [h.rest_eq, List.getElem?_append_right (Nat.le_refl _), Nat.sub_self]
    cases tail <;> rfl
  rw [look_eq_ok, Source.padded_eq _ (by omega), hget]

theorem look_zero (h : r.Faces text) : r.look 0 = .ok (text.headD 0) := @look r [] text h

theorem look_one (h : r.Faces (a :: tail)) : r.look 1 = .ok (tail.headD 0) :=
  @look r [a] tail h

theorem look_two (h : r.Faces (a :: b :: tail)) : r.look 2 = .ok (tail.headD 0) :=
  @look r [a, b] tail h

theorem atEnd (h : r.Faces text) : r.atEnd = .ok text.isEmpty := by
  have hlength := h.offset_add_length
  rw [Reader.atEnd, h.look_zero]
  cases text with
  | nil =>
      have hend : r.source.length ≤ r.offset := by
        rw [List.length_nil] at hlength
        omega
      exact congrArg Except.ok (decide_eq_true hend)
  | cons b tail =>
      have hbefore : ¬ r.source.length ≤ r.offset := by
        rw [List.length_cons] at hlength
        omega
      refine congrArg Except.ok ?_
      simp [hbefore]

theorem advance (h : r.Faces (front ++ tail)) :
    r.advance front.length = .ok (r.after front.length) := by
  have hlength := h.offset_add_length
  have hlimit := r.source.length_lt_limit
  rw [List.length_append] at hlength
  rw [Reader.advance, Offset.add_of_lt (by omega)]
  rfl

theorem advance_one (h : r.Faces (a :: tail)) : r.advance 1 = .ok (r.after 1) :=
  @advance r [a] tail h

theorem advance_two (h : r.Faces (a :: b :: tail)) : r.advance 2 = .ok (r.after 2) :=
  @advance r [a, b] tail h

theorem offset_lt_size (h : r.Faces text) : r.offset < r.source.padded.size :=
  Nat.lt_of_le_of_lt h.inside r.source.length_lt_size

end Faces

theorem Inside.faces {r : Reader} (h : r.Inside) : r.Faces r.rest := ⟨h, rfl⟩

theorem faces_reader (s : Source) : s.reader.Faces s.bytes := ⟨inside_reader s, rfl⟩

theorem faces_readerAt (s : Source) (offset : Nat) :
    (s.readerAt offset).Faces (s.bytes.drop offset) :=
  ⟨inside_readerAt s offset, rest_readerAt s offset⟩

end Reader

end IdlLexis
