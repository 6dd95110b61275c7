import IdlLexis.Lexeme.Scan
import IdlLexis.Proofs.Lexeme.Run
import IdlLexis.Source.Rest
/-!
The moves of a reader over a text split into what they pass and what stops them. A move that
tests byte by byte and a search that jumps come to the same place: the first one that the test
does not pass.
-/

namespace IdlLexis

namespace Source

theorem firstIndex_eq {test : Nat → Bool} {stop start found : Nat} (hstart : start ≤ found)
    (hstop : found ≤ stop) (hbefore : ∀ i, start ≤ i → i < found → test i = false)
    (hfound : found < stop → test found = true) : firstIndex test stop start = found := by
  apply Nat.le_antisymm
  · apply Nat.le_of_not_lt
    intro hlt
    have hmissed := test_before_firstIndex hstart hlt
    have hle : firstIndex test stop start ≤ stop := firstIndex_le (Nat.le_trans hstart hstop)
    rw [hfound (by omega)] at hmissed
    contradiction
  · apply Nat.le_of_not_lt
    intro hlt
    have htest := test_firstIndex (Nat.lt_of_lt_of_le hlt hstop)
    rw [hbefore _ (le_firstIndex ..) hlt] at htest
    contradiction

theorem firstIndex_succ {test : Nat → Bool} {stop start : Nat} (hlt : start < stop)
    (htest : test start = false) :
    firstIndex test stop start = firstIndex test stop (start + 1) := by
  rw [firstIndex, if_pos hlt, if_neg (by simp [htest])]

end Source

namespace Reader

open Lexeme (Stops stops_nil stops_cons)

theorem advanceWhile_of_false {test : Reader → Except Fault Bool} {r : Reader}
    (hinside : r.offset < r.source.padded.size) (htest : test r = .ok false) :
    r.advanceWhile test = .ok r := by
  rw [advanceWhile, dif_pos hinside, htest]

theorem advanceWhile_of_true {test : Reader → Except Fault Bool} {r r' : Reader}
    (hinside : r.offset < r.source.padded.size) (htest : test r = .ok true)
    (hadvance : r.advance 1 = .ok r') : r.advanceWhile test = r'.advanceWhile test := by
  rw [advanceWhile, dif_pos hinside, htest]
  dsimp only
  split
  · next h =>
      rw [hadvance] at h
      cases h
  · next h =>
      rw [hadvance] at h
      cases h
      rfl

namespace Faces

variable {r : Reader} {front tail text : Bytes} {b : Byte} {test : Byte → Bool}

theorem one (h : r.Faces (b :: tail)) (category : Lexeme.Category) :
    r.one category = .ok (category, r.after 1) := by
  rw [Reader.one, h.advance_one]
  rfl

theorem advanceWhile {test : Reader → Except Fault Bool} (h : r.Faces (front ++ tail))
    (hgoes : ∀ before b after, front = before ++ b :: after →
      test (r.after before.length) = .ok true)
    (hstops : test (r.after front.length) = .ok false) :
    r.advanceWhile test = .ok (r.after front.length) := by
  induction front generalizing r with
  | nil => exact advanceWhile_of_false h.offset_lt_size hstops
  | cons b front ih =>
      have hnext : (r.after 1).advanceWhile test = .ok ((r.after 1).after front.length) := by
        apply ih h.after_cons
        · intro before c after heq
          rw [after_after, Nat.add_comm]
          exact hgoes (b :: before) c after (by rw [heq, List.cons_append])
        · rw [after_after, Nat.add_comm]
          exact hstops
      rw [advanceWhile_of_true h.offset_lt_size (hgoes [] b front rfl) h.advance_one, hnext,
        after_after, Nat.add_comm, List.length_cons]

/-- A class without the zero byte ends at the latest where the text does. -/
theorem skipWhile (h : r.Faces (front ++ tail)) (hfront : ∀ b ∈ front, test b = true)
    (hstops : Stops test tail) (hzero : test 0 = false) :
    r.skipWhile test = .ok (r.after front.length) := by
  apply h.advanceWhile
  · intro before b after heq
    rw [heq, List.append_assoc] at h
    rw [h.after.look_zero]
    exact congrArg Except.ok (hfront b (by simp [heq]))
  · rw [h.after.look_zero]
    refine congrArg Except.ok ?_
    cases tail with
    | nil => exact hzero
    | cons b tail => exact stops_cons.mp hstops

/-! Searches look at offsets of the layout. -/

theorem padded (h : r.Faces text) {i : Nat} (hi : i < text.length) :
    r.source.padded[r.offset + i]? = text[i]? := by
  have hlength := h.offset_add_length
  rw [Source.padded_of_lt _ (by omega), ← List.getElem?_drop]
  exact congrArg (·[i]?) h.rest_eq

theorem isAt (h : r.Faces text) (hb : b ≠ 0) (i : Nat) :
    r.isAt b (r.offset + i) = true ↔ text[i]? = some b := by
  rw [Reader.isAt, beq_iff_eq, Source.padded_eq_some_iff _ hb, ← h.rest_eq, rest,
    List.getElem?_drop]

theorem search {test : Nat → Bool} (h : r.Faces (front ++ tail))
    (hbefore : ∀ i < front.length, test (r.offset + i) = false)
    (hfound : tail ≠ [] → test (r.offset + front.length) = true) :
    r.search test = .ok (if tail = [] then none else some (r.offset + front.length)) := by
  have hlength := h.offset_add_length
  rw [List.length_append] at hlength
  have hindex : Source.firstIndex test r.source.length r.offset = r.offset + front.length := by
    apply Source.firstIndex_eq
    · omega
    · omega
    · intro i hstart hi
      have hbeforei := hbefore (i - r.offset) (by omega)
      rwa [Nat.add_sub_cancel' hstart] at hbeforei
    · intro hlt
      apply hfound
      rintro rfl
      rw [List.length_nil] at hlength
      omega
  have hinside : r.offset ≤ r.source.length := h.inside
  rw [Reader.search, if_pos hinside, hindex]
  dsimp only
  cases tail with
  | nil =>
      rw [List.length_nil] at hlength
      rw [if_neg (by omega), if_pos rfl]
  | cons b tail =>
      rw [List.length_cons] at hlength
      rw [if_pos (by omega), if_neg (List.cons_ne_nil _ _)]

theorem search_cons {test : Nat → Bool} (h : r.Faces (b :: tail))
    (htest : test r.offset = false) : r.search test = (r.after 1).search test := by
  have hlength := h.offset_add_length
  rw [List.length_cons] at hlength
  have hinside : r.offset ≤ r.source.length := by omega
  have hnext : r.offset + 1 ≤ r.source.length := by omega
  rw [Reader.search, Reader.search, if_pos hinside, source_after, offset_after, if_pos hnext,
    Source.firstIndex_succ (by omega) htest]

theorem skipToLineEnd (h : r.Faces (front ++ tail)) (hfront : Byte.lineFeed ∉ front)
    (hstops : Stops (· != Byte.lineFeed) tail) :
    r.skipToLineEnd = .ok (r.after front.length) := by
  have hsearch : r.search (r.isAt Byte.lineFeed) =
      .ok (if tail = [] then none else some (r.offset + front.length)) := by
    apply h.search
    · intro i hi
      apply Bool.eq_false_iff.mpr
      intro hat
      rw [h.isAt (by decide), List.getElem?_append_left hi] at hat
      exact hfront (List.mem_of_getElem? hat)
    · intro hne
      cases tail with
      | nil => exact absurd rfl hne
      | cons b tail =>
          rw [h.isAt (by decide), List.getElem?_append_right (Nat.le_refl _), Nat.sub_self]
          have hb : b = Byte.lineFeed := by simpa using hstops
          rw [hb]
          rfl
  rw [Reader.skipToLineEnd, hsearch]
  cases tail with
  | nil =>
      rw [List.append_nil] at h
      rw [h.after_eq_toEnd]
      rfl
  | cons b tail => rfl

end Faces

/-- The reading gives the first lexeme of the text, and a reader after it. -/
def ReadsFirst (r : Reader) (text : Bytes)
    (reading : Except Fault (Lexeme.Category × Reader)) : Prop :=
  ∃ category front, Lexeme.First category front text ∧
    reading = .ok (category, r.after front.length)

theorem ReadsFirst.of_longest {r : Reader} {category : Lexeme.Category} {front text : Bytes}
    {reading : Except Fault (Lexeme.Category × Reader)}
    (hlongest : Lexeme.IsLongest category front text)
    (hreading : reading = .ok (category, r.after front.length)) : r.ReadsFirst text reading :=
  ⟨category, front, .inl hlongest, hreading⟩

theorem ReadsFirst.of_mistake {r : Reader} {category : Lexeme.Category} {front text : Bytes}
    {reading : Except Fault (Lexeme.Category × Reader)} (huncovered : Lexeme.Uncovered text)
    (hmistake : Lexeme.Mistake category front text)
    (hreading : reading = .ok (category, r.after front.length)) : r.ReadsFirst text reading :=
  ⟨category, front, .inr ⟨huncovered, hmistake⟩, hreading⟩

theorem Faces.readsFirst_stray {r : Reader} {b : Byte} {text : Bytes} (h : r.Faces (b :: text))
    (huncovered : Lexeme.Uncovered (b :: text)) (hquote : Quote.ofByte? b = none)
    (hcomment : b = Byte.slash → text.head? ≠ some Byte.star) :
    r.ReadsFirst (b :: text) (r.one .strayByte) :=
  .of_mistake huncovered (.strayByte hquote hcomment) (h.one _)

end Reader

end IdlLexis
