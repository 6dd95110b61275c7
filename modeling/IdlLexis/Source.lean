import IdlLexis.Offset
/-!
A source text laid out for reading: its bytes, and from its end on zero bytes up to the next
multiple of 64. At least one zero byte follows the text, so a scan that stops at a zero byte
stops inside the layout. A text holds fewer than `Offset.limit` bytes; what is beyond is cut off.
-/

namespace IdlLexis

structure Source where
  padded : Array Byte
  length : Nat
  length_lt_limit : length < Offset.limit
  length_lt_size : length < padded.size
  padding : ∀ i, length ≤ i → i < padded.size → padded[i]? = some 0

namespace Source

/-! The size of a layout, by clearing the low six bits of a word. -/

def paddedSize (length : Nat) : Nat :=
  (UInt64.ofNat (length + 1 + 63) &&& ~~~(63 : UInt64)).toNat

private theorem clearLowBits (n : Nat) (h : n < 0x10000000000000000) :
    n &&& 0xffffffffffffffc0 = n / 64 * 64 := by
  have hmask : 0xffffffffffffffc0 = (2 ^ 58 - 1) <<< 6 := by decide
  have hcut : n / 64 * 64 = (n >>> 6) <<< 6 := by
    rw [Nat.shiftRight_eq_div_pow, Nat.shiftLeft_eq]
  rw [hmask, hcut]
  apply Nat.eq_of_testBit_eq
  intro i
  rw [Nat.testBit_and, Nat.testBit_shiftLeft, Nat.testBit_shiftLeft,
    Nat.testBit_two_pow_sub_one, Nat.testBit_shiftRight]
  by_cases hi : 6 ≤ i
  · rw [Nat.add_sub_cancel' hi]
    by_cases hhigh : i - 6 < 58
    · simp [hi, hhigh]
    · have hzero : n.testBit i = false :=
        Nat.testBit_lt_two_pow
          (Nat.lt_of_lt_of_le h
            (Nat.pow_le_pow_right Nat.two_pos (show 64 ≤ i by omega)))
      simp [hzero]
  · simp [hi]

theorem paddedSize_eq {length : Nat} (h : length < Offset.limit) :
    paddedSize length = length / 64 * 64 + 64 := by
  have hsmall : length + 1 + 63 < 0x10000000000000000 := by
    simp only [Offset.limit] at h
    omega
  have hmask : (~~~(63 : UInt64)).toNat = 0xffffffffffffffc0 := by decide
  rw [paddedSize, UInt64.toNat_and, hmask, UInt64.toNat_ofNat_of_lt' hsmall,
    clearLowBits _ hsmall]
  omega

theorem lt_paddedSize {length : Nat} (h : length < Offset.limit) :
    length < paddedSize length := by
  rw [paddedSize_eq h]
  omega

def ofBytes (text : Bytes) : Source :=
  let kept := text.take (Offset.limit - 1)
  have hkept : kept.length < Offset.limit := by
    simp only [kept, List.length_take, Offset.limit]
    omega
  have hsize := lt_paddedSize hkept
  { padded := (kept ++ List.replicate (paddedSize kept.length - kept.length) 0).toArray
    length := kept.length
    length_lt_limit := hkept
    length_lt_size := by
      simp only [List.size_toArray, List.length_append, List.length_replicate]
      omega
    padding := by
      intro i hi hlt
      simp only [List.size_toArray, List.length_append, List.length_replicate] at hlt
      rw [List.getElem?_toArray, List.getElem?_append_right hi, List.getElem?_replicate]
      exact if_pos (by omega) }

def bytes (s : Source) : Bytes := s.padded.toList.take s.length

def isEmpty (s : Source) : Bool := s.length == 0

theorem bytes_ofBytes (text : Bytes) :
    (ofBytes text).bytes = text.take (Offset.limit - 1) := by
  exact List.take_left ..

theorem size_ofBytes (text : Bytes) :
    (ofBytes text).padded.size = paddedSize (ofBytes text).length := by
  have hsize := lt_paddedSize (ofBytes text).length_lt_limit
  have hparts : (ofBytes text).padded.size =
      (ofBytes text).length +
        (paddedSize (ofBytes text).length - (ofBytes text).length) := by
    change (List.toArray _).size = _
    rw [List.size_toArray, List.length_append, List.length_replicate]
    rfl
  omega

/-! Any two offsets may be asked for; of what lies between them the text holds a part. -/

def textBetween (s : Source) (start stop : Nat) : Bytes :=
  let stop := min stop s.length
  let start := min start stop
  (s.padded.extract start stop).toList

/-! The least index from `start` on that passes a test, or `stop` if none below it does. -/

def firstIndex (test : Nat → Bool) (stop start : Nat) : Nat :=
  if start < stop then
    if test start then start else firstIndex test stop (start + 1)
  else start
termination_by stop - start

theorem le_firstIndex (test : Nat → Bool) (stop start : Nat) :
    start ≤ firstIndex test stop start := by
  fun_induction firstIndex test stop start with
  | case1 => exact Nat.le_refl _
  | case2 start _ _ ih => exact Nat.le_of_succ_le ih
  | case3 => exact Nat.le_refl _

theorem firstIndex_le {test : Nat → Bool} {stop start : Nat} (h : start ≤ stop) :
    firstIndex test stop start ≤ stop := by
  fun_induction firstIndex test stop start with
  | case1 => exact h
  | case2 start hlt _ ih => exact ih hlt
  | case3 => exact h

theorem test_firstIndex {test : Nat → Bool} {stop start : Nat}
    (h : firstIndex test stop start < stop) : test (firstIndex test stop start) = true := by
  fun_induction firstIndex test stop start with
  | case1 start _ htest => exact htest
  | case2 start _ _ ih => exact ih h
  | case3 start hge => exact absurd h hge

theorem test_before_firstIndex {test : Nat → Bool} {stop start i : Nat}
    (hstart : start ≤ i) (h : i < firstIndex test stop start) : test i = false := by
  fun_induction firstIndex test stop start with
  | case1 start _ _ => omega
  | case2 start _ htest ih =>
      by_cases heq : i = start
      · rw [heq]
        exact Bool.eq_false_iff.mpr htest
      · exact ih (by omega) h
  | case3 start _ => omega

end Source

end IdlLexis
