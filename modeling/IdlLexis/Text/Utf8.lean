import IdlLexis.Byte
/-!
Characters as UTF-8 bytes. Strict decoding takes well-formed bytes only. Lossy decoding takes
all bytes: each ill-formed stretch, cut as long as it could still begin a character, becomes
one replacement character.
-/

namespace IdlLexis

namespace Utf8

def encode (text : List Char) : Bytes := text.flatMap String.utf8EncodeChar

def decode? (bytes : Bytes) : Option String := String.fromUTF8? ⟨bytes.toArray⟩

theorem encode_toList (s : String) : encode s.toList = s.toByteArray.data.toList := by
  have h : s.toList.utf8Encode = s.toByteArray := by
    rw [← String.toByteArray_ofList, String.ofList_toList]
  rw [← h, List.utf8Encode, List.data_toByteArray]
  rfl

theorem decode?_eq_some_iff {bytes : Bytes} {s : String} :
    decode? bytes = some s ↔ encode s.toList = bytes := by
  rw [encode_toList, decode?, String.fromUTF8?]
  constructor
  · intro h
    split at h
    · cases h
      rfl
    · contradiction
  · intro h
    have hbytes : s.toByteArray = ⟨bytes.toArray⟩ := by
      apply ByteArray.ext
      rw [← h]
    rw [dif_pos (hbytes ▸ s.isValidUTF8)]
    apply congrArg some
    apply String.toByteArray_inj.mp
    exact hbytes.symm

/-! A lead byte gives the high bits of a character, the range of the byte after it, and how
many further bytes follow that one. The ranges leave out overlong forms, surrogates and what
lies beyond the last character. -/

structure Lead where
  bits : Nat
  low : Byte
  high : Byte
  further : Nat
  deriving DecidableEq, Repr

def Lead.ofByte? (b : Byte) : Option Lead :=
  if 0xc2 ≤ b ∧ b ≤ 0xdf then some ⟨b.toNat - 0xc0, 0x80, 0xbf, 0⟩
  else if b = 0xe0 then some ⟨0, 0xa0, 0xbf, 1⟩
  else if b = 0xed then some ⟨0xd, 0x80, 0x9f, 1⟩
  else if 0xe1 ≤ b ∧ b ≤ 0xef then some ⟨b.toNat - 0xe0, 0x80, 0xbf, 1⟩
  else if b = 0xf0 then some ⟨0, 0x90, 0xbf, 2⟩
  else if 0xf1 ≤ b ∧ b ≤ 0xf3 then some ⟨b.toNat - 0xf0, 0x80, 0xbf, 2⟩
  else if b = 0xf4 then some ⟨4, 0x80, 0x8f, 2⟩
  else none

def isContinuation (b : Byte) : Bool := 0x80 ≤ b && b ≤ 0xbf

def extend (bits : Nat) (b : Byte) : Nat := bits * 64 + (b.toNat - 0x80)

/-- The value that `further` continuation bytes complete, if they are all there. -/
def continuation (bits : Nat) : Nat → Bytes → Option Nat × Bytes
  | 0, rest => (some bits, rest)
  | _ + 1, [] => (none, [])
  | further + 1, b :: rest =>
      if isContinuation b then continuation (extend bits b) further rest
      else (none, b :: rest)

def afterLead (lead : Lead) : Bytes → Option Nat × Bytes
  | [] => (none, [])
  | b :: rest =>
      if lead.low ≤ b ∧ b ≤ lead.high then
        continuation (extend lead.bits b) lead.further rest
      else (none, b :: rest)

/-- The first character of `b :: rest`, or `none` for an ill-formed stretch. -/
def first (b : Byte) (rest : Bytes) : Option Char × Bytes :=
  if b < 0x80 then (some (Char.ofNat b.toNat), rest)
  else
    match Lead.ofByte? b with
    | some lead =>
        let (value, rest) := afterLead lead rest
        (value.map Char.ofNat, rest)
    | none => (none, rest)

theorem length_continuation (bits further : Nat) (bytes : Bytes) :
    (continuation bits further bytes).2.length ≤ bytes.length := by
  fun_induction continuation bits further bytes with
  | case1 => exact Nat.le_refl _
  | case2 => exact Nat.le_refl _
  | case3 _ _ _ _ _ ih => exact Nat.le_succ_of_le ih
  | case4 => exact Nat.le_refl _

theorem length_afterLead (lead : Lead) (bytes : Bytes) :
    (afterLead lead bytes).2.length ≤ bytes.length := by
  unfold afterLead
  split
  · exact Nat.le_refl _
  · split
    · exact Nat.le_succ_of_le (length_continuation ..)
    · exact Nat.le_refl _

theorem length_first (b : Byte) (rest : Bytes) :
    (first b rest).2.length ≤ rest.length := by
  unfold first
  split
  · exact Nat.le_refl _
  · split
    · exact length_afterLead ..
    · exact Nat.le_refl _

def replacement : Char := '\uFFFD'

def decodeLossy : Bytes → List Char
  | [] => []
  | b :: rest =>
      have := Nat.lt_succ_of_le (length_first b rest)
      (first b rest).1.getD replacement :: decodeLossy (first b rest).2
termination_by bytes => bytes.length

def lossy (bytes : Bytes) : String := String.ofList (decodeLossy bytes)

@[simp] theorem decodeLossy_nil : decodeLossy [] = [] := by
  rw [decodeLossy]

theorem decodeLossy_cons (b : Byte) (rest : Bytes) :
    decodeLossy (b :: rest) =
      (first b rest).1.getD replacement :: decodeLossy (first b rest).2 := by
  rw [decodeLossy]

theorem decodeLossy_ascii {b : Byte} (h : b < 0x80) (rest : Bytes) :
    decodeLossy (b :: rest) = Char.ofNat b.toNat :: decodeLossy rest := by
  rw [decodeLossy_cons, first, if_pos h]
  rfl

end Utf8

end IdlLexis
