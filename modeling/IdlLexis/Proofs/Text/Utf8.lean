import IdlLexis.Text.Utf8
/-!
Characters and their bytes. A character of ASCII is one byte below 0x80, and any other character
is a row of bytes from 0x80 on, so no byte of ASCII is ever a part of another character. Decoding
gives back the characters that were encoded.
-/

namespace IdlLexis

/-- Two neighbours in a text that is put together of two are neighbours in one of these, or meet
where these do. -/
theorem Text.pair_not_infix_append {α : Type} {a b : α} {front tail : List α}
    (hfront : ¬ [a, b] <:+: front) (htail : ¬ [a, b] <:+: tail)
    (hbetween : front.getLast? = some a → tail.head? ≠ some b) : ¬ [a, b] <:+: front ++ tail := by
  induction front with
  | nil => exact htail
  | cons c front ih =>
      rw [List.cons_append, List.infix_cons_iff, not_or]
      constructor
      · intro hstarts
        obtain ⟨hc, hrest⟩ := List.cons_prefix_cons.mp hstarts
        cases front with
        | nil =>
            obtain ⟨rest, hrest⟩ := hrest
            exact hbetween (congrArg some hc.symm) (by rw [← List.nil_append tail, ← hrest]; rfl)
        | cons d front =>
            obtain ⟨hd, _⟩ := List.cons_prefix_cons.mp hrest
            exact hfront ⟨[], front, by rw [hc, hd]; rfl⟩
      · refine ih (fun hinside => hfront (List.infix_cons hinside)) ?_
        intro hlast
        apply hbetween
        rw [List.getLast?_cons, hlast]
        rfl

namespace Utf8

variable {text other : List Char} {bytes : Bytes} {c : Char}

@[simp] theorem encode_nil : encode [] = [] := rfl

theorem encode_cons (c : Char) (text : List Char) :
    encode (c :: text) = String.utf8EncodeChar c ++ encode text := rfl

@[simp] theorem encode_append (text other : List Char) :
    encode (text ++ other) = encode text ++ encode other :=
  List.flatMap_append

theorem decode?_encode (s : String) : decode? (encode s.toList) = some s :=
  decode?_eq_some_iff.mpr rfl

theorem encode_injective (h : encode text = encode other) : text = other := by
  have htext := decode?_encode (String.ofList text)
  have hother := decode?_encode (String.ofList other)
  rw [String.toList_ofList] at htext hother
  rw [h, hother] at htext
  exact (String.ofList_injective (Option.some.inj htext)).symm

theorem encodeChar_ascii (h : c.toNat < 0x80) :
    String.utf8EncodeChar c = [UInt8.ofNat c.toNat] :=
  if_pos (Nat.le_of_lt_succ h)

theorem encodeChar_high (h : 0x80 ≤ c.toNat) :
    ∀ b ∈ String.utf8EncodeChar c, 0x80 ≤ b := by
  have hlow : ¬ c.val.toNat ≤ 0x7f := Nat.not_le_of_gt h
  have hmark {n : Nat} (hn : 0x80 ≤ n) (hlt : n < 0x100) : (0x80 : Byte) ≤ UInt8.ofNat n := by
    rw [UInt8.le_iff_toNat_le, UInt8.toNat_ofNat_of_lt' hlt]
    exact hn
  intro b hb
  simp only [String.utf8EncodeChar, if_neg hlow] at hb
  split at hb
  · simp only [List.mem_cons, List.not_mem_nil, or_false] at hb
    rcases hb with rfl | rfl <;> exact hmark (by omega) (by omega)
  · split at hb
    · simp only [List.mem_cons, List.not_mem_nil, or_false] at hb
      rcases hb with rfl | rfl | rfl <;> exact hmark (by omega) (by omega)
    · simp only [List.mem_cons, List.not_mem_nil, or_false] at hb
      rcases hb with rfl | rfl | rfl | rfl <;> exact hmark (by omega) (by omega)

/-! Bytes of ASCII, read as characters. -/

def asciiChar (b : Byte) : Char := Char.ofNat b.toNat

theorem encodeChar_asciiChar {b : Byte} (hb : b < 0x80) :
    String.utf8EncodeChar (asciiChar b) = [b] := by
  have hlt : b.toNat < 0x80 := hb
  have hvalid : b.toNat.isValidChar := Or.inl (by omega)
  have htoNat : (asciiChar b).toNat = b.toNat := by
    rw [asciiChar, Char.ofNat, dif_pos hvalid]
    rfl
  rw [encodeChar_ascii (htoNat ▸ hlt), htoNat, UInt8.ofNat_toNat]

theorem decode?_ascii (h : ∀ b ∈ bytes, b < 0x80) : ∃ s, decode? bytes = some s := by
  refine ⟨String.ofList (bytes.map asciiChar), decode?_eq_some_iff.mpr ?_⟩
  rw [String.toList_ofList, encode, List.flatMap_map]
  induction bytes with
  | nil => rfl
  | cons b bytes ih =>
      obtain ⟨hb, hbytes⟩ := List.forall_mem_cons.mp h
      rw [List.flatMap_cons, ih hbytes, encodeChar_asciiChar hb]
      rfl

/-- A byte of ASCII is in no character but its own. -/
theorem not_mem_encodeChar {b : Byte} (hb : b < 0x80) (hne : c ≠ asciiChar b) :
    b ∉ String.utf8EncodeChar c := by
  intro hmem
  by_cases hc : c.toNat < 0x80
  · rw [encodeChar_ascii hc, List.mem_singleton] at hmem
    apply hne
    rw [hmem, asciiChar, UInt8.toNat_ofNat_of_lt' (Nat.lt_trans hc (by decide)), Char.ofNat_toNat]
  · have hhigh := encodeChar_high (Nat.le_of_not_lt hc) b hmem
    exact absurd hb (UInt8.not_lt.mpr hhigh)

theorem eq_asciiChar_of_mem {b : Byte} (hb : b < 0x80) (hmem : b ∈ String.utf8EncodeChar c) :
    c = asciiChar b :=
  Decidable.byContradiction fun hne => not_mem_encodeChar hb hne hmem

theorem eq_cons_of_head? {b : Byte} (hb : b < 0x80) (h : (encode text).head? = some b) :
    ∃ rest, text = asciiChar b :: rest := by
  cases text with
  | nil => contradiction
  | cons c text =>
      obtain ⟨first, tail, hbytes⟩ :=
        List.exists_cons_of_ne_nil (String.utf8EncodeChar_ne_nil (c := c))
      rw [encode_cons, hbytes, List.cons_append, List.head?_cons] at h
      have hmem : b ∈ String.utf8EncodeChar c := by
        rw [hbytes, Option.some.inj h]
        exact List.mem_cons_self
      exact ⟨text, congrArg (· :: text) (eq_asciiChar_of_mem hb hmem)⟩

/-- Two bytes of ASCII stand side by side where their characters do, and nowhere else. -/
theorem pair_not_infix_encode {a b : Byte} (ha : a < 0x80) (hb : b < 0x80)
    (h : ¬ [asciiChar a, asciiChar b] <:+: text) : ¬ [a, b] <:+: encode text := by
  induction text with
  | nil =>
      intro hinfix
      have hlength := hinfix.length_le
      contradiction
  | cons c text ih =>
      rw [encode_cons]
      apply Text.pair_not_infix_append
      · intro hinside
        obtain rfl := eq_asciiChar_of_mem ha (hinside.subset List.mem_cons_self)
        have hlength := hinside.length_le
        rw [encodeChar_asciiChar ha] at hlength
        contradiction
      · exact ih fun hinside => h (List.infix_cons hinside)
      · intro hlast hhead
        obtain rfl := eq_asciiChar_of_mem ha (List.mem_of_getLast? hlast)
        obtain ⟨rest, rfl⟩ := eq_cons_of_head? hb hhead
        exact h ⟨[], rest, rfl⟩

/-! A character is read back from its bytes, whatever follows them. A byte that goes on with a
character carries six of its bits. -/

theorem toNat_mark {n : Nat} (h : n < 64) : (UInt8.ofNat (n + 128)).toNat = n + 128 := by
  have hlt : n + 128 < 0x100 := by omega
  exact UInt8.toNat_ofNat_of_lt' hlt

theorem extend_mark (bits : Nat) {n : Nat} (h : n < 64) :
    extend bits (UInt8.ofNat (n + 128)) = bits * 64 + n := by
  have htoNat := toNat_mark h
  unfold extend
  rw [htoNat, Nat.add_sub_cancel]

theorem low_mark {p : Prop} [Decidable p] {low : Byte} {n : Nat} (h : p → low.toNat ≤ n + 128) :
    (if p then low else 0x80).toNat ≤ n + 128 := by
  split
  · next hp => exact h hp
  · exact Nat.le_add_left ..

theorem high_mark {p : Prop} [Decidable p] {high : Byte} {n : Nat} (hn : n < 64)
    (h : p → n + 128 ≤ high.toNat) : n + 128 ≤ (if p then high else 0xbf).toNat := by
  split
  · next hp => exact h hp
  · exact Nat.add_le_add_right (Nat.le_of_lt_succ hn) 128

theorem isContinuation_mark {n : Nat} (h : n < 64) :
    isContinuation (UInt8.ofNat (n + 128)) = true := by
  have hlow : (0x80 : Byte).toNat ≤ n + 128 := Nat.le_add_left ..
  have hhigh : n + 128 ≤ (0xbf : Byte).toNat := Nat.add_le_add_right (Nat.le_of_lt_succ h) 128
  rw [isContinuation, Bool.and_eq_true, decide_eq_true_eq, decide_eq_true_eq,
    UInt8.le_iff_toNat_le, UInt8.le_iff_toNat_le, toNat_mark h]
  exact ⟨hlow, hhigh⟩

theorem continuation_mark (bits further : Nat) {n : Nat} (h : n < 64) (rest : Bytes) :
    continuation bits (further + 1) (UInt8.ofNat (n + 128) :: rest) =
      continuation (bits * 64 + n) further rest := by
  rw [continuation, if_pos (isContinuation_mark h), extend_mark bits h]

theorem afterLead_mark {lead : Lead} {n : Nat} (h : n < 64) (hlow : lead.low.toNat ≤ n + 128)
    (hhigh : n + 128 ≤ lead.high.toNat) (rest : Bytes) :
    afterLead lead (UInt8.ofNat (n + 128) :: rest) =
      continuation (lead.bits * 64 + n) lead.further rest := by
  have hrange : lead.low ≤ UInt8.ofNat (n + 128) ∧ UInt8.ofNat (n + 128) ≤ lead.high := by
    rw [UInt8.le_iff_toNat_le, UInt8.le_iff_toNat_le, toNat_mark h]
    exact ⟨hlow, hhigh⟩
  rw [afterLead, if_pos hrange, extend_mark _ h]

theorem first_of_lead {b : Byte} {lead : Lead} {rest after : Bytes}
    (hlead : Lead.ofByte? b = some lead) (hhigh : ¬ b < 0x80)
    (hafter : afterLead lead rest = (some c.toNat, after)) :
    first b rest = (some c, after) := by
  rw [first, if_neg hhigh, hlead]
  dsimp only
  rw [hafter, Option.map_some, Char.ofNat_toNat]

theorem lead_two : ∀ n < 32, 2 ≤ n →
    ¬ UInt8.ofNat (n + 192) < 0x80 ∧
      Lead.ofByte? (UInt8.ofNat (n + 192)) = some ⟨n, 0x80, 0xbf, 0⟩ := by
  decide

theorem lead_three : ∀ n < 16,
    ¬ UInt8.ofNat (n + 224) < 0x80 ∧
      Lead.ofByte? (UInt8.ofNat (n + 224)) =
        some ⟨n, if n = 0 then 0xa0 else 0x80, if n = 13 then 0x9f else 0xbf, 1⟩ := by
  decide

theorem lead_four : ∀ n < 5,
    ¬ UInt8.ofNat (n + 240) < 0x80 ∧
      Lead.ofByte? (UInt8.ofNat (n + 240)) =
        some ⟨n, if n = 0 then 0x90 else 0x80, if n = 4 then 0x8f else 0xbf, 2⟩ := by
  decide

theorem first_ascii (h : c.toNat < 0x80) (rest : Bytes) :
    first (UInt8.ofNat c.toNat) rest = (some c, rest) := by
  have htoNat : (UInt8.ofNat c.toNat).toNat = c.toNat :=
    UInt8.toNat_ofNat_of_lt' (Nat.lt_trans h (by decide))
  have hlow : UInt8.ofNat c.toNat < 0x80 := by
    rw [UInt8.lt_iff_toNat_lt, htoNat]
    exact h
  rw [first, if_pos hlow, htoNat, Char.ofNat_toNat]

theorem first_two {n m : Nat} (hn : 2 ≤ n ∧ n < 32) (hm : m < 64)
    (hc : c.toNat = n * 64 + m) (rest : Bytes) :
    first (UInt8.ofNat (n + 192)) (UInt8.ofNat (m + 128) :: rest) = (some c, rest) := by
  obtain ⟨hhigh, hlead⟩ := lead_two n hn.2 hn.1
  apply first_of_lead hlead hhigh
  have hlow : (0x80 : Byte).toNat ≤ m + 128 := Nat.le_add_left ..
  have hmark : m + 128 ≤ (0xbf : Byte).toNat := Nat.add_le_add_right (Nat.le_of_lt_succ hm) 128
  rw [afterLead_mark hm hlow hmark, continuation, hc]

theorem first_three {n m l : Nat} (hn : n < 16) (hm : m < 64) (hl : l < 64)
    (hlow : n = 0 → 32 ≤ m) (hhigh : n = 13 → m < 32)
    (hc : c.toNat = (n * 64 + m) * 64 + l) (rest : Bytes) :
    first (UInt8.ofNat (n + 224)) (UInt8.ofNat (m + 128) :: UInt8.ofNat (l + 128) :: rest) =
      (some c, rest) := by
  obtain ⟨hbyte, hlead⟩ := lead_three n hn
  apply first_of_lead hlead hbyte
  have hleast := fun hzero => Nat.add_le_add_right (hlow hzero) 128
  have hmost := fun hlast => Nat.add_le_add_right (Nat.le_of_lt_succ (hhigh hlast)) 128
  rw [afterLead_mark hm (low_mark hleast) (high_mark hm hmost), continuation_mark _ _ hl,
    continuation, hc]

theorem first_four {n m l k : Nat} (hn : n < 5) (hm : m < 64) (hl : l < 64) (hk : k < 64)
    (hlow : n = 0 → 16 ≤ m) (hhigh : n = 4 → m < 16)
    (hc : c.toNat = ((n * 64 + m) * 64 + l) * 64 + k) (rest : Bytes) :
    first (UInt8.ofNat (n + 240))
        (UInt8.ofNat (m + 128) :: UInt8.ofNat (l + 128) :: UInt8.ofNat (k + 128) :: rest) =
      (some c, rest) := by
  obtain ⟨hbyte, hlead⟩ := lead_four n hn
  apply first_of_lead hlead hbyte
  have hleast := fun hzero => Nat.add_le_add_right (hlow hzero) 128
  have hmost := fun hlast => Nat.add_le_add_right (Nat.le_of_lt_succ (hhigh hlast)) 128
  rw [afterLead_mark hm (low_mark hleast) (high_mark hm hmost), continuation_mark _ _ hl,
    continuation_mark _ _ hk, continuation, hc]

/-- The first of the bytes of a character leads to the others, and to nothing after them. -/
theorem first_encodeChar (c : Char) (rest : Bytes) :
    ∃ b tail, String.utf8EncodeChar c = b :: tail ∧ first b (tail ++ rest) = (some c, rest) := by
  have hvalid : c.toNat < 0xd800 ∨ (0xdfff < c.toNat ∧ c.toNat < 0x110000) := c.valid
  have hval : c.val.toNat = c.toNat := rfl
  rw [String.utf8EncodeChar, hval]
  split
  · next hone => exact ⟨_, _, rfl, first_ascii (Nat.lt_succ_of_le hone) rest⟩
  · split
    · refine ⟨_, _, rfl, first_two ⟨?_, ?_⟩ ?_ ?_ rest⟩ <;> omega
    · split
      · refine ⟨_, _, rfl, first_three ?_ ?_ ?_ ?_ ?_ ?_ rest⟩ <;> omega
      · refine ⟨_, _, rfl, first_four ?_ ?_ ?_ ?_ ?_ ?_ ?_ rest⟩ <;> omega

theorem decodeLossy_encode (text : List Char) : decodeLossy (encode text) = text := by
  induction text with
  | nil => exact decodeLossy_nil
  | cons c text ih =>
      obtain ⟨b, tail, hbytes, hfirst⟩ := first_encodeChar c (encode text)
      rw [encode_cons, hbytes, List.cons_append, decodeLossy_cons, hfirst, Option.getD_some, ih]

theorem lossy_encode (s : String) : lossy (encode s.toList) = s := by
  rw [lossy, decodeLossy_encode, String.ofList_toList]

end Utf8

end IdlLexis
