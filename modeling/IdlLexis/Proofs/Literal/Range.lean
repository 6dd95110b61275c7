import IdlLexis.Proofs.Literal.Digits
/-!
The range of integers, at every length. Digits stand after a sign, after the mark of a hexadecimal
number or at the very front, and their value is followed until it leaves the range or a byte is no
digit. Since each digit moves the value away from zero, the value has left the range on the way
just if the digits together write a value outside it; so the longest run of digits in front
settles what the text decodes to.
-/

namespace IdlLexis

open Lexeme (Stops)

namespace Literal

namespace Integer

/-- The integers of 64 signed bits. -/
def InRange (value : Int) : Prop := -0x8000000000000000 ≤ value ∧ value ≤ 0x7fffffffffffffff

instance (value : Int) : Decidable (InRange value) := inferInstanceAs (Decidable (_ ∧ _))

/-- What may stand before digits, the radix that it gives them, and whether they count down. -/
inductive Front : Bytes → Nat → Bool → Prop
  | unsigned : Front [] 10 false
  | plus : Front [0x2b] 10 false
  | minus : Front [0x2d] 10 true
  | hexadecimal : Front [Byte.zero, Byte.lowerX] 16 false

/-- The text begins with no sign and not with the mark of a hexadecimal number. -/
def Bare (text : Bytes) : Prop :=
  ∀ front radix negative, Front front radix negative → front <+: text → front = []

/-- The text is an integer literal with the value, whether that is in range or not. -/
inductive Writes : Bytes → Int → Prop
  | intro {front digits : Bytes} {radix number : Nat} {negative : Bool}
      (hfront : Front front radix negative) (hdigits : Digits radix digits number)
      (hne : digits ≠ []) : Writes (front ++ digits) (if negative then -number else number)

/-- A sign or the mark comes first, if the text has one. The run is the longest that stands after
it, and `rest` follows; the digits of the run have the value. -/
inductive Leads : (text front run rest : Bytes) → (value : Int) → Prop
  | intro {front run rest : Bytes} {radix number : Nat} {negative : Bool}
      (hfront : Front front radix negative) (hbare : front = [] → Bare (run ++ rest))
      (hrun : Digits radix run number) (hends : EndsDigits radix rest) :
      Leads (front ++ (run ++ rest)) front run rest (if negative then -number else number)

/-- A number, downwards after a minus sign. -/
def signed (n : Numeral) (m : Nat) : Int := if n.negative then -m else m

variable {n : Numeral} {front text digits run rest after zeros : Bytes}
  {radix number m more : Nat} {negative : Bool} {value : Int} {values : List Nat}

theorem fits_iff : fits value = true ↔ InRange value := by
  simp only [fits, InRange, Bool.and_eq_true, decide_eq_true_eq]
  omega

/-! What stands in front. -/

theorem Front.radix_le (h : Front front radix negative) : 0 < radix ∧ radix ≤ 16 := by
  cases h <;> decide

theorem Front.radix_eq_ten (h : Front front radix negative) (hnil : front = []) : radix = 10 := by
  cases h <;> first | rfl | contradiction

theorem exists_front (text : Bytes) :
    ∃ front radix negative more, text = front ++ more ∧ Front front radix negative ∧
      (front = [] → Bare more) := by
  by_cases hbare : Bare text
  · exact ⟨[], 10, false, text, rfl, .unsigned, fun _ => hbare⟩
  · simp only [Bare, not_forall] at hbare
    obtain ⟨front, radix, negative, hfront, ⟨more, rfl⟩, hne⟩ := hbare
    exact ⟨front, radix, negative, more, rfl, hfront, fun hnil => absurd hnil hne⟩

theorem exists_leads (text : Bytes) :
    ∃ front run rest value, Leads text front run rest value := by
  obtain ⟨front, radix, negative, more, rfl, hfront, hbare⟩ := exists_front text
  obtain ⟨run, rest, number, rfl, hrun, hends⟩ := exists_digits_append hfront.radix_le.2 more
  exact ⟨front, run, rest, _, .intro hfront hbare hrun hends⟩

theorem Bare.stops_sign (h : Bare text) : Stops Byte.isSign text := by
  rintro b hhead
  obtain ⟨more, rfl⟩ := List.head?_eq_some_iff.mp hhead
  refine Bool.or_eq_false_iff.mpr ⟨beq_false_of_ne ?_, beq_false_of_ne ?_⟩
  · rintro rfl
    exact List.cons_ne_nil _ _ (h _ _ _ .plus (List.prefix_append [_] more))
  · rintro rfl
    exact List.cons_ne_nil _ _ (h _ _ _ .minus (List.prefix_append [_] more))

theorem split_front (hfront : Front front radix negative) (hbare : front = [] → Bare after) :
    split (front ++ after) = ⟨radix, negative, after⟩ := by
  cases hfront with
  | unsigned =>
      have hafter := hbare rfl
      rw [List.nil_append, split]
      split
      · next digits hprefix =>
          rw [eq_append_of_isPrefixOf? hprefix] at hafter
          exact absurd (hafter _ _ _ .hexadecimal (List.prefix_append _ _)) (List.cons_ne_nil _ _)
      · rw [splitSign_of_stops hafter.stops_sign]
  | plus => rfl
  | minus => rfl
  | hexadecimal => rfl

/-- Decimal digits are not mistaken for what may stand in front of them, if a lone zero is not
followed by the letter of the mark. -/
theorem bare_append (hdigits : Digits 10 digits number) (hne : digits ≠ [])
    (hmark : digits = [Byte.zero] → rest.head? ≠ some Byte.lowerX) : Bare (digits ++ rest) := by
  obtain ⟨b, more, rfl⟩ := List.exists_cons_of_ne_nil hne
  have hisSome := hdigits.isSome (by decide)
  have hb := hisSome b List.mem_cons_self
  rintro front radix negative hfront ⟨after, hafter⟩
  cases hfront with
  | unsigned => rfl
  | plus =>
      obtain ⟨rfl, _⟩ := List.cons.inj hafter
      exact absurd hb (by decide)
  | minus =>
      obtain ⟨rfl, _⟩ := List.cons.inj hafter
      exact absurd hb (by decide)
  | hexadecimal =>
      obtain ⟨rfl, hrest⟩ := List.cons.inj hafter
      cases more with
      | nil => exact absurd (congrArg List.head? hrest).symm (hmark rfl)
      | cons c more =>
          obtain ⟨rfl, _⟩ := List.cons.inj hrest
          exact absurd (hisSome _ (List.mem_cons_of_mem _ List.mem_cons_self)) (by decide)

/-! Following the digits of a run. Digit by digit the value moves away from zero, so if it fits at
the end it has fitted all along; this holds for the least integer too, since digits after a minus
sign count downwards from the start. -/

theorem signed_zero (n : Numeral) : signed n 0 = 0 := by
  unfold signed
  split <;> rfl

theorem step_signed (n : Numeral) (m digit : Nat) :
    step n (signed n m) digit = signed n (m * n.radix + digit) := by
  cases hnegative : n.negative with
  | false =>
      simp only [step, signed, hnegative, Bool.false_eq_true, if_false, Int.natCast_add,
        Int.natCast_mul]
  | true =>
      simp only [step, signed, hnegative, if_true, Int.natCast_add, Int.natCast_mul]
      rw [Int.neg_mul, Int.neg_add, Int.sub_eq_add_neg]

theorem fits_of_le (hle : m ≤ more) (h : fits (signed n more) = true) :
    fits (signed n m) = true := by
  simp only [fits, Bool.and_eq_true, decide_eq_true_eq] at h ⊢
  cases hnegative : n.negative <;> simp only [signed, hnegative] at h ⊢ <;> simp at h ⊢ <;> omega

theorem le_extend {radix : Nat} (hradix : 0 < radix) : m ≤ extend radix m values := by
  induction values generalizing m with
  | nil => exact Nat.le_refl _
  | cons digit values ih =>
      have hstep : m ≤ m * radix + digit :=
        Nat.le_trans (Nat.le_mul_of_pos_right m hradix) (Nat.le_add_right ..)
      exact Nat.le_trans hstep ih

/-- Digits are followed to the value that they make up with the number before them, if that value
fits; if it does not, they are left at the first digit that makes up a value which does not. -/
theorem follow_signed (hradix : 0 < n.radix)
    (hdigits : digits.map (Byte.digitValue? n.radix) = values.map some)
    (hfits : fits (signed n m) = true) :
    follow n (signed n m) digits =
      if fits (signed n (extend n.radix m values)) then .ok (signed n (extend n.radix m values))
      else .error .integerOutOfRange := by
  induction digits generalizing m values with
  | nil =>
      cases values with
      | nil => exact (if_pos hfits).symm
      | cons digit values => contradiction
  | cons b digits ih =>
      cases values with
      | nil => contradiction
      | cons digit values =>
          obtain ⟨hb, hrest⟩ := List.cons.inj hdigits
          rw [follow, hb]
          dsimp only
          rw [step_signed]
          split
          · next hstep => exact ih hrest hstep
          · next hstep => exact (if_neg (mt (fits_of_le (le_extend hradix)) hstep)).symm

theorem follow_append (n : Numeral) (value : Int) (digits rest : Bytes) :
    follow n value (digits ++ rest) =
      (follow n value digits).bind fun reached => follow n reached rest := by
  induction digits generalizing value with
  | nil => rfl
  | cons b digits ih =>
      rw [List.cons_append, follow, follow]
      split
      · rfl
      · split
        · exact ih _
        · rfl

/-- The value of a run of digits is reached, or else the range is left before the run ends. -/
theorem follow_run (hradix : 0 < n.radix ∧ n.radix ≤ 16) (hrun : Digits n.radix run number) :
    follow n 0 run =
      if InRange (signed n number) then .ok (signed n number) else .error .integerOutOfRange := by
  obtain ⟨values, hvalues, rfl⟩ := hrun
  have hdigits := (forall₂_isDigit_iff hradix.2).mp hvalues
  have hzero : fits (signed n 0) = true := by
    rw [signed_zero]
    rfl
  have hfollow := follow_signed hradix.1 hdigits hzero
  rw [signed_zero, extend_zero] at hfollow
  simp only [hfollow, fits_iff]

theorem follow_rest (hradix : n.radix ≤ 16) (hends : EndsDigits n.radix rest) (value : Int) :
    follow n value rest = if rest = [] then .ok value else .error .malformedInteger := by
  cases rest with
  | nil => rfl
  | cons b rest =>
      have hb := (digitValue?_eq_none_iff hradix).mpr fun digit => hends b digit rfl
      rw [follow, hb, if_neg (List.cons_ne_nil b rest)]

/-- The longest run settles what the text decodes to, and what follows the run says only whether
the text is a literal at all. -/
theorem Leads.decode_eq (h : Leads text front run rest value) :
    decode text =
      if run = [] then .error (.malformedInteger (Utf8.lossy text))
      else if ¬ InRange value then .error (.integerOutOfRange (Utf8.lossy text))
      else if rest = [] then .ok value
      else .error (.malformedInteger (Utf8.lossy text)) := by
  cases h with
  | @intro front _ _ radix number negative hfront hbare hrun hends =>
      rw [decode, split_front hfront hbare]
      dsimp only
      by_cases hnil : run = []
      · rw [if_pos hnil, hnil, List.nil_append,
          @follow_rest ⟨radix, negative, rest⟩ _ hfront.radix_le.2 hends]
        cases rest <;> rfl
      · have hfilled : ¬ (run ++ rest).isEmpty = true := by simp [hnil]
        rw [if_neg hnil, if_neg hfilled, follow_append,
          @follow_run ⟨radix, negative, run ++ rest⟩ _ _ hfront.radix_le hrun, signed]
        dsimp only
        by_cases hrange : InRange (if negative then -number else number)
        · rw [if_pos hrange, if_neg (not_not_intro hrange), Except.bind,
            @follow_rest ⟨radix, negative, run ++ rest⟩ _ hfront.radix_le.2 hends]
          split <;> rfl
        · rw [if_neg hrange, if_pos hrange]
          rfl

/-! Texts that are literals, and texts that are not. -/

theorem writes_iff :
    Writes text value ↔ ∃ front run, run ≠ [] ∧ Leads text front run [] value := by
  constructor
  · intro h
    cases h with
    | @intro front digits _ _ _ hfront hdigits hne =>
        have hbare : front = [] → Bare (digits ++ []) := by
          intro hnil
          rw [hfront.radix_eq_ten hnil] at hdigits
          exact bare_append hdigits hne fun _ hhead => absurd hhead (by decide)
        have hleads := Leads.intro hfront hbare hdigits .nil
        rw [List.append_nil] at hleads
        exact ⟨front, digits, hne, hleads⟩
  · rintro ⟨front, run, hne, hleads⟩
    cases hleads with
    | intro hfront _ hrun _ =>
        rw [List.append_nil]
        exact .intro hfront hrun hne

theorem decode_of_writes (h : Writes text value) :
    decode text =
      if InRange value then .ok value else .error (.integerOutOfRange (Utf8.lossy text)) := by
  obtain ⟨front, run, hne, hleads⟩ := writes_iff.mp h
  rw [hleads.decode_eq, if_neg hne, if_pos rfl, ite_not]

theorem Leads.decode_of_not_writes (h : Leads text front run rest value)
    (hnot : ∀ value, ¬ Writes text value) :
    decode text =
      if run ≠ [] ∧ ¬ InRange value then .error (.integerOutOfRange (Utf8.lossy text))
      else .error (.malformedInteger (Utf8.lossy text)) := by
  have hrest : run ≠ [] → rest ≠ [] := by
    rintro hne rfl
    exact hnot value (writes_iff.mpr ⟨front, run, hne, h⟩)
  rw [h.decode_eq]
  by_cases hnil : run = []
  · rw [if_pos hnil, if_neg (fun hout => hout.1 hnil)]
  · by_cases hrange : InRange value
    · rw [if_neg hnil, if_neg (not_not_intro hrange), if_neg (hrest hnil),
        if_neg (fun hout => hout.2 hrange)]
    · rw [if_neg hnil, if_pos hrange, if_pos ⟨hnil, hrange⟩]

/-! Integers as they are written. -/

theorem digits_decimal (m : Nat) : Digits 10 (decimal m) m := by
  refine ⟨_, (forall₂_isDigit_iff (by decide)).mpr (encode_digits (isDigit_toDigits m)).2, ?_⟩
  rw [← extend_zero, extend_ten, Nat.ofDigitChars_ten_toDigits]

theorem writes_toString (value : Int) : Writes (Utf8.encode (toString value).toList) value := by
  obtain ⟨sign, m, hbytes, hvalue⟩ := encode_toString value
  rw [hbytes]
  rcases hvalue with ⟨rfl, rfl⟩ | ⟨rfl, rfl⟩
  · exact .intro .unsigned (digits_decimal m) (run_decimal m).ne_nil
  · exact .intro .minus (digits_decimal m) (run_decimal m).ne_nil

theorem decode_toString (value : Int) (hfits : fits value = true) :
    decode (Utf8.encode (toString value).toList) = .ok value := by
  rw [decode_of_writes (writes_toString value), if_pos (fits_iff.mp hfits)]

/-! Zeros in front of the other digits. -/

/-- Two texts decode alike; a failure may show a different text. -/
structure SameResult (text other : Bytes) : Prop where
  ok : ∀ value, decode text = .ok value ↔ decode other = .ok value
  outOfRange : decode text = .error (.integerOutOfRange (Utf8.lossy text)) ↔
    decode other = .error (.integerOutOfRange (Utf8.lossy other))
  malformed : decode text = .error (.malformedInteger (Utf8.lossy text)) ↔
    decode other = .error (.malformedInteger (Utf8.lossy other))

theorem Leads.zeros_append (h : Leads text front run rest value) (hne : run ≠ [])
    (hzeros : ∀ b ∈ zeros, b = Byte.zero) :
    Leads (front ++ (zeros ++ run ++ rest)) front (zeros ++ run) rest value := by
  cases h with
  | intro hfront hbare hrun hends =>
      have hmore := hrun.zeros_append hfront.radix_le.1 hzeros
      refine .intro hfront ?_ hmore hends
      intro hnil
      cases zeros with
      | nil => exact hbare hnil
      | cons b zeros =>
          rw [hfront.radix_eq_ten hnil] at hmore
          apply bare_append hmore (List.cons_ne_nil _ _)
          intro hlone
          exact absurd (List.append_eq_nil_iff.mp (List.cons.inj hlone).2).2 hne

theorem Leads.sameResult_zeros (h : Leads text front run rest value) (hne : run ≠ [])
    (hzeros : ∀ b ∈ zeros, b = Byte.zero) :
    SameResult text (front ++ (zeros ++ run ++ rest)) := by
  have hne' : zeros ++ run ≠ [] := List.append_ne_nil_of_right_ne_nil zeros hne
  have htext := h.decode_eq
  have hother := (h.zeros_append hne hzeros).decode_eq
  rw [if_neg hne] at htext
  rw [if_neg hne'] at hother
  constructor <;> rw [htext, hother] <;> split_ifs <;> simp

/-- Signs do not go with the mark of a hexadecimal number: the zero in it is the only digit. -/
theorem decode_signed_hexadecimal {b : Byte} (hb : Byte.isSign b = true) (more : Bytes) :
    decode (b :: Byte.zero :: Byte.lowerX :: more) =
      .error (.malformedInteger (Utf8.lossy (b :: Byte.zero :: Byte.lowerX :: more))) := by
  have hends : EndsDigits 10 (Byte.lowerX :: more) :=
    (endsDigits_iff_stops (by decide)).mpr (Lexeme.stops_cons.mpr rfl)
  have hzero : Digits 10 [Byte.zero] 0 := Digits.nil.zero_cons (by decide)
  have hleads : ∃ value, InRange value ∧
      Leads (b :: Byte.zero :: Byte.lowerX :: more) [b] [Byte.zero] (Byte.lowerX :: more)
        value := by
    rcases Bool.or_eq_true_iff.mp hb with hplus | hminus
    · rw [eq_of_beq hplus]
      exact ⟨_, by decide, .intro .plus (fun hnil => absurd hnil (by decide)) hzero hends⟩
    · rw [eq_of_beq hminus]
      exact ⟨_, by decide, .intro .minus (fun hnil => absurd hnil (by decide)) hzero hends⟩
  obtain ⟨value, hrange, hleads⟩ := hleads
  rw [hleads.decode_eq, if_neg (List.cons_ne_nil _ _), if_neg (not_not_intro hrange),
    if_neg (List.cons_ne_nil _ _)]

/-! The same with two operations a digit, each of which must stay within a word: the product with
the radix, then the sum or the difference. The product is nearer to zero than what comes of it, so
where the product leaves the word the digit would have left it too. -/

def followChecked (n : Numeral) (value : Int) : Bytes → Except (String → Failure) Int
  | [] => .ok value
  | b :: rest =>
      match Byte.digitValue? n.radix b with
      | none => .error .malformedInteger
      | some digit =>
          let product := value * n.radix
          let reached := if n.negative then product - digit else product + digit
          if fits product then
            if fits reached then followChecked n reached rest else .error .integerOutOfRange
          else .error .integerOutOfRange

def decodeChecked (text : Bytes) : Except Failure Int :=
  let n := split text
  if n.digits.isEmpty then .error (.malformedInteger (Utf8.lossy text))
  else (followChecked n 0 n.digits).mapError (· (Utf8.lossy text))

theorem signed_mul (n : Numeral) (m : Nat) : signed n m * n.radix = signed n (m * n.radix) := by
  unfold signed
  split
  · rw [Int.neg_mul, Int.natCast_mul]
  · rw [Int.natCast_mul]

theorem followChecked_signed (n : Numeral) (m : Nat) (text : Bytes) :
    followChecked n (signed n m) text = follow n (signed n m) text := by
  induction text generalizing m with
  | nil => rfl
  | cons b text ih =>
      rw [followChecked, follow]
      cases Byte.digitValue? n.radix b with
      | none => rfl
      | some digit =>
          have hreached : (if n.negative then signed n m * n.radix - digit
              else signed n m * n.radix + digit) = signed n (m * n.radix + digit) :=
            step_signed n m digit
          dsimp only
          rw [hreached, step_signed, signed_mul, ih]
          by_cases hproduct : fits (signed n (m * n.radix)) = true
          · rw [if_pos hproduct]
          · have hsum : ¬ fits (signed n (m * n.radix + digit)) = true :=
              mt (fits_of_le (Nat.le_add_right (m * n.radix) digit)) hproduct
            rw [if_neg hproduct, if_neg hsum]

theorem decodeChecked_eq (text : Bytes) : decodeChecked text = decode text := by
  have hfollow := followChecked_signed (split text) 0 (split text).digits
  rw [signed_zero] at hfollow
  rw [decodeChecked, decode, hfollow]

/-- A literal decodes to its value, or is refused for its range just if the value is outside it. Any
other text is refused: for the range just if its longest run of digits, which is not empty then,
already has a value outside it, and for its form otherwise. So zeros before the other digits never
matter, the least integer is read, and no hexadecimal number has a sign. Two operations a digit,
each with a check of its own, come to the same. -/
theorem decode_exact (text : Bytes) :
    (∀ value, Writes text value →
      decode text =
        if InRange value then .ok value else .error (.integerOutOfRange (Utf8.lossy text))) ∧
    ((∀ value, ¬ Writes text value) → ∀ front run rest value, Leads text front run rest value →
      decode text =
        if run ≠ [] ∧ ¬ InRange value then .error (.integerOutOfRange (Utf8.lossy text))
        else .error (.malformedInteger (Utf8.lossy text))) ∧
    (∃ front run rest value, Leads text front run rest value) ∧
    (∀ front run rest value, Leads text front run rest value → run ≠ [] →
      ∀ zeros : Bytes, (∀ b ∈ zeros, b = Byte.zero) →
        SameResult text (front ++ (zeros ++ run ++ rest))) ∧
    decode (Utf8.encode "-9223372036854775808".toList) = .ok (-0x8000000000000000) ∧
    (∀ b more, Byte.isSign b = true → text = b :: Byte.zero :: Byte.lowerX :: more →
      ∃ failure, decode text = .error failure) ∧
    decodeChecked text = decode text := by
  refine ⟨fun _ => decode_of_writes, ?_, exists_leads text, ?_, ?_, ?_, decodeChecked_eq text⟩
  · intro hnot front run rest value hleads
    exact hleads.decode_of_not_writes hnot
  · intro front run rest value hleads hne zeros hzeros
    exact hleads.sameResult_zeros hne hzeros
  · have hwritten : toString (-0x8000000000000000 : Int) = "-9223372036854775808" := by
      decide +kernel
    rw [← hwritten]
    exact decode_toString _ (by decide)
  · rintro b more hb rfl
    exact ⟨_, decode_signed_hexadecimal hb more⟩

/-- One below the least integer, and a letter after it that is never read. -/
theorem decode_exact_below_least :
    let run : Bytes :=
      [0x39, 0x32, 0x32, 0x33, 0x33, 0x37, 0x32, 0x30, 0x33, 0x36, 0x38, 0x35, 0x34, 0x37, 0x37,
        0x35, 0x38, 0x30, 0x39]
    let text : Bytes := [0x2d] ++ (run ++ [0x7a])
    decode text = .error (.integerOutOfRange (Utf8.lossy text)) ∧
      SameResult text ([0x2d] ++ ([Byte.zero, Byte.zero] ++ run ++ [0x7a])) ∧
      decodeChecked text = decode text := by
  intro run text
  have hvalues : run.map (Byte.digitValue? 10) =
      [9, 2, 2, 3, 3, 7, 2, 0, 3, 6, 8, 5, 4, 7, 7, 5, 8, 0, 9].map some := by
    decide
  have hrun : Digits 10 run 9223372036854775809 :=
    ⟨_, (forall₂_isDigit_iff (by decide)).mpr hvalues, by decide⟩
  have hends : EndsDigits 10 [0x7a] :=
    (endsDigits_iff_stops (by decide)).mpr (Lexeme.stops_cons.mpr rfl)
  have hleads := Leads.intro .minus (fun hnil => absurd hnil (List.cons_ne_nil _ _)) hrun hends
  have hnot : ∀ value, ¬ Writes text value := by
    intro value hwrites
    have hletter : (0x7a : Byte) ∈ text := by decide
    generalize text = written at hwrites hletter
    cases hwrites with
    | @intro front digits radix _ _ hfront hdigits _ =>
        have hnone : Byte.digitValue? radix 0x7a = none := by
          cases hfront <;> rfl
        rcases List.mem_append.mp hletter with hmem | hmem
        · cases hfront <;> exact absurd hmem (by decide)
        · exact hdigits.not_mem hfront.radix_le.2 hnone hmem
  obtain ⟨_, hother, _, hzeros, _, _, hchecked⟩ := decode_exact text
  have hout : ¬ InRange (if true then -(9223372036854775809 : Nat) else 9223372036854775809) := by
    rw [if_pos rfl, InRange]
    omega
  have hdecode := hother hnot _ _ _ _ hleads
  rw [if_pos ⟨List.cons_ne_nil _ _, hout⟩] at hdecode
  have hsame := hzeros _ _ _ _ hleads (List.cons_ne_nil _ _) [Byte.zero, Byte.zero] (by simp)
  exact ⟨hdecode, hsame, hchecked⟩

end Integer

end Literal

end IdlLexis
