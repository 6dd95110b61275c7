import IdlLexis.Literal.Real
import IdlLexis.Proofs.Lexeme.Number
import IdlLexis.Proofs.Literal.Decimal
/-!
What readers of numbers are known to take, and one reader that takes it. A reader takes more than a
real literal may be: a point with no digits before it, and words for what is no finite number. Digits
are never read as what is not a number, though they may be read as infinite.
-/

namespace IdlLexis

open Lexeme (OptionalExponent OptionalSign Run Stops)

namespace Binary64

variable {x : Binary64}

def isInfinite (x : Binary64) : Bool := x.magnitudeBits == infinityBits

theorem isFinite_or_isInfinite (h : x.isNaN = false) :
    x.isFinite = true ∨ x.isInfinite = true := by
  simp only [isNaN, isFinite, isInfinite, decide_eq_false_iff_not, decide_eq_true_eq,
    beq_iff_eq] at h ⊢
  omega

theorem isFinite_of_isInfinite (h : x.isInfinite = true) : x.isFinite = false := by
  simp only [isFinite, isInfinite, decide_eq_false_iff_not, beq_iff_eq] at h ⊢
  omega

theorem magnitudeBits_ofMagnitudeBits (negative : Bool) {bits : Nat} (h : bits < signBit) :
    (ofMagnitudeBits negative bits).magnitudeBits = bits := by
  have hbits : (if negative then signBit + bits else bits) < UInt64.size := by
    rw [signBit, UInt64.size] at *
    split <;> omega
  rw [magnitudeBits, ofMagnitudeBits, UInt64.toNat_ofNat_of_lt' hbits]
  split
  · rw [Nat.add_mod_left, Nat.mod_eq_of_lt h]
  · exact Nat.mod_eq_of_lt h

theorem isNaN_ofMagnitudeBits (negative : Bool) {bits : Nat} (h : bits ≤ infinityBits) :
    (ofMagnitudeBits negative bits).isNaN = false := by
  have hsign : bits < signBit := Nat.lt_of_le_of_lt h (by decide)
  rw [isNaN, magnitudeBits_ofMagnitudeBits negative hsign]
  exact decide_eq_false (Nat.not_lt.mpr h)

theorem nearestBits_le (a : Fraction) : nearestBits a ≤ infinityBits := by
  unfold nearestBits
  split
  · exact Nat.zero_le _
  · exact Nat.min_le_right _ _

/-- A number in decimal has a nearest number, which may be infinite. -/
theorem isNaN_ofDecimal (d : Decimal) : (ofDecimal d).isNaN = false := by
  apply isNaN_ofMagnitudeBits
  split
  · exact Nat.zero_le _
  · split
    · exact Nat.le_refl _
    · split
      · exact Nat.zero_le _
      · exact nearestBits_le _

end Binary64

namespace Literal

namespace Real

/-! The texts that a reader takes. -/

/-- Nothing, or a point and the digits after it, of which there may be none. -/
inductive OptionalPoint : (text fraction : Bytes) → Prop
  | absent : OptionalPoint [] []
  | present {fraction : Bytes} (hfraction : ∀ b ∈ fraction, Byte.isDigit b = true) :
      OptionalPoint (Byte.dot :: fraction) fraction

/-- Digits, with a point behind them, in front of them or among them. -/
inductive Figures : Bytes → Prop
  | whole {whole : Bytes} (hwhole : Run Byte.isDigit whole) : Figures whole
  | trailing {whole fraction : Bytes} (hwhole : Run Byte.isDigit whole)
      (hfraction : ∀ b ∈ fraction, Byte.isDigit b = true) :
      Figures (whole ++ Byte.dot :: fraction)
  | leading {whole fraction : Bytes} (hwhole : ∀ b ∈ whole, Byte.isDigit b = true)
      (hfraction : Run Byte.isDigit fraction) : Figures (whole ++ Byte.dot :: fraction)

inductive NumberForm : Bytes → Prop
  | intro {sign figures exponent : Bytes} (hsign : OptionalSign sign) (hfigures : Figures figures)
      (hexponent : OptionalExponent exponent) : NumberForm (sign ++ (figures ++ exponent))

def lowercase (b : Byte) : Byte := if Byte.isUpper b then b + 0x20 else b

def words : List Bytes := ["inf", "infinity", "nan"].map fun word => Utf8.encode word.toList

inductive WordForm : Bytes → Prop
  | intro {sign letters : Bytes} (hsign : OptionalSign sign)
      (hword : letters.map lowercase ∈ words) : WordForm (sign ++ letters)

/-- What is known of a reader of numbers: the texts that it reads, and that digits are never read
as what is not a number. -/
structure Documented (read : String → Option Binary64) : Prop where
  isSome_iff : ∀ s, (read s).isSome = true ↔
    NumberForm (Utf8.encode s.toList) ∨ WordForm (Utf8.encode s.toList)
  isNaN : ∀ s x, NumberForm (Utf8.encode s.toList) → read s = some x → x.isNaN = false

variable {whole point fraction exponent figures text : Bytes}

/-! A reader of numbers that keeps to its grammar. -/

def number? (text : Bytes) : Option Decimal :=
  let unsigned := (splitSign text).2
  let whole := unsigned.takeWhile Byte.isDigit
  let after := splitFraction (unsigned.dropWhile Byte.isDigit)
  if (whole ++ after.1).isEmpty then none
  else (exponent? after.2).map fun exponent =>
    ⟨(splitSign text).1, digitValues (whole ++ after.1), exponent - after.1.length⟩

def word? (text : Bytes) : Option Binary64 :=
  let letters := (splitSign text).2.map lowercase
  if letters ∈ words then
    some (.ofMagnitudeBits (splitSign text).1
      (if letters.head? = some 0x6e then 0x7ff8000000000000 else Binary64.infinityBits))
  else none

def readText (s : String) : Option Binary64 :=
  ((number? (Utf8.encode s.toList)).map Binary64.ofDecimal).or (word? (Utf8.encode s.toList))

theorem exponent?_of_optional (h : OptionalExponent text) : ∃ e, exponent? text = some e := by
  rcases h with rfl | ⟨mark, sign, digits, hmark, hsign, hdigits, rfl⟩
  · exact ⟨0, rfl⟩
  · obtain ⟨negative, hsplit⟩ := splitSign_append hsign hdigits.stops_sign
    have hall :
        (Byte.isExponentMark mark && !digits.isEmpty && digits.all Byte.isDigit) = true := by
      simp [hmark, hdigits.ne_nil, List.all_eq_true.mpr hdigits.2]
    rw [List.cons_append, exponent?, hsplit]
    dsimp only
    rw [if_pos hall]
    exact ⟨_, rfl⟩

theorem stops_exponent (h : OptionalExponent text) : Stops Byte.isDigit text := by
  by_cases hnil : text = []
  · rw [hnil]
    exact Lexeme.stops_nil
  · rw [← List.append_nil text]
    exact h.stops hnil

/-- Wherever the point is, there is a digit on one side of it. -/
theorem figures_iff : Figures figures ↔
    ∃ whole point fraction, figures = whole ++ point ∧ (∀ b ∈ whole, Byte.isDigit b = true) ∧
      OptionalPoint point fraction ∧ whole ++ fraction ≠ [] := by
  constructor
  · intro h
    cases h with
    | whole hwhole =>
        exact ⟨figures, [], [], (List.append_nil _).symm, hwhole.2, .absent,
          by simp [hwhole.ne_nil]⟩
    | @trailing whole fraction hwhole hfraction =>
        exact ⟨whole, _, fraction, rfl, hwhole.2, .present hfraction, by simp [hwhole.ne_nil]⟩
    | @leading whole fraction hwhole hfraction =>
        exact ⟨whole, _, fraction, rfl, hwhole, .present hfraction.2, by simp [hfraction.ne_nil]⟩
  · rintro ⟨whole, point, fraction, rfl, hwhole, hpoint, hne⟩
    cases hpoint with
    | absent =>
        rw [List.append_nil] at hne ⊢
        exact .whole ⟨hne, hwhole⟩
    | present hfraction =>
        by_cases hnil : whole = []
        · rw [hnil, List.nil_append] at hne
          exact .leading hwhole ⟨hne, hfraction⟩
        · exact .trailing ⟨hnil, hwhole⟩ hfraction

theorem stops_point (hpoint : OptionalPoint point fraction)
    (hexponent : OptionalExponent exponent) : Stops Byte.isDigit (point ++ exponent) := by
  cases hpoint with
  | absent => exact stops_exponent hexponent
  | present _ => exact Lexeme.stops_dot

theorem splitFraction_append (hpoint : OptionalPoint point fraction)
    (hexponent : OptionalExponent exponent) :
    splitFraction (point ++ exponent) = (fraction, exponent) := by
  cases hpoint with
  | present hfraction =>
      have hstops := stops_exponent hexponent
      rw [List.cons_append, splitFraction, if_pos rfl, Lexeme.takeWhile_run hfraction hstops,
        Lexeme.dropWhile_run hfraction hstops]
  | absent =>
      rcases hexponent with rfl | ⟨mark, sign, digits, hmark, _, _, rfl⟩
      · rfl
      · have hdot : mark ≠ Byte.dot := by
          rintro rfl
          exact absurd hmark (by decide)
        rw [List.nil_append, List.cons_append, splitFraction, if_neg hdot]

theorem exists_point (text : Bytes) :
    ∃ point, OptionalPoint point (splitFraction text).1 ∧
      text = point ++ (splitFraction text).2 := by
  cases text with
  | nil => exact ⟨[], .absent, rfl⟩
  | cons b text =>
      rw [splitFraction]
      split
      · next hdot =>
          obtain ⟨run, tail, rfl, hrun, hstops⟩ := Lexeme.exists_run Byte.isDigit text
          rw [Lexeme.takeWhile_run hrun hstops, Lexeme.dropWhile_run hrun hstops, hdot]
          exact ⟨Byte.dot :: run, .present hrun, rfl⟩
      · exact ⟨[], .absent, rfl⟩

theorem optional_of_exponent? {e : Int} (h : exponent? text = some e) : OptionalExponent text := by
  cases text with
  | nil => exact .nil
  | cons mark rest =>
      rw [exponent?] at h
      dsimp only at h
      split at h
      · next hall =>
          simp only [Bool.and_eq_true, Bool.not_eq_true', List.isEmpty_eq_false_iff,
            List.all_eq_true] at hall
          obtain ⟨⟨hmark, hne⟩, hdigits⟩ := hall
          obtain ⟨sign, hsign, hrest⟩ := exists_sign rest
          exact .inr ⟨mark, sign, _, hmark, hsign, ⟨hne, hdigits⟩, congrArg (mark :: ·) hrest⟩
      · contradiction

theorem Figures.stops_sign (h : Figures figures) (more : Bytes) :
    Stops Byte.isSign (figures ++ more) := by
  cases h with
  | whole hwhole => exact hwhole.stops_sign.append hwhole.ne_nil more
  | trailing hwhole _ =>
      rw [List.append_assoc]
      exact hwhole.stops_sign.append hwhole.ne_nil _
  | @leading whole fraction hwhole _ =>
      rw [List.append_assoc]
      by_cases hnil : whole = []
      · rw [hnil]
        exact Lexeme.stops_cons.mpr (by decide)
      · have hrun : Run Byte.isDigit whole := ⟨hnil, hwhole⟩
        exact hrun.stops_sign.append hnil _

theorem number?_isSome_iff : (number? text).isSome = true ↔ NumberForm text := by
  constructor
  · intro h
    obtain ⟨sign, hsign, htext⟩ := exists_sign text
    obtain ⟨whole, more, hunsigned, hwhole, hstops⟩ :=
      Lexeme.exists_run Byte.isDigit (splitSign text).2
    obtain ⟨point, hpoint, hmore⟩ := exists_point more
    rw [number?, hunsigned, Lexeme.takeWhile_run hwhole hstops,
      Lexeme.dropWhile_run hwhole hstops] at h
    split at h
    · contradiction
    · next hfilled =>
        rw [Option.isSome_map] at h
        obtain ⟨e, he⟩ := Option.isSome_iff_exists.mp h
        have hne : whole ++ (splitFraction more).1 ≠ [] := fun hnil => hfilled (by rw [hnil]; rfl)
        have hfigures := figures_iff.mpr ⟨whole, point, _, rfl, hwhole, hpoint, hne⟩
        rw [htext, hunsigned, hmore, ← List.append_assoc whole]
        exact .intro hsign hfigures (optional_of_exponent? he)
  · rintro ⟨hsign, hfigures, hexponent⟩
    obtain ⟨negative, hsplit⟩ := splitSign_append hsign (hfigures.stops_sign _)
    obtain ⟨whole, point, fraction, rfl, hwhole, hpoint, hne⟩ := figures_iff.mp hfigures
    obtain ⟨e, he⟩ := exponent?_of_optional hexponent
    have hstops := stops_point hpoint hexponent
    have hfilled : ¬ (whole ++ fraction).isEmpty = true := by simpa using hne
    rw [number?, hsplit]
    dsimp only
    rw [List.append_assoc, Lexeme.takeWhile_run hwhole hstops, Lexeme.dropWhile_run hwhole hstops,
      splitFraction_append hpoint hexponent, if_neg hfilled, he]
    rfl

/-! Words. -/

theorem word_head : ∀ word ∈ words, ∃ b, word.head? = some b ∧ Byte.isLower b = true := by
  decide +kernel

theorem isLower_lowercase : ∀ b, Byte.isLower (lowercase b) = true →
    Byte.isSign b = false ∧ Byte.isDigit b = false := by
  decide +kernel

/-- A word begins with a letter. -/
theorem stops_word {letters : Bytes} (hword : letters.map lowercase ∈ words) :
    Stops Byte.isSign letters ∧ letters.head?.any Byte.isDigit = false := by
  obtain ⟨b, hhead, hlower⟩ := word_head _ hword
  cases letters with
  | nil => contradiction
  | cons c letters =>
      cases hhead
      obtain ⟨hsign, hdigit⟩ := isLower_lowercase c hlower
      exact ⟨Lexeme.stops_cons.mpr hsign, hdigit⟩

theorem word?_isSome_iff : (word? text).isSome = true ↔ WordForm text := by
  constructor
  · intro h
    obtain ⟨sign, hsign, htext⟩ := exists_sign text
    rw [word?] at h
    split at h
    · next hword =>
        rw [htext]
        exact .intro hsign hword
    · contradiction
  · rintro ⟨hsign, hword⟩
    obtain ⟨negative, hsplit⟩ := splitSign_append hsign (stops_word hword).1
    rw [word?, hsplit, if_pos hword]
    rfl

theorem documented_readText : Documented readText where
  isSome_iff s := by
    rw [readText, Option.isSome_or, Option.isSome_map, Bool.or_eq_true, number?_isSome_iff,
      word?_isSome_iff]
  isNaN s x hnumber hread := by
    obtain ⟨d, hd⟩ := Option.isSome_iff_exists.mp (number?_isSome_iff.mpr hnumber)
    rw [readText, hd] at hread
    cases hread
    exact Binary64.isNaN_ofDecimal d

end Real

end Literal

end IdlLexis
