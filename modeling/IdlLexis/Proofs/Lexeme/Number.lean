import IdlLexis.Proofs.Lexeme.Opening
import IdlLexis.Proofs.Source.Moves
/-!
Numbers. The digits that a number begins with are the same in every reading of the text, so the
byte after them decides between an integer and a real; what may follow a point is settled in the
same way, run by run.
-/

namespace IdlLexis

namespace Lexeme

variable {sign other digits others tail more text : Bytes}

theorem isDigit_of_isExponentMark : ∀ b, Byte.isExponentMark b = true → Byte.isDigit b = false := by
  decide +kernel

theorem quote_of_isSign : ∀ b, Byte.isSign b = true → Quote.ofByte? b = none := by
  decide +kernel

/-- A text splits in one way only into a sign or none and digits. -/
theorem sign_unique (hsign : OptionalSign sign) (hother : OptionalSign other)
    (hdigits : Run Byte.isDigit digits) (hothers : Run Byte.isDigit others)
    (heq : other ++ (others ++ more) = sign ++ (digits ++ tail)) :
    other = sign ∧ others ++ more = digits ++ tail := by
  obtain ⟨d, rest, rfl, hd⟩ := hdigits.exists_cons
  obtain ⟨e, otherRest, rfl, he⟩ := hothers.exists_cons
  rcases hsign with rfl | ⟨b, hb, rfl⟩
  · rcases hother with rfl | ⟨c, hc, rfl⟩
    · exact ⟨rfl, heq⟩
    · obtain ⟨rfl, _⟩ := List.cons.inj heq
      rw [isDigit_of_isSign c hc] at hd
      contradiction
  · rcases hother with rfl | ⟨c, hc, rfl⟩
    · obtain ⟨rfl, _⟩ := List.cons.inj heq
      rw [isDigit_of_isSign e hb] at he
      contradiction
    · obtain ⟨rfl, hrest⟩ := List.cons.inj heq
      exact ⟨rfl, hrest⟩

/-! Exponents. -/

/-- An exponent begins here, with a digit at least. -/
def BeginsExponent (text : Bytes) : Prop :=
  ∃ mark sign digit more, Byte.isExponentMark mark = true ∧ OptionalSign sign ∧
    Byte.isDigit digit = true ∧ text = mark :: (sign ++ digit :: more)

/-- The exponent is the longest that its text begins with. -/
inductive ExponentEnds : (exponent tail : Bytes) → Prop
  | absent {tail : Bytes} (h : ¬ BeginsExponent tail) : ExponentEnds [] tail
  | present {mark : Byte} {sign digits tail : Bytes} (hmark : Byte.isExponentMark mark = true)
      (hsign : OptionalSign sign) (hdigits : Run Byte.isDigit digits)
      (hstops : Stops Byte.isDigit tail) : ExponentEnds (mark :: (sign ++ digits)) tail

theorem exists_exponent (text : Bytes) :
    ∃ exponent tail, text = exponent ++ tail ∧ ExponentEnds exponent tail := by
  by_cases hbegins : BeginsExponent text
  · obtain ⟨mark, sign, digit, more, hmark, hsign, hdigit, rfl⟩ := hbegins
    obtain ⟨run, tail, rfl, hrun, hstops⟩ := exists_run Byte.isDigit more
    have hpresent := ExponentEnds.present hmark hsign (.cons hdigit hrun) hstops
    exact ⟨mark :: (sign ++ digit :: run), tail, by simp, hpresent⟩
  · exact ⟨[], text, rfl, .absent hbegins⟩

theorem ExponentEnds.optional {exponent : Bytes} (h : ExponentEnds exponent tail) :
    OptionalExponent exponent := by
  cases h with
  | absent _ => exact .inl rfl
  | present hmark hsign hdigits _ => exact .inr ⟨_, _, _, hmark, hsign, hdigits, rfl⟩

theorem ExponentEnds.length_le {exponent : Bytes} (h : ExponentEnds exponent tail)
    (hother : OptionalExponent other) (heq : other ++ more = exponent ++ tail) :
    other.length ≤ exponent.length := by
  rcases hother with rfl | ⟨mark, sign, digits, hmark, hsign, hdigits, rfl⟩
  · exact Nat.zero_le _
  · rw [List.cons_append, List.cons_append, List.append_assoc] at heq
    cases h with
    | absent habsent =>
        obtain ⟨digit, rest, rfl, hdigit⟩ := hdigits.exists_cons
        exact absurd ⟨mark, sign, digit, rest ++ more, hmark, hsign, hdigit, heq.symm⟩ habsent
    | present _ hsign' hdigits' hstops =>
        rw [List.cons_append, List.append_assoc] at heq
        obtain ⟨rfl, hrest⟩ := sign_unique hsign' hsign hdigits' hdigits (List.cons.inj heq).2
        have hlength := run_length_le hrest hdigits.2 hstops
        simp only [List.cons_append, List.length_cons, List.length_append]
        omega

theorem OptionalExponent.stops {exponent : Bytes} (h : OptionalExponent exponent)
    (hne : exponent ≠ []) : Stops Byte.isDigit (exponent ++ tail) := by
  rcases h with rfl | ⟨mark, sign, digits, hmark, _, _, rfl⟩
  · exact absurd rfl hne
  · exact stops_cons.mpr (isDigit_of_isExponentMark mark hmark)

/-! Which number a text begins with. -/

def BeginsHex (text : Bytes) : Prop :=
  ∃ digit more, Byte.isHexDigit digit = true ∧ text = Byte.zero :: Byte.lowerX :: digit :: more

theorem Covers.number {category : Category} {longer : Bytes} (h : Covers category longer)
    (hsign : OptionalSign sign) (hdigits : Run Byte.isDigit digits)
    (heq : longer ++ more = sign ++ (digits ++ tail)) :
    category = .integer ∨ category = .hexInteger ∨ category = .real := by
  cases hlonger : longer with
  | nil => exact absurd hlonger h.ne_nil
  | cons b rest =>
      have hhead : (sign ++ digits ++ tail).head? = some b := by
        rw [List.append_assoc, ← heq, hlonger]
        rfl
      have hbegins : category.mayBegin b = true := h.mayBegin (by rw [hlonger]; rfl)
      rcases hsign.head_digits hdigits hhead with hb | hb
      · rcases Category.mayBegin_sign b hb _ hbegins with hint | hreal
        · exact .inl hint
        · exact .inr (.inr hreal)
      · exact Category.mayBegin_digit b hb _ hbegins

theorem run_zero : Run Byte.isDigit [Byte.zero] :=
  Run.cons (by decide) (by simp)

/-- A hexadecimal number has one decimal digit in front and no sign. -/
theorem hex_split (hsign : OptionalSign sign) (hdigits : Run Byte.isDigit digits)
    (heq : Byte.zero :: Byte.lowerX :: more = sign ++ (digits ++ tail)) :
    sign = [] ∧ [Byte.zero] ++ Byte.lowerX :: more = digits ++ tail := by
  have hsplit : [] ++ ([Byte.zero] ++ Byte.lowerX :: more) = sign ++ (digits ++ tail) := heq
  obtain ⟨hnil, hrest⟩ := sign_unique hsign .nil hdigits run_zero hsplit
  exact ⟨hnil.symm, hrest⟩

theorem stops_lowerX : Stops Byte.isDigit (Byte.lowerX :: text) := stops_cons.mpr (by decide)

theorem stops_dot : Stops Byte.isDigit (Byte.dot :: text) := stops_cons.mpr (by decide)

theorem isLongest_integer (hsign : OptionalSign sign) (hdigits : Run Byte.isDigit digits)
    (hstops : Stops Byte.isDigit tail) (hdot : tail.head? ≠ some Byte.dot)
    (hhex : ¬ BeginsHex (sign ++ (digits ++ tail))) :
    IsLongest .integer (sign ++ digits) (sign ++ digits ++ tail) := by
  apply isLongest_append (.integer hsign hdigits)
  intro category longer more hother heq
  rw [List.append_assoc] at heq
  rcases hother.number hsign hdigits heq with rfl | rfl | rfl
  · cases hother with
    | integer hsign' hdigits' =>
        rw [List.append_assoc] at heq
        obtain ⟨rfl, hrest⟩ := sign_unique hsign hsign' hdigits hdigits' heq
        have hlength := run_length_le hrest hdigits'.2 hstops
        rw [List.length_append, List.length_append]
        omega
  · cases hother with
    | hexInteger hhexDigits =>
        obtain ⟨digit, rest, rfl, hdigit⟩ := hhexDigits.exists_cons
        exact absurd ⟨digit, rest ++ more, hdigit, heq.symm⟩ hhex
  · cases hother with
    | @real sign' whole fraction exponent hsign' hwhole _ _ =>
        simp only [List.append_assoc, List.cons_append] at heq
        obtain ⟨rfl, hrest⟩ := sign_unique hsign hsign' hdigits hwhole heq
        obtain ⟨_, htail⟩ := run_unique hrest hwhole.2 hdigits.2 stops_dot hstops
        rw [← htail] at hdot
        exact absurd rfl hdot

theorem isLongest_real {fraction exponent : Bytes} (hsign : OptionalSign sign)
    (hwhole : Run Byte.isDigit digits) (hfraction : ∀ b ∈ fraction, Byte.isDigit b = true)
    (hexponent : ExponentEnds exponent tail) (hstops : Stops Byte.isDigit (exponent ++ tail)) :
    IsLongest .real (sign ++ digits ++ Byte.dot :: fraction ++ exponent)
      (sign ++ digits ++ Byte.dot :: fraction ++ exponent ++ tail) := by
  apply isLongest_append (.real hsign hwhole hfraction hexponent.optional)
  intro category longer more hother heq
  simp only [List.append_assoc, List.cons_append] at heq
  rcases hother.number hsign hwhole heq with rfl | rfl | rfl
  · cases hother with
    | integer hsign' hdigits' =>
        rw [List.append_assoc] at heq
        obtain ⟨rfl, hrest⟩ := sign_unique hsign hsign' hwhole hdigits' heq
        have hlength := run_length_le hrest hdigits'.2 stops_dot
        simp only [List.length_append]
        omega
  · cases hother with
    | hexInteger _ =>
        obtain ⟨_, hrest⟩ := hex_split hsign hwhole heq
        obtain ⟨_, hdot⟩ := run_unique hrest run_zero.2 hwhole.2 stops_lowerX stops_dot
        exact absurd (List.cons.inj hdot).1 (by decide)
  · cases hother with
    | @real sign' whole fraction' exponent' hsign' hwhole' hfraction' hexponent' =>
        simp only [List.append_assoc, List.cons_append] at heq
        obtain ⟨rfl, hrest⟩ := sign_unique hsign hsign' hwhole hwhole' heq
        obtain ⟨rfl, hdot⟩ := run_unique hrest hwhole'.2 hwhole.2 stops_dot stops_dot
        have hfractions := (List.cons.inj hdot).2
        have hlength := run_length_le hfractions hfraction' hstops
        simp only [List.length_append, List.length_cons]
        by_cases hnil : exponent' = []
        · rw [hnil, List.length_nil]
          omega
        · obtain ⟨rfl, htail⟩ := run_unique hfractions hfraction' hfraction
            (hexponent'.stops hnil) hstops
          have hexponents := hexponent.length_le hexponent' htail
          omega

theorem isLongest_hexInteger (hdigits : Run Byte.isHexDigit digits)
    (hstops : Stops Byte.isHexDigit tail) :
    IsLongest .hexInteger (Byte.zero :: Byte.lowerX :: digits)
      (Byte.zero :: Byte.lowerX :: digits ++ tail) := by
  apply isLongest_append (.hexInteger hdigits)
  intro category longer more hother heq
  have hsplit : longer ++ more = [] ++ ([Byte.zero] ++ Byte.lowerX :: (digits ++ tail)) := heq
  rcases hother.number .nil run_zero hsplit with rfl | rfl | rfl
  · cases hother with
    | integer hsign' hdigits' =>
        rw [List.append_assoc] at heq
        obtain ⟨rfl, hrest⟩ := hex_split hsign' hdigits' heq.symm
        have hlength := run_length_le hrest.symm hdigits'.2 stops_lowerX
        simp only [List.length_cons, List.length_nil, List.nil_append] at hlength ⊢
        omega
  · cases hother with
    | hexInteger hdigits' =>
        have hrest := (List.cons.inj (List.cons.inj heq).2).2
        exact Nat.succ_le_succ (Nat.succ_le_succ (run_length_le hrest hdigits'.2 hstops))
  · cases hother with
    | real hsign' hwhole' _ _ =>
        simp only [List.append_assoc, List.cons_append] at heq
        obtain ⟨_, hrest⟩ := hex_split hsign' hwhole' heq.symm
        obtain ⟨_, hdot⟩ := run_unique hrest run_zero.2 hwhole'.2 stops_lowerX stops_dot
        exact absurd (List.cons.inj hdot).1 (by decide)

/-- A sign that no digit follows is covered by nothing. -/
theorem uncovered_sign {b : Byte} (hb : Byte.isSign b = true)
    (hdigit : Byte.isDigit (text.headD 0) = false) : Uncovered (b :: text) := by
  have hnone : ∀ sign digits more, OptionalSign sign → Run Byte.isDigit digits →
      sign ++ (digits ++ more) = b :: text → False := by
    intro sign digits more hsign hdigits heq
    obtain ⟨d, rest, rfl, hd⟩ := hdigits.exists_cons
    rcases hsign with rfl | ⟨c, _, rfl⟩
    · rw [(List.cons.inj heq).1, isDigit_of_isSign b hb] at hd
      contradiction
    · rw [← (List.cons.inj heq).2] at hdigit
      change Byte.isDigit d = false at hdigit
      rw [hd] at hdigit
      contradiction
  rintro category front hcovers ⟨more, heq⟩
  rcases Category.mayBegin_sign b hb _ (hcovers.mayBegin_of_append heq) with rfl | rfl
  · cases hcovers with
    | integer hsign hdigits =>
        rw [List.append_assoc] at heq
        exact hnone _ _ _ hsign hdigits heq
  · cases hcovers with
    | real hsign hwhole _ _ =>
        simp only [List.append_assoc] at heq
        exact hnone _ _ _ hsign hwhole heq

end Lexeme

namespace Reader

open Lexeme (OptionalSign Run Stops BeginsExponent ExponentEnds BeginsHex stops_cons)

namespace Faces

variable {r : Reader} {sign digits fraction exponent tail text : Bytes} {b : Byte}

theorem skipDigits (h : r.Faces (digits ++ tail)) (hdigits : ∀ b ∈ digits, Byte.isDigit b = true)
    (hstops : Stops Byte.isDigit tail) :
    r.skipWhile Byte.isDigit = .ok (r.after digits.length) :=
  h.skipWhile hdigits hstops (by decide)

theorem skipExponent_absent (h : r.Faces text) (habsent : ¬ BeginsExponent text) :
    r.skipExponent = .ok r := by
  rw [Reader.skipExponent, h.look_zero, Fault.ok_bind]
  cases text with
  | nil => rfl
  | cons mark text =>
      rw [List.headD_cons]
      by_cases hmark : Byte.isExponentMark mark = true
      · have hdigit : Byte.isDigit (text.headD 0) ≠ true := by
          intro hdigit
          cases text with
          | nil => exact absurd hdigit (by decide)
          | cons d text => exact habsent ⟨mark, [], d, text, hmark, .nil, hdigit, rfl⟩
        rw [if_pos hmark, h.look_one, Fault.ok_bind, if_neg hdigit]
        by_cases hsign : Byte.isSign (text.headD 0) = true
        · cases text with
          | nil => exact absurd hsign (by decide)
          | cons s text =>
              have hsigned : Byte.isDigit (text.headD 0) ≠ true := by
                intro hdigit
                cases text with
                | nil => exact absurd hdigit (by decide)
                | cons d text =>
                    exact habsent ⟨mark, [s], d, text, hmark, .inr ⟨s, hsign, rfl⟩, hdigit, rfl⟩
              rw [if_pos hsign, h.look_two, Fault.ok_bind, if_neg hsigned]
              rfl
        · rw [if_neg hsign]
          rfl
      · rw [if_neg hmark]
        rfl

theorem skipExponent (h : r.Faces (exponent ++ tail)) (hexponent : ExponentEnds exponent tail) :
    r.skipExponent = .ok (r.after exponent.length) := by
  cases hexponent with
  | absent habsent => exact h.skipExponent_absent habsent
  | @present mark sign digits _ hmark hsign hdigits hstops =>
      obtain ⟨d, rest, hrun, hd⟩ := hdigits.exists_cons
      rw [List.cons_append, List.append_assoc] at h
      rw [Reader.skipExponent, h.look_zero, Fault.ok_bind, List.headD_cons, if_pos hmark,
        h.look_one, Fault.ok_bind]
      rcases hsign with rfl | ⟨s, hs, rfl⟩
      · have hnext : ([] ++ (digits ++ tail)).headD 0 = d := by
          rw [hrun]
          rfl
        have hafter : (r.after 1).Faces (digits ++ tail) := h.after_cons
        rw [hnext, if_pos hd, h.advance_one, Fault.ok_bind,
          hafter.skipDigits hdigits.2 hstops, after_after, List.nil_append, List.length_cons,
          Nat.add_comm]
      · have hnext : (digits ++ tail).headD 0 = d := by
          rw [hrun]
          rfl
        rw [List.cons_append, List.nil_append] at h
        have hafter : (r.after 2).Faces (digits ++ tail) := h.after_cons_cons
        rw [List.cons_append, List.headD_cons, Lexeme.isDigit_of_isSign s hs, if_neg (by decide),
          if_pos hs, h.look_two, hnext, Fault.ok_bind, if_pos hd, h.advance_two, Fault.ok_bind,
          hafter.skipDigits hdigits.2 hstops, after_after, List.length_cons, List.length_append,
          List.length_singleton, Nat.add_comm, Nat.add_comm 1, Nat.add_assoc]

theorem readDecimal_integer (h : r.Faces (digits ++ tail))
    (hdigits : ∀ b ∈ digits, Byte.isDigit b = true) (hstops : Stops Byte.isDigit tail)
    (hdot : tail.head? ≠ some Byte.dot) :
    r.readDecimal = .ok (.integer, r.after digits.length) := by
  have hother : tail.headD 0 ≠ Byte.dot := mt (Lexeme.headD_eq_iff (by decide)).mp hdot
  rw [Reader.readDecimal, h.skipDigits hdigits hstops, Fault.ok_bind, h.after.look_zero,
    Fault.ok_bind, if_neg hother]
  rfl

theorem readDecimal_real (h : r.Faces (digits ++ Byte.dot :: (fraction ++ (exponent ++ tail))))
    (hdigits : ∀ b ∈ digits, Byte.isDigit b = true)
    (hfraction : ∀ b ∈ fraction, Byte.isDigit b = true) (hexponent : ExponentEnds exponent tail)
    (hstops : Stops Byte.isDigit (exponent ++ tail)) :
    r.readDecimal =
      .ok (.real, r.after (digits.length + (1 + (fraction.length + exponent.length)))) := by
  have hpoint := h.after
  have hbody := hpoint.after_cons
  rw [Reader.readDecimal, h.skipDigits hdigits Lexeme.stops_dot, Fault.ok_bind,
    hpoint.look_zero, Fault.ok_bind, List.headD_cons, if_pos rfl, hpoint.advance_one,
    Fault.ok_bind, hbody.skipDigits hfraction hstops, Fault.ok_bind,
    hbody.after.skipExponent hexponent, Fault.ok_bind, after_after, after_after, after_after]
  rfl

/-- Digits after a sign or none, unless a hexadecimal number begins with them. -/
theorem readsFirst_decimal (h : r.Faces (sign ++ b :: text)) (hsign : OptionalSign sign)
    (hb : Byte.isDigit b = true) (hhex : ¬ BeginsHex (sign ++ b :: text)) :
    r.ReadsFirst (sign ++ b :: text) ((r.after sign.length).readDecimal) := by
  obtain ⟨digits, tail, rfl, hdigits, hstops⟩ := Lexeme.exists_run Byte.isDigit text
  have hrun : Run Byte.isDigit (b :: digits) := .cons hb hdigits
  have hafter : (r.after sign.length).Faces (b :: digits ++ tail) := h.after
  by_cases hdot : tail.head? = some Byte.dot
  · obtain ⟨rest, rfl⟩ := List.head?_eq_some_iff.mp hdot
    obtain ⟨fraction, ending, rfl, hfraction, hends⟩ := Lexeme.exists_run Byte.isDigit rest
    obtain ⟨exponent, tail, rfl, hexponent⟩ := Lexeme.exists_exponent ending
    have htext : sign ++ b :: (digits ++ Byte.dot :: (fraction ++ (exponent ++ tail))) =
        sign ++ b :: digits ++ Byte.dot :: fraction ++ exponent ++ tail := by
      simp
    have hlength : (sign ++ b :: digits ++ Byte.dot :: fraction ++ exponent).length =
        sign.length + ((b :: digits).length + (1 + (fraction.length + exponent.length))) := by
      simp only [List.length_append, List.length_cons]
      omega
    rw [htext]
    refine .of_longest (Lexeme.isLongest_real hsign hrun hfraction hexponent hends) ?_
    rw [hafter.readDecimal_real hrun.2 hfraction hexponent hends, after_after, hlength]
  · have htext : sign ++ b :: (digits ++ tail) = sign ++ b :: digits ++ tail := by
      simp
    rw [htext]
    refine .of_longest (Lexeme.isLongest_integer hsign hrun hstops hdot hhex) ?_
    rw [hafter.readDecimal_integer hrun.2 hstops hdot, after_after, List.length_append]

theorem startsHex (h : r.Faces text) :
    ∃ starts, r.startsHex = .ok starts ∧ (starts = true ↔ BeginsHex text) := by
  rw [Reader.startsHex, h.look_zero, Fault.ok_bind]
  by_cases hfirst : text.headD 0 = Byte.zero
  · obtain ⟨rest, rfl⟩ := List.head?_eq_some_iff.mp ((Lexeme.headD_eq_iff (by decide)).mp hfirst)
    rw [if_pos hfirst, h.look_one, Fault.ok_bind]
    by_cases hsecond : rest.headD 0 = Byte.lowerX
    · obtain ⟨rest, rfl⟩ :=
        List.head?_eq_some_iff.mp ((Lexeme.headD_eq_iff (by decide)).mp hsecond)
      rw [if_pos hsecond, h.look_two, Fault.map_ok]
      refine ⟨_, rfl, ?_⟩
      constructor
      · intro hdigit
        cases rest with
        | nil => exact absurd hdigit (by decide)
        | cons d rest => exact ⟨d, rest, hdigit, rfl⟩
      · rintro ⟨d, more, hd, heq⟩
        cases heq
        exact hd
    · rw [if_neg hsecond]
      refine ⟨false, rfl, ?_⟩
      constructor
      · intro hstarts
        contradiction
      · rintro ⟨d, more, _, heq⟩
        cases heq
        exact absurd rfl hsecond
  · rw [if_neg hfirst]
    refine ⟨false, rfl, ?_⟩
    constructor
    · intro hstarts
      contradiction
    · rintro ⟨d, more, _, rfl⟩
      exact absurd rfl hfirst

theorem readsFirst_number (h : r.Faces (b :: text)) (hb : Byte.isDigit b = true) :
    r.ReadsFirst (b :: text) r.readNumber := by
  obtain ⟨starts, hstarts, hhex⟩ := h.startsHex
  rw [Reader.readNumber, hstarts, Fault.ok_bind]
  cases starts with
  | true =>
      obtain ⟨d, more, hd, heq⟩ := hhex.mp rfl
      obtain ⟨digits, tail, rfl, hdigits, hstops⟩ := Lexeme.exists_run Byte.isHexDigit more
      have hrun : Run Byte.isHexDigit (d :: digits) := .cons hd hdigits
      rw [heq] at h ⊢
      have hafter : (r.after 2).Faces (d :: digits ++ tail) := h.after_cons_cons
      refine .of_longest (Lexeme.isLongest_hexInteger hrun hstops) ?_
      rw [if_pos rfl, h.advance_two, Fault.ok_bind,
        hafter.skipWhile hrun.2 hstops (by decide), Fault.ok_bind, after_after, Nat.add_comm]
      rfl
  | false =>
      rw [if_neg (by decide)]
      have hunsigned : r.Faces ([] ++ b :: text) := h
      apply hunsigned.readsFirst_decimal .nil hb
      intro hbegins
      exact absurd (hhex.mpr hbegins) (by decide)

theorem readsFirst_signed (h : r.Faces (b :: text)) (hb : Byte.isSign b = true) :
    r.ReadsFirst (b :: text) r.readSigned := by
  rw [Reader.readSigned, h.look_one, Fault.ok_bind]
  by_cases hdigit : Byte.isDigit (text.headD 0) = true
  · rw [if_pos hdigit, h.advance_one, Fault.ok_bind]
    cases text with
    | nil => exact absurd hdigit (by decide)
    | cons d text =>
        have hsigned : r.Faces ([b] ++ d :: text) := h
        apply hsigned.readsFirst_decimal (.inr ⟨b, hb, rfl⟩) hdigit
        rintro ⟨e, more, _, heq⟩
        rw [(List.cons.inj heq).1] at hb
        exact absurd hb (by decide)
  · rw [if_neg hdigit]
    apply h.readsFirst_stray (Lexeme.uncovered_sign hb (Bool.eq_false_iff.mpr hdigit))
    · exact Lexeme.quote_of_isSign b hb
    · rintro rfl
      exact absurd hb (by decide)

end Faces

end Reader

end IdlLexis
