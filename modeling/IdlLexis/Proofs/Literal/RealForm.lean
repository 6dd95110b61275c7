import IdlLexis.Proofs.Literal.NumberForm
/-!
Which texts are real literals. A decoder that leaves the number to a reader looks at the bytes
first, and lets through what begins with a digit after the sign and goes on with bytes that stand
in numbers. What passes and is read is a literal, and every literal passes; so the look at the bytes
and the reader's own grammar meet in the form that is documented, for any reader that keeps to what
is known of it.
-/

namespace IdlLexis

open Lexeme (OptionalExponent OptionalSign Run Stops)

namespace Literal

namespace Real

/-! The form of a literal. -/

inductive Form : Bytes → Prop
  | intro {sign whole point fraction exponent : Bytes} (hsign : OptionalSign sign)
      (hwhole : Run Byte.isDigit whole) (hpoint : OptionalPoint point fraction)
      (hexponent : OptionalExponent exponent) : Form (sign ++ (whole ++ (point ++ exponent)))

/-! A decoder that looks at the bytes and leaves the number to a reader. -/

def isNumberByte (b : Byte) : Bool :=
  Byte.isDigit b || b == Byte.dot || Byte.isExponentMark b || Byte.isSign b

def passes (text : Bytes) : Bool :=
  (splitSign text).2.head?.any Byte.isDigit && (splitSign text).2.all isNumberByte

def decodeBy (read : String → Option Binary64) (text : Bytes) : Except Failure Binary64 :=
  if passes text then
    match (Utf8.decode? text).bind read with
    | none => .error (.malformedReal (Utf8.lossy text))
    | some x => if x.isFinite then .ok x else .error (.realOutOfRange (Utf8.lossy text))
  else .error (.malformedReal (Utf8.lossy text))

variable {sign point fraction exponent figures text : Bytes}
  {read : String → Option Binary64}

/-! What the look at the bytes lets through. -/

theorem isNumberByte_ascii : ∀ b, isNumberByte b = true → b < 0x80 := by
  decide +kernel

theorem isNumberByte_of_isDigit {b : Byte} (hb : Byte.isDigit b = true) :
    isNumberByte b = true := by
  simp [isNumberByte, hb]

theorem isNumberByte_of_isSign {b : Byte} (hb : Byte.isSign b = true) :
    isNumberByte b = true := by
  simp [isNumberByte, hb]

theorem OptionalPoint.isNumberByte (h : OptionalPoint point fraction) :
    ∀ b ∈ point, Real.isNumberByte b = true := by
  cases h with
  | absent => exact List.forall_mem_nil _
  | present hfraction =>
      exact List.forall_mem_cons.mpr
        ⟨by decide, fun b hb => isNumberByte_of_isDigit (hfraction b hb)⟩

theorem sign_isNumberByte (h : OptionalSign sign) : ∀ b ∈ sign, isNumberByte b = true := by
  rcases h with rfl | ⟨b, hb, rfl⟩
  · exact List.forall_mem_nil _
  · exact List.forall_mem_singleton.mpr (isNumberByte_of_isSign hb)

theorem exponent_isNumberByte (h : OptionalExponent exponent) :
    ∀ b ∈ exponent, isNumberByte b = true := by
  rcases h with rfl | ⟨mark, sign, digits, hmark, hsign, hdigits, rfl⟩
  · exact List.forall_mem_nil _
  · have hmark' : isNumberByte mark = true := by simp [isNumberByte, hmark]
    have hfront : ∀ b ∈ mark :: sign, isNumberByte b = true :=
      List.forall_mem_cons.mpr ⟨hmark', sign_isNumberByte hsign⟩
    exact List.forall_mem_append.mpr
      ⟨hfront, fun b hb => isNumberByte_of_isDigit (hdigits.2 b hb)⟩

theorem figures_isNumberByte (h : Figures figures) : ∀ b ∈ figures, isNumberByte b = true := by
  obtain ⟨whole, point, fraction, rfl, hwhole, hpoint, _⟩ := figures_iff.mp h
  exact List.forall_mem_append.mpr
    ⟨fun b hb => isNumberByte_of_isDigit (hwhole b hb), hpoint.isNumberByte⟩

/-- A number is let through if it begins with a digit. -/
theorem NumberForm.passes_iff (h : NumberForm text) :
    passes text = true ↔ (splitSign text).2.head?.any Byte.isDigit = true := by
  obtain ⟨hsign, hfigures, hexponent⟩ := h
  obtain ⟨negative, hsplit⟩ := splitSign_append hsign (hfigures.stops_sign _)
  have hbytes := List.forall_mem_append.mpr
    ⟨figures_isNumberByte hfigures, exponent_isNumberByte hexponent⟩
  rw [passes, hsplit, List.all_eq_true.mpr hbytes, Bool.and_true]

theorem not_wordForm (hpasses : passes text = true) : ¬ WordForm text := by
  rintro ⟨hsign, hword⟩
  obtain ⟨hstops, hhead⟩ := stops_word hword
  obtain ⟨negative, hsplit⟩ := splitSign_append hsign hstops
  rw [passes, hsplit, hhead, Bool.false_and] at hpasses
  contradiction

/-- A literal is a number that begins with a digit after its sign. -/
theorem form_iff :
    Form text ↔ NumberForm text ∧ (splitSign text).2.head?.any Byte.isDigit = true := by
  constructor
  · intro h
    cases h with
    | @intro sign whole point fraction exponent hsign hwhole hpoint hexponent =>
        have hne : whole ++ fraction ≠ [] := by simp [hwhole.ne_nil]
        have hfigures := figures_iff.mpr ⟨whole, point, fraction, rfl, hwhole.2, hpoint, hne⟩
        rw [← List.append_assoc whole]
        refine ⟨.intro hsign hfigures hexponent, ?_⟩
        obtain ⟨negative, hsplit⟩ := splitSign_append hsign (hfigures.stops_sign _)
        obtain ⟨b, more, rfl, hb⟩ := hwhole.exists_cons
        rw [hsplit]
        exact hb
  · rintro ⟨⟨hsign, hfigures, hexponent⟩, hhead⟩
    obtain ⟨negative, hsplit⟩ := splitSign_append hsign (hfigures.stops_sign _)
    obtain ⟨whole, point, fraction, rfl, hwhole, hpoint, hne⟩ := figures_iff.mp hfigures
    rw [hsplit] at hhead
    have hwhole' : whole ≠ [] := by
      rintro rfl
      cases hpoint with
      | absent => exact hne rfl
      | present _ =>
          have hdot : Byte.isDigit Byte.dot = true := hhead
          exact absurd hdot (by decide)
    rw [List.append_assoc whole]
    exact .intro hsign ⟨hwhole', hwhole⟩ hpoint hexponent

theorem exists_decode? (h : passes text = true) : ∃ s, Utf8.decode? text = some s := by
  obtain ⟨sign, hsign, htext⟩ := exists_sign text
  rw [passes, Bool.and_eq_true, List.all_eq_true] at h
  apply Utf8.decode?_ascii
  rw [htext]
  intro b hb
  apply isNumberByte_ascii
  rcases List.mem_append.mp hb with hmem | hmem
  · exact sign_isNumberByte hsign b hmem
  · exact h.2 b hmem

/-! The decoder, for any reader that keeps to what is known of it. -/

theorem decodeBy_of_not_form (hread : Documented read) (h : ¬ Form text) :
    decodeBy read text = .error (.malformedReal (Utf8.lossy text)) := by
  unfold decodeBy
  split
  · next hpasses =>
      obtain ⟨s, hs⟩ := exists_decode? hpasses
      have hnone : read s = none := by
        rw [← Option.not_isSome_iff_eq_none, hread.isSome_iff, Utf8.decode?_eq_some_iff.mp hs]
        rintro (hnumber | hword)
        · exact h (form_iff.mpr ⟨hnumber, hnumber.passes_iff.mp hpasses⟩)
        · exact not_wordForm hpasses hword
      rw [hs, Option.bind_some, hnone]
  · rfl

theorem decodeBy_of_form (hread : Documented read) (h : Form text) :
    ∃ s x, Utf8.encode s.toList = text ∧ read s = some x ∧ x.isNaN = false ∧
      decodeBy read text =
        if x.isFinite then .ok x else .error (.realOutOfRange (Utf8.lossy text)) := by
  obtain ⟨hnumber, hhead⟩ := form_iff.mp h
  have hpasses := hnumber.passes_iff.mpr hhead
  obtain ⟨s, hs⟩ := exists_decode? hpasses
  have htext := Utf8.decode?_eq_some_iff.mp hs
  rw [← htext] at hnumber
  obtain ⟨x, hx⟩ := Option.isSome_iff_exists.mp ((hread.isSome_iff s).mpr (.inl hnumber))
  refine ⟨s, x, htext, hx, hread.isNaN s x hnumber hx, ?_⟩
  rw [decodeBy, if_pos hpasses, hs, Option.bind_some, hx]

/-! The decoder itself, which reads the digits as it goes. -/

theorem parse?_eq (text : Bytes) :
    parse? text =
      if (splitSign text).2.head?.any Byte.isDigit then number? text else none := by
  unfold parse? number?
  rcases splitSign text with ⟨negative, unsigned⟩
  dsimp only
  cases unsigned with
  | nil => rfl
  | cons b unsigned =>
      rw [List.head?_cons, Option.any_some]
      cases hb : Byte.isDigit b with
      | false =>
          rw [List.takeWhile_cons_of_neg (by simp [hb])]
          rfl
      | true =>
          rw [List.takeWhile_cons_of_pos hb]
          cases exponent? (splitFraction ((b :: unsigned).dropWhile Byte.isDigit)).2 <;> rfl

theorem parse?_isSome_iff : (parse? text).isSome = true ↔ Form text := by
  rw [parse?_eq, form_iff]
  split
  · next hhead => simp [number?_isSome_iff, hhead]
  · next hhead => simp [hhead]

theorem decode_of_form (h : Form text) :
    ∃ d, parse? text = some d ∧
      decode text =
        if (Binary64.ofDecimal d).isFinite then .ok (Binary64.ofDecimal d)
        else .error (.realOutOfRange (Utf8.lossy text)) := by
  obtain ⟨d, hd⟩ := Option.isSome_iff_exists.mp (parse?_isSome_iff.mpr h)
  rw [decode, hd]
  exact ⟨d, rfl, rfl⟩

theorem decode_of_not_form (h : ¬ Form text) :
    decode text = .error (.malformedReal (Utf8.lossy text)) := by
  rw [← parse?_isSome_iff, Option.not_isSome_iff_eq_none] at h
  rw [decode, h]

/-- Reading the digits as it goes, and leaving them to a reader of numbers, come to the same. -/
theorem decode_eq_decodeBy (text : Bytes) : decode text = decodeBy readText text := by
  by_cases h : Form text
  · obtain ⟨d, hd, hdecode⟩ := decode_of_form h
    obtain ⟨s, x, htext, hx, _, hdecodeBy⟩ := decodeBy_of_form documented_readText h
    rw [parse?_eq, if_pos (form_iff.mp h).2] at hd
    rw [readText, htext, hd] at hx
    cases hx
    rw [hdecode, hdecodeBy]
  · rw [decode_of_not_form h, decodeBy_of_not_form documented_readText h]

/-- What a literal decodes to that is read as the number. -/
structure Settles (text : Bytes) (x : Binary64) (result : Except Failure Binary64) : Prop where
  isNaN : x.isNaN = false
  ok_or_outOfRange : (x.isFinite = true ∧ result = .ok x) ∨
    result = .error (.realOutOfRange (Utf8.lossy text))
  outOfRange_iff : result = .error (.realOutOfRange (Utf8.lossy text)) ↔ x.isInfinite = true

theorem settles {x : Binary64} (hnan : x.isNaN = false) :
    Settles text x
      (if x.isFinite then .ok x else .error (.realOutOfRange (Utf8.lossy text))) := by
  rcases Binary64.isFinite_or_isInfinite hnan with hfinite | hinfinite
  · have hnot : ¬ x.isInfinite = true := by
      intro hinfinite
      rw [Binary64.isFinite_of_isInfinite hinfinite] at hfinite
      contradiction
    rw [if_pos hfinite]
    exact ⟨hnan, .inl ⟨hfinite, rfl⟩, by simp [hnot]⟩
  · rw [Binary64.isFinite_of_isInfinite hinfinite]
    exact ⟨hnan, .inr rfl, by simp [hinfinite]⟩

theorem Settles.not_malformed {x : Binary64} {result : Except Failure Binary64}
    (h : Settles text x result) : result ≠ .error (.malformedReal (Utf8.lossy text)) := by
  intro hmalformed
  rcases h.ok_or_outOfRange with ⟨_, hok⟩ | herror
  · cases hmalformed.symm.trans hok
  · cases hmalformed.symm.trans herror

theorem decode_settles (h : Form text) :
    ∃ d, parse? text = some d ∧ Settles text (.ofDecimal d) (decode text) := by
  obtain ⟨d, hd, hdecode⟩ := decode_of_form h
  exact ⟨d, hd, hdecode ▸ settles (Binary64.isNaN_ofDecimal d)⟩

theorem decodeBy_settles (hread : Documented read) (h : Form text) :
    ∃ s x, Utf8.encode s.toList = text ∧ read s = some x ∧
      Settles text x (decodeBy read text) := by
  obtain ⟨s, x, htext, hx, hnan, hdecode⟩ := decodeBy_of_form hread h
  exact ⟨s, x, htext, hx, hdecode ▸ settles hnan⟩

/-- Real literals are the texts of the documented form. A text that has not got it is refused for
that; one that has decodes to the number it is read as, unless that is infinite. The same holds
where the number is left to any reader that takes what such readers are known to take. -/
theorem decode_iff_form (text : Bytes) :
    (decode text = .error (.malformedReal (Utf8.lossy text)) ↔ ¬ Form text) ∧
    (Form text → ∃ d, parse? text = some d ∧ Settles text (.ofDecimal d) (decode text)) ∧
    (∀ read, Documented read →
      (decodeBy read text = .error (.malformedReal (Utf8.lossy text)) ↔ ¬ Form text) ∧
      (Form text → ∃ s x, Utf8.encode s.toList = text ∧ read s = some x ∧
        Settles text x (decodeBy read text))) ∧
    Documented readText ∧ decode text = decodeBy readText text := by
  refine ⟨⟨?_, decode_of_not_form⟩, decode_settles, ?_, documented_readText,
    decode_eq_decodeBy text⟩
  · intro hmalformed hform
    obtain ⟨_, _, hsettles⟩ := decode_settles hform
    exact hsettles.not_malformed hmalformed
  · intro read hread
    refine ⟨⟨?_, decodeBy_of_not_form hread⟩, decodeBy_settles hread⟩
    intro hmalformed hform
    obtain ⟨_, _, _, _, hsettles⟩ := decodeBy_settles hread hform
    exact hsettles.not_malformed hmalformed

/-- A literal of the form that is read as infinite, and a number of another form that is read. -/
theorem decode_iff_form_infinite :
    decode (Utf8.encode "-1.e400".toList) = .error (.realOutOfRange "-1.e400") ∧
      (readText ".5").isSome = true ∧
      decodeBy readText (Utf8.encode ".5".toList) = .error (.malformedReal ".5") := by
  have hparse : parse? (Utf8.encode "-1.e400".toList) = some ⟨true, [1], 400⟩ := by
    decide +kernel
  obtain ⟨_, hsettles, _⟩ := decode_iff_form (Utf8.encode "-1.e400".toList)
  obtain ⟨d, hd, hdecode⟩ := hsettles (parse?_isSome_iff.mp (by rw [hparse]; rfl))
  obtain rfl := Option.some.inj (hparse.symm.trans hd)
  have hinfinite := hdecode.outOfRange_iff.mpr (by decide +kernel)
  obtain ⟨_, _, hread, hdocumented, _⟩ := decode_iff_form (Utf8.encode ".5".toList)
  have hnot : ¬ Form (Utf8.encode ".5".toList) := by
    rw [← parse?_isSome_iff]
    decide +kernel
  have hmalformed := (hread readText hdocumented).1.mpr hnot
  rw [Utf8.lossy_encode] at hinfinite hmalformed
  exact ⟨hinfinite, by decide +kernel, hmalformed⟩

end Real

end Literal

end IdlLexis
