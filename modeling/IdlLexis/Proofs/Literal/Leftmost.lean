import IdlLexis.Proofs.Literal.Indexed
/-!
Which fault of a body is reported. A line feed anywhere goes before all else. After that it is the
first backslash, from the left, at which no item begins: what follows it says which failure it is
and what is shown of it. That the bytes make up no text is said only where every item reads.
-/

namespace IdlLexis

namespace Literal

namespace Quoted

/-- Reading items from the left comes to a backslash at the place and finds no item there. -/
structure BreaksOff (quote : Byte) (body : Bytes) (k : Nat) : Prop where
  passed : ∃ row, Parses quote body row (body.drop k)
  backslash : body[k]? = some Byte.backslash
  stuck : Stuck quote (body.drop k)

/-- A letter with all its digits, which are the number of no character. -/
def NoCharacter (quote : Byte) (written : Bytes) : Prop :=
  quote ≠ Quote.single.byte ∧
    ∃ mark width digits number, (mark, width) ∈ numberLetters ∧
      written = Utf8.encode [mark] ++ digits ∧ digits.length = width ∧
      Digits 16 digits number ∧ ¬ number.isValidChar

/-- The count of bytes that are shown of an unknown escape, if there are as many. -/
def shownWidth (quote letter : Byte) : Nat :=
  if quote = Quote.single.byte then 1
  else if letter = asciiByte 'x' then 3
  else if letter = asciiByte 'u' then 5
  else if letter = asciiByte 'U' then 9
  else 1

/-- The failure that is due to the backslash at the place. -/
inductive Blames (quote : Byte) (body : Bytes) (k : Nat) : Failure → Prop
  | lone (h : k + 1 = body.length) : Blames quote body k .loneBackslash
  | notACharacter {written : Bytes} (h : NoCharacter quote written)
      (hbegins : written <+: body.drop (k + 1)) :
      Blames quote body k (.notACharacter (Utf8.lossy written))
  | unknown {letter : Byte} (hletter : body[k + 1]? = some letter)
      (hother : ∀ written, NoCharacter quote written → ¬ written <+: body.drop (k + 1)) :
      Blames quote body k (.unknownEscape (Utf8.lossy
        (body.extract (k + 1) (min (k + 1 + shownWidth quote letter) body.length))))

variable {quote letter b : Byte} {body text rest other after written meant digits bytes : Bytes}
  {row : List (Bytes × Bytes)} {failure : Failure} {k width number : Nat}

/-! What is refused after a backslash. -/

theorem escapesOf_of_noCharacter (h : NoCharacter quote written)
    (hbegins : written <+: letter :: after) :
    escapesOf quote letter after = .error (.notACharacter (Utf8.lossy written)) := by
  obtain ⟨hquote, mark, width, digits, number, hmark, rfl, rfl, hdigits, hvalid⟩ := h
  obtain ⟨b, hb, hescape⟩ := inDouble_character hmark after
  obtain ⟨tail, htail⟩ := hbegins
  rw [hb] at htail ⊢
  obtain ⟨rfl, rfl⟩ : b = letter ∧ digits ++ tail = after := List.cons.inj htail
  rw [escapesOf_double hquote, hescape, Escape.character, number?_append (by decide) hdigits]
  dsimp only
  rw [if_neg hvalid, List.take_left]
  rfl

/-- The failure of an escape that is refused. -/
inductive Refusal (quote letter : Byte) (after : Bytes) : Failure → Prop
  | notACharacter {written : Bytes} (h : NoCharacter quote written)
      (hbegins : written <+: letter :: after) :
      Refusal quote letter after (.notACharacter (Utf8.lossy written))
  | unknown : Refusal quote letter after
      (.unknownEscape (Utf8.lossy ((letter :: after).take (shownWidth quote letter))))

theorem refusal_of_unknown (h : shownWidth quote letter = width + 1) :
    Refusal quote letter after (Escape.unknown letter after width) := by
  rw [Escape.unknown, ← List.take_succ_cons, ← h]
  exact .unknown

theorem shownWidth_single (letter : Byte) : shownWidth Quote.single.byte letter = 1 := if_pos rfl

theorem shownWidth_double (hquote : quote ≠ Quote.single.byte) (letter : Byte) :
    shownWidth quote letter =
      if letter = 0x78 then 3 else if letter = 0x75 then 5 else if letter = 0x55 then 9 else 1 := by
  rw [shownWidth, if_neg hquote]
  rfl

theorem refusal_of_character (mark : Char) (hquote : quote ≠ Quote.single.byte)
    (hmark : (mark, width) ∈ numberLetters) (hletter : Utf8.encode [mark] = [letter])
    (hshown : shownWidth quote letter = width + 1)
    (h : Escape.character letter after width = .error failure) :
    Refusal quote letter after failure := by
  unfold Escape.character at h
  split at h
  · cases h
    exact refusal_of_unknown hshown
  · next number hnumber =>
      split at h
      · contradiction
      · next hvalid =>
          cases h
          obtain ⟨digits, tail, rfl, hlength, hdigits⟩ := exists_of_number? (by decide) hnumber
          rw [← hlength, List.take_left]
          refine .notACharacter ⟨hquote, mark, width, digits, number, hmark, ?_, hlength, hdigits,
            hvalid⟩ ⟨tail, rfl⟩
          rw [hletter]
          rfl

theorem refusal_of_inDouble (hquote : quote ≠ Quote.single.byte)
    (h : Escape.inDouble letter after = .error failure) : Refusal quote letter after failure := by
  have hshown := shownWidth_double hquote letter
  unfold Escape.inDouble at h
  split at h
  · contradiction
  · split at h
    · next hx =>
        rw [if_pos hx] at hshown
        unfold Escape.hexByte at h
        split at h
        · contradiction
        · cases h
          exact refusal_of_unknown hshown
    · next hx =>
        rw [if_neg hx] at hshown
        split at h
        · next hu =>
            rw [if_pos hu] at hshown
            exact refusal_of_character 'u' hquote (by decide) (by rw [hu]; decide) hshown h
        · next hu =>
            rw [if_neg hu] at hshown
            split at h
            · next hU =>
                rw [if_pos hU] at hshown
                exact refusal_of_character 'U' hquote (by decide) (by rw [hU]; decide) hshown h
            · next hU =>
                rw [if_neg hU] at hshown
                split at h
                · unfold Escape.octal at h
                  split at h
                  · contradiction
                  · split at h
                    · contradiction
                    · cases h
                      exact refusal_of_unknown hshown
                · cases h
                  exact refusal_of_unknown hshown

theorem refusal_of_escapesOf (h : escapesOf quote letter after = .error failure) :
    Refusal quote letter after failure := by
  by_cases hquote : quote = Quote.single.byte
  · rw [hquote, escapesOf_single, Escape.inSingle] at h
    rw [hquote]
    split at h
    · contradiction
    · cases h
      exact refusal_of_unknown (shownWidth_single letter)
  · rw [escapesOf_double hquote] at h
    exact refusal_of_inDouble hquote h

/-! What is blamed for a body that breaks off. -/

theorem NoCharacter.ne_nil (h : NoCharacter quote written) : written ≠ [] := by
  obtain ⟨_, mark, width, digits, number, hmark, rfl, _⟩ := h
  obtain ⟨letter, hletter, _⟩ := inDouble_character hmark []
  rw [hletter]
  exact List.cons_ne_nil _ _

theorem blames_lone (h : k + 1 = body.length) {other : Failure} :
    Blames quote body k other ↔ other = .loneBackslash := by
  constructor
  · intro hblames
    have hnil : body.drop (k + 1) = [] := by rw [h, List.drop_length]
    cases hblames with
    | lone _ => rfl
    | notACharacter hno hbegins =>
        rw [hnil, List.prefix_nil] at hbegins
        exact absurd hbegins hno.ne_nil
    | unknown hletter _ =>
        rw [h, List.getElem?_eq_none (Nat.le_refl _)] at hletter
        contradiction
  · rintro rfl
    exact .lone h

theorem blames_refused (hdrop : body.drop (k + 1) = letter :: after)
    (h : escapesOf quote letter after = .error failure) {other : Failure} :
    Blames quote body k other ↔ other = failure := by
  have hhead : body[k + 1]? = some letter := by
    rw [← List.head?_drop, hdrop, List.head?_cons]
  constructor
  · intro hblames
    cases hblames with
    | lone hlast =>
        rw [hlast, List.getElem?_eq_none (Nat.le_refl _)] at hhead
        contradiction
    | notACharacter hno hbegins =>
        rw [hdrop] at hbegins
        exact Except.error.inj ((escapesOf_of_noCharacter hno hbegins).symm.trans h)
    | unknown hletter hother =>
        rw [hhead] at hletter
        cases hletter
        rw [Indexed.extract_min, hdrop]
        cases refusal_of_escapesOf h with
        | notACharacter hno hbegins => exact absurd (hdrop ▸ hbegins) (hother _ hno)
        | unknown => rfl
  · rintro rfl
    cases refusal_of_escapesOf h with
    | notACharacter hno hbegins => exact .notACharacter hno (hdrop ▸ hbegins)
    | unknown =>
        rw [← hdrop, ← Indexed.extract_min]
        refine .unknown hhead ?_
        intro written hno hbegins
        rw [hdrop] at hbegins
        have hclash := (escapesOf_of_noCharacter hno hbegins).symm.trans h
        cases hclash

namespace BreaksOff

theorem lt_length (h : BreaksOff quote body k) : k < body.length :=
  (List.getElem?_eq_some_iff.mp h.backslash).1

theorem drop_eq (h : BreaksOff quote body k) :
    body.drop k = Byte.backslash :: body.drop (k + 1) := by
  obtain ⟨hk, hbackslash⟩ := List.getElem?_eq_some_iff.mp h.backslash
  rw [List.drop_eq_getElem_cons hk, hbackslash]

theorem unique {k' : Nat} (h : BreaksOff quote body k) (h' : BreaksOff quote body k') :
    k = k' := by
  obtain ⟨row, hrow⟩ := h.passed
  obtain ⟨row', hrow'⟩ := h'.passed
  have hlength := congrArg List.length (hrow.unique h.stuck hrow' h'.stuck).2
  have hk := h.lt_length
  have hk' := h'.lt_length
  rw [List.length_drop, List.length_drop] at hlength
  omega

/-- The one failure that is due to the backslash is the failure of the body. -/
theorem readBody_eq (h : BreaksOff quote body k) (hline : Byte.lineFeed ∉ body) :
    ∃ failure, readBody quote body = .error failure ∧
      ∀ other, Blames quote body k other ↔ other = failure := by
  obtain ⟨row, rest, hparses, hhalts⟩ := exists_parses quote hline
  obtain ⟨row', hrow'⟩ := h.passed
  have hrest := (hparses.unique hhalts.stuck hrow' h.stuck).2
  rw [h.drop_eq] at hrest
  generalize hresult : resolve (escapesOf quote) body = result at hhalts
  cases hhalts with
  | complete => contradiction
  | lone =>
      have hlast : k + 1 = body.length := by
        have hlength := congrArg List.length (List.cons.inj hrest).2
        have hk := h.lt_length
        rw [List.length_nil, List.length_drop] at hlength
        omega
      exact ⟨_, readBody_of_error hline hresult, fun _ => blames_lone hlast⟩
  | refused hrefused =>
      have hdrop := (List.cons.inj hrest).2.symm
      exact ⟨_, readBody_of_error hline hresult, fun _ => blames_refused hdrop hrefused⟩

end BreaksOff

theorem breaksOff_of_parses (h : Parses quote body row (Byte.backslash :: rest))
    (hstuck : Stuck quote (Byte.backslash :: rest)) :
    BreaksOff quote body (row.flatMap Prod.fst).length := by
  have hdrop : body.drop (row.flatMap Prod.fst).length = Byte.backslash :: rest := by
    rw [h.text_eq, List.drop_left]
  constructor
  · exact ⟨row, hdrop.symm ▸ h⟩
  · rw [← List.head?_drop, hdrop, List.head?_cons]
  · rwa [hdrop]

theorem readBody_of_no_breaksOff (hline : Byte.lineFeed ∉ body)
    (h : ∀ k, ¬ BreaksOff quote body k) :
    readBody quote body = .error .illFormedText ∨ ∃ s, readBody quote body = .ok s := by
  obtain ⟨row, rest, hparses, hhalts⟩ := exists_parses quote hline
  have hstuck := hhalts.stuck
  generalize hresult : resolve (escapesOf quote) body = result at hhalts
  cases hhalts with
  | complete =>
      rw [readBody_of_ok hline hresult]
      cases Utf8.decode? (row.flatMap Prod.snd) with
      | none => exact .inl rfl
      | some s => exact .inr ⟨s, rfl⟩
  | lone => exact absurd (breaksOff_of_parses hparses hstuck) (h _)
  | refused _ => exact absurd (breaksOff_of_parses hparses hstuck) (h _)

theorem of_illFormedText (h : readBody quote body = .error .illFormedText) :
    Byte.lineFeed ∉ body ∧ ∀ k, ¬ BreaksOff quote body k := by
  have hline : Byte.lineFeed ∉ body := by
    intro hmem
    rw [readBody_of_lineFeed hmem] at h
    cases h
  refine ⟨hline, ?_⟩
  intro k hbreaks
  obtain ⟨failure, hread, hblames⟩ := hbreaks.readBody_eq hline
  rw [h] at hread
  cases (hblames _).mpr (Except.error.inj hread)

/-- A body with a line feed is refused for that, and another for the first of its escapes that is
none, whatever may be wrong behind it. A body of items alone is refused for its bytes or not at
all. Reading by places comes to the same without a fault, in words of any size that leave room for
the body and eight bytes. -/
theorem readBody_leftmost (quote : Byte) (body : Bytes) :
    (Byte.lineFeed ∈ body → readBody quote body = .error .rawLineFeed) ∧
    (Byte.lineFeed ∉ body → ∀ k, BreaksOff quote body k →
      ∃ failure, readBody quote body = .error failure ∧
        ∀ other, Blames quote body k other ↔ other = failure) ∧
    (∀ k k', BreaksOff quote body k → BreaksOff quote body k' → k = k') ∧
    (Byte.lineFeed ∉ body → (∀ k, ¬ BreaksOff quote body k) →
      readBody quote body = .error .illFormedText ∨ ∃ s, readBody quote body = .ok s) ∧
    (readBody quote body = .error .illFormedText →
      Byte.lineFeed ∉ body ∧ ∀ k, ¬ BreaksOff quote body k) ∧
    ∀ limit, body.length + 8 < limit →
      Indexed.readBody limit body quote = .ok (readBody quote body) := by
  refine ⟨readBody_of_lineFeed, ?_, ?_, readBody_of_no_breaksOff, of_illFormedText, ?_⟩
  · intro hline k hbreaks
    exact hbreaks.readBody_eq hline
  · intro k k' hbreaks hbreaks'
    exact hbreaks.unique hbreaks'
  · intro limit hroom
    exact Indexed.readBody_eq hroom quote

/-- A byte of no text, then a surrogate by its number, an unknown escape and a lone backslash. -/
theorem readBody_leftmost_surrogate :
    let body : Bytes := [0xff, 0x5c, 0x75, 0x64, 0x38, 0x30, 0x30, 0x5c, 0x71, 0x5c]
    BreaksOff Quote.double.byte body 1 ∧
      readBody Quote.double.byte body = .error (.notACharacter "ud800") ∧
      Indexed.readBody 0x10000000000000000 body Quote.double.byte =
        .ok (readBody Quote.double.byte body) := by
  intro body
  have hrefused : escapesOf Quote.double.byte 0x75 (body.drop 3) =
      .error (.notACharacter "ud800") := by
    decide +kernel
  have hhalts : Halts Quote.double.byte [] (body.drop 1) (.error (.notACharacter "ud800")) :=
    .refused hrefused
  have hplain : Item Quote.double.byte (body.drop 1) [0xff] [0xff] :=
    .plain (by decide) (by decide)
  have hbreaks : BreaksOff Quote.double.byte body 1 := ⟨⟨_, .cons hplain .nil⟩, rfl, hhalts.stuck⟩
  obtain ⟨_, hfault, _, _, _, hindexed⟩ := readBody_leftmost Quote.double.byte body
  obtain ⟨failure, hread, hblames⟩ := hfault (by decide) 1 hbreaks
  have hdigits := ((number?_eq_some_iff (show 16 ≤ 16 by decide)).mp
    (show Escape.number? 16 4 (body.drop 3) = some 0xd800 by decide +kernel)).2
  have hblamed := (hblames (.notACharacter (Utf8.lossy [0x75, 0x64, 0x38, 0x30, 0x30]))).mp
    (.notACharacter ⟨by decide, 'u', 4, _, _, by decide, by decide, by decide, hdigits, by decide⟩
      ⟨[0x5c, 0x71, 0x5c], rfl⟩)
  have hshown : Utf8.lossy [0x75, 0x64, 0x38, 0x30, 0x30] = "ud800" := by decide +kernel
  rw [← hblamed, hshown] at hread
  exact ⟨hbreaks, hread, hindexed _ (by decide)⟩

end Quoted

end Literal

end IdlLexis
