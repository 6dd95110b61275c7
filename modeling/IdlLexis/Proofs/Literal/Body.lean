import IdlLexis.Proofs.Literal.Item
/-!
The body of a quoted literal, read item by item. Reading follows the one row of items that the
body begins with as far as it goes. Where it goes to the end the body has the value of the row, and
a body without a backslash, for which no row is looked for, has that value as well.
-/

namespace IdlLexis

namespace Literal

namespace Quoted

variable {quote letter b : Byte} {text rest other after written meant digits bytes : Bytes}
  {row row' : List (Bytes × Bytes)} {failure : Failure}

/-! Items. -/

theorem Escaped.exists_cons (h : Escaped quote rest written meant) :
    ∃ letter digits, written = letter :: digits := by
  cases h with
  | letter hmem =>
      obtain ⟨letter, _, hletter, _⟩ := escapesOf_letter hmem []
      exact ⟨letter, [], hletter⟩
  | hexByte => exact ⟨_, _, rfl⟩
  | character _ hmark _ _ =>
      obtain ⟨letter, hletter, _⟩ := inDouble_character hmark []
      exact ⟨letter, _, by rw [hletter]; rfl⟩
  | octal _ _ hlength _ => exact List.exists_cons_of_length_eq_add_one hlength
  | zero => exact ⟨_, _, rfl⟩

theorem lineFeed_not_mem_letters : ∀ p ∈ doubleStyle, Byte.lineFeed ∉ Utf8.encode [p.1] := by
  decide

theorem Escaped.lineFeed_not_mem (h : Escaped quote rest written meant) :
    Byte.lineFeed ∉ written := by
  have hsixteen : Byte.digitValue? 16 Byte.lineFeed = none := by decide
  have height : Byte.digitValue? 8 Byte.lineFeed = none := by decide
  cases h with
  | letter hmem => exact lineFeed_not_mem_letters _ (mem_doubleStyle hmem)
  | hexByte _ hdigits _ =>
      rw [List.mem_append, not_or]
      exact ⟨by decide, hdigits.not_mem (by decide) hsixteen⟩
  | @character mark _ _ _ _ hmark hdigits _ =>
      have hletter : ∀ p ∈ numberLetters, Byte.lineFeed ∉ Utf8.encode [p.1] := by decide
      rw [List.mem_append, not_or]
      exact ⟨hletter _ hmark, hdigits.not_mem (by decide) hsixteen⟩
  | octal _ hdigits _ _ => exact hdigits.not_mem (by decide) height
  | zero => decide

/-- All that is taken after the letter of an escape is digits. -/
theorem Escaped.backslash_not_mem (h : Escaped quote rest (letter :: digits) meant) :
    Byte.backslash ∉ digits := by
  have hsixteen : Byte.digitValue? 16 Byte.backslash = none := by decide
  have height : Byte.digitValue? 8 Byte.backslash = none := by decide
  generalize hwritten : letter :: digits = written at h
  cases h with
  | letter hmem =>
      obtain ⟨b, _, hb, _⟩ := escapesOf_letter hmem []
      rw [hb] at hwritten
      rw [(List.cons.inj hwritten).2]
      exact List.not_mem_nil
  | hexByte _ hdigits _ =>
      rw [(List.cons.inj hwritten).2]
      exact hdigits.not_mem (by decide) hsixteen
  | character _ hmark hdigits _ =>
      obtain ⟨b, hb, _⟩ := inDouble_character hmark []
      rw [hb] at hwritten
      rw [(List.cons.inj hwritten).2]
      exact hdigits.not_mem (by decide) hsixteen
  | octal _ hdigits _ _ =>
      subst hwritten
      exact fun hmem => hdigits.not_mem (by decide) height (List.mem_cons_of_mem letter hmem)
  | zero =>
      rw [(List.cons.inj hwritten).2]
      exact List.not_mem_nil

namespace Item

theorem ne_nil (h : Item quote rest written meant) : written ≠ [] := by
  cases h <;> exact List.cons_ne_nil _ _

theorem lineFeed_not_mem (h : Item quote rest written meant) : Byte.lineFeed ∉ written := by
  cases h with
  | plain _ hline => simpa using hline.symm
  | escape hescaped =>
      rw [List.mem_cons, not_or]
      exact ⟨by decide, hescaped.lineFeed_not_mem⟩

/-- An item of a backslash is what the reading of its letter takes. -/
theorem escapesOf_eq (h : Item quote rest written meant)
    (heq : written ++ rest = Byte.backslash :: letter :: after) :
    ∃ digits, written = Byte.backslash :: letter :: digits ∧ after = digits ++ rest ∧
      escapesOf quote letter after = .ok ⟨meant, digits.length⟩ := by
  cases h with
  | plain hbackslash _ => exact absurd (List.cons.inj heq).1 hbackslash
  | escape hescaped =>
      obtain ⟨b, digits, rfl⟩ := hescaped.exists_cons
      obtain ⟨rfl, rfl⟩ := List.cons.inj (List.cons.inj heq).2
      exact ⟨digits, rfl, rfl, escapesOf_of_escaped hescaped⟩

theorem unique {rest' written' meant' : Bytes} (h : Item quote rest written meant)
    (h' : Item quote rest' written' meant') (heq : written ++ rest = written' ++ rest') :
    written = written' ∧ meant = meant' ∧ rest = rest' := by
  cases h with
  | plain hbackslash _ =>
      cases h' with
      | plain _ _ =>
          obtain ⟨rfl, rfl⟩ := List.cons.inj heq
          exact ⟨rfl, rfl, rfl⟩
      | escape _ => exact absurd (List.cons.inj heq).1 hbackslash
  | escape hescaped =>
      obtain ⟨letter, digits, rfl⟩ := hescaped.exists_cons
      have hwhole : written' ++ rest' = Byte.backslash :: letter :: (digits ++ rest) := heq.symm
      obtain ⟨digits', rfl, hafter, hread⟩ := h'.escapesOf_eq hwhole
      rw [escapesOf_of_escaped hescaped] at hread
      obtain ⟨rfl, hlength⟩ := Escape.mk.inj (Except.ok.inj hread)
      obtain ⟨rfl, rfl⟩ := List.append_inj hafter hlength
      exact ⟨rfl, rfl, rfl⟩

theorem resolve_eq (h : Item quote rest written meant) :
    resolve (escapesOf quote) (written ++ rest) =
      (meant ++ ·) <$> resolve (escapesOf quote) rest := by
  cases h with
  | plain hbackslash _ => exact resolve_plain (List.forall_mem_singleton.mpr hbackslash) rest
  | escape hescaped =>
      obtain ⟨letter, digits, rfl⟩ := hescaped.exists_cons
      exact resolve_escape (escapesOf_of_escaped hescaped)

end Item

/-! Rows of items. -/

/-- No item stands at the beginning of the text. -/
def Stuck (quote : Byte) (text : Bytes) : Prop :=
  ∀ written meant rest, Item quote rest written meant → written ++ rest ≠ text

theorem stuck_nil : Stuck quote [] := by
  intro written meant rest hitem hnil
  exact hitem.ne_nil (List.append_eq_nil_iff.mp hnil).1

namespace Parses

theorem text_eq (h : Parses quote text row rest) : text = row.flatMap Prod.fst ++ rest := by
  induction h with
  | nil => rfl
  | cons _ _ ih => rw [List.flatMap_cons, List.append_assoc, ← ih]

theorem lineFeed_not_mem (h : Parses quote text row []) : Byte.lineFeed ∉ text := by
  generalize hrest : ([] : Bytes) = rest at h
  induction h with
  | nil => simp [← hrest]
  | cons hitem _ ih =>
      rw [List.mem_append, not_or]
      exact ⟨hitem.lineFeed_not_mem, ih hrest⟩

/-- There is one row of items, if it goes as far as it can. -/
theorem unique (h : Parses quote text row rest) (hstuck : Stuck quote rest)
    (h' : Parses quote text row' other) (hstuck' : Stuck quote other) :
    row = row' ∧ rest = other := by
  induction h generalizing row' with
  | nil =>
      cases h' with
      | nil => exact ⟨rfl, rfl⟩
      | cons hitem _ => exact absurd rfl (hstuck _ _ _ hitem)
  | @cons text _ written meant row hitem hrow ih =>
      generalize htext : written ++ text = whole at h'
      cases h' with
      | nil => exact absurd htext (hstuck' _ _ _ hitem)
      | cons hitem' hrow' =>
          obtain ⟨rfl, rfl, rfl⟩ := hitem.unique hitem' htext
          obtain ⟨rfl, rfl⟩ := ih hstuck hrow'
          exact ⟨rfl, rfl⟩

theorem resolve_eq (h : Parses quote text row rest) :
    resolve (escapesOf quote) text =
      (row.flatMap Prod.snd ++ ·) <$> resolve (escapesOf quote) rest := by
  induction h with
  | nil =>
      cases resolve (escapesOf quote) _ <;> rfl
  | cons hitem _ ih =>
      rw [hitem.resolve_eq, ih]
      cases resolve (escapesOf quote) _ <;> simp [Functor.map, Except.map]

theorem resolve_ok (h : Parses quote text row []) :
    resolve (escapesOf quote) text = .ok (row.flatMap Prod.snd) := by
  rw [h.resolve_eq, map_resolve_nil]

end Parses

/-- What reading comes to after a row of items, by what is left of the text. -/
inductive Halts (quote : Byte) (row : List (Bytes × Bytes)) : Bytes → Except Failure Bytes → Prop
  | complete : Halts quote row [] (.ok (row.flatMap Prod.snd))
  | lone : Halts quote row [Byte.backslash] (.error .loneBackslash)
  | refused {letter : Byte} {after : Bytes} {failure : Failure}
      (h : escapesOf quote letter after = .error failure) :
      Halts quote row (Byte.backslash :: letter :: after) (.error failure)

theorem Halts.stuck {result : Except Failure Bytes} (h : Halts quote row rest result) :
    Stuck quote rest := by
  intro written meant tail hitem heq
  cases h with
  | complete => exact stuck_nil _ _ _ hitem heq
  | lone =>
      cases hitem with
      | plain hbackslash _ => exact hbackslash (List.cons.inj heq).1
      | escape hescaped =>
          obtain ⟨letter, digits, rfl⟩ := hescaped.exists_cons
          cases heq
  | refused hrefused =>
      obtain ⟨_, _, _, hread⟩ := hitem.escapesOf_eq heq
      rw [hrefused] at hread
      contradiction

theorem Halts.cons {result : Except Failure Bytes} (h : Halts quote row rest result) :
    Halts quote ((written, meant) :: row) rest ((meant ++ ·) <$> result) := by
  cases h with
  | complete => exact .complete
  | lone => exact .lone
  | refused hrefused => exact .refused hrefused

/-- Reading passes a row of items, as long as it can be. -/
theorem exists_parses (quote : Byte) (hline : Byte.lineFeed ∉ text) :
    ∃ row rest, Parses quote text row rest ∧
      Halts quote row rest (resolve (escapesOf quote) text) := by
  induction hlength : text.length using Nat.strong_induction_on generalizing text with
  | _ length ih =>
      have later {written rest meant : Bytes} (hitem : Item quote rest written meant)
          (htext : text = written ++ rest) :
          ∃ row rest, Parses quote text row rest ∧
            Halts quote row rest (resolve (escapesOf quote) text) := by
        subst htext
        have hshorter : rest.length < length := by
          rw [← hlength, List.length_append]
          have hpos := List.length_pos_iff.mpr hitem.ne_nil
          omega
        have hrest : Byte.lineFeed ∉ rest := fun hmem => hline (List.mem_append_right _ hmem)
        obtain ⟨row, tail, hparses, hhalts⟩ := ih _ hshorter hrest rfl
        rw [hitem.resolve_eq]
        exact ⟨_, tail, .cons hitem hparses, hhalts.cons⟩
      cases text with
      | nil =>
          rw [resolve]
          exact ⟨[], [], .nil, .complete⟩
      | cons b text =>
          by_cases hb : b = Byte.backslash
          · subst hb
            cases text with
            | nil =>
                refine ⟨[], _, .nil, ?_⟩
                rw [resolve.eq_def]
                exact .lone
            | cons letter after =>
                cases hescape : escapesOf quote letter after with
                | error failure =>
                    refine ⟨[], _, .nil, ?_⟩
                    rw [resolve.eq_def]
                    dsimp only
                    rw [if_pos rfl, hescape]
                    exact .refused hescape
                | ok e =>
                    obtain ⟨digits, rest, rfl, _, hescaped⟩ := takes_of_escapesOf hescape
                    exact later (.escape hescaped) rfl
          · exact later (.plain hb fun heq => hline (heq ▸ List.mem_cons_self)) rfl

/-- A body has a value exactly if it is a row of items and the bytes that these stand for are the
value in UTF-8. It is one such row at most, and to read a body without a backslash item by item
would make no difference. -/
theorem readBody_eq_ok_iff (quote : Byte) (body : Bytes) :
    (∀ s, readBody quote body = .ok s ↔
      ∃ row, Parses quote body row [] ∧ row.flatMap Prod.snd = Utf8.encode s.toList) ∧
    (∀ row row', Parses quote body row [] → Parses quote body row' [] → row = row') ∧
    bodyBytes quote body = resolve (escapesOf quote) body := by
  refine ⟨?_, ?_, bodyBytes_eq_resolve quote body⟩
  · intro s
    constructor
    · intro hread
      have hline : Byte.lineFeed ∉ body := by
        intro hmem
        rw [readBody_of_lineFeed hmem] at hread
        contradiction
      obtain ⟨row, rest, hparses, hhalts⟩ := exists_parses quote hline
      cases hresolve : resolve (escapesOf quote) body with
      | error failure =>
          rw [readBody_of_error hline hresolve] at hread
          contradiction
      | ok bytes =>
          rw [hresolve] at hhalts
          cases hhalts
          rw [readBody_of_ok hline hresolve] at hread
          cases hdecode : Utf8.decode? (row.flatMap Prod.snd) with
          | none =>
              rw [hdecode] at hread
              contradiction
          | some text =>
              rw [hdecode] at hread
              cases hread
              exact ⟨row, hparses, (Utf8.decode?_eq_some_iff.mp hdecode).symm⟩
    · rintro ⟨row, hparses, hbytes⟩
      rw [readBody_of_ok hparses.lineFeed_not_mem hparses.resolve_ok, hbytes, Utf8.decode?_encode]
  · intro row row' hrow hrow'
    exact (hrow.unique stuck_nil hrow' stuck_nil).1

/-- A zero escape before a digit that is not octal, a digit in octal, and two escapes that make up
one character between them. -/
theorem readBody_eq_ok_iff_shared_character :
    let body : Bytes :=
      [0x5c, 0x30, 0x38, 0x5c, 0x30, 0x36, 0x30, 0x5c, 0x78, 0x63, 0x33, 0x5c, 0x32, 0x35, 0x31]
    readBody Quote.double.byte body = .ok "\x0080é" ∧
      ∃ row, Parses Quote.double.byte body row [] ∧
        row.flatMap Prod.snd = Utf8.encode "\x0080é".toList ∧
        ∀ row', Parses Quote.double.byte body row' [] → row = row' := by
  intro body
  have hread : readBody Quote.double.byte body = .ok "\x0080é" := by
    decide +kernel
  obtain ⟨hvalue, hunique, _⟩ := readBody_eq_ok_iff Quote.double.byte body
  obtain ⟨row, hrow, hbytes⟩ := (hvalue _).mp hread
  exact ⟨hread, row, hrow, hbytes, fun row' hrow' => hunique row row' hrow hrow'⟩

end Quoted

end Literal

end IdlLexis
