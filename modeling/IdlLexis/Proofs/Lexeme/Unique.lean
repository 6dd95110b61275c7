import IdlLexis.Proofs.Lexeme.Comment
/-!
The grammar is unambiguous. No two categories cover the same bytes, so a text has one first
lexeme at most.
-/

namespace IdlLexis

namespace Lexeme

variable {category other : Category} {text front : Bytes}

/-! A point tells a real number from an integer, and an x tells a hexadecimal one. -/

theorem dot_mem_of_real (h : Covers .real text) : Byte.dot ∈ text := by
  cases h with
  | real _ _ _ _ => simp

theorem lowerX_mem_of_hexInteger (h : Covers .hexInteger text) : Byte.lowerX ∈ text := by
  cases h with
  | hexInteger _ => simp

theorem bytes_of_integer (h : Covers .integer text) :
    ∀ b ∈ text, (Byte.isSign b || Byte.isDigit b) = true := by
  cases h with
  | integer hsign hdigits =>
      intro b hb
      rcases List.mem_append.mp hb with hb | hb
      · rcases hsign with rfl | ⟨c, hc, rfl⟩
        · cases hb
        · rw [List.mem_singleton.mp hb, hc]
          rfl
      · rw [hdigits.2 b hb, Bool.or_true]

theorem dot_not_mem_of_hexInteger (h : Covers .hexInteger text) : Byte.dot ∉ text := by
  cases h with
  | hexInteger hdigits =>
      intro hdot
      rcases List.mem_cons.mp hdot with hdot | hdot
      · exact absurd hdot (by decide)
      · rcases List.mem_cons.mp hdot with hdot | hdot
        · exact absurd hdot (by decide)
        · exact absurd (hdigits.2 _ hdot) (by decide)

theorem integer_unique (h : Covers .integer text) (hother : Covers other text)
    (hnumber : other = .integer ∨ other = .hexInteger ∨ other = .real) : other = .integer := by
  rcases hnumber with rfl | rfl | rfl
  · rfl
  · exact absurd (bytes_of_integer h _ (lowerX_mem_of_hexInteger hother)) (by decide)
  · exact absurd (bytes_of_integer h _ (dot_mem_of_real hother)) (by decide)

theorem number_unique (h : Covers category text) (hother : Covers other text)
    (hnumber : category = .integer ∨ category = .hexInteger ∨ category = .real)
    (hothers : other = .integer ∨ other = .hexInteger ∨ other = .real) : category = other := by
  rcases hnumber with rfl | rfl | rfl
  · exact (integer_unique h hother hothers).symm
  · rcases hothers with rfl | rfl | rfl
    · exact integer_unique hother h (.inr (.inl rfl))
    · rfl
    · exact absurd (dot_mem_of_real hother) (dot_not_mem_of_hexInteger h)
  · rcases hothers with rfl | rfl | rfl
    · exact integer_unique hother h (.inr (.inr rfl))
    · exact absurd (dot_mem_of_real h) (dot_not_mem_of_hexInteger hother)
    · rfl

/-! Two comments that begin alike are of one form, and two closed ones of one kind. -/

theorem closed_unique (h : Covers category text) (hother : Covers other text)
    (hblock : category = .blockComment ∨ category = .docComment)
    (hothers : other = .blockComment ∨ other = .docComment) : category = other := by
  rcases hblock with rfl | rfl <;> rcases hothers with rfl | rfl
  · rfl
  · cases h with
    | blockComment _ hplain =>
        cases hother with
        | docComment _ hdoc => exact absurd hdoc hplain
  · cases h with
    | docComment _ hdoc =>
        cases hother with
        | blockComment _ hplain => exact absurd hdoc hplain
  · rfl

theorem comment_unique {b : Byte} {rest : Bytes} (h : Covers category (Byte.slash :: b :: rest))
    (hother : Covers other (Byte.slash :: b :: rest)) : category = other := by
  rcases h.second_of_slash (List.append_nil _) with ⟨rfl, hslash⟩ | ⟨hblock, hstar⟩
  · rcases hother.second_of_slash (List.append_nil _) with ⟨rfl, _⟩ | ⟨_, hstar⟩
    · rfl
    · rw [hslash] at hstar
      exact absurd hstar (by decide)
  · rcases hother.second_of_slash (List.append_nil _) with ⟨_, hslash⟩ | ⟨hothers, _⟩
    · rw [hslash] at hstar
      exact absurd hstar (by decide)
    · exact closed_unique h hother hblock hothers

theorem covers_unique (h : Covers category text) (hother : Covers other text) :
    category = other := by
  cases text with
  | nil => exact absurd rfl h.ne_nil
  | cons b rest =>
      rcases Category.mayBegin_unique (h.mayBegin rfl) (hother.mayBegin rfl) with
        heq | ⟨hnumber, hothers⟩ | rfl
      · exact heq
      · exact number_unique h hother hnumber hothers
      · cases rest with
        | nil =>
            have hnone : Uncovered [Byte.slash] := uncovered_slash (by decide) (by decide)
            exact absurd (List.prefix_refl _) (hnone category _ h)
        | cons c rest => exact comment_unique h hother

/-! The first lexeme of a text. -/

theorem IsLongest.unique {otherFront : Bytes} (h : IsLongest category front text)
    (hother : IsLongest other otherFront text) : category = other ∧ front = otherFront := by
  have hle := h.longest other otherFront hother.covers hother.isPrefix
  have hge := hother.longest category front h.covers h.isPrefix
  obtain rfl : front = otherFront :=
    (List.prefix_of_prefix_length_le h.isPrefix hother.isPrefix hge).eq_of_length
      (Nat.le_antisymm hge hle)
  exact ⟨covers_unique h.covers hother.covers, rfl⟩

theorem IsLongest.not_uncovered (h : IsLongest category front text) : ¬ Uncovered text :=
  fun huncovered => huncovered category front h.covers h.isPrefix

/-- The mistake that a text makes if nothing covers a front of it. -/
def mistakeOf (text : Bytes) : Category × Bytes :=
  if ((text.head?.bind Quote.ofByte?).isSome) then
    (.openQuote, text.takeWhile (· != Byte.lineFeed))
  else if [Byte.slash, Byte.star] <+: text then (.openComment, text)
  else (.strayByte, text.take 1)

theorem Mistake.eq_mistakeOf (h : Mistake category front text) :
    (category, front) = mistakeOf text := by
  cases h with
  | @openQuote quote _ => simp [mistakeOf, Quote.ofByte?_byte]
  | openComment =>
      have hquote : Quote.ofByte? Byte.slash = none := by decide
      simp [mistakeOf, hquote]
  | @strayByte b rest hquote hcomment =>
      have hopen : ¬ [Byte.slash, Byte.star] <+: b :: rest := by
        rintro ⟨more, heq⟩
        obtain ⟨rfl, rfl⟩ := List.cons.inj heq
        exact hcomment rfl rfl
      simp [mistakeOf, hquote, hopen]

theorem Mistake.unique {otherFront : Bytes} (h : Mistake category front text)
    (hother : Mistake other otherFront text) : category = other ∧ front = otherFront :=
  Prod.mk.inj (h.eq_mistakeOf.trans hother.eq_mistakeOf.symm)

theorem first_unique {otherFront : Bytes} (h : First category front text)
    (hother : First other otherFront text) : category = other ∧ front = otherFront := by
  rcases h with hlongest | ⟨huncovered, hmistake⟩
  · rcases hother with hlongest' | ⟨huncovered, _⟩
    · exact hlongest.unique hlongest'
    · exact absurd huncovered hlongest.not_uncovered
  · rcases hother with hlongest | ⟨_, hmistake'⟩
    · exact absurd huncovered hlongest.not_uncovered
    · exact hmistake.unique hmistake'

theorem First.isPrefix (h : First category front text) : front <+: text := by
  rcases h with hlongest | ⟨_, hmistake⟩
  · exact hlongest.isPrefix
  · cases hmistake with
    | openQuote => exact List.takeWhile_prefix _
    | openComment => exact List.prefix_refl _
    | strayByte _ _ => exact ⟨_, rfl⟩

theorem First.ne_nil (h : First category front text) : front ≠ [] := by
  rcases h with hlongest | ⟨_, hmistake⟩
  · exact hlongest.covers.ne_nil
  · cases hmistake with
    | @openQuote quote _ =>
        have hquote : quote.byte ≠ Byte.lineFeed := by cases quote <;> decide
        simp [hquote]
    | openComment => exact List.cons_ne_nil _ _
    | strayByte _ _ => exact List.cons_ne_nil _ _

theorem First.category_ne_endOfText (h : First category front text) :
    category ≠ .endOfText := by
  rcases h with hlongest | ⟨_, hmistake⟩
  · exact hlongest.covers.category_ne_endOfText
  · cases hmistake <;> exact Category.noConfusion

end Lexeme

end IdlLexis
