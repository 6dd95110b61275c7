import IdlLexis.Lexeme.Scan
/-!
The lexemes of a text, one after the other. Every lexeme but the end of the text moves the
reader on, so the sequence is finite.
-/

namespace IdlLexis

namespace Reader

/-! A rule that succeeds leaves the reader past the offset it was applied at. -/

structure Passes (r r' : Reader) : Prop where
  source_eq : r'.source = r.source
  offset_lt : r.offset < r'.offset

theorem Passes.then {r₁ r₂ r₃ : Reader} (h₁₂ : r₁.Passes r₂) (h₂₃ : r₂.Reaches r₃) :
    r₁.Passes r₃ :=
  ⟨h₂₃.source_eq.trans h₁₂.source_eq, Nat.lt_of_lt_of_le h₁₂.offset_lt h₂₃.offset_le⟩

theorem Passes.of_advance {r r' : Reader} {count : Nat} (hcount : 0 < count)
    (h : r.advance count = .ok r') : r.Passes r' := by
  rw [advance_eq_ok h]
  exact ⟨rfl, Nat.lt_add_of_pos_right hcount⟩

theorem Passes.of_one {r r' : Reader} {c c' : Lexeme.Category}
    (h : r.one c = .ok (c', r')) : c' = c ∧ r.Passes r' := by
  obtain ⟨r₁, hadvance, hret⟩ := Fault.bind_eq_ok.mp h
  cases hret
  exact ⟨rfl, .of_advance Nat.one_pos hadvance⟩

theorem Passes.of_advanceWhile {test : Reader → Except Fault Bool} {r r' : Reader}
    (htest : test r = .ok true) (h : r.advanceWhile test = .ok r') : r.Passes r' := by
  rw [advanceWhile] at h
  split at h
  · rw [htest] at h
    dsimp only at h
    split at h
    · contradiction
    · next hstep => exact (Passes.of_advance Nat.one_pos hstep).then (.of_advanceWhile h)
  · contradiction

theorem Passes.of_skipWhile {test : Byte → Bool} {r r' : Reader} {b : Byte}
    (hb : r.look 0 = .ok b) (htest : test b = true) (h : r.skipWhile test = .ok r') :
    r.Passes r' := by
  refine .of_advanceWhile ?_ h
  rw [hb]
  exact congrArg Except.ok htest

theorem Passes.of_readLineComment {r r' : Reader} {mark : Nat} {c : Lexeme.Category}
    (hmark : 0 < mark) (h : r.readLineComment mark = .ok (c, r')) :
    c = .lineComment ∧ r.Passes r' := by
  obtain ⟨r₁, hadvance, h⟩ := Fault.bind_eq_ok.mp h
  obtain ⟨r₂, hskip, hret⟩ := Fault.bind_eq_ok.mp h
  cases hret
  exact ⟨rfl, (Passes.of_advance hmark hadvance).then (.of_skipToLineEnd hskip)⟩

theorem Passes.of_readBlockComment {r r' : Reader} {c : Lexeme.Category}
    (h : r.readBlockComment = .ok (c, r')) : c ≠ .endOfText ∧ r.Passes r' := by
  obtain ⟨third, _, h⟩ := Fault.bind_eq_ok.mp h
  obtain ⟨body, hadvance, h⟩ := Fault.bind_eq_ok.mp h
  obtain ⟨⟨closed, stop⟩, hbody, h⟩ := Fault.bind_eq_ok.mp h
  have hpass : r.Passes stop :=
    (Passes.of_advance Nat.two_pos hadvance).then (.of_skipCommentBody hbody)
  cases closed with
  | false =>
      cases h
      exact ⟨Lexeme.Category.noConfusion, hpass⟩
  | true =>
      obtain ⟨length, _, hret⟩ := Fault.bind_eq_ok.mp h
      cases hret
      refine ⟨?_, hpass⟩
      split <;> exact Lexeme.Category.noConfusion

theorem Passes.of_readSlash {r r' : Reader} {c : Lexeme.Category}
    (h : r.readSlash = .ok (c, r')) : c ≠ .endOfText ∧ r.Passes r' := by
  obtain ⟨next, _, h⟩ := Fault.bind_eq_ok.mp h
  split at h
  · obtain ⟨rfl, hpass⟩ := Passes.of_readLineComment Nat.two_pos h
    exact ⟨Lexeme.Category.noConfusion, hpass⟩
  · split at h
    · exact Passes.of_readBlockComment h
    · obtain ⟨rfl, hpass⟩ := Passes.of_one h
      exact ⟨Lexeme.Category.noConfusion, hpass⟩

theorem Passes.of_readWord {r r' : Reader} {c : Lexeme.Category}
    (h : r.readWord = .ok (c, r')) : c = .word ∧ r.Passes r' := by
  obtain ⟨r₁, hadvance, h⟩ := Fault.bind_eq_ok.mp h
  obtain ⟨r₂, hskip, hret⟩ := Fault.bind_eq_ok.mp h
  cases hret
  exact ⟨rfl, (Passes.of_advance Nat.one_pos hadvance).then (.of_advanceWhile hskip)⟩

theorem Reaches.of_skipExponent {r r' : Reader} (h : r.skipExponent = .ok r') :
    r.Reaches r' := by
  obtain ⟨mark, _, h⟩ := Fault.bind_eq_ok.mp h
  split at h
  · obtain ⟨next, _, h⟩ := Fault.bind_eq_ok.mp h
    split at h
    · obtain ⟨r₁, hadvance, hskip⟩ := Fault.bind_eq_ok.mp h
      exact .trans (.of_advance hadvance) (.of_skipWhile hskip)
    · split at h
      · obtain ⟨digit, _, h⟩ := Fault.bind_eq_ok.mp h
        split at h
        · obtain ⟨r₁, hadvance, hskip⟩ := Fault.bind_eq_ok.mp h
          exact .trans (.of_advance hadvance) (.of_skipWhile hskip)
        · cases h
          exact .refl r
      · cases h
        exact .refl r
  · cases h
    exact .refl r

/-! Decimal digits may be absent after a sign, which then has moved the reader on. -/

theorem readDecimal_reaches {r digits r' : Reader} {c : Lexeme.Category}
    (hdigits : r.skipWhile Byte.isDigit = .ok digits) (h : r.readDecimal = .ok (c, r')) :
    c ≠ .endOfText ∧ digits.Reaches r' := by
  obtain ⟨digits', hskip, h⟩ := Fault.bind_eq_ok.mp h
  cases hdigits.symm.trans hskip
  obtain ⟨b, _, h⟩ := Fault.bind_eq_ok.mp h
  split at h
  · obtain ⟨r₁, hadvance, h⟩ := Fault.bind_eq_ok.mp h
    obtain ⟨r₂, hskip, h⟩ := Fault.bind_eq_ok.mp h
    obtain ⟨r₃, hexponent, hret⟩ := Fault.bind_eq_ok.mp h
    cases hret
    exact ⟨Lexeme.Category.noConfusion,
      .trans (.of_advance hadvance)
        (.trans (.of_skipWhile hskip) (.of_skipExponent hexponent))⟩
  · cases h
    exact ⟨Lexeme.Category.noConfusion, .refl _⟩

theorem Reaches.of_readDecimal {r r' : Reader} {c : Lexeme.Category}
    (h : r.readDecimal = .ok (c, r')) : c ≠ .endOfText ∧ r.Reaches r' := by
  obtain ⟨digits, hdigits, _⟩ := Fault.bind_eq_ok.mp h
  obtain ⟨hc, hreach⟩ := readDecimal_reaches hdigits h
  exact ⟨hc, .trans (.of_skipWhile hdigits) hreach⟩

theorem Passes.of_readNumber {r r' : Reader} {c : Lexeme.Category} {b : Byte}
    (hb : r.look 0 = .ok b) (hdigit : Byte.isDigit b = true)
    (h : r.readNumber = .ok (c, r')) : c ≠ .endOfText ∧ r.Passes r' := by
  obtain ⟨hex, _, h⟩ := Fault.bind_eq_ok.mp h
  cases hex with
  | true =>
      obtain ⟨r₁, hadvance, h⟩ := Fault.bind_eq_ok.mp h
      obtain ⟨r₂, hskip, hret⟩ := Fault.bind_eq_ok.mp h
      cases hret
      exact ⟨Lexeme.Category.noConfusion,
        (Passes.of_advance Nat.two_pos hadvance).then (.of_skipWhile hskip)⟩
  | false =>
      obtain ⟨digits, hdigits, _⟩ := Fault.bind_eq_ok.mp h
      obtain ⟨hc, hreach⟩ := readDecimal_reaches hdigits h
      exact ⟨hc, (Passes.of_skipWhile hb hdigit hdigits).then hreach⟩

theorem Passes.of_readSigned {r r' : Reader} {c : Lexeme.Category}
    (h : r.readSigned = .ok (c, r')) : c ≠ .endOfText ∧ r.Passes r' := by
  obtain ⟨next, _, h⟩ := Fault.bind_eq_ok.mp h
  split at h
  · obtain ⟨r₁, hadvance, h⟩ := Fault.bind_eq_ok.mp h
    obtain ⟨hc, hreach⟩ := Reaches.of_readDecimal h
    exact ⟨hc, (Passes.of_advance Nat.one_pos hadvance).then hreach⟩
  · obtain ⟨rfl, hpass⟩ := Passes.of_one h
    exact ⟨Lexeme.Category.noConfusion, hpass⟩

theorem Reaches.of_closeQuote {quote : Quote} {r r' : Reader} {closed : Bool}
    (h : r.closeQuote quote = .ok (closed, r')) : r.Reaches r' := by
  fun_induction closeQuote quote r with
  | case1 => contradiction
  | case2 r stop hstop =>
      cases h
      exact .of_skipToDelimiter hstop
  | case3 => contradiction
  | case4 r stop cut hpass hstop =>
      cases h
      obtain ⟨hsource, hlt⟩ := offset_of_passEscape hpass
      exact .trans (.of_skipToDelimiter hstop) ⟨hsource, Nat.le_of_lt hlt⟩
  | case5 r stop rest hpass hstop _ ih =>
      obtain ⟨hsource, hlt⟩ := offset_of_passEscape hpass
      exact .trans (.of_skipToDelimiter hstop)
        (.trans ⟨hsource, Nat.le_of_lt hlt⟩ (ih h))
  | case6 r stop hstop =>
      cases h
      exact .of_skipToDelimiter hstop
  | case7 r b stop hstop =>
      obtain ⟨r₁, hadvance, hret⟩ := Fault.bind_eq_ok.mp h
      cases hret
      exact .trans (.of_skipToDelimiter hstop) (.of_advance hadvance)

theorem Passes.of_readQuoted {r r' : Reader} {quote : Quote} {c : Lexeme.Category}
    (h : r.readQuoted quote = .ok (c, r')) : c ≠ .endOfText ∧ r.Passes r' := by
  obtain ⟨r₁, hadvance, h⟩ := Fault.bind_eq_ok.mp h
  obtain ⟨⟨closed, r₂⟩, hclose, hret⟩ := Fault.bind_eq_ok.mp h
  cases hret
  refine ⟨?_, (Passes.of_advance Nat.one_pos hadvance).then (.of_closeQuote hclose)⟩
  cases closed <;> exact Lexeme.Category.noConfusion

/-! Only the end of the text leaves the reader where it was. -/

theorem classify_passes {r r' : Reader} {c : Lexeme.Category}
    (h : r.classify = .ok (c, r')) :
    (c = .endOfText ∧ r' = r) ∨ (c ≠ .endOfText ∧ r.Passes r') := by
  obtain ⟨b, hb, h⟩ := Fault.bind_eq_ok.mp h
  split at h
  · obtain ⟨ended, _, h⟩ := Fault.bind_eq_ok.mp h
    cases ended with
    | true =>
        cases h
        exact .inl ⟨rfl, rfl⟩
    | false =>
        obtain ⟨rfl, hpass⟩ := Passes.of_one h
        exact .inr ⟨Lexeme.Category.noConfusion, hpass⟩
  · split at h
    · next hblank =>
        obtain ⟨r₁, hskip, hret⟩ := Fault.bind_eq_ok.mp h
        cases hret
        exact .inr ⟨Lexeme.Category.noConfusion, .of_skipWhile hb hblank hskip⟩
    · split at h
      · obtain ⟨rfl, hpass⟩ := Passes.of_one h
        exact .inr ⟨Lexeme.Category.noConfusion, hpass⟩
      · split at h
        · obtain ⟨rfl, hpass⟩ := Passes.of_readWord h
          exact .inr ⟨Lexeme.Category.noConfusion, hpass⟩
        · split at h
          · next hdigit => exact .inr (Passes.of_readNumber hb hdigit h)
          · split at h
            · exact .inr (Passes.of_readSigned h)
            · split at h
              · obtain ⟨rfl, hpass⟩ := Passes.of_readLineComment Nat.one_pos h
                exact .inr ⟨Lexeme.Category.noConfusion, hpass⟩
              · split at h
                · exact .inr (Passes.of_readSlash h)
                · split at h
                  · exact .inr (Passes.of_readQuoted h)
                  · obtain ⟨rfl, hpass⟩ := Passes.of_one h
                    exact .inr ⟨Lexeme.Category.noConfusion, hpass⟩
                  · obtain ⟨rfl, hpass⟩ := Passes.of_one h
                    exact .inr ⟨Lexeme.Category.noConfusion, hpass⟩

theorem classify_of_next {r r' : Reader} {x : Lexeme} (h : r.next = .ok (x, r')) :
    r.classify = .ok (x.category, r') ∧ x.length = r'.offset - r.offset := by
  obtain ⟨⟨category, stop⟩, hclassify, h⟩ := Fault.bind_eq_ok.mp h
  obtain ⟨length, hlength, hret⟩ := Fault.bind_eq_ok.mp h
  cases hret
  exact ⟨hclassify, (Offset.sub_eq_ok hlength).1⟩

theorem next_passes {r r' : Reader} {x : Lexeme} (h : r.next = .ok (x, r'))
    (hx : x.category ≠ .endOfText) : r.Passes r' := by
  obtain ⟨hclassify, _⟩ := classify_of_next h
  rcases classify_passes hclassify with ⟨hend, _⟩ | ⟨_, hpass⟩
  · exact absurd hend hx
  · exact hpass

theorem lt_size_of_next {r r' : Reader} {x : Lexeme} (h : r.next = .ok (x, r')) :
    r.offset < r.source.padded.size := by
  obtain ⟨hclassify, _⟩ := classify_of_next h
  obtain ⟨b, hb, _⟩ := Fault.bind_eq_ok.mp hclassify
  exact lt_size_of_look hb

theorem next_nearer {r r' : Reader} {x : Lexeme} (h : r.next = .ok (x, r'))
    (hx : x.category ≠ .endOfText) :
    r'.source.padded.size - r'.offset < r.source.padded.size - r.offset := by
  have hpass := next_passes h hx
  have hlt := lt_size_of_next h
  rw [hpass.source_eq]
  have := hpass.offset_lt
  omega

/-- The lexemes from the reader to the end of the text, and the reader there. -/
def lexemes (r : Reader) : Except Fault (List Lexeme × Reader) :=
  match hnext : r.next with
  | .error fault => .error fault
  | .ok (x, stop) =>
      if hx : x.category = .endOfText then .ok ([], stop)
      else
        have := next_nearer hnext hx
        match stop.lexemes with
        | .error fault => .error fault
        | .ok (rest, last) => .ok (x :: rest, last)
termination_by r.source.padded.size - r.offset

end Reader

/-- The lexemes of a text; the end of the text is not among them. -/
def lexemes (text : Bytes) : Except Fault (List Lexeme) := do
  let (found, _) ← (Source.ofBytes text).reader.lexemes
  return found

end IdlLexis
