import IdlLexis.Proofs.Lexeme.Lookahead
import IdlLexis.Proofs.Text.Returns
/-!
Lexemes of a text with carriage returns before its line feeds. A comment that goes on over line
feeds has the returns in it; blanks, a comment up to the end of its line and an open quote take the
return at the end of their line along; after any other lexeme the return is a lexeme of its own. So
the lexemes are those of the text without returns, with returns between some of them.
-/

namespace IdlLexis

namespace Lexeme

variable {category : Category} {front longer tail text more body : Bytes}
  {pieces others : List Piece}

/-! A return before the first byte of a text belongs to what comes before the text. -/

/-- The return before a text that begins with a line feed. -/
def returnBefore (text : Bytes) : Bytes :=
  if text.head? = some Byte.lineFeed then [Byte.carriageReturn] else []

/-- The text with returns, less the one before it. -/
def returnsWithin : Bytes → Bytes
  | [] => []
  | b :: text => b :: withReturns text

theorem returnBefore_append (text : Bytes) :
    returnBefore text ++ returnsWithin text = withReturns text := by
  cases text with
  | nil => rfl
  | cons b text =>
      by_cases hb : b = Byte.lineFeed
      · subst hb
        exact (withReturns_lineFeed text).symm
      · rw [withReturns_cons hb, returnBefore, if_neg (by simpa using hb)]
        rfl

theorem head?_returnsWithin (text : Bytes) : (returnsWithin text).head? = text.head? := by
  cases text <;> rfl

theorem Stops.returnsWithin {test : Byte → Bool} (h : Stops test tail) :
    Stops test (returnsWithin tail) := by
  intro b hb
  rw [head?_returnsWithin] at hb
  exact h b hb

theorem withReturns_of_not_mem (h : Byte.lineFeed ∉ front) : withReturns front = front :=
  Text.markBefore_of_not_mem h

theorem returnsWithin_append (hfront : front.head? ≠ some Byte.lineFeed) (hne : front ≠ [])
    (tail : Bytes) :
    returnsWithin (front ++ tail) = withReturns front ++ withReturns tail := by
  obtain ⟨b, rest, rfl⟩ := List.exists_cons_of_ne_nil hne
  have hb : b ≠ Byte.lineFeed := by simpa using hfront
  rw [withReturns_cons hb, List.cons_append, returnsWithin, withReturns_append, List.cons_append]

/-! A comment stays closed, or open, with returns in it. -/

theorem leavesOpen_withReturns (h : LeavesOpen text) : LeavesOpen (withReturns text) := by
  rintro ⟨before, after, heq⟩
  rw [List.append_assoc] at heq
  obtain ⟨before, after, rfl, _, _⟩ :=
    Text.split_markBefore (by simp) (by decide) (by decide) heq.symm
  exact h ⟨before, after, by simp⟩

theorem withReturns_closed (body : Bytes) :
    withReturns ([Byte.slash, Byte.star] ++ body ++ [Byte.star, Byte.slash]) =
      [Byte.slash, Byte.star] ++ withReturns body ++ [Byte.star, Byte.slash] := by
  rw [withReturns_append, withReturns_append]
  rfl

theorem ClosedComment.withReturns (h : ClosedComment text) :
    ClosedComment (withReturns text) := by
  obtain ⟨body, hopen, rfl⟩ := h
  refine ⟨IdlLexis.withReturns body, ?_, withReturns_closed body⟩
  have hlonger := leavesOpen_withReturns hopen
  rwa [withReturns_append] at hlonger

/-- Returns do not lengthen the one comment that is too short to be a doc comment. -/
theorem beginsDoc_withReturns (h : ClosedComment text) :
    BeginsDoc (withReturns text) ↔ BeginsDoc text := by
  by_cases hline : Byte.lineFeed ∈ text
  · have hlength : 4 < text.length := by
      obtain ⟨body, _, rfl⟩ := h
      have hbody : Byte.lineFeed ∈ body := by
        simpa [show Byte.lineFeed ≠ Byte.slash by decide,
          show Byte.lineFeed ≠ Byte.star by decide] using hline
      have hpos := List.length_pos_of_mem hbody
      simp only [List.length_append, List.length_cons, List.length_nil]
      omega
    have hlonger := Text.length_le_markBefore Byte.carriageReturn Byte.lineFeed text
    constructor
    · rintro ⟨⟨tail, htail⟩, _⟩
      obtain ⟨rest, rfl, _⟩ :=
        Text.split_markBefore_start (by decide) (by decide) htail.symm
      exact ⟨⟨rest, rfl⟩, hlength⟩
    · rintro ⟨⟨tail, rfl⟩, _⟩
      refine ⟨?_, Nat.lt_of_lt_of_le hlength hlonger⟩
      rw [withReturns_append]
      exact List.prefix_append _ _
  · rw [withReturns_of_not_mem hline]

theorem ClosedComment.exists_covers (h : ClosedComment text) :
    ∃ category, Covers category text := by
  by_cases hdoc : BeginsDoc text
  · exact ⟨.docComment, .docComment h hdoc⟩
  · exact ⟨.blockComment, .blockComment h hdoc⟩

theorem leavesOpen_of_uncovered (h : Uncovered (Byte.slash :: Byte.star :: text)) :
    LeavesOpen text := by
  rcases exists_close text with hopen | ⟨body, tail, rfl, hopen⟩
  · exact hopen
  · obtain ⟨category, hcovers⟩ := ClosedComment.exists_covers ⟨body, hopen, rfl⟩
    exact absurd ⟨tail, by simp⟩ (h category _ hcovers)

theorem nearby_withReturns (h : category.takesBlanks = false) (tail : Bytes) :
    nearby category (withReturns tail) = nearby category tail := by
  rw [nearby, nearby]
  congr 1
  induction tail with
  | nil => rfl
  | cons b tail ih =>
      by_cases hb : b = Byte.lineFeed
      · subst hb
        rw [withReturns_lineFeed, List.takeWhile_cons_of_neg (by simp [Category.halts, h]),
          List.takeWhile_cons_of_neg (by simp [Category.halts])]
      · rw [withReturns_cons hb, List.takeWhile_cons, List.takeWhile_cons, ih]

/-! What a lexeme becomes. -/

/-- The bytes that a lexeme covers in the text with returns. -/
inductive Returned : Category → Bytes → Bytes → Prop
  | same {category : Category} {front : Bytes} : Returned category front front
  | within {category : Category} {front : Bytes} (hbreak : category.mayBreak = true) :
      Returned category front (withReturns front)
  | before {category : Category} {front : Bytes} (hblanks : category.takesBlanks = true) :
      Returned category front (front ++ [Byte.carriageReturn])

theorem returned_returnBefore (h : category.takesBlanks = true) (front tail : Bytes) :
    Returned category front (front ++ returnBefore tail) := by
  rw [returnBefore]
  split
  · exact .before h
  · rw [List.append_nil]
    exact .same

/-! Lexemes that take the return at the end of their line along. -/

theorem isBlank_returnBefore (tail : Bytes) : ∀ b ∈ returnBefore tail, Byte.isBlank b = true := by
  rw [returnBefore]
  split <;> simp [Byte.isBlank]

theorem lineFeed_not_mem_returnBefore (tail : Bytes) : Byte.lineFeed ∉ returnBefore tail :=
  not_mem_of_forall (isBlank_returnBefore tail) (by decide)

theorem isLongest_blank_returned (h : IsLongest .blank front (front ++ tail)) :
    IsLongest .blank (front ++ returnBefore tail)
      (front ++ returnBefore tail ++ returnsWithin tail) := by
  have hstays := h.stays (List.prefix_refl _)
  cases h.covers with
  | blank hblank =>
      have hlonger : Run Byte.isBlank (front ++ returnBefore tail) :=
        ⟨by simp [hblank.ne_nil],
          List.forall_mem_append.mpr ⟨hblank.2, isBlank_returnBefore tail⟩⟩
      exact isLongest_blank hlonger (stops_blank_of_stays hblank hstays).returnsWithin

theorem isLongest_lineComment_returned (h : IsLongest .lineComment front (front ++ tail)) :
    IsLongest .lineComment (front ++ returnBefore tail)
      (front ++ returnBefore tail ++ returnsWithin tail) := by
  have hstays := h.stays (List.prefix_refl _)
  cases h.covers with
  | @lineComment mark body hmark hbody =>
      have hlonger : Byte.lineFeed ∉ body ++ returnBefore tail := by
        simp [hbody, lineFeed_not_mem_returnBefore]
      rw [List.append_assoc mark]
      exact isLongest_lineComment hmark hlonger
        (stops_line_of_stays hmark hbody hstays).returnsWithin

theorem uncovered_return {quote : Quote} {rest : Bytes} (h : Uncovered (quote.byte :: rest)) :
    Uncovered (quote.byte :: rest ++ [Byte.carriageReturn]) := by
  intro category covered hcovers hcovered
  rcases List.prefix_concat_iff.mp hcovered with rfl | hcovered
  · obtain rfl := Category.mayBegin_quote quote _ (hcovers.mayBegin_of_append (List.append_nil _))
    generalize heq : quote.byte :: rest ++ [Byte.carriageReturn] = covered at hcovers
    cases hcovers with
    | quoted _ =>
        have hlast := List.append_inj_right' heq rfl
        cases quote <;> exact absurd hlast (by decide)
  · exact h category covered hcovers hcovered

theorem first_openQuote_returned (h : First .openQuote front (front ++ tail)) :
    First .openQuote (front ++ returnBefore tail)
      (front ++ returnBefore tail ++ returnsWithin tail) := by
  obtain ⟨⟨quote, rest, rfl⟩, hline, hstops, huncovered⟩ := first_openQuote_iff.mp h
  refine first_openQuote_iff.mpr
    ⟨⟨quote, rest ++ returnBefore tail, rfl⟩, ?_, hstops.returnsWithin, ?_⟩
  · simp only [List.mem_append, not_or]
    exact ⟨hline, lineFeed_not_mem_returnBefore tail⟩
  · rw [returnBefore]
    split
    · exact uncovered_return huncovered
    · rwa [List.append_nil]

theorem First.before_returned (h : First category front (front ++ tail))
    (hblanks : category.takesBlanks = true) :
    First category (front ++ returnBefore tail)
      (front ++ returnBefore tail ++ returnsWithin tail) := by
  cases category with
  | openQuote => exact first_openQuote_returned h
  | blank =>
      rcases h with hlongest | ⟨_, hmistake⟩
      · exact .inl (isLongest_blank_returned hlongest)
      · cases hmistake
  | lineComment =>
      rcases h with hlongest | ⟨_, hmistake⟩
      · exact .inl (isLongest_lineComment_returned hlongest)
      · cases hmistake
  | _ => contradiction

/-! Lexemes that go on over returns, and all the others. -/

theorem First.head_ne_lineFeed (h : First category front (front ++ tail))
    (hcategory : category ≠ .newline) : front.head? ≠ some Byte.lineFeed := by
  intro hhead
  obtain ⟨rest, rfl⟩ := List.head?_eq_some_iff.mp hhead
  have hnewline : First .newline [Byte.lineFeed] ([Byte.lineFeed] ++ (rest ++ tail)) :=
    .inl isLongest_newline
  exact hcategory (first_unique h hnewline).1

theorem Covers.withReturns (h : Covers category front)
    (hcategory : category = .blockComment ∨ category = .docComment) :
    Covers category (withReturns front) := by
  rcases hcategory with rfl | rfl
  · cases h with
    | blockComment hclosed hplain =>
        exact .blockComment hclosed.withReturns (mt (beginsDoc_withReturns hclosed).mp hplain)
  · cases h with
    | docComment hclosed hdoc =>
        exact .docComment hclosed.withReturns ((beginsDoc_withReturns hclosed).mpr hdoc)

theorem first_openComment_returned (h : First .openComment front front) :
    First .openComment (withReturns front) (withReturns front) := by
  rcases h with hlongest | ⟨huncovered, hmistake⟩
  · cases hlongest.covers
  · generalize htext : front = text at huncovered hmistake
    cases hmistake with
    | @openComment text =>
        rw [withReturns_cons (by decide), withReturns_cons (by decide)]
        have hopen := leavesOpen_withReturns (leavesOpen_of_uncovered huncovered)
        exact .inr ⟨uncovered_openComment hopen, .openComment⟩

theorem First.within_returned (h : First category front (front ++ tail))
    (hbreak : category.mayBreak = true) (hcategory : category ≠ .newline) :
    First category (withReturns front) (withReturns front ++ withReturns tail) := by
  have hcomment (hcategory : category = .blockComment ∨ category = .docComment) :
      First category (withReturns front) (withReturns front ++ withReturns tail) := by
    rcases h with hlongest | ⟨_, hmistake⟩
    · have hcovers := hlongest.covers.withReturns hcategory
      exact .inl (isLongest_closedComment hcovers (hcovers.closedComment hcategory))
    · rcases hcategory with rfl | rfl <;> cases hmistake
  cases category with
  | newline => contradiction
  | blockComment => exact hcomment (.inl rfl)
  | docComment => exact hcomment (.inr rfl)
  | openComment =>
      obtain rfl : tail = [] := List.self_eq_append_right.mp h.openComment
      rw [List.append_nil] at h
      rw [withReturns_nil, List.append_nil]
      exact first_openComment_returned h
  | _ => contradiction

/-- A lexeme becomes the first lexeme of the text with returns, but for the return before it. -/
theorem First.exists_returned (h : First category front (front ++ tail)) :
    ∃ longer more, Returned category front longer ∧
      returnsWithin (front ++ tail) = longer ++ more ∧
      First category longer (longer ++ more) ∧
      (more = withReturns tail ∨ more = returnsWithin tail) := by
  by_cases hnewline : category = .newline
  · subst hnewline
    obtain rfl := h.newline
    exact ⟨_, _, .same, rfl, .inl isLongest_newline, .inl rfl⟩
  · have hwithin := returnsWithin_append (h.head_ne_lineFeed hnewline) h.ne_nil tail
    cases hbreak : category.mayBreak with
    | true => exact ⟨_, _, .within hbreak, hwithin, h.within_returned hbreak hnewline, .inl rfl⟩
    | false =>
        rw [withReturns_of_not_mem (h.lineFeed_not_mem hbreak)] at hwithin
        cases hblanks : category.takesBlanks with
        | true =>
            refine ⟨_, _, returned_returnBefore hblanks front tail, ?_,
              h.before_returned hblanks, .inr rfl⟩
            rw [hwithin, ← returnBefore_append, List.append_assoc]
        | false =>
            have hcategory : category ≠ .openComment := by
              rintro rfl
              contradiction
            have hnear := nearby_withReturns hblanks tail
            exact ⟨_, _, .same, hwithin, h.of_nearby_eq hcategory hnear, .inl rfl⟩

/-! The pieces of a text with returns. -/

/-- The pieces become the others, with returns between them. -/
inductive Spaced : List Piece → List Piece → Prop
  | nil : Spaced [] []
  | piece {category : Category} {front longer : Bytes} {pieces others : List Piece}
      (hreturned : Returned category front longer) (hrest : Spaced pieces others) :
      Spaced (⟨category, front⟩ :: pieces) (⟨category, longer⟩ :: others)
  | space {pieces others : List Piece} (hrest : Spaced pieces others) :
      Spaced pieces (⟨.blank, [Byte.carriageReturn]⟩ :: others)

theorem isLongest_return (text : Bytes) :
    IsLongest .blank [Byte.carriageReturn]
      ([Byte.carriageReturn] ++ Byte.lineFeed :: text) :=
  isLongest_blank (.cons rfl (by simp)) (stops_cons.mpr rfl)

/-- The return before a text is a lexeme if nothing takes it along. -/
theorem spaced_of_within (hcuts : Cuts (returnsWithin text) others)
    (hspaced : Spaced pieces others) :
    ∃ others, Cuts (withReturns text) others ∧ Spaced pieces others := by
  rw [← returnBefore_append, returnBefore]
  split
  · next hhead =>
      obtain ⟨rest, rfl⟩ := List.head?_eq_some_iff.mp hhead
      exact ⟨_, .cons (.inl (isLongest_return _)) hcuts, .space hspaced⟩
  · exact ⟨others, hcuts, hspaced⟩

theorem Cuts.returnsWithin (h : Cuts text pieces) :
    ∃ others, Cuts (returnsWithin text) others ∧ Spaced pieces others := by
  induction h with
  | nil => exact ⟨[], .nil, .nil⟩
  | @cons category front tail pieces hfirst _ ih =>
      obtain ⟨others, hcuts, hspaced⟩ := ih
      obtain ⟨longer, more, hreturned, hwithin, hfirst', hmore⟩ := hfirst.exists_returned
      rw [hwithin]
      rcases hmore with rfl | rfl
      · obtain ⟨others, hcuts, hspaced⟩ := spaced_of_within hcuts hspaced
        exact ⟨_, .cons hfirst' hcuts, .piece hreturned hspaced⟩
      · exact ⟨_, .cons hfirst' hcuts, .piece hreturned hspaced⟩

theorem Cuts.exists_spaced (h : Cuts text pieces) :
    ∃ others, Cuts (withReturns text) others ∧ Spaced pieces others := by
  obtain ⟨others, hcuts, hspaced⟩ := h.returnsWithin
  exact spaced_of_within hcuts hspaced

end Lexeme

end IdlLexis
