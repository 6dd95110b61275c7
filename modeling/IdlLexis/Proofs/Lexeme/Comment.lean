import IdlLexis.Proofs.Lexeme.Opening
import IdlLexis.Proofs.Source.Moves
/-!
Comments. A line comment goes on up to its line feed. A block comment that is closed anywhere is
closed at one place only, the first that the grammar allows; one that is closed nowhere leaves
its text uncovered.
-/

namespace IdlLexis

namespace Lexeme

theorem Covers.lineFeed_not_mem_lineComment {text : Bytes} (h : Covers .lineComment text) :
    ∀ b ∈ text, (b != Byte.lineFeed) = true := by
  cases h with
  | lineComment hmark hbody =>
      intro b hb
      rw [bne_iff_ne]
      rintro rfl
      rcases List.mem_append.mp hb with hb | hb
      · rcases hmark with rfl | rfl <;> exact absurd hb (by decide)
      · exact hbody hb

theorem Covers.closedComment {category : Category} {text : Bytes} (h : Covers category text)
    (hcategory : category = .blockComment ∨ category = .docComment) : ClosedComment text := by
  rcases hcategory with rfl | rfl
  · cases h with
    | blockComment hclosed _ => exact hclosed
  · cases h with
    | docComment hclosed _ => exact hclosed

/-- A comment that a slash begins tells its form by its second byte. -/
theorem Covers.second_of_slash {category : Category} {text more rest : Bytes} {b : Byte}
    (h : Covers category text) (heq : text ++ more = Byte.slash :: b :: rest) :
    (category = .lineComment ∧ b = Byte.slash) ∨
      ((category = .blockComment ∨ category = .docComment) ∧ b = Byte.star) := by
  rcases Category.mayBegin_slash _ (h.mayBegin_of_append heq) with rfl | hblock
  · cases h with
    | lineComment hmark _ =>
        rcases hmark with rfl | rfl
        · cases heq
        · cases heq
          exact .inl ⟨rfl, rfl⟩
  · refine .inr ⟨hblock, ?_⟩
    obtain ⟨body, _, rfl⟩ := h.closedComment hblock
    cases heq
    rfl

theorem isLongest_lineComment {mark body tail : Bytes}
    (hmark : mark = [Byte.hash] ∨ mark = [Byte.slash, Byte.slash])
    (hbody : Byte.lineFeed ∉ body) (hstops : Stops (· != Byte.lineFeed) tail) :
    IsLongest .lineComment (mark ++ body) (mark ++ body ++ tail) := by
  apply isLongest_append (.lineComment hmark hbody)
  intro other longer more hother heq
  have hline : other = .lineComment := by
    rcases hmark with rfl | rfl
    · exact Category.mayBegin_hash _ (hother.mayBegin_of_append heq)
    · rcases hother.second_of_slash heq with ⟨hline, _⟩ | ⟨_, hstar⟩
      · exact hline
      · exact absurd hstar (by decide)
  subst hline
  exact run_length_le heq hother.lineFeed_not_mem_lineComment hstops

/-! Where a block comment is closed. -/

theorem pair_infix {text : Bytes} {i : Nat} {a b : Byte} (ha : text[i]? = some a)
    (hb : text[i + 1]? = some b) : [a, b] <:+: text := by
  have hdrop : text.drop i = a :: b :: text.drop (i + 2) := by
    obtain ⟨hi, rfl⟩ := List.getElem?_eq_some_iff.mp ha
    obtain ⟨hnext, rfl⟩ := List.getElem?_eq_some_iff.mp hb
    rw [List.drop_eq_getElem_cons hi, List.drop_eq_getElem_cons hnext]
  refine ⟨text.take i, text.drop (i + 2), ?_⟩
  rw [List.append_assoc, List.cons_append, List.cons_append, List.nil_append, ← hdrop,
    List.take_append_drop]

theorem leavesOpen_nil : LeavesOpen [] := by
  intro h
  have hlength := h.length_le
  contradiction

theorem exists_close (text : Bytes) :
    LeavesOpen text ∨
      ∃ body tail, text = body ++ Byte.star :: Byte.slash :: tail ∧
        LeavesOpen (body ++ [Byte.star]) := by
  induction text with
  | nil => exact .inl leavesOpen_nil
  | cons b text ih =>
      by_cases hmark : [Byte.star, Byte.slash] <+: b :: text
      · obtain ⟨tail, htail⟩ := hmark
        refine .inr ⟨[], tail, htail.symm, ?_⟩
        intro h
        have hlength := h.length_le
        contradiction
      · rcases ih with hopen | ⟨body, tail, rfl, hopen⟩
        · left
          intro h
          rcases List.infix_cons_iff.mp h with h | h
          · exact hmark h
          · exact hopen h
        · refine .inr ⟨b :: body, tail, rfl, ?_⟩
          intro h
          rcases List.infix_cons_iff.mp h with h | h
          · apply hmark
            refine h.trans ⟨Byte.slash :: tail, ?_⟩
            simp
          · exact hopen h

theorem not_leavesOpen {body tail : Bytes} :
    ¬ LeavesOpen (body ++ Byte.star :: Byte.slash :: tail) := by
  intro h
  apply h
  exact ⟨body, tail, by simp⟩

theorem close_length_le {body other tail more : Bytes}
    (heq : other ++ Byte.star :: Byte.slash :: more = body ++ Byte.star :: Byte.slash :: tail)
    (hopen : LeavesOpen (other ++ [Byte.star])) : other.length ≤ body.length := by
  apply Nat.le_of_not_lt
  intro hlt
  have hbody : body ++ [Byte.star, Byte.slash] <+: body ++ Byte.star :: Byte.slash :: tail :=
    ⟨tail, by simp⟩
  have hother : other ++ [Byte.star] <+: body ++ Byte.star :: Byte.slash :: tail :=
    ⟨Byte.slash :: more, by simp [← heq]⟩
  have hinside : body ++ [Byte.star, Byte.slash] <+: other ++ [Byte.star] := by
    apply List.prefix_of_prefix_length_le hbody hother
    simp only [List.length_append, List.length_cons, List.length_nil]
    omega
  apply hopen
  exact List.IsInfix.trans (List.suffix_append _ _).isInfix hinside.isInfix

theorem closedComment_length_le {front other tail more : Bytes} (hfront : ClosedComment front)
    (hother : ClosedComment other) (heq : other ++ more = front ++ tail) :
    other.length ≤ front.length := by
  obtain ⟨body, _, rfl⟩ := hfront
  obtain ⟨otherBody, hopen, rfl⟩ := hother
  have hbodies : otherBody ++ Byte.star :: Byte.slash :: more =
      body ++ Byte.star :: Byte.slash :: tail := by
    simpa using heq
  have hlength := close_length_le hbodies hopen
  simp only [List.length_append, List.length_cons, List.length_nil]
  omega

theorem isLongest_closedComment {category : Category} {front tail : Bytes}
    (hcovers : Covers category front) (hclosed : ClosedComment front) :
    IsLongest category front (front ++ tail) := by
  apply isLongest_append hcovers
  intro other longer more hother heq
  have hopening : ∃ rest, front ++ tail = Byte.slash :: Byte.star :: rest := by
    obtain ⟨body, _, rfl⟩ := hclosed
    exact ⟨_, rfl⟩
  obtain ⟨rest, hrest⟩ := hopening
  rcases hother.second_of_slash (heq.trans hrest) with ⟨_, hslash⟩ | ⟨hblock, _⟩
  · exact absurd hslash (by decide)
  · exact closedComment_length_le hclosed (hother.closedComment hblock) heq

theorem uncovered_openComment {text : Bytes} (hopen : LeavesOpen text) :
    Uncovered (Byte.slash :: Byte.star :: text) := by
  rintro category front hcovers ⟨more, heq⟩
  rcases hcovers.second_of_slash heq with ⟨_, hslash⟩ | ⟨hblock, _⟩
  · exact absurd hslash (by decide)
  · obtain ⟨body, _, rfl⟩ := hcovers.closedComment hblock
    have hbody : text = body ++ Byte.star :: Byte.slash :: more := by
      simpa using heq.symm
    rw [hbody] at hopen
    exact not_leavesOpen hopen

/-- A slash that begins no comment is covered by nothing. -/
theorem uncovered_slash {text : Bytes} (hline : text.head? ≠ some Byte.slash)
    (hblock : text.head? ≠ some Byte.star) : Uncovered (Byte.slash :: text) := by
  rintro category front hcovers ⟨more, heq⟩
  cases text with
  | nil =>
      have hlength := congrArg List.length heq
      rcases Category.mayBegin_slash _ (hcovers.mayBegin_of_append heq) with rfl | hclosed
      · cases hcovers with
        | lineComment hmark _ =>
            rcases hmark with rfl | rfl
            · cases heq
            · simp at hlength
      · obtain ⟨body, _, rfl⟩ := hcovers.closedComment hclosed
        simp at hlength
  | cons b text =>
      rcases hcovers.second_of_slash heq with ⟨_, rfl⟩ | ⟨_, rfl⟩
      · exact hline rfl
      · exact hblock rfl

end Lexeme

namespace Reader

namespace Faces

variable {r : Reader} {mark body tail text : Bytes} {b : Byte}

theorem readLineComment (h : r.Faces (mark ++ body ++ tail)) (hbody : Byte.lineFeed ∉ body)
    (hstops : Lexeme.Stops (· != Byte.lineFeed) tail) :
    r.readLineComment mark.length = .ok (.lineComment, r.after (mark ++ body).length) := by
  rw [List.append_assoc] at h
  rw [Reader.readLineComment, h.advance, Fault.ok_bind, h.after.skipToLineEnd hbody hstops,
    Fault.ok_bind, after_after, List.length_append]
  rfl

/-! The mark that closes a comment may begin at the last byte of a body, but not end there. -/

theorem closes_iff (h : r.Faces text) (i : Nat) :
    (r.isAt Byte.star (r.offset + i) && r.isAt Byte.slash (r.offset + i + 1)) = true ↔
      text[i]? = some Byte.star ∧ text[i + 1]? = some Byte.slash := by
  rw [Bool.and_eq_true, h.isAt (by decide), Nat.add_assoc, h.isAt (by decide)]

theorem skipCommentBody_closed (h : r.Faces (body ++ Byte.star :: Byte.slash :: tail))
    (hopen : Lexeme.LeavesOpen (body ++ [Byte.star])) :
    r.skipCommentBody = .ok (true, r.after (body.length + 2)) := by
  have hsearch : r.search (fun i => r.isAt Byte.star i && r.isAt Byte.slash (i + 1)) =
      .ok (some (r.offset + body.length)) := by
    apply h.search
    · intro i hi
      apply Bool.eq_false_iff.mpr
      intro hcloses
      obtain ⟨hstar, hslash⟩ := (h.closes_iff i).mp hcloses
      rw [List.append_cons] at hstar hslash
      have hlength : (body ++ [Byte.star]).length = body.length + 1 := by simp
      rw [List.getElem?_append_left (by omega)] at hstar hslash
      exact hopen (Lexeme.pair_infix hstar hslash)
    · intro _
      rw [h.closes_iff]
      simp
  have hstop := h.after.advance_two
  rw [Reader.skipCommentBody, hsearch]
  change (do
    let stop ← (r.after body.length).advance 2
    return (true, stop)) = _
  rw [hstop, after_after]
  rfl

theorem skipCommentBody_open (h : r.Faces text) (hopen : Lexeme.LeavesOpen text) :
    r.skipCommentBody = .ok (false, r.after text.length) := by
  have hsearch : r.search (fun i => r.isAt Byte.star i && r.isAt Byte.slash (i + 1)) =
      .ok none := by
    have hend : r.Faces (text ++ []) := by rwa [List.append_nil]
    apply hend.search
    · intro i _
      apply Bool.eq_false_iff.mpr
      intro hcloses
      obtain ⟨hstar, hslash⟩ := (h.closes_iff i).mp hcloses
      exact hopen (Lexeme.pair_infix hstar hslash)
    · intro hne
      exact absurd rfl hne
  rw [Reader.skipCommentBody, hsearch, h.after_eq_toEnd]
  rfl

theorem readBlockComment_closed
    (h : r.Faces (Byte.slash :: Byte.star :: (body ++ Byte.star :: Byte.slash :: tail)))
    (hopen : Lexeme.LeavesOpen (body ++ [Byte.star])) :
    ∃ category,
      Lexeme.Covers category ([Byte.slash, Byte.star] ++ body ++ [Byte.star, Byte.slash]) ∧
      r.readBlockComment = .ok (category, r.after (body.length + 4)) := by
  have hclosed : Lexeme.ClosedComment
      ([Byte.slash, Byte.star] ++ body ++ [Byte.star, Byte.slash]) := ⟨body, hopen, rfl⟩
  have hbody : (r.after 2).Faces (body ++ Byte.star :: Byte.slash :: tail) :=
    h.after_cons_cons
  have hstop : (r.after 2).after (body.length + 2) = r.after (body.length + 4) := by
    rw [after_after, Nat.add_comm]
  have hlength : Offset.sub (r.after (body.length + 4)).offset r.offset =
      .ok (body.length + 4) := by
    rw [offset_after, Offset.sub_of_le (Nat.le_add_right ..), Nat.add_sub_cancel_left]
  have hread : r.readBlockComment =
      .ok (if (body ++ Byte.star :: Byte.slash :: tail).headD 0 = Byte.star ∧
          4 < body.length + 4 then .docComment else .blockComment,
        r.after (body.length + 4)) := by
    rw [Reader.readBlockComment, h.look_two, Fault.ok_bind, h.advance_two, Fault.ok_bind,
      hbody.skipCommentBody_closed hopen, Fault.ok_bind, hstop]
    simp only [if_true, hlength, Fault.ok_bind]
    rfl
  have hdoc : Lexeme.BeginsDoc ([Byte.slash, Byte.star] ++ body ++ [Byte.star, Byte.slash]) ↔
      (body ++ Byte.star :: Byte.slash :: tail).headD 0 = Byte.star ∧ 4 < body.length + 4 := by
    rw [Lexeme.BeginsDoc]
    cases body <;> simp [eq_comm]
  rw [hread]
  by_cases hbegins : Lexeme.BeginsDoc
      ([Byte.slash, Byte.star] ++ body ++ [Byte.star, Byte.slash])
  · rw [if_pos (hdoc.mp hbegins)]
    exact ⟨_, .docComment hclosed hbegins, rfl⟩
  · rw [if_neg (mt hdoc.mpr hbegins)]
    exact ⟨_, .blockComment hclosed hbegins, rfl⟩

theorem readBlockComment_open (h : r.Faces (Byte.slash :: Byte.star :: text))
    (hopen : Lexeme.LeavesOpen text) :
    r.readBlockComment = .ok (.openComment, r.after (text.length + 2)) := by
  have hbody : (r.after 2).Faces text := h.after_cons_cons
  rw [Reader.readBlockComment, h.look_two, Fault.ok_bind, h.advance_two, Fault.ok_bind,
    hbody.skipCommentBody_open hopen, Fault.ok_bind, after_after, Nat.add_comm]
  rfl

theorem readsFirst_lineComment (h : r.Faces (mark ++ text))
    (hmark : mark = [Byte.hash] ∨ mark = [Byte.slash, Byte.slash]) :
    r.ReadsFirst (mark ++ text) (r.readLineComment mark.length) := by
  obtain ⟨body, tail, rfl, hbody, hstops⟩ := Lexeme.exists_run (· != Byte.lineFeed) text
  have hline : Byte.lineFeed ∉ body := by
    intro hmem
    exact absurd (hbody _ hmem) (by decide)
  rw [← List.append_assoc] at h ⊢
  exact .of_longest (Lexeme.isLongest_lineComment hmark hline hstops)
    (h.readLineComment hline hstops)

theorem readsFirst_blockComment (h : r.Faces (Byte.slash :: Byte.star :: text)) :
    r.ReadsFirst (Byte.slash :: Byte.star :: text) r.readBlockComment := by
  rcases Lexeme.exists_close text with hopen | ⟨body, tail, rfl, hopen⟩
  · exact .of_mistake (Lexeme.uncovered_openComment hopen) .openComment
      (h.readBlockComment_open hopen)
  · obtain ⟨category, hcovers, hread⟩ := h.readBlockComment_closed hopen
    have htext : Byte.slash :: Byte.star :: (body ++ Byte.star :: Byte.slash :: tail) =
        ([Byte.slash, Byte.star] ++ body ++ [Byte.star, Byte.slash]) ++ tail := by
      simp
    rw [htext]
    refine .of_longest (Lexeme.isLongest_closedComment hcovers ⟨body, hopen, rfl⟩) ?_
    rw [hread]
    simp only [List.length_append, List.length_cons, List.length_nil]
    rw [Nat.add_right_comm, Nat.add_comm]

/-- A slash begins a comment of either form, or is a mistake. -/
theorem readsFirst_slash (h : r.Faces (Byte.slash :: text)) :
    r.ReadsFirst (Byte.slash :: text) r.readSlash := by
  rw [Reader.readSlash, h.look_one, Fault.ok_bind]
  by_cases hline : text.headD 0 = Byte.slash
  · rw [if_pos hline]
    rw [Lexeme.headD_eq_iff (by decide), List.head?_eq_some_iff] at hline
    obtain ⟨rest, rfl⟩ := hline
    have hmark : r.Faces ([Byte.slash, Byte.slash] ++ rest) := h
    exact hmark.readsFirst_lineComment (.inr rfl)
  · rw [if_neg hline]
    by_cases hblock : text.headD 0 = Byte.star
    · rw [if_pos hblock]
      rw [Lexeme.headD_eq_iff (by decide), List.head?_eq_some_iff] at hblock
      obtain ⟨rest, rfl⟩ := hblock
      exact h.readsFirst_blockComment
    · rw [if_neg hblock]
      rw [Lexeme.headD_eq_iff (by decide)] at hline hblock
      exact h.readsFirst_stray (Lexeme.uncovered_slash hline hblock) (by decide) fun _ => hblock

end Faces

end Reader

end IdlLexis
