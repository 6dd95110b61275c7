import Mathlib.Data.List.DropRight
import IdlLexis.Proofs.DocComment
/-!
What the text of a doc comment keeps. All characters of the comment that can be seen come through
in their order, but for the comment's own marks and for a star that comes first on its line. What
is taken from a line besides is blank: no line is indented less than the indentation that all of
them share, and a cut that would fall into a character is not made.
-/

namespace IdlLexis

namespace Text

variable {line : List Char}

/-- The characters that can be seen. -/
def visible (text : List Char) : List Char := text.filter (!isBlank ·)

@[simp] theorem visible_append (front rest : List Char) :
    visible (front ++ rest) = visible front ++ visible rest :=
  List.filter_append ..

theorem visible_cons_of_blank {c : Char} (hc : isBlank c = true) (rest : List Char) :
    visible (c :: rest) = visible rest := by
  simp [visible, hc]

theorem visible_cons {c : Char} (hc : isBlank c = false) (rest : List Char) :
    visible (c :: rest) = c :: visible rest := by
  simp [visible, hc]

theorem visible_eq_nil_iff : visible line = [] ↔ isAllBlank line = true := by
  simp [visible, isAllBlank]

theorem visible_trimStart (line : List Char) : visible (trimStart line) = visible line := by
  induction line with
  | nil => rfl
  | cons c line ih =>
      cases hc : isBlank c with
      | true =>
          rw [visible_cons_of_blank hc, ← ih]
          simp [trimStart, hc]
      | false => simp [trimStart, hc]

theorem trimEnd_eq_rdropWhile (line : List Char) : trimEnd line = line.rdropWhile isBlank := rfl

/-- Trimming takes blanks from the end of a line and nothing else. -/
theorem padded_trimEnd (line : List Char) : Padded (trimEnd line) line := by
  refine ⟨line.rtakeWhile isBlank, ?_, List.rdropWhile_append_rtakeWhile.symm⟩
  rw [isAllBlank, List.all_eq_true]
  exact fun _ hc => List.mem_rtakeWhile_imp hc

theorem Padded.visible_eq {longer : List Char} (h : Padded line longer) :
    visible longer = visible line := by
  obtain ⟨blanks, hblanks, rfl⟩ := h
  simp [visible_eq_nil_iff.mpr hblanks]

/-- Lines put together lose nothing that can be seen: only line feeds come in between. -/
theorem visible_intercalate (lines : List (List Char)) :
    visible (['\n'].intercalate lines) = lines.flatMap visible := by
  induction lines with
  | nil => rfl
  | cons line lines ih =>
      cases lines with
      | nil => simp
      | cons next lines =>
          have hfeed : visible ['\n'] = [] := rfl
          simp only [List.intercalate_cons_cons, visible_append, hfeed, List.append_nil, ih,
            List.flatMap_cons]

end Text

namespace DocComment

open Text (isBlank isAllBlank trimStart trimEnd byteLength dropBytes? visible)

variable {line front rest : List Char} {lines : List (List Char)} {indent : Nat}

/-! The marks of a comment, each taken off if it is there. -/

inductive DropsFront (mark : List Char) : List Char → List Char → Prop
  | marked (rest : List Char) : DropsFront mark (mark ++ rest) rest
  | bare {text : List Char} (h : ¬ mark <+: text) : DropsFront mark text text

inductive DropsEnd (mark : List Char) : List Char → List Char → Prop
  | marked (rest : List Char) : DropsEnd mark (rest ++ mark) rest
  | bare {text : List Char} (h : ¬ mark <:+ text) : DropsEnd mark text text

theorem dropsFront (mark text : List Char) :
    DropsFront mark text ((mark.isPrefixOf? text).getD text) := by
  cases hrest : mark.isPrefixOf? text with
  | some rest =>
      obtain rfl := List.isPrefixOf?_eq_some_iff_append_eq.mp hrest
      exact .marked rest
  | none =>
      apply DropsFront.bare
      rintro ⟨rest, happend⟩
      rw [List.isPrefixOf?_eq_some_iff_append_eq.mpr happend] at hrest
      contradiction

theorem dropsEnd (mark text : List Char) :
    DropsEnd mark text ((mark.isSuffixOf? text).getD text) := by
  cases hrest : mark.isSuffixOf? text with
  | some rest =>
      obtain rfl := List.isSuffixOf?_eq_some_iff_append_eq.mp hrest
      exact .marked rest
  | none =>
      apply DropsEnd.bare
      rintro ⟨rest, happend⟩
      rw [List.isSuffixOf?_eq_some_iff_append_eq.mpr happend] at hrest
      contradiction

/-! What a line keeps without its star, its indentation and the blanks at its end. -/

/-- A text without the star that may come first. -/
def withoutStar : List Char → List Char
  | '*' :: rest => rest
  | text => text

theorem withoutStar_of_ne {c : Char} (hc : c ≠ '*') (rest : List Char) :
    withoutStar (c :: rest) = c :: rest := by
  unfold withoutStar
  split
  · next heq => exact absurd (List.cons.inj heq).1 hc
  · rfl

theorem visible_withoutGutter (line : List Char) :
    visible (withoutGutter line) = withoutStar (visible line) := by
  have hvisible := Text.visible_trimStart line
  have hhead := List.head?_dropWhile_not isBlank line
  cases htrim : trimStart line with
  | nil =>
      rw [withoutGutter_of_head (by simp [htrim]), ← hvisible, htrim]
      rfl
  | cons c rest =>
      have hc : isBlank c = false := by
        rw [trimStart] at htrim
        simpa [htrim] using hhead
      rw [htrim, Text.visible_cons hc] at hvisible
      by_cases hstar : c = '*'
      · subst hstar
        rw [withoutGutter_of_star htrim, ← hvisible]
        rfl
      · rw [withoutGutter_of_head (by simp [htrim, hstar]), ← hvisible,
          withoutStar_of_ne hstar]

theorem isAllBlank_of_le_indentation (h : byteLength front ≤ indentation (front ++ rest)) :
    isAllBlank front = true := by
  induction front with
  | nil => rfl
  | cons c front ih =>
      have hpos := c.utf8Size_pos
      cases hc : isBlank c with
      | true =>
          simp only [indentation, List.cons_append, List.takeWhile_cons_of_pos hc,
            Text.byteLength_cons, Nat.add_le_add_iff_left] at h
          simpa [isAllBlank, hc] using ih h
      | false =>
          simp only [indentation, List.cons_append, List.takeWhile_cons, hc, Bool.false_eq_true,
            if_false, Text.byteLength_cons, Text.byteLength_nil] at h
          omega

/-- What a cut within the indentation leaves of a line. -/
theorem exists_blanks_of_dropBytes? (hindent : indent ≤ indentation line)
    (h : dropBytes? indent line = some rest) :
    ∃ blanks, isAllBlank blanks = true ∧ byteLength blanks = indent ∧ line = blanks ++ rest := by
  obtain ⟨front, rfl, rfl⟩ := Text.eq_append_of_dropBytes? h
  exact ⟨front, isAllBlank_of_le_indentation hindent, rfl, rfl⟩

theorem visible_dropBytes? (hindent : indent ≤ indentation line) :
    visible ((dropBytes? indent line).getD line) = visible line := by
  cases hdrop : dropBytes? indent line with
  | none => rfl
  | some rest =>
      obtain ⟨blanks, hblanks, _, rfl⟩ := exists_blanks_of_dropBytes? hindent hdrop
      simp [Text.visible_eq_nil_iff.mpr hblanks]

theorem visible_dedent (hindent : isAllBlank line = false → indent ≤ indentation line) :
    visible (dedent indent line) = visible line := by
  cases hblank : isAllBlank line with
  | true =>
      rw [dedent, if_pos hblank, Text.visible_eq_nil_iff.mpr hblank]
      rfl
  | false =>
      rw [dedent, if_neg (by simp [hblank]), ← (Text.padded_trimEnd _).visible_eq]
      exact visible_dropBytes? (hindent hblank)

theorem visible_dedent_shared (hmem : line ∈ lines) :
    visible (dedent (sharedIndentation lines) line) = visible line :=
  visible_dedent (sharedIndentation_le hmem)

/-! Only empty lines go at either end. -/

theorem exists_blankEnds (lines : List (List Char)) :
    ∃ before after, lines = before ++ withoutBlankEnds lines ++ after ∧
      (∀ line ∈ before, line = []) ∧ ∀ line ∈ after, line = [] := by
  let kept := lines.rdropWhile List.isEmpty
  refine ⟨kept.takeWhile List.isEmpty, lines.rtakeWhile List.isEmpty, ?_, ?_, ?_⟩
  · have hkept : kept.takeWhile List.isEmpty ++ withoutBlankEnds lines = kept :=
      List.takeWhile_append_dropWhile
    rw [hkept]
    exact List.rdropWhile_append_rtakeWhile.symm
  · exact fun _ hline => List.isEmpty_iff.mp (List.mem_takeWhile_imp hline)
  · exact fun _ hline => List.isEmpty_iff.mp (List.mem_rtakeWhile_imp hline)

theorem flatMap_visible_of_empty (hempty : ∀ line ∈ lines, line = []) :
    lines.flatMap visible = [] := by
  rw [List.flatMap_eq_nil_iff]
  intro line hline
  rw [hempty line hline]
  rfl

theorem visible_withoutBlankEnds (lines : List (List Char)) :
    (withoutBlankEnds lines).flatMap visible = lines.flatMap visible := by
  obtain ⟨before, after, hlines, hbefore, hafter⟩ := exists_blankEnds lines
  conv => rhs; rw [hlines]
  simp only [List.flatMap_append, flatMap_visible_of_empty hbefore,
    flatMap_visible_of_empty hafter, List.nil_append, List.append_nil]

/-- The lines between the marks of a comment, without the stars that begin them. -/
def starless (comment : List Char) : List (List Char) :=
  (Text.lines (body comment)).map withoutGutter

theorem textLines_eq (comment : List Char) :
    textLines comment =
      withoutBlankEnds
        ((starless comment).map (dedent (sharedIndentation (starless comment)))) := rfl

theorem visible_text (comment : List Char) :
    visible (text comment) =
      (Text.lines (body comment)).flatMap fun line => withoutStar (visible line) := by
  calc
    visible (text comment)
      = ((starless comment).map
          (dedent (sharedIndentation (starless comment)))).flatMap visible := by
        rw [text, Text.visible_intercalate, textLines_eq, visible_withoutBlankEnds]
    _ = (starless comment).flatMap visible := by
        rw [List.flatMap_map]
        exact List.flatMap_congr fun _ hline => visible_dedent_shared hline
    _ = (Text.lines (body comment)).flatMap fun line => withoutStar (visible line) := by
        rw [starless, List.flatMap_map]
        exact List.flatMap_congr fun line _ => visible_withoutGutter line

/-- The text of a comment shows what the lines between its marks show, line by line, without a star
that comes first. -/
theorem visible_plainText (comment : String) :
    ∃ opened body, DropsFront ['/', '*', '*'] comment.toList opened ∧
      DropsEnd ['*', '/'] opened body ∧
      visible (plainText comment).toList =
        (Text.lines body).flatMap fun line => withoutStar (visible line) := by
  refine ⟨_, body comment.toList, dropsFront _ _, dropsEnd _ _, ?_⟩
  rw [plainText, String.toList_ofList, visible_text]

end DocComment

end IdlLexis
