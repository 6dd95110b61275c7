import IdlLexis.Proofs.DocComment.Content
import IdlLexis.Proofs.DocComment.Layout
/-!
The form that the text of a doc comment has, whatever the comment holds. Its first and its last
line are not empty, no line ends in a blank, and some line begins without one: the line whose
indentation is the least loses all of it. Where each blank before a line is a single byte, the
other lines keep what they are indented more than that line.
-/

namespace IdlLexis

namespace Text

variable {line front : List Char} {c : Char} {count : Nat}

theorem dropBytes?_byteLength (front rest : List Char) :
    dropBytes? (byteLength front) (front ++ rest) = some rest := by
  induction front with
  | nil => cases rest <;> rfl
  | cons c front ih =>
      have hpos := c.utf8Size_pos
      obtain ⟨count, hcount⟩ := Nat.exists_eq_add_of_lt hpos
      have hsize : byteLength (c :: front) = count + byteLength front + 1 := by
        rw [byteLength_cons]
        omega
      have hleft : count + byteLength front + 1 - c.utf8Size = byteLength front := by omega
      rw [hsize, List.cons_append, dropBytes?, if_pos (by omega), hleft, ih]

theorem byteLength_of_single (h : ∀ c ∈ line, c.utf8Size = 1) : byteLength line = line.length := by
  induction line with
  | nil => rfl
  | cons c line ih =>
      obtain ⟨hc, hline⟩ := List.forall_mem_cons.mp h
      rw [byteLength_cons, hc, ih hline, List.length_cons, Nat.add_comm]

/-- Among characters of a single byte a cut is always made. -/
theorem dropBytes?_of_single (h : ∀ c ∈ front, c.utf8Size = 1) (hcount : count ≤ byteLength front)
    (rest : List Char) : dropBytes? count (front ++ rest) = some (front.drop count ++ rest) := by
  have htake : byteLength (front.take count) = count := by
    rw [byteLength_of_single h] at hcount
    rw [byteLength_of_single fun c hc => h c (List.mem_of_mem_take hc), List.length_take]
    omega
  have hcut := dropBytes?_byteLength (front.take count) (front.drop count ++ rest)
  rwa [← List.append_assoc, List.take_append_drop, htake] at hcut

/-! A line holds no line feed, and neither does anything that is cut out of it. -/

theorem withoutReturn_subset (line : List Char) : withoutReturn line ⊆ line := by
  rw [withoutReturn]
  split
  · exact List.dropLast_subset line
  · exact List.Subset.refl line

theorem lineFeed_not_mem_lines (text : List Char) : ∀ line ∈ lines text, '\n' ∉ line := by
  induction hlength : text.length using Nat.strongRecOn generalizing text with
  | ind length ih =>
      rcases exists_line text with hnone | ⟨line, rest, rfl, hline⟩
      · rw [lines_of_not_mem hnone]
        split
        · simp
        · simpa using hnone
      · have hrest := ih rest.length (by simp [← hlength]; omega) rest rfl
        rw [lines_append hline]
        exact List.forall_mem_cons.mpr ⟨fun hmem => hline (withoutReturn_subset line hmem), hrest⟩

theorem trimStart_subset (line : List Char) : trimStart line ⊆ line :=
  (List.dropWhile_suffix isBlank).subset

theorem trimEnd_subset (line : List Char) : trimEnd line ⊆ line :=
  (List.rdropWhile_prefix isBlank line).subset

theorem dropBytes?_subset {rest : List Char} (h : dropBytes? count line = some rest) :
    rest ⊆ line := by
  obtain ⟨front, rfl, _⟩ := eq_append_of_dropBytes? h
  exact List.subset_append_right front rest

/-! Trimming the end of a line. -/

theorem trimmed_trimEnd (line : List Char) : Trimmed (trimEnd line) := by
  intro c hlast
  have hne : line.rdropWhile isBlank ≠ [] := by
    intro hnil
    rw [trimEnd_eq_rdropWhile, hnil] at hlast
    contradiction
  rw [trimEnd_eq_rdropWhile, List.getLast?_eq_some_getLast hne] at hlast
  obtain rfl := Option.some.inj hlast
  exact Bool.eq_false_iff.mpr (List.rdropWhile_last_not isBlank line hne)

theorem trimmed_nil : Trimmed [] := by
  intro c hlast
  contradiction

/-- A first character that is no blank stays. -/
theorem trimEnd_cons (hc : isBlank c = false) (rest : List Char) :
    ∃ more, trimEnd (c :: rest) = c :: more := by
  obtain ⟨blanks, hblanks, heq⟩ := padded_trimEnd (c :: rest)
  cases htrim : trimEnd (c :: rest) with
  | nil =>
      rw [htrim, List.nil_append] at heq
      subst heq
      simp [isAllBlank, hc] at hblanks
  | cons d more =>
      rw [htrim, List.cons_append] at heq
      exact ⟨more, congrArg (· :: more) (List.cons.inj heq).1.symm⟩

/-- A line that is not blank is its indentation and what begins with a character that can be
seen. -/
theorem exists_indented (h : isAllBlank line = false) :
    ∃ c rest, isBlank c = false ∧ line = line.takeWhile isBlank ++ c :: rest := by
  have hsplit : line.takeWhile isBlank ++ trimStart line = line := List.takeWhile_append_dropWhile
  have hhead := List.head?_dropWhile_not isBlank line
  cases htrim : trimStart line with
  | nil =>
      have hblank := List.all_eq_true.mpr (List.dropWhile_eq_nil_iff.mp htrim)
      rw [isAllBlank, hblank] at h
      contradiction
  | cons c rest =>
      rw [trimStart] at htrim
      rw [htrim] at hhead
      refine ⟨c, rest, hhead, ?_⟩
      rw [← htrim]
      exact hsplit.symm

end Text

namespace DocComment

open Text (isBlank isAllBlank trimStart trimEnd byteLength dropBytes? visible Trimmed)

/-- Lines without anything to tidy up: no empty line at either end, no blank at the end of a line,
no indentation that all of them share. -/
structure Tidy (lines : List (List Char)) : Prop where
  head_ne : lines.head? ≠ some []
  last_ne : lines.getLast? ≠ some []
  trimmed : ∀ line ∈ lines, Trimmed line
  flush : ∃ c rest, c :: rest ∈ lines ∧ isBlank c = false

variable {line : List Char} {lines : List (List Char)} {indent : Nat}

/-! The text falls into its own lines. -/

theorem withoutGutter_subset (line : List Char) : withoutGutter line ⊆ line := by
  rw [withoutGutter]
  split
  · next rest hstar =>
      intro c hc
      apply Text.trimStart_subset line
      rw [hstar]
      exact List.mem_cons_of_mem _ hc
  · exact List.Subset.refl line

theorem dedent_subset (indent : Nat) (line : List Char) : dedent indent line ⊆ line := by
  rw [dedent]
  split
  · exact List.nil_subset line
  · apply List.Subset.trans (Text.trimEnd_subset _)
    cases hdrop : dropBytes? indent line with
    | none => exact List.Subset.refl line
    | some rest => exact Text.dropBytes?_subset hdrop

theorem mem_withoutBlankEnds_iff (hne : line ≠ []) :
    line ∈ withoutBlankEnds lines ↔ line ∈ lines := by
  obtain ⟨before, after, hlines, hbefore, hafter⟩ := exists_blankEnds lines
  have hfront : line ∉ before := fun hmem => hne (hbefore line hmem)
  have hback : line ∉ after := fun hmem => hne (hafter line hmem)
  conv => rhs; rw [hlines]
  simp [hfront, hback]

theorem withoutBlankEnds_subset (lines : List (List Char)) : withoutBlankEnds lines ⊆ lines := by
  obtain ⟨before, after, hlines, _, _⟩ := exists_blankEnds lines
  intro line hmem
  rw [hlines]
  simp [hmem]

theorem exists_of_mem_textLines {comment : List Char} (h : line ∈ textLines comment) :
    ∃ source ∈ starless comment,
      dedent (sharedIndentation (starless comment)) source = line :=
  List.mem_map.mp (withoutBlankEnds_subset _ h)

theorem lineFeed_not_mem_textLines (comment : List Char) :
    ∀ line ∈ textLines comment, '\n' ∉ line := by
  intro line hmem hfeed
  obtain ⟨source, hsource, rfl⟩ := exists_of_mem_textLines hmem
  obtain ⟨written, hwritten, rfl⟩ := List.mem_map.mp hsource
  have hin := withoutGutter_subset written (dedent_subset _ _ hfeed)
  exact Text.lineFeed_not_mem_lines _ written hwritten hin

theorem splitOn_text {comment : List Char} (hne : textLines comment ≠ []) :
    (text comment).splitOn '\n' = textLines comment :=
  List.splitOn_intercalate '\n' (lineFeed_not_mem_textLines comment) hne

/-! Neither end is an empty line, and no line ends in a blank. -/

theorem head?_withoutBlankEnds (lines : List (List Char)) :
    (withoutBlankEnds lines).head? ≠ some [] := by
  intro hhead
  have hnot := List.head?_dropWhile_not List.isEmpty (lines.rdropWhile List.isEmpty)
  have hsame : withoutBlankEnds lines = (lines.rdropWhile List.isEmpty).dropWhile List.isEmpty :=
    rfl
  rw [← hsame, hhead] at hnot
  contradiction

theorem getLast?_withoutBlankEnds (lines : List (List Char)) :
    (withoutBlankEnds lines).getLast? ≠ some [] := by
  intro hlast
  obtain ⟨front, hfront⟩ := List.getLast?_eq_some_iff.mp hlast
  obtain ⟨before, hbefore⟩ : withoutBlankEnds lines <:+ lines.rdropWhile List.isEmpty :=
    List.dropWhile_suffix List.isEmpty
  have hne : lines.rdropWhile List.isEmpty ≠ [] := by
    rw [← hbefore, hfront]
    simp
  have hnot := List.rdropWhile_last_not List.isEmpty lines hne
  simp [← hbefore, hfront] at hnot

theorem trimmed_dedent (indent : Nat) (line : List Char) : Trimmed (dedent indent line) := by
  rw [dedent]
  split
  · exact Text.trimmed_nil
  · exact Text.trimmed_trimEnd _

/-! The line that is indented the least begins with a character that can be seen. -/

theorem exists_least (h : line ∈ lines) (hline : isAllBlank line = false) :
    ∃ least ∈ lines, isAllBlank least = false ∧ indentation least = sharedIndentation lines := by
  let indents := (lines.filter (!isAllBlank ·)).map indentation
  have hmem : indentation line ∈ indents :=
    List.mem_map_of_mem (List.mem_filter.mpr ⟨h, by simp [hline]⟩)
  obtain ⟨shared, hshared⟩ := Option.isSome_iff_exists.mp (List.isSome_min?_of_mem hmem)
  obtain ⟨least, hleast, heq⟩ := List.mem_map.mp (List.min?_mem hshared)
  obtain ⟨hleast, hkept⟩ := List.mem_filter.mp hleast
  refine ⟨least, hleast, by simpa using hkept, ?_⟩
  rw [heq, sharedIndentation, hshared, Option.getD_some]

theorem exists_dedent_indentation (hline : isAllBlank line = false) :
    ∃ c rest, isBlank c = false ∧ dedent (indentation line) line = c :: rest := by
  obtain ⟨c, rest, hc, hsplit⟩ := Text.exists_indented hline
  have hdrop : dropBytes? (indentation line) line = some (c :: rest) := by
    conv => lhs; arg 2; rw [hsplit]
    exact Text.dropBytes?_byteLength _ _
  obtain ⟨more, hmore⟩ := Text.trimEnd_cons hc rest
  refine ⟨c, more, hc, ?_⟩
  rw [dedent, if_neg (by simp [hline]), hdrop, Option.getD_some, hmore]

/-- A text that is not empty comes from a line that is not blank, its first. -/
theorem exists_not_blank {comment : List Char} (hne : textLines comment ≠ []) :
    ∃ source ∈ starless comment, isAllBlank source = false := by
  have hhead : (textLines comment).head? ≠ some [] := head?_withoutBlankEnds _
  obtain ⟨first, others, hfirst⟩ := List.exists_cons_of_ne_nil hne
  have hmem : first ∈ textLines comment := by simp [hfirst]
  obtain ⟨source, hsource, hdedent⟩ := exists_of_mem_textLines hmem
  refine ⟨source, hsource, Bool.eq_false_iff.mpr ?_⟩
  intro hblank
  rw [dedent_of_isAllBlank _ hblank] at hdedent
  rw [hfirst, ← hdedent] at hhead
  exact hhead rfl

theorem exists_flush {comment : List Char} (hne : textLines comment ≠ []) :
    ∃ c rest, c :: rest ∈ textLines comment ∧ isBlank c = false := by
  obtain ⟨source, hsource, hkept⟩ := exists_not_blank hne
  obtain ⟨least, hleast, hline, heq⟩ := exists_least hsource hkept
  obtain ⟨c, rest, hc, hcut⟩ := exists_dedent_indentation hline
  refine ⟨c, rest, ?_, hc⟩
  rw [textLines_eq, mem_withoutBlankEnds_iff (List.cons_ne_nil c rest), ← hcut, heq]
  exact List.mem_map_of_mem hleast

theorem tidy_textLines {comment : List Char} (hne : textLines comment ≠ []) :
    Tidy (textLines comment) where
  head_ne := head?_withoutBlankEnds _
  last_ne := getLast?_withoutBlankEnds _
  trimmed := by
    intro line hmem
    obtain ⟨source, _, rfl⟩ := exists_of_mem_textLines hmem
    exact trimmed_dedent _ source
  flush := exists_flush hne

/-! What a line is indented more than the others, it keeps. -/

theorem indentation_append {blanks : List Char} {c : Char}
    (hblanks : ∀ b ∈ blanks, isBlank b = true) (hc : isBlank c = false) (rest : List Char) :
    indentation (blanks ++ c :: rest) = byteLength blanks := by
  rw [indentation, List.takeWhile_append_of_pos hblanks,
    List.takeWhile_cons_of_neg (Bool.eq_false_iff.mp hc), List.append_nil]

theorem indentation_dedent (hline : isAllBlank line = false) (hindent : indent ≤ indentation line)
    (hsingle : ∀ c ∈ line.takeWhile isBlank, c.utf8Size = 1) :
    indentation (dedent indent line) = indentation line - indent := by
  obtain ⟨c, rest, hc, hsplit⟩ := Text.exists_indented hline
  let blanks := line.takeWhile isBlank
  have hkept : ∀ b ∈ blanks.drop indent, isBlank b = true :=
    fun b hb => List.mem_takeWhile_imp (List.mem_of_mem_drop hb)
  have hcut : dropBytes? indent line = some (blanks.drop indent ++ c :: rest) := by
    conv => lhs; rw [hsplit]
    exact Text.dropBytes?_of_single hsingle hindent _
  have hpadded := Text.padded_trimEnd (blanks.drop indent ++ c :: rest)
  have hseen : isAllBlank (trimEnd (blanks.drop indent ++ c :: rest)) = false := by
    rw [← hpadded.isAllBlank_eq]
    simp [isAllBlank, hc]
  calc
    indentation (dedent indent line)
      = indentation (blanks.drop indent ++ c :: rest) := by
        rw [dedent, if_neg (by simp [hline]), hcut, Option.getD_some,
          indentation_of_padded hpadded hseen]
    _ = (blanks.drop indent).length := by
        rw [indentation_append hkept hc]
        exact Text.byteLength_of_single fun b hb => hsingle b (List.mem_of_mem_drop hb)
    _ = indentation line - indent := by
        rw [List.length_drop, indentation, Text.byteLength_of_single hsingle]

theorem isAllBlank_dedent_shared (hmem : line ∈ lines) :
    isAllBlank (dedent (sharedIndentation lines) line) = isAllBlank line := by
  rw [Bool.eq_iff_iff, ← Text.visible_eq_nil_iff, ← Text.visible_eq_nil_iff,
    visible_dedent_shared hmem]

/-- The lines of the text that are not blank are those of the comment, each less the indentation
that they share. -/
theorem filter_textLines (comment : List Char) :
    (textLines comment).filter (!isAllBlank ·) =
      ((starless comment).filter (!isAllBlank ·)).map
        (dedent (sharedIndentation (starless comment))) := by
  let dedented := (starless comment).map (dedent (sharedIndentation (starless comment)))
  obtain ⟨before, after, hlines, hbefore, hafter⟩ := exists_blankEnds dedented
  have hnone {ends : List (List Char)} (hends : ∀ line ∈ ends, line = []) :
      ends.filter (!isAllBlank ·) = [] := by
    rw [List.filter_eq_nil_iff]
    intro line hline
    rw [hends line hline]
    decide
  have hkept : (withoutBlankEnds dedented).filter (!isAllBlank ·) =
      dedented.filter (!isAllBlank ·) := by
    conv => rhs; rw [hlines]
    rw [List.filter_append, List.filter_append, hnone hbefore, hnone hafter, List.nil_append,
      List.append_nil]
  rw [textLines_eq, hkept, List.filter_map]
  congr 1
  apply List.filter_congr
  intro line hline
  exact congrArg (!·) (isAllBlank_dedent_shared hline)

theorem filter_splitOn_text (comment : List Char) :
    ((text comment).splitOn '\n').filter (!isAllBlank ·) =
      (textLines comment).filter (!isAllBlank ·) := by
  by_cases hne : textLines comment = []
  · rw [text, hne]
    rfl
  · rw [splitOn_text hne]

/-- Each blank that begins one of the lines is a single byte. -/
def SingleBlanks (lines : List (List Char)) : Prop :=
  ∀ line ∈ lines, ∀ c ∈ line.takeWhile isBlank, c.utf8Size = 1

/-- The line as it is written in the text. -/
structure Dedented (indent : Nat) (line written : List Char) : Prop where
  visible_eq : visible written = visible line
  indentation_eq : indentation written = indentation line - indent

/-- The text of a comment is empty or its lines are tidy. And where the blanks that begin the lines
of the comment are single bytes, a line that is not blank is indented as it was, less the least
that such a line was. -/
theorem plainText_tidy (comment : String) :
    (plainText comment = "" ∨ Tidy ((plainText comment).toList.splitOn '\n')) ∧
      (SingleBlanks (starless comment.toList) →
        List.Forall₂ (Dedented (sharedIndentation (starless comment.toList)))
          ((starless comment.toList).filter (!isAllBlank ·))
          (((plainText comment).toList.splitOn '\n').filter (!isAllBlank ·))) := by
  have htext : (plainText comment).toList = text comment.toList := String.toList_ofList ..
  rw [htext]
  constructor
  · by_cases hne : textLines comment.toList = []
    · left
      rw [plainText, text, hne]
      rfl
    · right
      rw [splitOn_text hne]
      exact tidy_textLines hne
  · intro hsingle
    rw [filter_splitOn_text, filter_textLines, List.forall₂_map_right_iff, List.forall₂_same]
    intro line hmem
    obtain ⟨hmem, hkept⟩ := List.mem_filter.mp hmem
    have hline : isAllBlank line = false := by simpa using hkept
    exact ⟨visible_dedent_shared hmem,
      indentation_dedent hline (sharedIndentation_le hmem hline) (hsingle line hmem)⟩

/-- Two lines of which the second is indented more. -/
theorem plainText_tidy_relative :
    let comment := "/** a\n   b*/"
    starless comment.toList = [[' ', 'a'], [' ', ' ', ' ', 'b']] ∧
      sharedIndentation (starless comment.toList) = 1 ∧
      SingleBlanks (starless comment.toList) ∧
      List.Forall₂ (Dedented (sharedIndentation (starless comment.toList)))
        ((starless comment.toList).filter (!isAllBlank ·))
        (((plainText comment).toList.splitOn '\n').filter (!isAllBlank ·)) := by
  intro comment
  have hbody : body comment.toList = [' ', 'a'] ++ '\n' :: [' ', ' ', ' ', 'b'] := by
    decide +kernel
  have hlines : starless comment.toList = [[' ', 'a'], [' ', ' ', ' ', 'b']] := by
    rw [starless, hbody, Text.lines_append (by decide), Text.lines_of_not_mem (by decide)]
    rfl
  have hsingle : SingleBlanks (starless comment.toList) := by
    have hfirst : [' ', 'a'].takeWhile isBlank = [' '] := rfl
    have hsecond : [' ', ' ', ' ', 'b'].takeWhile isBlank = [' ', ' ', ' '] := rfl
    have hspace : ' '.utf8Size = 1 := rfl
    rw [hlines]
    simp [SingleBlanks, hfirst, hsecond, hspace]
  refine ⟨hlines, ?_, hsingle, (plainText_tidy comment).2 hsingle⟩
  rw [hlines]
  rfl

end DocComment

end IdlLexis
