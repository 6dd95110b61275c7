import IdlLexis.Proofs.DocComment
import IdlLexis.Proofs.Text.Utf8
/-!
Lines laid out as a doc comment. Each line stands on a line of its own behind blanks, a star and a
space, and the comment is closed on one line more. However its lines end and however far the stars
are indented, the text of the comment is these lines again.
-/

namespace IdlLexis

namespace Text

variable {line text : List Char}

theorem withoutReturn_of_last (h : line.getLast? ≠ some '\r') : withoutReturn line = line :=
  if_neg h

theorem lines_of_not_mem (h : '\n' ∉ text) : lines text = if text.isEmpty then [] else [text] := by
  have hdrop : text.dropWhile (· != '\n') = [] :=
    List.dropWhile_eq_nil_iff.mpr (forall_ne_of_not_mem h)
  rw [lines]
  split
  · rfl
  · next hrest =>
      rw [hdrop] at hrest
      contradiction

/-- The line ends in no blank. -/
def Trimmed (line : List Char) : Prop := ∀ c, line.getLast? = some c → isBlank c = false

theorem Trimmed.getLast?_ne (h : Trimmed line) {c : Char} (hc : isBlank c = true) :
    line.getLast? ≠ some c := by
  intro hlast
  rw [h c hlast] at hc
  contradiction

theorem Trimmed.trimEnd_eq (h : Trimmed line) : trimEnd line = line := by
  rcases List.eq_nil_or_concat' line with rfl | ⟨front, c, rfl⟩
  · rfl
  · have hc : ¬ isBlank c = true := Bool.eq_false_iff.mp (h c List.getLast?_concat)
    rw [trimEnd, List.reverse_append, List.reverse_singleton, List.singleton_append,
      List.dropWhile_cons_of_neg hc, List.reverse_cons, List.reverse_reverse]

theorem Trimmed.eq_nil_of_isAllBlank (h : Trimmed line) (hblank : isAllBlank line = true) :
    line = [] := by
  rcases List.eq_nil_or_concat' line with rfl | ⟨front, c, rfl⟩
  · rfl
  · have hc := List.all_eq_true.mp hblank c (by simp)
    exact absurd List.getLast?_concat (h.getLast?_ne hc)

end Text

namespace DocComment

open Text (isBlank isAllBlank trimStart Trimmed)

/-- A line feed, with a carriage return before it or without. -/
inductive LineBreak : List Char → Prop
  | lineFeed : LineBreak ['\n']
  | returned : LineBreak ['\r', '\n']

def Indent (blanks : List Char) : Prop := ∀ c ∈ blanks, c = ' ' ∨ c = '\t'

/-- The lines are laid out between the marks of a comment as these characters. -/
inductive LaysOut : List (List Char) → List Char → Prop
  | close {ending blanks : List Char} (hending : LineBreak ending) (hblanks : Indent blanks) :
      LaysOut [] (ending ++ blanks)
  | line {ending blanks line inner : List Char} {lines : List (List Char)}
      (hending : LineBreak ending) (hblanks : Indent blanks) (hinner : LaysOut lines inner) :
      LaysOut (line :: lines) (ending ++ (blanks ++ '*' :: ' ' :: line ++ inner))

/-- A comment with the marks of a doc comment. -/
def marked (inner : List Char) : List Char := ['/', '*', '*'] ++ inner ++ ['*', '/']

/-- Lines without anything that a comment does not keep: blanks at the end of a line, empty lines
at either end, an indentation that all of them share. And none of them ends the line or the
comment. -/
structure Normal (lines : List (List Char)) : Prop where
  onLine : ∀ line ∈ lines, '\n' ∉ line
  leavesOpen : ∀ line ∈ lines, ¬ ['*', '/'] <:+: line
  trimmed : ∀ line ∈ lines, Trimmed line
  head_ne : lines.head? ≠ some []
  last_ne : lines.getLast? ≠ some []
  flush : ∃ c rest, c :: rest ∈ lines ∧ isBlank c = false

variable {line blanks ending inner front : List Char} {lines before after : List (List Char)}
  {indent : Nat}

theorem body_marked (inner : List Char) : body (marked inner) = inner := by
  have hopened : List.isPrefixOf? ['/', '*', '*'] (marked inner) = some (inner ++ ['*', '/']) :=
    List.isPrefixOf?_eq_some_iff_append_eq.mpr (List.append_assoc ..).symm
  have hclosed : List.isSuffixOf? ['*', '/'] (inner ++ ['*', '/']) = some inner :=
    List.isSuffixOf?_eq_some_iff_append_eq.mpr rfl
  rw [body, hopened, Option.getD_some, hclosed, Option.getD_some]

/-! Nothing between the marks closes the comment. -/

theorem LineBreak.slash_not_mem (h : LineBreak ending) : '/' ∉ ending := by
  cases h <;> decide

theorem Indent.not_mem (h : Indent blanks) {c : Char} (hspace : c ≠ ' ') (htab : c ≠ '\t') :
    c ∉ blanks := by
  intro hmem
  rcases h c hmem with heq | heq
  · exact hspace heq
  · exact htab heq

theorem LaysOut.head_ne (h : LaysOut lines inner) (text : List Char) :
    (inner ++ text).head? ≠ some '/' := by
  cases h with
  | close hending _ => cases hending <;> simp
  | line hending _ _ => cases hending <;> simp

theorem LaysOut.leavesOpen (h : LaysOut lines inner)
    (hlines : ∀ line ∈ lines, ¬ ['*', '/'] <:+: line) : ¬ ['*', '/'] <:+: inner ++ ['*'] := by
  have hnone {text : List Char} (hslash : '/' ∉ text) : ¬ ['*', '/'] <:+: text :=
    fun hinside => hslash (hinside.subset (by simp))
  induction h with
  | @close ending blanks hending hblanks =>
      apply hnone
      simp [hending.slash_not_mem, hblanks.not_mem]
  | @line ending blanks line inner lines hending hblanks hinner ih =>
      obtain ⟨hline, hrest⟩ := List.forall_mem_cons.mp hlines
      have hsplit : ending ++ (blanks ++ '*' :: ' ' :: line ++ inner) ++ ['*'] =
          (ending ++ blanks ++ ['*', ' ']) ++ (line ++ (inner ++ ['*'])) := by simp
      rw [hsplit]
      apply Text.pair_not_infix_append
      · apply hnone
        simp [hending.slash_not_mem, hblanks.not_mem]
      · exact Text.pair_not_infix_append hline (ih hrest) fun _ => hinner.head_ne ['*']
      · simp

/-! The lines of a comment, less the stars that begin them. -/

theorem LineBreak.lines_eq (h : LineBreak ending) (hline : '\n' ∉ line)
    (hlast : line.getLast? ≠ some '\r') (text : List Char) :
    Text.lines (line ++ (ending ++ text)) = line :: Text.lines text := by
  cases h with
  | lineFeed =>
      rw [List.singleton_append, Text.lines_append hline, Text.withoutReturn_of_last hlast]
  | returned =>
      have hreturn : '\n' ∉ line ++ ['\r'] := by simp [hline]
      have hsplit : line ++ (['\r', '\n'] ++ text) = (line ++ ['\r']) ++ '\n' :: text := by simp
      rw [hsplit, Text.lines_append hreturn, Text.withoutReturn_concat]

theorem Indent.isAllBlank (h : Indent blanks) : isAllBlank blanks = true := by
  rw [Text.isAllBlank, List.all_eq_true]
  intro c hc
  rcases h c hc with rfl | rfl <;> rfl

theorem withoutGutter_of_isAllBlank (h : isAllBlank line = true) : withoutGutter line = line := by
  have htrim : trimStart line = [] := List.dropWhile_eq_nil_iff.mpr (List.all_eq_true.mp h)
  exact withoutGutter_of_head (by simp [htrim])

theorem Indent.withoutGutter (h : Indent blanks) (text : List Char) :
    withoutGutter (blanks ++ '*' :: text) = text := by
  apply withoutGutter_of_star
  rw [trimStart, List.dropWhile_append_of_pos (List.all_eq_true.mp h.isAllBlank)]
  rfl

/-- Behind a front the laid out lines begin each with the space that follows its star, and at most
blanks come after them. -/
theorem LaysOut.lines_eq (h : LaysOut lines inner) (honLine : ∀ line ∈ lines, '\n' ∉ line)
    (htrimmed : ∀ line ∈ lines, Trimmed line) (hfront : '\n' ∉ front)
    (hlast : front.getLast? ≠ some '\r') :
    ∃ blanks, (∀ line ∈ blanks, isAllBlank line = true) ∧
      (Text.lines (front ++ inner)).map withoutGutter =
        withoutGutter front :: (lines.map (' ' :: ·) ++ blanks) := by
  -- The front is the line begun so far: a break ends it, and the next star begins another.
  induction h generalizing front with
  | @close ending blanks hending hblanks =>
      have hkept := withoutGutter_of_isAllBlank hblanks.isAllBlank
      refine ⟨if blanks.isEmpty then [] else [blanks], ?_, ?_⟩
      · split
        · simp
        · exact List.forall_mem_singleton.mpr hblanks.isAllBlank
      · rw [hending.lines_eq hfront hlast,
          Text.lines_of_not_mem (hblanks.not_mem (by decide) (by decide))]
        split
        · rfl
        · rw [List.map_cons, List.map_singleton, hkept]
          rfl
  | @line ending blanks line inner lines hending hblanks _ ih =>
      obtain ⟨hline, hlines⟩ := List.forall_mem_cons.mp honLine
      obtain ⟨htrim, hrest⟩ := List.forall_mem_cons.mp htrimmed
      have hnext : '\n' ∉ blanks ++ '*' :: ' ' :: line := by
        simp [hblanks.not_mem, hline]
      have hlastNext : (blanks ++ '*' :: ' ' :: line).getLast? ≠ some '\r' := by
        have hreturn := htrim.getLast?_ne (c := '\r') rfl
        cases line with
        | nil => simp
        | cons c line => simpa using hreturn
      obtain ⟨after, hafter, hmap⟩ := ih hlines hrest hnext hlastNext
      refine ⟨after, hafter, ?_⟩
      rw [hending.lines_eq hfront hlast, List.map_cons, hmap, hblanks.withoutGutter]
      rfl

/-! The space before each line is the indentation that all of them share. -/

theorem sharedIndentation_eq (hmem : line ∈ lines) (hline : isAllBlank line = false)
    (hle : ∀ other ∈ lines, isAllBlank other = false → indentation line ≤ indentation other) :
    sharedIndentation lines = indentation line := by
  have hleast :
      ((lines.filter (!isAllBlank ·)).map indentation).min? = some (indentation line) := by
    rw [List.min?_eq_some_iff]
    constructor
    · exact List.mem_map_of_mem (List.mem_filter.mpr ⟨hmem, by simp [hline]⟩)
    · intro other hother
      obtain ⟨found, hfound, rfl⟩ := List.mem_map.mp hother
      obtain ⟨hfound, hkept⟩ := List.mem_filter.mp hfound
      exact hle found hfound (by simpa using hkept)
  rw [sharedIndentation, hleast, Option.getD_some]

theorem indentation_space (line : List Char) : 1 ≤ indentation (' ' :: line) := by
  rw [indentation, List.takeWhile_cons_of_pos rfl, Text.byteLength_cons]
  exact Nat.le_add_right 1 _

theorem indentation_flush {c : Char} (hc : isBlank c = false) (rest : List Char) :
    indentation (' ' :: c :: rest) = 1 := by
  rw [indentation, List.takeWhile_cons_of_pos rfl,
    List.takeWhile_cons_of_neg (Bool.eq_false_iff.mp hc)]
  rfl

theorem dedent_of_isAllBlank (indent : Nat) (h : isAllBlank line = true) :
    dedent indent line = [] := if_pos h

theorem dedent_space (h : Trimmed line) : dedent 1 (' ' :: line) = line := by
  cases hblank : isAllBlank line with
  | true =>
      obtain rfl := h.eq_nil_of_isAllBlank hblank
      rfl
  | false =>
      have hspace : ¬ isAllBlank (' ' :: line) = true := Bool.eq_false_iff.mp hblank
      have hdrop : Text.dropBytes? 1 (' ' :: line) = some line := by
        rw [Text.dropBytes?, if_pos (by decide)]
        cases line <;> rfl
      rw [dedent, if_neg hspace, hdrop, Option.getD_some, h.trimEnd_eq]

/-! What becomes of the lines behind an empty first line, and with blank lines after them. -/

variable {blankLines : List (List Char)}

theorem sharedIndentation_laidOut {c : Char} {rest : List Char} (hmem : c :: rest ∈ lines)
    (hc : isBlank c = false) (hblanks : ∀ line ∈ blankLines, isAllBlank line = true) :
    sharedIndentation ([] :: (lines.map (' ' :: ·) ++ blankLines)) = 1 := by
  have hflush : ' ' :: c :: rest ∈ [] :: (lines.map (' ' :: ·) ++ blankLines) := by simp [hmem]
  rw [← indentation_flush hc rest]
  apply sharedIndentation_eq hflush
  · simp [isAllBlank, hc]
  · intro other hother hkept
    rw [indentation_flush hc rest]
    rcases List.mem_cons.mp hother with rfl | hother
    · contradiction
    · rcases List.mem_append.mp hother with hline | hblank
      · obtain ⟨line, _, rfl⟩ := List.mem_map.mp hline
        exact indentation_space line
      · rw [hblanks other hblank] at hkept
        contradiction

theorem map_dedent_laidOut (htrimmed : ∀ line ∈ lines, Trimmed line)
    (hblanks : ∀ line ∈ blankLines, isAllBlank line = true) :
    ([] :: (lines.map (' ' :: ·) ++ blankLines)).map (dedent 1) =
      [[]] ++ lines ++ List.replicate blankLines.length [] := by
  have hlines : (lines.map (' ' :: ·)).map (dedent 1) = lines := by
    have hline : ∀ line ∈ lines, (dedent 1 ∘ (' ' :: ·)) line = id line :=
      fun line hmem => dedent_space (htrimmed line hmem)
    rw [List.map_map, List.map_congr_left hline, List.map_id]
  have hblank : blankLines.map (dedent 1) = List.replicate blankLines.length [] := by
    rw [← List.map_const]
    exact List.map_congr_left fun line hline => dedent_of_isAllBlank 1 (hblanks line hline)
  rw [List.map_cons, List.map_append, hlines, hblank]
  rfl

theorem dropWhile_isEmpty (hbefore : ∀ line ∈ before, line = []) (hhead : lines.head? ≠ some []) :
    (before ++ lines).dropWhile List.isEmpty = lines := by
  have hempty : ∀ line ∈ before, line.isEmpty = true :=
    fun line hline => List.isEmpty_iff.mpr (hbefore line hline)
  rw [List.dropWhile_append_of_pos hempty]
  cases lines with
  | nil => rfl
  | cons line lines =>
      have hline : ¬ line.isEmpty = true := fun h => hhead (congrArg some (List.isEmpty_iff.mp h))
      exact List.dropWhile_cons_of_neg hline

theorem withoutBlankEnds_eq (hbefore : ∀ line ∈ before, line = [])
    (hafter : ∀ line ∈ after, line = []) (hne : lines ≠ []) (hhead : lines.head? ≠ some [])
    (hlast : lines.getLast? ≠ some []) : withoutBlankEnds (before ++ lines ++ after) = lines := by
  have hafter' : ∀ line ∈ after.reverse, line = [] :=
    fun line hline => hafter line (List.mem_reverse.mp hline)
  have hlast' : (before ++ lines).reverse.head? ≠ some [] := by
    rwa [List.head?_reverse, List.getLast?_append_of_ne_nil before hne]
  rw [withoutBlankEnds, List.reverse_append, dropWhile_isEmpty hafter' hlast',
    List.reverse_reverse, dropWhile_isEmpty hbefore hhead]

/-- The text of a comment that normal lines are laid out as is these lines. -/
theorem text_marked (hnormal : Normal lines) (h : LaysOut lines inner) :
    text (marked inner) = ['\n'].intercalate lines := by
  have hfront : '\n' ∉ ([] : List Char) := List.not_mem_nil
  have hlast : ([] : List Char).getLast? ≠ some '\r' := by simp
  obtain ⟨blankLines, hblanks, hlines⟩ := h.lines_eq hnormal.onLine hnormal.trimmed hfront hlast
  obtain ⟨c, rest, hmem, hc⟩ := hnormal.flush
  have hbefore : ∀ line ∈ [([] : List Char)], line = [] := List.forall_mem_singleton.mpr rfl
  have hafter : ∀ line ∈ List.replicate blankLines.length ([] : List Char), line = [] :=
    fun _ => List.eq_of_mem_replicate
  have hends := withoutBlankEnds_eq hbefore hafter (List.ne_nil_of_mem hmem) hnormal.head_ne
    hnormal.last_ne
  have hempty : withoutGutter [] = [] := rfl
  rw [List.nil_append, hempty] at hlines
  rw [text, textLines, body_marked, hlines, sharedIndentation_laidOut hmem hc hblanks,
    map_dedent_laidOut hnormal.trimmed hblanks, hends]

end DocComment

end IdlLexis
