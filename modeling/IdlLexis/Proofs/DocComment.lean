import Mathlib.Data.List.Forall2
import Mathlib.Data.List.TakeWhile
import IdlLexis.DocComment
import IdlLexis.Proofs.Text.Returns
/-!
The text of a doc comment does not depend on how its lines end. With carriage returns before its
line feeds a comment falls into the same lines, but for blanks at their ends; these move neither
the star that may begin a line nor its indentation, and are dropped at last.
-/

namespace IdlLexis

namespace Text

variable {line longer blanks word text : List Char} {lines others : List (List Char)}
  {count : Nat}

/-! What a text begins or ends with. -/

theorem isPrefixOf?_withReturns (word : List Char) (hreturn : '\r' ∉ word) (hline : '\n' ∉ word)
    (text : List Char) :
    word.isPrefixOf? (withReturns text) = (word.isPrefixOf? text).map withReturns := by
  apply Option.ext
  intro tail
  rw [List.isPrefixOf?_eq_some_iff_append_eq, Option.map_eq_some_iff]
  constructor
  · intro h
    obtain ⟨rest, rfl, rfl⟩ := split_markBefore_start hreturn hline h.symm
    exact ⟨rest, List.isPrefixOf?_eq_some_iff_append_eq.mpr rfl, rfl⟩
  · rintro ⟨rest, hrest, rfl⟩
    rw [← List.isPrefixOf?_eq_some_iff_append_eq.mp hrest, withReturns, withReturns,
      markBefore_append, markBefore_of_not_mem hline]

theorem isSuffixOf?_withReturns (word : List Char) (hne : word ≠ []) (hreturn : '\r' ∉ word)
    (hline : '\n' ∉ word) (text : List Char) :
    word.isSuffixOf? (withReturns text) = (word.isSuffixOf? text).map withReturns := by
  apply Option.ext
  intro front
  rw [List.isSuffixOf?_eq_some_iff_append_eq, Option.map_eq_some_iff]
  constructor
  · intro h
    have hend : withReturns text = front ++ (word ++ []) := by rw [List.append_nil, h]
    obtain ⟨before, after, rfl, rfl, hafter⟩ := split_markBefore hne hreturn hline hend
    have hlength := length_le_markBefore '\r' '\n' after
    rw [← hafter] at hlength
    obtain rfl := List.eq_nil_of_length_eq_zero (Nat.le_zero.mp hlength)
    exact ⟨before, List.isSuffixOf?_eq_some_iff_append_eq.mpr (by simp), rfl⟩
  · rintro ⟨rest, hrest, rfl⟩
    rw [← List.isSuffixOf?_eq_some_iff_append_eq.mp hrest, withReturns, withReturns,
      markBefore_append, markBefore_of_not_mem hline]

/-! The lines of a text are the same but for blanks at their ends. -/

theorem forall_ne_of_not_mem (h : '\n' ∉ text) : ∀ c ∈ text, (c != '\n') = true :=
  fun _ hc => bne_iff_ne.mpr fun heq => h (heq ▸ hc)

theorem lines_append (h : '\n' ∉ line) (text : List Char) :
    Text.lines (line ++ '\n' :: text) = withoutReturn line :: Text.lines text := by
  have hline := forall_ne_of_not_mem h
  have hdrop : (line ++ '\n' :: text).dropWhile (· != '\n') = '\n' :: text := by
    rw [List.dropWhile_append_of_pos hline, List.dropWhile_cons_of_neg (by decide)]
  have htake : (line ++ '\n' :: text).takeWhile (· != '\n') = line := by
    rw [List.takeWhile_append_of_pos hline, List.takeWhile_cons_of_neg (by decide),
      List.append_nil]
  rw [Text.lines]
  split
  · next hrest =>
      rw [hdrop] at hrest
      contradiction
  · next hrest =>
      rw [hdrop] at hrest
      obtain rfl := (List.cons.inj hrest).2
      rw [htake]

theorem withoutReturn_concat (line : List Char) : withoutReturn (line ++ ['\r']) = line := by
  rw [withoutReturn, if_pos List.getLast?_concat, List.dropLast_concat]

theorem exists_line (text : List Char) :
    '\n' ∉ text ∨ ∃ line rest, text = line ++ '\n' :: rest ∧ '\n' ∉ line := by
  by_cases h : '\n' ∈ text
  · obtain ⟨line, rest, rfl, hline⟩ := List.eq_append_cons_of_mem h
    exact .inr ⟨line, rest, rfl, hline⟩
  · exact .inl h

/-- The longer line is the line with blanks after it. -/
def Padded (line longer : List Char) : Prop :=
  ∃ blanks, isAllBlank blanks = true ∧ longer = line ++ blanks

theorem Padded.refl (line : List Char) : Padded line line :=
  ⟨[], rfl, (List.append_nil line).symm⟩

theorem padded_withoutReturn (line : List Char) : Padded (withoutReturn line) line := by
  rw [withoutReturn]
  split
  · next hlast =>
      refine ⟨['\r'], rfl, ?_⟩
      obtain ⟨front, rfl⟩ := List.getLast?_eq_some_iff.mp hlast
      rw [List.dropLast_concat]
  · exact .refl line

theorem lines_withReturns (text : List Char) :
    List.Forall₂ Padded (Text.lines text) (Text.lines (withReturns text)) := by
  induction hlength : text.length using Nat.strongRecOn generalizing text with
  | ind length ih =>
      rcases exists_line text with hline | ⟨line, rest, rfl, hline⟩
      · rw [withReturns, markBefore_of_not_mem hline]
        exact List.forall₂_same.mpr fun line _ => .refl line
      · have hreturn : '\n' ∉ line ++ ['\r'] := by simp [hline]
        have hlonger : withReturns (line ++ '\n' :: rest) =
            (line ++ ['\r']) ++ '\n' :: withReturns rest := by
          rw [withReturns, markBefore_append, markBefore_of_not_mem hline, markBefore_cons_self,
            List.append_assoc]
          rfl
        rw [hlonger, lines_append hline, lines_append hreturn, withoutReturn_concat]
        rw [List.length_append, List.length_cons] at hlength
        exact .cons (padded_withoutReturn line) (ih rest.length (by omega) rest rfl)

/-! Blanks at the end of a line are dropped there, or the line is all blanks. -/

theorem isAllBlank_append (h : isAllBlank blanks = true) :
    isAllBlank (line ++ blanks) = isAllBlank line := by
  rw [isAllBlank, List.all_append]
  exact (congrArg (isAllBlank line && ·) h).trans (Bool.and_true _)

theorem Padded.isAllBlank_eq (h : Padded line longer) : isAllBlank longer = isAllBlank line := by
  obtain ⟨blanks, hblanks, rfl⟩ := h
  exact isAllBlank_append hblanks

theorem trimStart_append (line : List Char) (h : isAllBlank blanks = true) :
    trimStart (line ++ blanks) =
      if (trimStart line).isEmpty then [] else trimStart line ++ blanks := by
  have hdrop := List.dropWhile_eq_nil_iff.mpr (List.all_eq_true.mp h)
  rw [trimStart, List.dropWhile_append, hdrop]
  rfl

theorem trimEnd_append (h : isAllBlank blanks = true) :
    trimEnd (line ++ blanks) = trimEnd line := by
  have hreverse : ∀ c ∈ blanks.reverse, isBlank c = true :=
    fun c hc => List.all_eq_true.mp h c (List.mem_reverse.mp hc)
  rw [trimEnd, trimEnd, List.reverse_append, List.dropWhile_append_of_pos hreverse]

theorem dropBytes?_append (h : count ≤ byteLength line) (more : List Char) :
    dropBytes? count (line ++ more) = (dropBytes? count line).map (· ++ more) := by
  fun_induction dropBytes? count line with
  | case1 line =>
      rw [dropBytes?]
      rfl
  | case2 => contradiction
  | case3 count c line hsize ih =>
      rw [byteLength_cons] at h
      rw [List.cons_append, dropBytes?, if_pos hsize, ih (by omega)]
  | case4 count c line hsize =>
      rw [List.cons_append, dropBytes?, if_neg hsize]
      rfl

end Text

namespace DocComment

open Text (Padded isAllBlank isBlank trimStart byteLength byteLength_cons dropBytes?)

variable {line longer : List Char} {lines others : List (List Char)} {indent : Nat}

theorem body_withReturns (comment : List Char) :
    body (Text.withReturns comment) = Text.withReturns (body comment) := by
  have hopened := Text.isPrefixOf?_withReturns ['/', '*', '*'] (by decide) (by decide)
  have hclosed :=
    Text.isSuffixOf?_withReturns ['*', '/'] (by decide) (by decide) (by decide)
  rw [body, body, hopened, Option.getD_map, hclosed, Option.getD_map]

/-! The star and the indentation of a line. -/

theorem withoutGutter_of_star {rest : List Char} (h : trimStart line = '*' :: rest) :
    withoutGutter line = rest := by
  rw [withoutGutter, h]
  rfl

theorem withoutGutter_of_head (h : (trimStart line).head? ≠ some '*') :
    withoutGutter line = line := by
  rw [withoutGutter]
  split
  · next heq =>
      rw [heq] at h
      contradiction
  · rfl

theorem withoutGutter_padded (h : Padded line longer) :
    Padded (withoutGutter line) (withoutGutter longer) := by
  have hpadded := h
  obtain ⟨blanks, hblanks, rfl⟩ := h
  have hlonger := Text.trimStart_append line hblanks
  cases hline : trimStart line with
  | nil =>
      rw [hline] at hlonger
      rw [withoutGutter_of_head (by simp [hline]), withoutGutter_of_head (by simp [hlonger])]
      exact hpadded
  | cons c rest =>
      rw [hline] at hlonger
      by_cases hc : c = '*'
      · subst hc
        rw [withoutGutter_of_star hline, withoutGutter_of_star hlonger]
        exact ⟨blanks, hblanks, rfl⟩
      · rw [withoutGutter_of_head (by simp [hline, hc]),
          withoutGutter_of_head (by simp [hlonger, hc])]
        exact hpadded

theorem indentation_of_padded (h : Padded line longer) (hline : isAllBlank line = false) :
    indentation longer = indentation line := by
  obtain ⟨blanks, _, rfl⟩ := h
  rw [indentation, indentation]
  congr 1
  induction line with
  | nil => contradiction
  | cons c line ih =>
      rw [List.cons_append, List.takeWhile_cons, List.takeWhile_cons]
      split
      · next hc => rw [ih (by simpa [isAllBlank, hc] using hline)]
      · rfl

theorem indentation_le (line : List Char) : indentation line ≤ byteLength line := by
  rw [indentation]
  induction line with
  | nil => exact Nat.le_refl _
  | cons c line ih =>
      rw [List.takeWhile_cons]
      split
      · rw [byteLength_cons, byteLength_cons]
        omega
      · exact Nat.zero_le _

theorem sharedIndentation_le (hmem : line ∈ lines) (hline : isAllBlank line = false) :
    sharedIndentation lines ≤ indentation line := by
  apply List.min?_getD_le_of_mem
  apply List.mem_map_of_mem
  exact List.mem_filter.mpr ⟨hmem, by simp [hline]⟩

theorem sharedIndentation_of_padded (h : List.Forall₂ Padded lines others) :
    sharedIndentation others = sharedIndentation lines := by
  rw [sharedIndentation, sharedIndentation]
  congr 2
  induction h with
  | nil => rfl
  | @cons line longer lines others hpadded _ ih =>
      have hblank := Text.Padded.isAllBlank_eq hpadded
      rw [List.filter_cons, List.filter_cons, hblank]
      split
      · next hline =>
          rw [List.map_cons, List.map_cons, ih,
            indentation_of_padded hpadded (by simpa using hline)]
      · exact ih

theorem dedent_of_padded (h : Padded line longer)
    (hindent : isAllBlank line = false → indent ≤ byteLength line) :
    dedent indent longer = dedent indent line := by
  have hblank := Text.Padded.isAllBlank_eq h
  obtain ⟨blanks, hblanks, rfl⟩ := h
  rw [dedent, dedent, hblank]
  cases hline : isAllBlank line with
  | true => rfl
  | false =>
      rw [Text.dropBytes?_append (hindent hline)]
      cases dropBytes? indent line with
      | none => exact Text.trimEnd_append hblanks
      | some rest => exact Text.trimEnd_append hblanks

theorem map_dedent_of_padded (h : List.Forall₂ Padded lines others)
    (hindent : ∀ line ∈ lines, isAllBlank line = false → indent ≤ byteLength line) :
    others.map (dedent indent) = lines.map (dedent indent) := by
  induction h with
  | nil => rfl
  | cons hpadded _ ih =>
      obtain ⟨hline, hlines⟩ := List.forall_mem_cons.mp hindent
      rw [List.map_cons, List.map_cons, dedent_of_padded hpadded hline, ih hlines]

theorem text_withReturns (comment : List Char) :
    text (Text.withReturns comment) = text comment := by
  have hlines : List.Forall₂ Padded ((Text.lines (body comment)).map withoutGutter)
      ((Text.lines (body (Text.withReturns comment))).map withoutGutter) := by
    rw [body_withReturns, List.forall₂_map_left_iff, List.forall₂_map_right_iff]
    exact (Text.lines_withReturns _).imp fun _ _ => withoutGutter_padded
  rw [text, text, textLines, textLines, sharedIndentation_of_padded hlines,
    map_dedent_of_padded hlines]
  intro line hmem hline
  exact Nat.le_trans (sharedIndentation_le hmem hline) (indentation_le line)

/-- Carriage returns before its line feeds change nothing in the text of a doc comment. -/
theorem plainText_withReturns (comment : Bytes) :
    plainText (Utf8.lossy (withReturns comment)) = plainText (Utf8.lossy comment) := by
  rw [plainText, plainText, Utf8.lossy, Utf8.lossy, String.toList_ofList, String.toList_ofList,
    Utf8.decodeLossy_withReturns, text_withReturns]

end DocComment

end IdlLexis
