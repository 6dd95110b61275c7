import IdlLexis.Command
import IdlLexis.Proofs.Text.Returns
/-!
Texts of one line. Numbers, quoted texts and escaped bytes stay on one line whatever they show, and
so do bytes that are read as text, unless there is a line feed among them. Lines that are each ended
by a line feed are told apart again by the line feeds alone.
-/

namespace IdlLexis

namespace Text

/-- The text does not go on in another line. -/
def OneLine (text : String) : Prop := '\n' ∉ text.toList

instance (text : String) : Decidable (OneLine text) := inferInstanceAs (Decidable (¬ _ ∈ _))

/-- Cut at each line feed, the text is the lines and nothing after the last of them. -/
def HasLines (text : String) (lines : List String) : Prop :=
  text.toList.splitOn '\n' = lines.map String.toList ++ [[]]

variable {front tail : String} {lines : List String} {base : Nat} {bytes : Bytes}

theorem OneLine.append (hfront : OneLine front) (htail : OneLine tail) :
    OneLine (front ++ tail) := by
  rw [OneLine, String.toList_append, List.mem_append, not_or]
  exact ⟨hfront, htail⟩

theorem oneLine_ofList {text : List Char} (h : '\n' ∉ text) : OneLine (String.ofList text) := by
  rwa [OneLine, String.toList_ofList]

theorem hasLines_joinLines (h : ∀ line ∈ lines, OneLine line) :
    HasLines (Report.joinLines lines) lines := by
  rw [HasLines, Report.joinLines, String.toList_join]
  induction lines with
  | nil => rfl
  | cons line lines ih =>
      obtain ⟨hline, hrest⟩ := List.forall_mem_cons.mp h
      rw [List.map_cons, List.flatMap_cons, String.toList_append, List.append_assoc,
        show "\n".toList = ['\n'] from rfl, List.singleton_append,
        List.splitOn_append_cons_self_of_not_mem hline, ih hrest, List.map_cons, List.cons_append]

/-! Numbers. -/

theorem lineFeed_not_mem_toDigits (hbase : 1 < base) (n : Nat) : '\n' ∉ Nat.toDigits base n := by
  induction n using Nat.strongRecOn with
  | ind n ih =>
      have hdigit (d : Nat) : '\n' ≠ d.digitChar := (Nat.digitChar_ne '\n' (by decide)).symm
      by_cases hn : n < base
      · rw [Nat.toDigits_of_lt_base hn, List.mem_singleton]
        exact hdigit n
      · have hle : base ≤ n := Nat.le_of_not_lt hn
        have hlt : n / base < n := Nat.div_lt_self (by omega) hbase
        rw [Nat.toDigits_of_base_le hbase hle, List.mem_append, List.mem_singleton, not_or]
        exact ⟨ih _ hlt, hdigit _⟩

theorem oneLine_natRepr (n : Nat) : OneLine n.repr := by
  rw [OneLine, Nat.toList_repr]
  exact lineFeed_not_mem_toDigits (by decide) n

theorem oneLine_intRepr (value : Int) : OneLine value.repr := by
  rw [Int.repr_eq_if]
  split
  · exact oneLine_natRepr _
  · exact .append (by decide) (oneLine_natRepr _)

/-! Text in quotes and bytes that are escaped. -/

theorem lineFeed_not_mem_quotedChar (c : Char) : '\n' ∉ quotedChar c := by
  by_cases hline : c = '\n'
  · subst hline
    decide
  · have hself := Ne.symm hline
    unfold quotedChar
    repeat' split
    · decide
    · decide
    · decide
    · simp [hself]
    · simp [numberedChar, lineFeed_not_mem_toDigits (show 1 < 16 by decide)]
    · simpa using hself

theorem lineFeed_not_mem_quoted (text : List Char) : '\n' ∉ quoted text := by
  have hbody : '\n' ∉ text.flatMap quotedChar := by
    intro hmem
    obtain ⟨c, _, hc⟩ := List.mem_flatMap.mp hmem
    exact lineFeed_not_mem_quotedChar c hc
  simp [quoted, hbody]

theorem lineFeed_not_mem_escapedByte : ∀ b, '\n' ∉ escapedByte b := by
  decide +kernel

/-! Bytes read as text. To put returns before the line feeds changes nothing just where there is no
line feed, and reading makes no difference to that. -/

theorem lineFeed_not_mem_decodeLossy (h : Byte.lineFeed ∉ bytes) :
    '\n' ∉ Utf8.decodeLossy bytes := by
  have hsame : withReturns (Utf8.decodeLossy bytes) = Utf8.decodeLossy bytes := by
    rw [← Utf8.decodeLossy_withReturns, IdlLexis.withReturns, markBefore_of_not_mem h]
  have hlength := length_markBefore '\r' '\n' (Utf8.decodeLossy bytes)
  change (withReturns _).length = _ at hlength
  rw [hsame] at hlength
  apply List.count_eq_zero.mp
  omega

theorem oneLine_lossy (h : Byte.lineFeed ∉ bytes) : OneLine (Utf8.lossy bytes) :=
  oneLine_ofList (lineFeed_not_mem_decodeLossy h)

end Text

/-! Reals. -/

namespace Binary64

open Text (lineFeed_not_mem_toDigits)

variable {digits : List Char}

theorem lineFeed_not_mem_zeros (count : Int) : '\n' ∉ zeros count := by
  simp [zeros]

theorem lineFeed_not_mem_positional (h : '\n' ∉ digits) (order : Int) :
    '\n' ∉ positional digits order := by
  have hwhole : '\n' ∉ digits.take (order + 1).toNat := fun hmem => h (List.mem_of_mem_take hmem)
  have hfraction : '\n' ∉ digits.drop (order + 1).toNat :=
    fun hmem => h (List.mem_of_mem_drop hmem)
  unfold positional
  dsimp only
  split <;> split <;> simp [hwhole, hfraction, lineFeed_not_mem_zeros]

theorem lineFeed_not_mem_exponential (h : '\n' ∉ digits) (order : Int) :
    '\n' ∉ exponential digits order := by
  have hfirst : '\n' ∉ digits.take 1 := fun hmem => h (List.mem_of_mem_take hmem)
  have hrest : '\n' ∉ digits.drop 1 := fun hmem => h (List.mem_of_mem_drop hmem)
  have horder : '\n' ∉ (toString order).toList := Text.oneLine_intRepr order
  unfold exponential
  simp only [List.mem_append, List.mem_cons, not_or]
  refine ⟨⟨hfirst, ?_⟩, by decide, horder⟩
  split
  · exact List.not_mem_nil
  · exact List.not_mem_cons_of_ne_of_not_mem (by decide) hrest

theorem lineFeed_not_mem_trimmed (coefficient : Nat) :
    '\n' ∉ ((Nat.toDigits 10 coefficient).reverse.dropWhile (· == '0')).reverse := by
  intro hmem
  have hkept := (List.dropWhile_sublist _).subset (List.mem_reverse.mp hmem)
  exact lineFeed_not_mem_toDigits (by decide) _ (List.mem_reverse.mp hkept)

theorem lineFeed_not_mem_displayMagnitude (x : Binary64) : '\n' ∉ x.displayMagnitude := by
  unfold displayMagnitude
  split
  · decide
  · have hdigits := lineFeed_not_mem_trimmed x.shortest.1
    dsimp only
    split
    · exact lineFeed_not_mem_positional hdigits _
    · exact lineFeed_not_mem_exponential hdigits _

theorem oneLine_display (x : Binary64) : Text.OneLine x.display := by
  unfold display
  split
  · decide
  · apply Text.oneLine_ofList
    rw [List.mem_append, not_or]
    constructor
    · split <;> decide
    · split
      · exact x.lineFeed_not_mem_displayMagnitude
      · decide

end Binary64

end IdlLexis
