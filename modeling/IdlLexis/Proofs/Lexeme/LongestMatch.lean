import IdlLexis.Lexeme.Sequence
import IdlLexis.Proofs.Lexeme.Number
import IdlLexis.Proofs.Lexeme.Quoted
import IdlLexis.Proofs.Lexeme.Unique
import IdlLexis.Proofs.Lexeme.Word
/-!
Longest match. The rule that a first byte selects reads the first lexeme of the grammar, so what
a reader reads next is settled by the text before it.
-/

namespace IdlLexis

namespace Lexeme

variable {run tail : Bytes} {b : Byte}

theorem isLongest_blank (hrun : Run Byte.isBlank run) (hstops : Stops Byte.isBlank tail) :
    IsLongest .blank run (run ++ tail) := by
  apply isLongest_append (.blank hrun)
  intro other longer more hother heq
  obtain ⟨b, rest, rfl, hb⟩ := hrun.exists_cons
  obtain rfl := Category.mayBegin_blank b hb _ (hother.mayBegin_of_append heq)
  cases hother with
  | blank hlonger => exact run_length_le heq hlonger.2 hstops

theorem isLongest_newline : IsLongest .newline [Byte.lineFeed] (Byte.lineFeed :: tail) := by
  change IsLongest .newline [Byte.lineFeed] ([Byte.lineFeed] ++ tail)
  apply isLongest_append .newline
  intro other longer more hother heq
  obtain rfl := Category.mayBegin_lineFeed _ (hother.mayBegin_of_append heq)
  cases hother with
  | newline => exact Nat.le_refl _

theorem isLongest_symbol (s : Symbol) : IsLongest (.symbol s) [s.byte] (s.byte :: tail) := by
  change IsLongest (.symbol s) [s.byte] ([s.byte] ++ tail)
  apply isLongest_append (.symbol s)
  intro other longer more hother heq
  obtain rfl := Category.mayBegin_symbol s _ (hother.mayBegin_of_append heq)
  cases hother with
  | symbol _ => exact Nat.le_refl _

theorem uncovered_of_mayBegin (hb : ∀ category : Category, category.mayBegin b = false) :
    Uncovered (b :: tail) := by
  rintro category front hcovers ⟨more, heq⟩
  have hbegins := hcovers.mayBegin_of_append heq
  rw [hb category] at hbegins
  contradiction

end Lexeme

namespace Reader

namespace Faces

variable {r : Reader} {text : Bytes} {b : Byte}

theorem readsFirst_blank (h : r.Faces (b :: text)) (hb : Byte.isBlank b = true) :
    r.ReadsFirst (b :: text) r.readBlank := by
  obtain ⟨run, tail, rfl, hrun, hstops⟩ := Lexeme.exists_run Byte.isBlank text
  have hblank : Lexeme.Run Byte.isBlank (b :: run) := .cons hb hrun
  refine .of_longest (Lexeme.isLongest_blank hblank hstops) ?_
  have hfaces : r.Faces (b :: run ++ tail) := h
  have hskip := hfaces.skipWhile hblank.2 hstops (by decide)
  rw [Reader.readBlank, skipBlanks, hskip]
  rfl

theorem readsFirst_zero (h : r.Faces (0 :: text)) : r.ReadsFirst (0 :: text) r.readZero := by
  rw [Reader.readZero, h.atEnd]
  exact h.readsFirst_stray (Lexeme.uncovered_of_mayBegin (by decide +kernel)) (by decide)
    fun hslash => absurd hslash (by decide)

theorem readsFirst_classify (h : r.Faces (b :: text)) :
    r.ReadsFirst (b :: text) r.classify := by
  rw [Reader.classify, h.look_zero, Fault.ok_bind, List.headD_cons]
  by_cases hzero : b = 0
  · subst hzero
    exact h.readsFirst_zero
  rw [if_neg hzero]
  by_cases hblank : Byte.isBlank b = true
  · rw [if_pos hblank]
    exact h.readsFirst_blank hblank
  rw [if_neg hblank]
  by_cases hline : b = Byte.lineFeed
  · subst hline
    exact .of_longest Lexeme.isLongest_newline (h.one _)
  rw [if_neg hline]
  by_cases hword : Byte.isWordStart b = true
  · rw [if_pos hword]
    exact h.readsFirst_word hword
  rw [if_neg hword]
  by_cases hdigit : Byte.isDigit b = true
  · rw [if_pos hdigit]
    exact h.readsFirst_number hdigit
  rw [if_neg hdigit]
  by_cases hsign : Byte.isSign b = true
  · rw [if_pos hsign]
    exact h.readsFirst_signed hsign
  rw [if_neg hsign]
  by_cases hhash : b = Byte.hash
  · subst hhash
    have hmark : r.Faces ([Byte.hash] ++ text) := h
    exact hmark.readsFirst_lineComment (.inl rfl)
  rw [if_neg hhash]
  by_cases hslash : b = Byte.slash
  · subst hslash
    exact h.readsFirst_slash
  rw [if_neg hslash]
  cases hquote : Quote.ofByte? b with
  | some quote =>
      obtain rfl := Quote.byte_of_ofByte? hquote
      exact h.readsFirst_quoted
  | none =>
      cases hsymbol : Symbol.ofByte? b with
      | some s =>
          obtain rfl := Symbol.byte_of_ofByte? hsymbol
          exact .of_longest (Lexeme.isLongest_symbol s) (h.one _)
      | none =>
          apply h.readsFirst_stray _ hquote fun heq => absurd heq hslash
          apply Lexeme.uncovered_of_mayBegin
          rw [Bool.not_eq_true] at hblank hword hdigit hsign
          exact Lexeme.Category.mayBegin_eq_false hblank hline hword hdigit hsign hhash hslash
            hquote hsymbol

theorem next_of_classify {category : Lexeme.Category} {length : Nat}
    (h : r.classify = .ok (category, r.after length)) :
    r.next = .ok (⟨category, length⟩, r.after length) := by
  have hlength : Offset.sub (r.after length).offset r.offset = .ok length := by
    rw [offset_after, Offset.sub_of_le (Nat.le_add_right ..), Nat.add_sub_cancel_left]
  rw [Reader.next, h, Fault.ok_bind]
  simp only [hlength, Fault.ok_bind]
  rfl

theorem next_nil (h : r.Faces []) : r.next = .ok (⟨.endOfText, 0⟩, r) := by
  change r.next = .ok (⟨.endOfText, 0⟩, r.after 0)
  apply next_of_classify
  rw [Reader.classify, h.look_zero, Fault.ok_bind, List.headD_nil, if_pos rfl, Reader.readZero,
    h.atEnd]
  rfl

theorem next_cons (h : r.Faces (b :: text)) :
    ∃ category front, Lexeme.First category front (b :: text) ∧
      r.next = .ok (⟨category, front.length⟩, r.after front.length) := by
  obtain ⟨category, front, hfirst, hread⟩ := h.readsFirst_classify
  exact ⟨category, front, hfirst, next_of_classify hread⟩

end Faces

theorem readerAt_after {s : Source} {offset count : Nat} (h : offset + count ≤ s.length) :
    (s.readerAt offset).after count = s.readerAt (offset + count) := by
  rw [Source.readerAt, Source.readerAt, after, Nat.min_eq_left h, Nat.min_eq_left (by omega)]

/-- From every offset in a text the reader takes the first lexeme of what is left, which is the
longest front that a category covers or, where none covers any, a mistake; no other lexeme is
first there. -/
theorem next_first {text : Bytes} (htext : text.length < Offset.limit) {offset : Nat}
    (hoffset : offset < text.length) :
    ∃ category front, Lexeme.First category front (text.drop offset) ∧
      ((Source.ofBytes text).readerAt offset).next =
        .ok (⟨category, front.length⟩, (Source.ofBytes text).readerAt (offset + front.length)) ∧
      ∀ other otherFront, Lexeme.First other otherFront (text.drop offset) →
        other = category ∧ otherFront = front := by
  have hbytes := Source.bytes_ofBytes_of_lt htext
  have hlength := Source.length_ofBytes_of_lt htext
  have hfaces : ((Source.ofBytes text).readerAt offset).Faces (text.drop offset) := by
    have hreader := faces_readerAt (Source.ofBytes text) offset
    rwa [hbytes] at hreader
  have hne : text.drop offset ≠ [] := mt List.drop_eq_nil_iff.mp (by omega)
  obtain ⟨b, rest, hrest⟩ := List.exists_cons_of_ne_nil hne
  rw [hrest] at hfaces ⊢
  obtain ⟨category, front, hfirst, hnext⟩ := hfaces.next_cons
  have hfront := hfirst.isPrefix.length_le
  rw [← hrest, List.length_drop] at hfront
  refine ⟨category, front, hfirst, ?_, ?_⟩
  · rw [hnext, readerAt_after (by omega)]
  · intro other otherFront hother
    exact Lexeme.first_unique hother hfirst

/-- The text `a 1.5e+`, in which an exponent has a sign but no digits, read from the number on. -/
theorem next_first_dangling_exponent :
    let text : Bytes := [0x61, 0x20, 0x31, 0x2e, 0x35, 0x65, 0x2b]
    text.length < Offset.limit ∧ 2 < text.length ∧
      ∃ category front, Lexeme.First category front (text.drop 2) ∧
        ((Source.ofBytes text).readerAt 2).next =
          .ok (⟨category, front.length⟩, (Source.ofBytes text).readerAt (2 + front.length)) ∧
        ∀ other otherFront, Lexeme.First other otherFront (text.drop 2) →
          other = category ∧ otherFront = front :=
  ⟨by decide, by decide, next_first (by decide) (by decide)⟩

end Reader

end IdlLexis
