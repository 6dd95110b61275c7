import IdlLexis.Proofs.Lexeme.Opening
import IdlLexis.Text.Line
import IdlLexis.Text.Utf8
/-!
Two ways to end a line. A text whose lines end in line feeds becomes one whose lines end in
carriage returns and line feeds. No character of more than one byte holds either, so it is all the
same whether this is done to the bytes of a text or to its characters.
-/

namespace IdlLexis

namespace Text

section Mark

variable {α : Type} [DecidableEq α] {mark last a : α} {text front tail word rest : List α}

/-- The text with the mark before each `last` in it. -/
def markBefore (mark last : α) (text : List α) : List α :=
  text.flatMap fun a => if a = last then [mark, last] else [a]

@[simp] theorem markBefore_nil (mark last : α) : markBefore mark last [] = [] := rfl

theorem markBefore_cons_self (mark last : α) (text : List α) :
    markBefore mark last (last :: text) = mark :: last :: markBefore mark last text := by
  rw [markBefore, List.flatMap_cons, if_pos rfl]
  rfl

theorem markBefore_cons_of_ne (h : a ≠ last) :
    markBefore mark last (a :: text) = a :: markBefore mark last text := by
  rw [markBefore, List.flatMap_cons, if_neg h]
  rfl

theorem markBefore_append (mark last : α) (front tail : List α) :
    markBefore mark last (front ++ tail) =
      markBefore mark last front ++ markBefore mark last tail :=
  List.flatMap_append

theorem markBefore_of_not_mem (h : last ∉ text) : markBefore mark last text = text := by
  induction text with
  | nil => rfl
  | cons a text ih =>
      obtain ⟨hne, hrest⟩ := List.ne_and_not_mem_of_not_mem_cons h
      rw [markBefore_cons_of_ne hne.symm, ih hrest]

theorem length_markBefore (mark last : α) (text : List α) :
    (markBefore mark last text).length = text.length + text.count last := by
  induction text with
  | nil => rfl
  | cons a text ih =>
      by_cases ha : a = last
      · subst ha
        rw [markBefore_cons_self, List.length_cons, List.length_cons, List.length_cons,
          List.count_cons_self, ih]
        omega
      · rw [markBefore_cons_of_ne ha, List.length_cons, List.length_cons, List.count_cons_of_ne ha,
          ih]
        omega

theorem length_le_markBefore (mark last : α) (text : List α) :
    text.length ≤ (markBefore mark last text).length := by
  rw [length_markBefore]
  exact Nat.le_add_right ..

theorem count_markBefore (hmark : mark ≠ last) (text : List α) :
    (markBefore mark last text).count last = text.count last := by
  induction text with
  | nil => rfl
  | cons a text ih =>
      by_cases ha : a = last
      · subst ha
        rw [markBefore_cons_self, List.count_cons_of_ne hmark, List.count_cons_self,
          List.count_cons_self, ih]
      · rw [markBefore_cons_of_ne ha, List.count_cons_of_ne ha, List.count_cons_of_ne ha, ih]

/-! A word that holds neither the mark nor what it is put before stands in the marked text where it
stood before. -/

theorem split_markBefore_start (hmark : mark ∉ word) (hlast : last ∉ word)
    (h : markBefore mark last text = word ++ tail) :
    ∃ rest, text = word ++ rest ∧ tail = markBefore mark last rest := by
  induction word generalizing text with
  | nil => exact ⟨text, rfl, h.symm⟩
  | cons b word ih =>
      obtain ⟨hb, hmark⟩ := List.ne_and_not_mem_of_not_mem_cons hmark
      obtain ⟨_, hlast⟩ := List.ne_and_not_mem_of_not_mem_cons hlast
      cases text with
      | nil => contradiction
      | cons a text =>
          by_cases ha : a = last
          · subst ha
            rw [markBefore_cons_self] at h
            exact absurd (List.cons.inj h).1 hb
          · rw [markBefore_cons_of_ne ha] at h
            obtain ⟨hab, h⟩ := List.cons.inj h
            obtain ⟨rest, hrest, htail⟩ := ih hmark hlast h
            exact ⟨rest, by rw [hab, hrest, List.cons_append], htail⟩

theorem split_markBefore (hne : word ≠ []) (hmark : mark ∉ word) (hlast : last ∉ word)
    (h : markBefore mark last text = front ++ (word ++ tail)) :
    ∃ before after, text = before ++ (word ++ after) ∧ front = markBefore mark last before ∧
      tail = markBefore mark last after := by
  induction text generalizing front with
  | nil => simp [hne] at h
  | cons a text ih =>
      cases front with
      | nil =>
          obtain ⟨after, htext, htail⟩ := split_markBefore_start hmark hlast h
          exact ⟨[], after, htext, rfl, htail⟩
      | cons c front =>
          by_cases ha : a = last
          · subst ha
            rw [markBefore_cons_self] at h
            obtain ⟨hc, hafter⟩ := List.cons.inj h
            cases front with
            | nil =>
                obtain ⟨b, word, rfl⟩ := List.exists_cons_of_ne_nil hne
                exact absurd (List.cons.inj hafter).1 (List.ne_of_not_mem_cons hlast)
            | cons d front =>
                obtain ⟨hd, hrest⟩ := List.cons.inj hafter
                obtain ⟨before, after, rfl, rfl, htail⟩ := ih hrest
                refine ⟨a :: before, after, rfl, ?_, htail⟩
                rw [markBefore_cons_self, hc, hd]
          · rw [markBefore_cons_of_ne ha] at h
            obtain ⟨hc, hrest⟩ := List.cons.inj h
            obtain ⟨before, after, rfl, rfl, htail⟩ := ih hrest
            refine ⟨a :: before, after, rfl, ?_, htail⟩
            rw [markBefore_cons_of_ne ha, hc]

end Mark

/-- The text with lines that end in a carriage return and a line feed. -/
def withReturns (text : List Char) : List Char := markBefore '\r' '\n' text

end Text

/-- The text with lines that end in a carriage return and a line feed. -/
def withReturns (text : Bytes) : Bytes := Text.markBefore Byte.carriageReturn Byte.lineFeed text

theorem withReturns_nil : withReturns [] = [] := rfl

theorem withReturns_append (front tail : Bytes) :
    withReturns (front ++ tail) = withReturns front ++ withReturns tail :=
  Text.markBefore_append ..

theorem withReturns_lineFeed (text : Bytes) :
    withReturns (Byte.lineFeed :: text) =
      Byte.carriageReturn :: Byte.lineFeed :: withReturns text :=
  Text.markBefore_cons_self ..

theorem withReturns_cons {b : Byte} (h : b ≠ Byte.lineFeed) (text : Bytes) :
    withReturns (b :: text) = b :: withReturns text :=
  Text.markBefore_cons_of_ne h

namespace Utf8

/-! Reading a character passes no end of a line, unless the character is one. -/

theorem continuation_withReturns (bits further : Nat) (bytes : Bytes) :
    continuation bits further (withReturns bytes) =
      ((continuation bits further bytes).1, withReturns (continuation bits further bytes).2) := by
  fun_induction continuation bits further bytes with
  | case1 => rw [continuation]
  | case2 => rfl
  | case3 bits further b rest hb ih =>
      have hline : b ≠ Byte.lineFeed := by
        rintro rfl
        contradiction
      rw [withReturns_cons hline, continuation, if_pos hb, ih]
  | case4 bits further b rest hb =>
      by_cases hline : b = Byte.lineFeed
      · subst hline
        rw [withReturns_lineFeed]
        rfl
      · rw [withReturns_cons hline, continuation, if_neg hb]

theorem Lead.range_of_ofByte? :
    ∀ b, (ofByte? b).all (fun lead => 0x80 ≤ lead.low && (1 ≤ lead.bits || 0x90 ≤ lead.low)) =
      true := by
  decide +kernel

theorem afterLead_withReturns {lead : Lead} (hlow : 0x80 ≤ lead.low) (bytes : Bytes) :
    afterLead lead (withReturns bytes) =
      ((afterLead lead bytes).1, withReturns (afterLead lead bytes).2) := by
  have hout {b : Byte} (hb : b < 0x80) : ¬ (lead.low ≤ b ∧ b ≤ lead.high) := by
    intro hin
    exact absurd (UInt8.le_trans hlow hin.1) (UInt8.not_le.mpr hb)
  cases bytes with
  | nil => rfl
  | cons b bytes =>
      by_cases hline : b = Byte.lineFeed
      · subst hline
        rw [withReturns_lineFeed, afterLead, afterLead, if_neg (hout (by decide)),
          if_neg (hout (by decide)), withReturns_lineFeed]
      · rw [withReturns_cons hline, afterLead, afterLead]
        split
        · exact continuation_withReturns _ _ _
        · rw [withReturns_cons hline]

/-! No character but the line feed itself reads as a line feed. -/

theorem le_extend (bits : Nat) (b : Byte) : bits ≤ extend bits b := by
  unfold extend
  omega

theorem le_of_continuation {bits further value : Nat} {bytes : Bytes}
    (h : (continuation bits further bytes).1 = some value) : bits ≤ value := by
  fun_induction continuation bits further bytes with
  | case1 =>
      cases h
      exact Nat.le_refl _
  | case2 => contradiction
  | case3 bits _ b _ _ ih => exact Nat.le_trans (le_extend bits b) (ih h)
  | case4 => contradiction

theorem le_of_afterLead {lead : Lead} (hbits : 1 ≤ lead.bits ∨ 0x90 ≤ lead.low) {bytes : Bytes}
    {value : Nat} (h : (afterLead lead bytes).1 = some value) : 0x10 ≤ value := by
  cases bytes with
  | nil => contradiction
  | cons b bytes =>
      rw [afterLead] at h
      split at h
      · next hin =>
          have hb : lead.low.toNat ≤ b.toNat := hin.1
          have hextend : 0x10 ≤ extend lead.bits b := by
            unfold extend
            rcases hbits with hbits | hlow
            · omega
            · have hlow : 0x90 ≤ lead.low.toNat := hlow
              omega
          exact Nat.le_trans hextend (le_of_continuation h)
      · contradiction

theorem char_ne_lineFeed {value : Nat} (h : value ≠ 0x0a) : Char.ofNat value ≠ '\n' := by
  intro heq
  by_cases hvalid : value.isValidChar
  · rw [Char.ofNat, dif_pos hvalid] at heq
    exact h (congrArg Char.toNat heq)
  · rw [Char.ofNat, dif_neg hvalid] at heq
    contradiction

theorem replacement_ne_lineFeed : replacement ≠ '\n' := by decide

theorem first_withReturns {b : Byte} (hb : b ≠ Byte.lineFeed) (rest : Bytes) :
    first b (withReturns rest) = ((first b rest).1, withReturns (first b rest).2) ∧
      (first b rest).1.getD replacement ≠ '\n' := by
  unfold first
  split
  · refine ⟨rfl, char_ne_lineFeed ?_⟩
    exact fun hvalue => hb (UInt8.toNat_inj.mp hvalue)
  · have hrange := Lead.range_of_ofByte? b
    split
    · next lead hlead =>
        rw [hlead, Option.all_some, Bool.and_eq_true, decide_eq_true_eq, Bool.or_eq_true,
          decide_eq_true_eq, decide_eq_true_eq] at hrange
        obtain ⟨hlow, hbits⟩ := hrange
        rw [afterLead_withReturns hlow]
        refine ⟨rfl, ?_⟩
        dsimp only
        cases hvalue : (afterLead lead rest).1 with
        | none => exact replacement_ne_lineFeed
        | some value =>
            have hle := le_of_afterLead hbits hvalue
            exact char_ne_lineFeed (by omega)
    · exact ⟨rfl, replacement_ne_lineFeed⟩

theorem decodeLossy_withReturns (bytes : Bytes) :
    decodeLossy (withReturns bytes) = Text.withReturns (decodeLossy bytes) := by
  fun_induction decodeLossy bytes with
  | case1 => exact decodeLossy_nil
  | case2 b rest _ ih =>
      by_cases hb : b = Byte.lineFeed
      · subst hb
        have hrest : decodeLossy (withReturns rest) = Text.withReturns (decodeLossy rest) := ih
        rw [withReturns_lineFeed, decodeLossy_ascii (by decide), decodeLossy_ascii (by decide),
          hrest]
        exact (Text.markBefore_cons_self ..).symm
      · obtain ⟨hfirst, hne⟩ := first_withReturns hb rest
        rw [withReturns_cons hb, decodeLossy_cons, hfirst, ih]
        exact (Text.markBefore_cons_of_ne hne).symm

end Utf8

end IdlLexis
