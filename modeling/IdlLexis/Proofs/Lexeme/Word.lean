import IdlLexis.Proofs.Lexeme.Opening
import IdlLexis.Proofs.Source.Moves
/-!
Words. Whether a word goes on is seen from the next two bytes, so the words that a text begins
with are the stretches at each byte of which it goes on, and the longest ends where it does not.
-/

namespace IdlLexis

namespace Lexeme

/-- Whether a word goes on with the first byte of the text. -/
def continuesWord : Bytes → Bool
  | [] => false
  | b :: tail => Byte.isWord b || (b == Byte.dot && Byte.isWord (tail.headD 0))

/-- What may follow the first byte of a word: word bytes, and dots before them. -/
inductive WordTail : Bytes → Prop
  | nil : WordTail []
  | word {b : Byte} {rest : Bytes} (hb : Byte.isWord b = true) (hrest : WordTail rest) :
      WordTail (b :: rest)
  | dot {b : Byte} {rest : Bytes} (hb : Byte.isWord b = true) (hrest : WordTail (b :: rest)) :
      WordTail (Byte.dot :: b :: rest)

theorem WordTail.append {rest tail : Bytes} (hrest : ∀ b ∈ rest, Byte.isWord b = true)
    (htail : WordTail tail) : WordTail (rest ++ tail) := by
  induction rest with
  | nil => exact htail
  | cons b rest ih =>
      apply WordTail.word (hrest b List.mem_cons_self)
      exact ih fun c hc => hrest c (List.mem_cons_of_mem b hc)

theorem wordTail_iff {body : Bytes} :
    WordTail body ↔
      ∃ (rest : Bytes) (joined : List Bytes), (∀ b ∈ rest, Byte.isWord b = true) ∧
        (∀ part ∈ joined, Run Byte.isWord part) ∧
        body = rest ++ joined.flatMap (Byte.dot :: ·) := by
  constructor
  · intro h
    induction h with
    | nil => exact ⟨[], [], by simp, by simp, rfl⟩
    | @word b _ hb _ ih =>
        obtain ⟨rest, joined, hrest, hjoined, rfl⟩ := ih
        exact ⟨b :: rest, joined, (Run.cons hb hrest).2, hjoined, rfl⟩
    | @dot b tail hb _ ih =>
        obtain ⟨rest, joined, hrest, hjoined, heq⟩ := ih
        have hne : rest ≠ [] := by
          rintro rfl
          cases joined with
          | nil => cases heq
          | cons part joined =>
              rw [List.nil_append, List.flatMap_cons, List.cons_append] at heq
              rw [(List.cons.inj heq).1] at hb
              exact absurd hb (by decide)
        have hparts : ∀ part ∈ rest :: joined, Run Byte.isWord part :=
          List.forall_mem_cons.mpr ⟨⟨hne, hrest⟩, hjoined⟩
        exact ⟨[], rest :: joined, by simp, hparts, by simp [heq]⟩
  · rintro ⟨rest, joined, hrest, hjoined, rfl⟩
    apply WordTail.append hrest
    induction joined with
    | nil => exact .nil
    | cons part joined ih =>
        have htail := ih fun other hother => hjoined other (List.mem_cons_of_mem part hother)
        have hpart := hjoined part List.mem_cons_self
        obtain ⟨b, run, rfl, hb⟩ := hpart.exists_cons
        exact .dot hb (WordTail.append hpart.2 htail)

theorem covers_word_iff {first : Byte} {body : Bytes} :
    Covers .word (first :: body) ↔ Byte.isWordStart first = true ∧ WordTail body := by
  rw [wordTail_iff]
  constructor
  · generalize htext : first :: body = text
    intro h
    cases h with
    | @word start rest joined hfirst hrest hjoined =>
        rw [List.cons_append] at htext
        obtain ⟨rfl, rfl⟩ := List.cons.inj htext
        exact ⟨hfirst, rest, joined, hrest, hjoined, rfl⟩
  · rintro ⟨hfirst, rest, joined, hrest, hjoined, rfl⟩
    exact .word hfirst hrest hjoined

/-- At each byte of a word's tail the word goes on, whatever follows the tail. -/
theorem WordTail.continues {before after : Bytes} {b : Byte} (tail : Bytes)
    (h : WordTail (before ++ b :: after)) : continuesWord (b :: after ++ tail) = true := by
  generalize hbody : before ++ b :: after = body at h
  induction h generalizing before with
  | nil => simp at hbody
  | word hc hrest ih =>
      cases before with
      | nil =>
          cases hbody
          simp [continuesWord, hc]
      | cons d before => exact ih (List.cons.inj hbody).2
  | dot hc hrest ih =>
      cases before with
      | nil =>
          cases hbody
          simp [continuesWord, hc]
      | cons d before => exact ih (List.cons.inj hbody).2

theorem wordTail_length_le {body other tail more : Bytes} (heq : other ++ more = body ++ tail)
    (hother : WordTail other) (hstops : continuesWord tail = false) :
    other.length ≤ body.length := by
  apply Nat.le_of_not_lt
  intro hlt
  have hbody : body <+: other ++ more := ⟨tail, heq.symm⟩
  obtain ⟨rest, rfl⟩ :=
    List.prefix_of_prefix_length_le hbody (List.prefix_append other more) (Nat.le_of_lt hlt)
  cases rest with
  | nil => simp at hlt
  | cons b rest =>
      have hgoes := hother.continues more
      rw [List.append_assoc, List.append_cancel_left_eq] at heq
      rw [heq, hstops] at hgoes
      contradiction

theorem exists_wordTail (text : Bytes) :
    ∃ body tail, text = body ++ tail ∧ WordTail body ∧ continuesWord tail = false := by
  induction text with
  | nil => exact ⟨[], [], rfl, .nil, rfl⟩
  | cons b text ih =>
      cases hgoes : continuesWord (b :: text) with
      | false => exact ⟨[], b :: text, rfl, .nil, hgoes⟩
      | true =>
          obtain ⟨body, tail, rfl, hbody, hstops⟩ := ih
          refine ⟨b :: body, tail, rfl, ?_, hstops⟩
          by_cases hb : Byte.isWord b = true
          · exact .word hb hbody
          · simp only [continuesWord, hb, Bool.false_or, Bool.and_eq_true, beq_iff_eq] at hgoes
            obtain ⟨rfl, hnext⟩ := hgoes
            -- The byte after the dot goes on with the word, so it is no part of the tail.
            cases body with
            | nil =>
                cases tail with
                | nil => exact absurd hnext (by decide)
                | cons c tail =>
                    have hc : Byte.isWord c = true := hnext
                    simp [continuesWord, hc] at hstops
            | cons c body => exact .dot hnext hbody

theorem isLongest_word {first : Byte} {body tail : Bytes}
    (hfirst : Byte.isWordStart first = true) (hbody : WordTail body)
    (hstops : continuesWord tail = false) :
    IsLongest .word (first :: body) (first :: body ++ tail) := by
  apply isLongest_append (covers_word_iff.mpr ⟨hfirst, hbody⟩)
  intro other longer more hother heq
  obtain rfl := Category.mayBegin_word _ hfirst _ (hother.mayBegin_of_append heq)
  cases longer with
  | nil => exact Nat.zero_le _
  | cons c longer =>
      rw [List.cons_append, List.cons_append] at heq
      have hlength := wordTail_length_le (List.cons.inj heq).2 (covers_word_iff.mp hother).2 hstops
      exact Nat.succ_le_succ hlength

end Lexeme

namespace Reader

namespace Faces

variable {r : Reader} {body tail text : Bytes} {b : Byte}

theorem continuesWord (h : r.Faces text) :
    Reader.continuesWord r = .ok (Lexeme.continuesWord text) := by
  rw [Reader.continuesWord, h.look_zero, Fault.ok_bind]
  cases text with
  | nil => rfl
  | cons b tail =>
      rw [h.look_one, Fault.map_ok, List.headD_cons, Lexeme.continuesWord]
      by_cases hword : Byte.isWord b = true
      · rw [if_pos hword, hword]
        rfl
      · by_cases hdot : b = Byte.dot
        · subst hdot
          rfl
        · rw [if_neg hword, if_neg hdot, Bool.eq_false_iff.mpr hword, beq_false_of_ne hdot]
          rfl

theorem readWord (h : r.Faces (b :: body ++ tail)) (hbody : Lexeme.WordTail body)
    (hstops : Lexeme.continuesWord tail = false) :
    r.readWord = .ok (.word, r.after (b :: body).length) := by
  have hskip : (r.after 1).advanceWhile Reader.continuesWord =
      .ok ((r.after 1).after body.length) := by
    have hnext : (r.after 1).Faces (body ++ tail) := h.after_cons
    apply hnext.advanceWhile
    · rintro before c after rfl
      rw [List.append_assoc] at hnext
      rw [hnext.after.continuesWord, hbody.continues tail]
    · rw [hnext.after.continuesWord, hstops]
  rw [Reader.readWord, h.advance_one, Fault.ok_bind, hskip, Fault.ok_bind, after_after,
    List.length_cons, Nat.add_comm]
  rfl

theorem readsFirst_word (h : r.Faces (b :: text)) (hb : Byte.isWordStart b = true) :
    r.ReadsFirst (b :: text) r.readWord := by
  obtain ⟨body, tail, rfl, hbody, hstops⟩ := Lexeme.exists_wordTail text
  exact .of_longest (Lexeme.isLongest_word hb hbody hstops) (h.readWord hbody hstops)

end Faces

end Reader

end IdlLexis
