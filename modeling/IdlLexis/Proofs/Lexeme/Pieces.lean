import Mathlib.Algebra.GroupWithZero.Nat
import IdlLexis.Proofs.Lexeme.LongestMatch
/-!
A text falls into lexemes in one way. Its pieces are its lexemes with the bytes that they cover;
a reader that faces the text reads off exactly these.
-/

namespace IdlLexis

namespace Lexeme

structure Piece where
  category : Category
  bytes : Bytes
  deriving DecidableEq, Repr

def Piece.toLexeme (p : Piece) : Lexeme := ⟨p.category, p.bytes.length⟩

/-- The text falls into the pieces, each the first lexeme of what is left before it. -/
inductive Cuts : Bytes → List Piece → Prop
  | nil : Cuts [] []
  | cons {category : Category} {front tail : Bytes} {pieces : List Piece}
      (hfirst : First category front (front ++ tail)) (htail : Cuts tail pieces) :
      Cuts (front ++ tail) (⟨category, front⟩ :: pieces)

namespace Cuts

variable {text : Bytes} {pieces others : List Piece}

theorem flatMap_bytes (h : Cuts text pieces) : pieces.flatMap Piece.bytes = text := by
  induction h with
  | nil => rfl
  | cons _ _ ih => rw [List.flatMap_cons, ih]

theorem unique (h : Cuts text pieces) (hother : Cuts text others) : pieces = others := by
  induction h generalizing others with
  | nil =>
      generalize hnil : ([] : Bytes) = text at hother
      cases hother with
      | nil => rfl
      | cons hfirst _ => exact absurd (List.append_eq_nil_iff.mp hnil.symm).1 hfirst.ne_nil
  | @cons category front tail pieces hfirst _ ih =>
      generalize htext : front ++ tail = text at hother hfirst
      cases hother with
      | nil => exact absurd (List.append_eq_nil_iff.mp htext).1 hfirst.ne_nil
      | @cons category' front' tail' pieces' hfirst' htail' =>
          obtain ⟨rfl, rfl⟩ := first_unique hfirst hfirst'
          obtain rfl := List.append_cancel_left htext
          rw [ih htail']

/-- A text falls into its first lexeme and the pieces of what is left. -/
theorem of_first {category : Category} {front tail : Bytes} (h : Cuts (front ++ tail) pieces)
    (hfirst : First category front (front ++ tail)) :
    ∃ rest, pieces = ⟨category, front⟩ :: rest ∧ Cuts tail rest := by
  generalize htext : front ++ tail = text at h hfirst
  cases h with
  | nil => exact absurd (List.append_eq_nil_iff.mp htext).1 hfirst.ne_nil
  | @cons category' front' tail' rest hfirst' htail =>
      obtain ⟨rfl, rfl⟩ := first_unique hfirst hfirst'
      obtain rfl := List.append_cancel_left htext
      exact ⟨rest, rfl, htail⟩

theorem exists_first (h : Cuts text pieces) :
    ∀ p ∈ pieces, ∃ tail, First p.category p.bytes (p.bytes ++ tail) := by
  induction h with
  | nil =>
      intro p hp
      cases hp
  | cons hfirst _ ih => exact List.forall_mem_cons.mpr ⟨⟨_, hfirst⟩, ih⟩

theorem bytes_ne_nil (h : Cuts text pieces) : ∀ p ∈ pieces, p.bytes ≠ [] := by
  intro p hp
  obtain ⟨tail, hfirst⟩ := h.exists_first p hp
  exact hfirst.ne_nil

theorem category_ne_endOfText (h : Cuts text pieces) :
    ∀ p ∈ pieces, p.category ≠ .endOfText := by
  intro p hp
  obtain ⟨tail, hfirst⟩ := h.exists_first p hp
  exact hfirst.category_ne_endOfText

theorem length_pos (h : Cuts text pieces) : ∀ x ∈ pieces.map Piece.toLexeme, 0 < x.length := by
  intro x hx
  obtain ⟨p, hp, rfl⟩ := List.mem_map.mp hx
  exact List.length_pos_iff.mpr (h.bytes_ne_nil p hp)

theorem sum_length (h : Cuts text pieces) :
    ((pieces.map Piece.toLexeme).map Lexeme.length).sum = text.length := by
  induction h with
  | nil => rfl
  | cons _ _ ih =>
      rw [List.map_cons, List.map_cons, List.sum_cons, ih, List.length_append]
      rfl

theorem length_le (h : Cuts text pieces) : pieces.length ≤ text.length := by
  induction h with
  | nil => exact Nat.le_refl _
  | cons hfirst _ ih =>
      have hpos := List.length_pos_iff.mpr hfirst.ne_nil
      rw [List.length_cons, List.length_append]
      omega

end Cuts

/-! A line feed is a lexeme by itself, or stands in a block of comment; no other lexeme holds
one. -/

def Category.mayBreak : Category → Bool
  | newline | blockComment | docComment | openComment => true
  | _ => false

variable {category : Category} {front text : Bytes}

theorem not_mem_of_forall {test : Byte → Bool} {b : Byte} (hall : ∀ c ∈ text, test c = true)
    (hb : test b = false) : b ∉ text := by
  intro hmem
  rw [hall b hmem] at hb
  contradiction

theorem Run.lineFeed_not_mem {test : Byte → Bool} (h : Run test text)
    (htest : test Byte.lineFeed = false) : Byte.lineFeed ∉ text :=
  not_mem_of_forall h.2 htest

theorem OptionalSign.lineFeed_not_mem (h : OptionalSign text) : Byte.lineFeed ∉ text := by
  rcases h with rfl | ⟨b, hb, rfl⟩
  · exact List.not_mem_nil
  · rw [List.mem_singleton]
    rintro rfl
    exact absurd hb (by decide)

theorem OptionalExponent.lineFeed_not_mem (h : OptionalExponent text) :
    Byte.lineFeed ∉ text := by
  rcases h with rfl | ⟨mark, sign, digits, hmark, hsign, hdigits, rfl⟩
  · exact List.not_mem_nil
  · have hne : Byte.lineFeed ≠ mark := by
      rintro rfl
      exact absurd hmark (by decide)
    simp [hne, hsign.lineFeed_not_mem, hdigits.lineFeed_not_mem (by decide)]

theorem Covers.lineFeed_not_mem (h : Covers category front)
    (hcategory : category.mayBreak = false) : Byte.lineFeed ∉ front := by
  cases h with
  | @word first rest joined hfirst hrest hjoined =>
      have hparts : Byte.lineFeed ∉ joined.flatMap (Byte.dot :: ·) := by
        intro hmem
        obtain ⟨part, hpart, hmem⟩ := List.mem_flatMap.mp hmem
        rcases List.mem_cons.mp hmem with hdot | hmem
        · exact absurd hdot (by decide)
        · exact (hjoined part hpart).lineFeed_not_mem (by decide) hmem
      have hne : Byte.lineFeed ≠ first := by
        rintro rfl
        exact absurd hfirst (by decide)
      have hrest' : Byte.lineFeed ∉ rest := not_mem_of_forall hrest (by decide)
      simp only [List.cons_append, List.mem_cons, List.mem_append, not_or]
      exact ⟨hne, hrest', hparts⟩
  | integer hsign hdigits =>
      simp [hsign.lineFeed_not_mem, hdigits.lineFeed_not_mem (by decide)]
  | hexInteger hdigits =>
      have hzero : Byte.lineFeed ≠ Byte.zero := by decide
      have hx : Byte.lineFeed ≠ Byte.lowerX := by decide
      simp [hzero, hx, hdigits.lineFeed_not_mem (by decide)]
  | @real sign whole fraction exponent hsign hwhole hfraction hexponent =>
      have hdot : Byte.lineFeed ≠ Byte.dot := by decide
      have hfraction' : Byte.lineFeed ∉ fraction := not_mem_of_forall hfraction (by decide)
      simp [hdot, hsign.lineFeed_not_mem, hwhole.lineFeed_not_mem (by decide), hfraction',
        hexponent.lineFeed_not_mem]
  | @quoted quote items hitems =>
      have hflat : Byte.lineFeed ∉ items.flatten :=
        not_mem_of_forall (items_no_lineFeed hitems) (by decide)
      simp [hflat, (quote_ne_lineFeed quote).symm]
  | symbol s => cases s <;> decide
  | blank htext => exact htext.lineFeed_not_mem (by decide)
  | lineComment hmark hbody =>
      exact not_mem_of_forall (Covers.lineFeed_not_mem_lineComment (.lineComment hmark hbody))
        (by decide)
  | _ => contradiction

theorem First.lineFeed_not_mem (h : First category front text)
    (hcategory : category.mayBreak = false) : Byte.lineFeed ∉ front := by
  rcases h with hlongest | ⟨huncovered, hmistake⟩
  · exact hlongest.covers.lineFeed_not_mem hcategory
  · cases hmistake with
    | openQuote =>
        exact not_mem_of_forall (List.all_eq_true.mp List.all_takeWhile) (by decide)
    | openComment => contradiction
    | @strayByte b rest _ _ =>
        rw [List.mem_singleton]
        rintro rfl
        exact huncovered _ _ .newline ⟨rest, rfl⟩

theorem First.newline (h : First .newline front text) : front = [Byte.lineFeed] := by
  rcases h with hlongest | ⟨_, hmistake⟩
  · cases hlongest.covers with
    | newline => rfl
  · cases hmistake

def lineFeed : Piece := ⟨.newline, [Byte.lineFeed]⟩

theorem Cuts.after_lineFeed {pieces : List Piece} (h : Cuts text pieces) :
    Cuts (Byte.lineFeed :: text) (lineFeed :: pieces) := by
  have hfirst : First .newline [Byte.lineFeed] ([Byte.lineFeed] ++ text) := .inl isLongest_newline
  exact .cons hfirst h

theorem First.openComment (h : First .openComment front text) : front = text := by
  rcases h with hlongest | ⟨_, hmistake⟩
  · cases hlongest.covers
  · cases hmistake
    rfl

end Lexeme

namespace Reader

variable {r stop : Reader} {text : Bytes} {x : Lexeme}

theorem lexemes_of_end (hnext : r.next = .ok (x, stop)) (hx : x.category = .endOfText) :
    r.lexemes = .ok ([], stop) := by
  rw [lexemes]
  split
  · next h =>
      rw [hnext] at h
      cases h
  · next h =>
      rw [hnext] at h
      cases h
      rw [dif_pos hx]

theorem lexemes_of_next (hnext : r.next = .ok (x, stop)) (hx : x.category ≠ .endOfText) :
    r.lexemes = (fun (rest, last) => (x :: rest, last)) <$> stop.lexemes := by
  rw [lexemes]
  split
  · next h =>
      rw [hnext] at h
      cases h
  · next h =>
      rw [hnext] at h
      cases h
      rw [dif_neg hx]
      cases hrest : stop.lexemes with
      | error fault => rfl
      | ok found => rfl

namespace Faces

theorem next_of_first {category : Lexeme.Category} {front tail : Bytes}
    (h : r.Faces (front ++ tail)) (hfirst : Lexeme.First category front (front ++ tail)) :
    r.next = .ok (⟨category, front.length⟩, r.after front.length) := by
  obtain ⟨b, rest, hcons⟩ := List.exists_cons_of_ne_nil hfirst.ne_nil
  have hfaces : r.Faces (b :: (rest ++ tail)) := by rwa [hcons] at h
  obtain ⟨category', front', hfirst', hnext⟩ := hfaces.next_cons
  rw [← List.cons_append, ← hcons] at hfirst'
  obtain ⟨rfl, rfl⟩ := Lexeme.first_unique hfirst hfirst'
  exact hnext

theorem lexemes {pieces : List Lexeme.Piece} (h : r.Faces text)
    (hcuts : Lexeme.Cuts text pieces) :
    r.lexemes = .ok (pieces.map Lexeme.Piece.toLexeme, r.after text.length) := by
  induction hcuts generalizing r with
  | nil => exact lexemes_of_end h.next_nil rfl
  | cons hfirst _ ih =>
      rw [lexemes_of_next (h.next_of_first hfirst) hfirst.category_ne_endOfText, ih h.after,
        Fault.map_ok, after_after, List.length_append]
      rfl

theorem exists_first (h : r.Faces text) (hne : text ≠ []) :
    ∃ category front tail, text = front ++ tail ∧
      Lexeme.First category front (front ++ tail) := by
  obtain ⟨b, rest, rfl⟩ := List.exists_cons_of_ne_nil hne
  obtain ⟨category, front, hfirst, _⟩ := h.next_cons
  obtain ⟨tail, htail⟩ := hfirst.isPrefix
  exact ⟨category, front, tail, htail.symm, htail.symm ▸ hfirst⟩

theorem exists_cuts (h : r.Faces text) : ∃ pieces, Lexeme.Cuts text pieces := by
  induction hlength : text.length using Nat.strongRecOn generalizing r text with
  | ind length ih =>
      by_cases hne : text = []
      · subst hne
        exact ⟨[], .nil⟩
      · obtain ⟨category, front, tail, rfl, hfirst⟩ := h.exists_first hne
        have hpos := List.length_pos_iff.mpr hfirst.ne_nil
        rw [List.length_append] at hlength
        obtain ⟨pieces, htail⟩ := ih tail.length (by omega) h.after rfl
        exact ⟨⟨category, front⟩ :: pieces, .cons hfirst htail⟩

end Faces

end Reader

theorem exists_cuts {text : Bytes} (htext : text.length < Offset.limit) :
    ∃ pieces, Lexeme.Cuts text pieces := by
  have hfaces := Reader.faces_reader (Source.ofBytes text)
  rw [Source.bytes_ofBytes_of_lt htext] at hfaces
  exact hfaces.exists_cuts

theorem lexemes_eq {text : Bytes} {pieces : List Lexeme.Piece}
    (htext : text.length < Offset.limit) (hcuts : Lexeme.Cuts text pieces) :
    lexemes text = .ok (pieces.map Lexeme.Piece.toLexeme) := by
  have hfaces := Reader.faces_reader (Source.ofBytes text)
  rw [Source.bytes_ofBytes_of_lt htext] at hfaces
  rw [lexemes, hfaces.lexemes hcuts]
  rfl

end IdlLexis
