import IdlLexis.Proofs.Lexeme.Pieces
import IdlLexis.TokenStream.Session
/-!
One step of a stream. A stream that has passed one part of its text faces the other; it takes the
first lexeme of what it faces, and what comes of that depends on nothing but the lexeme's category
and bytes, its offset and its line.
-/

namespace IdlLexis

/-- The bytes of a text that a span covers. -/
def Span.bytes (s : Span) (text : Bytes) : Bytes := (text.take s.stop).drop s.start

theorem Span.bytes_front (passed front left : Bytes) :
    Span.bytes ⟨passed.length, passed.length + front.length⟩ (passed ++ (front ++ left)) =
      front := by
  rw [bytes, List.drop_take, List.drop_left, Nat.add_sub_cancel_left, List.take_left]

theorem Source.textBetween_eq (s : Source) (start stop : Nat) :
    s.textBetween start stop = Span.bytes ⟨start, stop⟩ s.bytes := by
  have hlength := s.length_lt_size
  simp only [textBetween, bytes, Span.bytes, Array.toList_extract, List.extract_eq_take_drop]
  rw [List.take_take, List.drop_take, ← Nat.min_comm s.length stop]
  by_cases hstart : start ≤ min s.length stop
  · rw [Nat.min_eq_left hstart]
  · have hle : min s.length stop ≤ start := by omega
    rw [Nat.min_eq_right hle, Nat.sub_self, Nat.sub_eq_zero_of_le hle, List.take_zero,
      List.take_zero]

/-- The token that a reading gives, and the diagnostics that come with it. -/
def Token.ofReading (span : Span) (line : Nat) :
    Except Complaint Token.Kind → Token × List Diagnostic
  | .ok kind => (⟨kind, span, line⟩, [])
  | .error complaint =>
      (⟨.error, span, line⟩, [⟨complaint.code, line, span.start, complaint.message⟩])

@[simp] theorem Token.span_ofReading (span : Span) (line : Nat)
    (reading : Except Complaint Token.Kind) :
    (Token.ofReading span line reading).1.span = span := by
  cases reading <;> rfl

@[simp] theorem Token.line_ofReading (span : Span) (line : Nat)
    (reading : Except Complaint Token.Kind) :
    (Token.ofReading span line reading).1.line = line := by
  cases reading <;> rfl

namespace TokenStream

open Lexeme (First Cuts Piece Category)

/-! Line feeds of a text. -/

@[simp] theorem newlines_append (front tail : Bytes) :
    newlines (front ++ tail) = newlines front + newlines tail :=
  List.count_append

theorem newlines_le_length (text : Bytes) : newlines text ≤ text.length := List.count_le_length

theorem newlines_of_first {category : Category} {front text : Bytes}
    (h : First category front text) (hcategory : category.mayBreak = false) :
    newlines front = 0 :=
  List.count_eq_zero_of_not_mem (h.lineFeed_not_mem hcategory)

/-! What a lexeme makes of the stream that passes it. -/

def docAfter (doc : Option String) (category : Category) (text : Bytes) : Option String :=
  match category with
  | .lineComment | .blockComment => none
  | .docComment => some (DocComment.plainText (Utf8.lossy text))
  | _ => doc

theorem docAfter_of_some {category : Category} {text : Bytes} {doc : Option String}
    {reading : Except Complaint Token.Kind} (h : Token.meaning category text = some reading) :
    docAfter doc category text = doc := by
  cases category <;> first | rfl | contradiction

def pass (t : TokenStream) (p : Piece) : TokenStream :=
  { t with
    position := t.position + p.bytes.length
    line := t.line + newlines p.bytes
    doc := docAfter t.doc p.category p.bytes }

def passAll (t : TokenStream) (pieces : List Piece) : TokenStream := pieces.foldl pass t

def spanOf (t : TokenStream) (text : Bytes) : Span := ⟨t.position, t.position + text.length⟩

def cooked (t : TokenStream) (p : Piece) (reading : Except Complaint Token.Kind) :
    Token × List Diagnostic :=
  Token.ofReading (t.spanOf p.bytes) t.line reading

def emit (t : TokenStream) (p : Piece) (reading : Except Complaint Token.Kind) : TokenStream :=
  { t.pass p with
    tokenStart := t.position
    log := (t.cooked p reading).2.foldl Log.push t.log }

def finish (t : TokenStream) : TokenStream :=
  { t with tokenStart := t.position, exhausted := true }

variable {t : TokenStream} {category : Category} {front text : Bytes}

theorem countLines_eq (hline : t.line + newlines front < Offset.limit) :
    t.countLines front = .ok { t with line := t.line + newlines front } := by
  rw [countLines, Offset.add_of_lt hline]
  rfl

theorem separate_eq (hfirst : First category front text)
    (hmeaning : Token.meaning category front = none)
    (hline : t.line + newlines front < Offset.limit) :
    t.separate category front =
      .ok { t with
        line := t.line + newlines front
        doc := docAfter t.doc category front } := by
  cases category with
  | blank =>
      rw [newlines_of_first hfirst rfl]
      rfl
  | newline =>
      obtain rfl := hfirst.newline
      have hadd : Offset.add t.line 1 = .ok (t.line + 1) := Offset.add_of_lt hline
      rw [separate, hadd]
      rfl
  | lineComment =>
      rw [newlines_of_first hfirst rfl]
      rfl
  | blockComment =>
      have hcount : { t with doc := none }.countLines front = _ := countLines_eq hline
      rw [separate, hcount]
      rfl
  | docComment =>
      have hcount :
          { t with
            doc := some (DocComment.plainText (Utf8.lossy front)) }.countLines front = _ :=
        countLines_eq hline
      rw [separate, hcount]
      rfl
  | _ => contradiction

theorem accept_eq (t : TokenStream) (span : Span) (reading : Except Complaint Token.Kind) :
    t.accept span reading =
      ((Token.ofReading span t.line reading).1,
        { t with
          tokenStart := span.start
          log := (Token.ofReading span t.line reading).2.foldl Log.push t.log }) := by
  cases reading <;> rfl

theorem handOut_eq {span : Span} {reading : Except Complaint Token.Kind}
    (hfirst : First category front text)
    (hmeaning : Token.meaning category front = some reading)
    (hline : t.line + newlines front < Offset.limit) :
    t.handOut category span front reading =
      .ok ((Token.ofReading span t.line reading).1,
        { t with
          tokenStart := span.start
          line := t.line + newlines front
          log := (Token.ofReading span t.line reading).2.foldl Log.push t.log }) := by
  rw [handOut, if_neg hfirst.category_ne_endOfText, accept_eq]
  by_cases hopen : category = .openComment
  · have hcount :
        { t with
          tokenStart := span.start
          log := (Token.ofReading span t.line reading).2.foldl Log.push t.log }.countLines front =
            _ :=
      countLines_eq hline
    rw [if_pos hopen]
    dsimp only
    rw [hcount]
    rfl
  · have hbreak : category.mayBreak = false := by
      cases category <;> first | rfl | contradiction
    rw [if_neg hopen, newlines_of_first hfirst hbreak]
    rfl

/-- The stream has passed one part of its text and faces the other, and has counted the lines. -/
structure Stands (t : TokenStream) (passed left : Bytes) : Prop where
  text_eq : t.source.bytes = passed ++ left
  position_eq : t.position = passed.length
  line_eq : t.line = 1 + newlines passed
  lines_lt : newlines (passed ++ left) + 1 < Offset.limit
  tokenStart_le : t.tokenStart ≤ t.position
  ended : t.exhausted = true → left = [] ∧ t.tokenStart = t.position

namespace Stands

variable {t : TokenStream} {passed left : Bytes} {p : Piece} {pieces : List Piece}
  {reading : Except Complaint Token.Kind}

theorem faces (h : t.Stands passed left) : (t.source.readerAt t.position).Faces left := by
  have hleft : t.source.bytes.drop t.position = left := by
    rw [h.text_eq, h.position_eq, List.drop_left]
  have hfaces := Reader.faces_readerAt t.source t.position
  rwa [hleft] at hfaces

theorem position_add (h : t.Stands passed left) :
    t.position + left.length = t.source.length := by
  rw [← Source.length_bytes, h.text_eq, h.position_eq, List.length_append]

theorem forgetDoc (h : t.Stands passed left) (doc : Option String) :
    { t with doc := doc }.Stands passed left :=
  ⟨h.text_eq, h.position_eq, h.line_eq, h.lines_lt, h.tokenStart_le, h.ended⟩

theorem line_lt (h : t.Stands passed (p.bytes ++ left)) :
    t.line + newlines p.bytes < Offset.limit := by
  have hlines := h.lines_lt
  rw [newlines_append, newlines_append] at hlines
  rw [h.line_eq]
  omega

theorem pass (h : t.Stands passed (p.bytes ++ left)) (hne : p.bytes ≠ []) :
    (t.pass p).Stands (passed ++ p.bytes) left := by
  constructor
  · exact h.text_eq.trans (List.append_assoc ..).symm
  · rw [TokenStream.pass, h.position_eq, List.length_append]
  · rw [TokenStream.pass, h.line_eq, newlines_append, Nat.add_assoc]
  · rw [List.append_assoc]
    exact h.lines_lt
  · exact Nat.le_trans h.tokenStart_le (Nat.le_add_right ..)
  · intro hexhausted
    exact absurd (List.append_eq_nil_iff.mp (h.ended hexhausted).1).1 hne

theorem emit (h : t.Stands passed (p.bytes ++ left)) (hne : p.bytes ≠ [])
    (reading : Except Complaint Token.Kind) :
    (t.emit p reading).Stands (passed ++ p.bytes) left := by
  have hpass := h.pass hne
  refine ⟨hpass.text_eq, hpass.position_eq, hpass.line_eq, hpass.lines_lt,
    Nat.le_add_right .., ?_⟩
  intro hexhausted
  exact absurd (List.append_eq_nil_iff.mp (h.ended hexhausted).1).1 hne

theorem finish (h : t.Stands passed []) : t.finish.Stands passed [] :=
  ⟨h.text_eq, h.position_eq, h.line_eq, h.lines_lt, Nat.le_refl _, fun _ => ⟨rfl, rfl⟩⟩

theorem finish_eq (h : t.Stands passed left) (hexhausted : t.exhausted = true) :
    t.finish = t := by
  obtain ⟨_, hstart⟩ := h.ended hexhausted
  rw [TokenStream.finish, ← hexhausted]
  exact congrArg (fun offset => { t with tokenStart := offset }) hstart.symm

/-! A step takes the first lexeme of what the stream faces. -/

theorem step_eq (h : t.Stands passed (p.bytes ++ left))
    (hfirst : First p.category p.bytes (p.bytes ++ left)) :
    t.step = { t with position := t.position + p.bytes.length }.take p.category
      (t.spanOf p.bytes) := by
  have hlength := h.position_add
  have hlimit := t.source.length_lt_limit
  rw [List.length_append] at hlength
  have hstop : Offset.add t.position p.bytes.length = .ok (t.position + p.bytes.length) :=
    Offset.add_of_lt (by omega)
  rw [step, h.faces.next_of_first hfirst, Fault.ok_bind]
  dsimp only
  rw [hstop]
  rfl

theorem textOf_spanOf (h : t.Stands passed (p.bytes ++ left)) :
    t.textOf (t.spanOf p.bytes) = p.bytes := by
  rw [textOf, spanOf, h.position_eq, Source.textBetween_eq, h.text_eq]
  exact Span.bytes_front passed p.bytes left

theorem step_of_none (h : t.Stands passed (p.bytes ++ left))
    (hfirst : First p.category p.bytes (p.bytes ++ left))
    (hmeaning : Token.meaning p.category p.bytes = none) :
    t.step = .ok (none, t.pass p) := by
  have htext : { t with position := t.position + p.bytes.length }.textOf (t.spanOf p.bytes) =
      p.bytes := h.textOf_spanOf
  have hseparate :
      { t with position := t.position + p.bytes.length }.separate p.category p.bytes = _ :=
    separate_eq hfirst hmeaning h.line_lt
  rw [h.step_eq hfirst, take, htext, hmeaning]
  dsimp only
  rw [hseparate]
  rfl

theorem step_of_some (h : t.Stands passed (p.bytes ++ left))
    (hfirst : First p.category p.bytes (p.bytes ++ left))
    (hmeaning : Token.meaning p.category p.bytes = some reading) :
    t.step = .ok (some (t.cooked p reading).1, t.emit p reading) := by
  have htext : { t with position := t.position + p.bytes.length }.textOf (t.spanOf p.bytes) =
      p.bytes := h.textOf_spanOf
  have hhand :
      { t with position := t.position + p.bytes.length }.handOut p.category (t.spanOf p.bytes)
        p.bytes reading = _ :=
    handOut_eq hfirst hmeaning h.line_lt
  rw [h.step_eq hfirst, take, htext, hmeaning]
  dsimp only
  rw [hhand, TokenStream.emit, TokenStream.pass, docAfter_of_some hmeaning]
  rfl

theorem step_of_nil (h : t.Stands passed []) :
    t.step = .ok (some t.endToken, t.finish) := by
  have hlimit := t.source.length_lt_limit
  have hposition := h.position_add
  rw [List.length_nil] at hposition
  have hstop : Offset.add t.position 0 = .ok t.position := Offset.add_of_lt (by omega)
  rw [step, h.faces.next_nil, Fault.ok_bind]
  dsimp only
  rw [hstop]
  rfl

end Stands

end TokenStream

end IdlLexis
