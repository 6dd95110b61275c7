import IdlLexis.Diagnostic.Log
import IdlLexis.Lexeme.Sequence
import IdlLexis.Token.Meaning
/-!
The tokens of a text, drawn one at a time. Each draw starts where the last one stopped, passes
over what only separates tokens, and ends at the next token or at the end of the text, where it
stays. On the way it counts lines, keeps the doc comment that comes last before the token, and
logs each error as it hands out an error token.
-/

namespace IdlLexis

structure TokenStream where
  source : Source
  /-- The offset of the next byte to be read. -/
  position : Nat
  /-- Where the last token starts. -/
  tokenStart : Nat
  /-- The line of `position`, counted from 1. -/
  line : Nat
  exhausted : Bool
  log : Log
  doc : Option String

namespace TokenStream

def ofBytes (text : Bytes) : TokenStream :=
  { source := Source.ofBytes text
    position := 0
    tokenStart := 0
    line := 1
    exhausted := false
    log := Log.empty
    doc := none }

def newlines (text : Bytes) : Nat := text.count Byte.lineFeed

def textOf (t : TokenStream) (span : Span) : Bytes := t.source.textBetween span.start span.stop

def failed (t : TokenStream) : Bool := t.log.hasErrors

def takeDoc (t : TokenStream) : Option String × TokenStream := (t.doc, { t with doc := none })

def endToken (t : TokenStream) : Token := ⟨.endOfText, .point t.source.length, t.line⟩

def countLines (t : TokenStream) (text : Bytes) : Except Fault TokenStream := do
  let line ← Offset.add t.line (newlines text)
  return { t with line }

/-- Passes a lexeme that only separates tokens. -/
def separate (t : TokenStream) (category : Lexeme.Category) (text : Bytes) :
    Except Fault TokenStream :=
  match category with
  | .newline => do
      let line ← Offset.add t.line 1
      return { t with line }
  | .lineComment => .ok { t with doc := none }
  | .blockComment => { t with doc := none }.countLines text
  | .docComment => { t with doc := some (DocComment.plainText (Utf8.lossy text)) }.countLines text
  | _ => .ok t

/-- The kind of a token; for a complaint it is an error, and the complaint is logged. -/
def accept (t : TokenStream) (span : Span) : Except Complaint Token.Kind → Token × TokenStream
  | .ok kind => (⟨kind, span, t.line⟩, { t with tokenStart := span.start })
  | .error complaint =>
      (⟨.error, span, t.line⟩,
        { t with
          tokenStart := span.start
          log := t.log.report complaint.code t.line span.start complaint.message })

/-- Hands out a lexeme that is more than a separator. The token of an open comment stands on
the line on which the comment begins. -/
def handOut (t : TokenStream) (category : Lexeme.Category) (span : Span) (text : Bytes)
    (reading : Except Complaint Token.Kind) : Except Fault (Token × TokenStream) :=
  if category = .endOfText then
    .ok (t.endToken, { t with tokenStart := span.start, exhausted := true })
  else if category = .openComment then
    (fun after => ((t.accept span reading).1, after)) <$> (t.accept span reading).2.countLines text
  else .ok (t.accept span reading)

/-- Takes in a lexeme, which may be a token. -/
def take (t : TokenStream) (category : Lexeme.Category) (span : Span) :
    Except Fault (Option Token × TokenStream) :=
  match Token.meaning category (t.textOf span) with
  | none => (fun after => (none, after)) <$> t.separate category (t.textOf span)
  | some reading =>
      (fun (token, after) => (some token, after)) <$>
        t.handOut category span (t.textOf span) reading

def step (t : TokenStream) : Except Fault (Option Token × TokenStream) := do
  let (x, _) ← (t.source.readerAt t.position).next
  let stop ← Offset.add t.position x.length
  { t with position := stop }.take x.category ⟨t.position, stop⟩

theorem position_of_countLines {t t' : TokenStream} {text : Bytes}
    (h : t.countLines text = .ok t') : t'.position = t.position := by
  obtain ⟨line, _, hret⟩ := Fault.bind_eq_ok.mp h
  cases hret
  rfl

theorem position_of_separate {t t' : TokenStream} {category : Lexeme.Category} {text : Bytes}
    (h : t.separate category text = .ok t') : t'.position = t.position := by
  unfold separate at h
  split at h
  · obtain ⟨line, _, hret⟩ := Fault.bind_eq_ok.mp h
    cases hret
    rfl
  · cases h
    rfl
  · rw [position_of_countLines h]
  · rw [position_of_countLines h]
  · cases h
    rfl

theorem position_of_accept (t : TokenStream) (span : Span)
    (reading : Except Complaint Token.Kind) :
    (t.accept span reading).2.position = t.position := by
  cases reading <;> rfl

theorem position_of_handOut {t t' : TokenStream} {category : Lexeme.Category} {span : Span}
    {text : Bytes} {reading : Except Complaint Token.Kind} {token : Token}
    (h : t.handOut category span text reading = .ok (token, t')) :
    t'.position = t.position := by
  unfold handOut at h
  split at h
  · cases h
    rfl
  · split at h
    · obtain ⟨after, hcount, hpair⟩ := Fault.map_eq_ok.mp h
      cases hpair
      rw [position_of_countLines hcount, position_of_accept]
    · have hposition := position_of_accept t span reading
      rw [Except.ok.inj h] at hposition
      exact hposition

theorem position_of_take {t t' : TokenStream} {category : Lexeme.Category} {span : Span}
    {drawn : Option Token} (h : t.take category span = .ok (drawn, t')) :
    t'.position = t.position := by
  unfold take at h
  split at h
  · obtain ⟨after, hseparate, hpair⟩ := Fault.map_eq_ok.mp h
    cases hpair
    exact position_of_separate hseparate
  · obtain ⟨⟨token, after⟩, hhand, hpair⟩ := Fault.map_eq_ok.mp h
    cases hpair
    exact position_of_handOut hhand

theorem take_end (t : TokenStream) (span : Span) :
    t.take .endOfText span =
      .ok (some t.endToken, { t with tokenStart := span.start, exhausted := true }) := rfl

/-! A step moves the position on, unless it comes to the end of the text. -/

theorem position_lt_of_step {t t' : TokenStream} {drawn : Option Token}
    (h : t.step = .ok (drawn, t')) (hgoes : ∀ token, drawn = some token → token.isEnd = false) :
    t.position < t'.position ∧ t'.position < Offset.limit := by
  obtain ⟨⟨x, r⟩, hnext, h⟩ := Fault.bind_eq_ok.mp h
  obtain ⟨stop, hstop, h⟩ := Fault.bind_eq_ok.mp h
  obtain ⟨hsum, hlimit⟩ := Offset.add_eq_ok hstop
  by_cases hx : x.category = .endOfText
  · rw [hx, take_end] at h
    cases h
    cases hgoes _ rfl
  · have hpass := (Reader.next_passes hnext hx).offset_lt
    have hlength := (Reader.classify_of_next hnext).2
    have hposition : t'.position = stop := position_of_take h
    omega

/-- Steps until there is a token. -/
def draw (t : TokenStream) : Except Fault (Token × TokenStream) :=
  match hstep : t.step with
  | .error fault => .error fault
  | .ok (some token, t') => .ok (token, t')
  | .ok (none, t') =>
      have := position_lt_of_step hstep (fun _ hnone => nomatch hnone)
      t'.draw
termination_by Offset.limit - t.position

/-- The next token. After the end of the text it is the end of the text again. -/
def next (t : TokenStream) : Except Fault (Token × TokenStream) :=
  let t := { t with doc := none }
  if t.exhausted then .ok (t.endToken, t) else t.draw

theorem position_lt_of_draw {t t' : TokenStream} {token : Token}
    (h : t.draw = .ok (token, t')) (hend : token.isEnd = false) :
    t.position < t'.position ∧ t'.position < Offset.limit := by
  fun_induction draw t with
  | case1 => contradiction
  | case2 t drawn after hstep =>
      cases h
      refine position_lt_of_step hstep ?_
      intro other heq
      cases heq
      exact hend
  | case3 t after hstep hmoved ih =>
      have hafter := ih h
      omega

theorem position_lt_of_next {t t' : TokenStream} {token : Token}
    (h : t.next = .ok (token, t')) (hend : token.isEnd = false) :
    t.position < t'.position ∧ t'.position < Offset.limit := by
  unfold next at h
  dsimp only at h
  split at h
  · cases h
    cases hend
  · have hmoved := position_lt_of_draw h hend
    exact hmoved

/-- The tokens up to the end of the text, and the stream there. -/
def tokens (t : TokenStream) : Except Fault (List Token × TokenStream) :=
  match hnext : t.next with
  | .error fault => .error fault
  | .ok (token, t') =>
      if hend : token.isEnd = true then .ok ([], t')
      else
        have := position_lt_of_next hnext (Bool.eq_false_iff.mpr hend)
        match t'.tokens with
        | .error fault => .error fault
        | .ok (rest, last) => .ok (token :: rest, last)
termination_by Offset.limit - t.position

end TokenStream

/-- The tokens of a text, and the diagnostics of its errors. -/
def readTokens (text : Bytes) : Except Fault (List Token × List Diagnostic) := do
  let (tokens, last) ← (TokenStream.ofBytes text).tokens
  return (tokens, last.log.toList)

end IdlLexis
