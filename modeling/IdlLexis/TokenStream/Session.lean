import IdlLexis.TokenStream
/-!
A session puts one request after another to the same stream. Drawing moves the stream on;
everything else looks at it, or takes the doc comment from it.
-/

namespace IdlLexis

namespace TokenStream

inductive Request
  /-- The next token, the end of the text included. -/
  | next
  /-- The next token, unless the text has ended. -/
  | nextInText
  /-- All tokens up to the end of the text. -/
  | rest
  | takeDoc
  | textOf (span : Span)
  | diagnostics
  | log
  deriving DecidableEq, Repr

inductive Response
  | token (token : Token)
  | tokenInText (token : Option Token)
  | tokens (tokens : List Token)
  | doc (text : Option String)
  | bytes (bytes : Bytes)
  | diagnostics (diagnostics : List Diagnostic)
  | log (log : Log)

/-- Whether a request draws tokens. -/
def Request.draws : Request → Bool
  | next | nextInText | rest => true
  | _ => false

def respond (t : TokenStream) : Request → Except Fault (Response × TokenStream)
  | .next => (fun (token, t) => (.token token, t)) <$> t.next
  | .nextInText =>
      (fun (token, t) => (.tokenInText (if token.isEnd then none else some token), t)) <$> t.next
  | .rest => (fun (tokens, t) => (.tokens tokens, t)) <$> t.tokens
  | .takeDoc => .ok (.doc t.takeDoc.1, t.takeDoc.2)
  | .textOf span => .ok (.bytes (t.textOf span), t)
  | .diagnostics => .ok (.diagnostics t.log.toList, t)
  | .log => .ok (.log t.log, t)

/-- The responses to a row of requests, and the stream after them. -/
def session (t : TokenStream) : List Request → Except Fault (List Response × TokenStream)
  | [] => .ok ([], t)
  | request :: rest => do
      let (response, t) ← t.respond request
      let (responses, t) ← t.session rest
      return (response :: responses, t)

theorem session_cons_eq_ok {t last : TokenStream} {request : Request} {rest : List Request}
    {responses : List Response} :
    t.session (request :: rest) = .ok (responses, last) ↔
      ∃ response after later, t.respond request = .ok (response, after) ∧
        after.session rest = .ok (later, last) ∧ responses = response :: later := by
  rw [session, Fault.bind_eq_ok]
  constructor
  · intro ⟨⟨response, after⟩, hrespond, h⟩
    obtain ⟨⟨later, final⟩, hsession, hret⟩ := Fault.bind_eq_ok.mp h
    cases hret
    exact ⟨response, after, later, hrespond, hsession, rfl⟩
  · intro ⟨response, after, later, hrespond, hsession, hresponses⟩
    refine ⟨(response, after), hrespond, ?_⟩
    exact Fault.bind_eq_ok.mpr ⟨(later, last), hsession, hresponses ▸ rfl⟩

/-- A request that draws nothing leaves the stream as it was, but for a doc comment that it may
take. -/
theorem respond_of_draws_eq_false (t : TokenStream) {request : Request}
    (hdraws : request.draws = false) :
    ∃ response doc, t.respond request = .ok (response, { t with doc := doc }) ∧
      (doc = none ∨ doc = t.doc) := by
  cases request with
  | next | nextInText | rest => contradiction
  | takeDoc => exact ⟨_, none, rfl, .inl rfl⟩
  | textOf span => exact ⟨_, t.doc, rfl, .inr rfl⟩
  | diagnostics => exact ⟨_, t.doc, rfl, .inr rfl⟩
  | log => exact ⟨_, t.doc, rfl, .inr rfl⟩

end TokenStream

end IdlLexis
