import IdlLexis.Proofs.TokenStream.Tiling
/-!
Looking at a stream does not disturb it. Whatever is asked of a stream between its draws, it draws
the tokens that it would have drawn if nothing else had been asked. Once it has drawn the end of its
text it draws nothing else, and stays as it is.
-/

namespace IdlLexis

open Lexeme (Cuts Piece)

namespace TokenStream

/-- A request, or a look at where the stream stands and whether it has reported errors. -/
inductive Call
  | ask (request : Request)
  | line
  | position
  | tokenStart
  | failed
  deriving DecidableEq, Repr

inductive Answer
  | response (response : Response)
  | number (value : Nat)
  | flag (value : Bool)

/-- The tokens that an answer hands out. -/
def Answer.handed : Answer → List Token
  | Answer.response given => given.handed
  | _ => []

def Call.draws : Call → Bool
  | ask request => request.draws
  | _ => false

def call (t : TokenStream) : Call → Except Fault (Answer × TokenStream)
  | .ask request => (fun (response, t) => (.response response, t)) <$> t.respond request
  | .line => .ok (.number t.line, t)
  | .position => .ok (.number t.position, t)
  | .tokenStart => .ok (.number t.tokenStart, t)
  | .failed => .ok (.flag t.failed, t)

/-- The answers to a row of calls, and the stream after them. -/
def callAll (t : TokenStream) : List Call → Except Fault (List Answer × TokenStream)
  | [] => .ok ([], t)
  | c :: rest => do
      let (answer, t) ← t.call c
      let (answers, t) ← t.callAll rest
      return (answer :: answers, t)

/-- The tokens that come next, the end of the text included as often as it comes. -/
def nextTimes (t : TokenStream) : Nat → Except Fault (List Token × TokenStream)
  | 0 => .ok ([], t)
  | count + 1 => do
      let (token, t) ← t.next
      let (rest, last) ← t.nextTimes count
      return (token :: rest, last)

/-- The answers hand out the drawn tokens, each draw the next one. -/
inductive HandsOut : List Token → List Call → List Answer → Prop
  | nil : HandsOut [] [] []
  | next {token : Token} {drawn : List Token} {calls : List Call} {answers : List Answer}
      (hrest : HandsOut drawn calls answers) :
      HandsOut (token :: drawn) (.ask .next :: calls) (.response (.token token) :: answers)
  | inText {token : Token} {drawn : List Token} {calls : List Call} {answers : List Answer}
      (hgoes : token.isEnd = false) (hrest : HandsOut drawn calls answers) :
      HandsOut (token :: drawn) (.ask .nextInText :: calls)
        (.response (.tokenInText (some token)) :: answers)
  | atEnd {token : Token} {drawn : List Token} {calls : List Call} {answers : List Answer}
      (hend : token.isEnd = true) (hrest : HandsOut drawn calls answers) :
      HandsOut (token :: drawn) (.ask .nextInText :: calls)
        (.response (.tokenInText none) :: answers)
  | rest {tokens : List Token} {token : Token} {drawn : List Token} {calls : List Call}
      {answers : List Answer} (hgo : ∀ t ∈ tokens, t.isEnd = false) (hend : token.isEnd = true)
      (hrest : HandsOut drawn calls answers) :
      HandsOut (tokens ++ token :: drawn) (.ask .rest :: calls)
        (.response (.tokens tokens) :: answers)
  | observe {c : Call} {answer : Answer} {drawn : List Token} {calls : List Call}
      {answers : List Answer} (hdraws : c.draws = false) (hsilent : answer.handed = [])
      (hrest : HandsOut drawn calls answers) : HandsOut drawn (c :: calls) (answer :: answers)

/-- The streams differ in nothing but the doc comments that they keep. -/
def Alike (t u : TokenStream) : Prop := { t with doc := none } = { u with doc := none }

variable {t t' u u' last : TokenStream} {text : Bytes} {pieces : List Piece} {token : Token}
  {drawn more : List Token} {count : Nat} {calls : List Call} {answers : List Answer}

theorem Alike.refl (t : TokenStream) : Alike t t := rfl

theorem Alike.symm (h : Alike t u) : Alike u t := Eq.symm h

theorem Alike.trans {v : TokenStream} (h : Alike t u) (h' : Alike u v) : Alike t v := Eq.trans h h'

theorem Alike.exhausted_eq (h : Alike t u) : t.exhausted = u.exhausted := by
  have hsame : { t with doc := none } = { u with doc := none } := h
  have hexhausted := congrArg TokenStream.exhausted hsame
  exact hexhausted

/-- A draw drops the doc comment that the stream keeps. -/
theorem Alike.next_eq (h : Alike t u) : t.next = u.next := by
  have hsame : { t with doc := none } = { u with doc := none } := h
  have hnext := congrArg TokenStream.next hsame
  exact hnext

/-! One draw after another. -/

theorem nextTimes_succ (h : t.next = .ok (token, t')) (count : Nat) :
    t.nextTimes (count + 1) =
      (fun (rest, last) => (token :: rest, last)) <$> t'.nextTimes count := by
  rw [nextTimes, h, Fault.ok_bind]
  dsimp only
  cases t'.nextTimes count with
  | error fault => rfl
  | ok found => rfl

theorem Alike.nextTimes_eq (h : Alike t u) (count : Nat) :
    t.nextTimes (count + 1) = u.nextTimes (count + 1) := by
  rw [nextTimes, nextTimes, h.next_eq]

theorem nextTimes_append (hfront : t.nextTimes drawn.length = .ok (drawn, t'))
    (hback : t'.nextTimes count = .ok (more, last)) :
    t.nextTimes (drawn.length + count) = .ok (drawn ++ more, last) := by
  induction drawn generalizing t with
  | nil =>
      cases hfront
      rw [List.length_nil, Nat.zero_add]
      exact hback
  | cons token drawn ih =>
      obtain ⟨⟨first, after⟩, hnext, h⟩ := Fault.bind_eq_ok.mp hfront
      obtain ⟨⟨later, final⟩, hlater, hret⟩ := Fault.bind_eq_ok.mp h
      cases hret
      rw [List.length_cons, Nat.add_right_comm, nextTimes_succ hnext, ih hlater]
      rfl

theorem callAll_cons {c : Call} {answer : Answer} (hcall : t.call c = .ok (answer, t'))
    (hrest : t'.callAll calls = .ok (answers, last)) :
    t.callAll (c :: calls) = .ok (answer :: answers, last) := by
  rw [callAll, hcall, Fault.ok_bind]
  dsimp only
  rw [hrest]
  rfl

/-! Drawing until the text ends. -/

theorem Faces.tokens_nextTimes (h : t.Faces text pieces) :
    ∃ tokens token last rest, t.tokens = .ok (tokens, last) ∧
      (∀ earlier ∈ tokens, earlier.isEnd = false) ∧ token.isEnd = true ∧
      t.nextTimes (tokens ++ [token]).length = .ok (tokens ++ [token], last) ∧
      last.Faces text rest := by
  induction hlength : pieces.length using Nat.strongRecOn generalizing t pieces with
  | ind length ih =>
      obtain ⟨token, t', rest, hnext, hdraws, hfaces⟩ := h.next
      rcases hdraws.cookAll h.category_ne_endOfText with
        ⟨hend, _, _, _⟩ | ⟨_, hgoes, _, _, hshorter⟩
      · exact ⟨[], token, t', rest, tokens_of_end hnext hend, by simp, hend,
          nextTimes_succ hnext 0, hfaces⟩
      · obtain ⟨tokens, final, last, left, htokens, hgo, hend, htimes, hlast⟩ :=
          ih rest.length (by omega) hfaces rfl
        refine ⟨token :: tokens, final, last, left, ?_, List.forall_mem_cons.mpr ⟨hgoes, hgo⟩,
          hend, ?_, hlast⟩
        · rw [tokens_of_next hnext hgoes, htokens]
          rfl
        · rw [List.cons_append, List.length_cons, nextTimes_succ hnext, htimes]
          rfl

/-! A call on one of two streams that are alike, and the draws that it takes from the other. -/

theorem call_of_draws_eq_false (t : TokenStream) {c : Call} (hdraws : c.draws = false) :
    ∃ answer doc, t.call c = .ok (answer, { t with doc := doc }) ∧ answer.handed = [] := by
  cases c with
  | ask request =>
      cases request with
      | next | nextInText | rest => contradiction
      | takeDoc => exact ⟨_, none, rfl, rfl⟩
      | textOf span => exact ⟨_, t.doc, rfl, rfl⟩
      | diagnostics => exact ⟨_, t.doc, rfl, rfl⟩
      | log => exact ⟨_, t.doc, rfl, rfl⟩
  | line => exact ⟨_, t.doc, rfl, rfl⟩
  | position => exact ⟨_, t.doc, rfl, rfl⟩
  | tokenStart => exact ⟨_, t.doc, rfl, rfl⟩
  | failed => exact ⟨_, t.doc, rfl, rfl⟩

theorem Alike.call (halike : Alike t u) (h : t.Faces text pieces) (c : Call) :
    ∃ answer t' drawn u' rest, t.call c = .ok (answer, t') ∧
      u.nextTimes drawn.length = .ok (drawn, u') ∧ Alike t' u' ∧ t'.Faces text rest ∧
      ∀ {more calls answers}, HandsOut more calls answers →
        HandsOut (drawn ++ more) (c :: calls) (answer :: answers) := by
  cases hdraws : c.draws with
  | false =>
      obtain ⟨answer, doc, hcall, hsilent⟩ := call_of_draws_eq_false t hdraws
      exact ⟨answer, { t with doc := doc }, [], u, pieces, hcall, rfl, halike, h.forgetDoc doc,
        .observe hdraws hsilent⟩
  | true =>
      cases c with
      | line | position | tokenStart | failed => contradiction
      | ask request =>
          cases request with
          | takeDoc | textOf | diagnostics | log => contradiction
          | next =>
              obtain ⟨token, t', rest, hnext, _, hfaces⟩ := h.next
              refine ⟨.response (.token token), t', [token], t', rest, ?_,
                nextTimes_succ (halike.next_eq ▸ hnext) 0, .refl t', hfaces, .next⟩
              rw [TokenStream.call, respond, hnext]
              rfl
          | nextInText =>
              obtain ⟨token, t', rest, hnext, _, hfaces⟩ := h.next
              refine ⟨.response (.tokenInText (if token.isEnd then none else some token)), t',
                [token], t', rest, ?_, nextTimes_succ (halike.next_eq ▸ hnext) 0, .refl t',
                hfaces, ?_⟩
              · rw [TokenStream.call, respond, hnext]
                rfl
              · intro more calls answers hrest
                cases hend : token.isEnd with
                | true => exact .atEnd hend hrest
                | false => exact .inText hend hrest
          | rest =>
              obtain ⟨tokens, token, last, rest, htokens, hgo, hend, htimes, hfaces⟩ :=
                h.tokens_nextTimes
              refine ⟨.response (.tokens tokens), last, tokens ++ [token], last, rest, ?_, ?_,
                .refl last, hfaces, ?_⟩
              · rw [TokenStream.call, respond, htokens]
                rfl
              · rw [List.length_append, List.length_singleton] at htimes ⊢
                rw [← halike.nextTimes_eq, htimes]
              · intro more calls answers hrest
                rw [List.append_assoc]
                exact .rest hgo hend hrest

theorem Alike.callAll (halike : Alike t u) (h : t.Faces text pieces) (calls : List Call) :
    ∃ answers t' drawn u' rest, t.callAll calls = .ok (answers, t') ∧
      u.nextTimes drawn.length = .ok (drawn, u') ∧ HandsOut drawn calls answers ∧ Alike t' u' ∧
      t'.Faces text rest := by
  induction calls generalizing t u pieces with
  | nil => exact ⟨[], t, [], u, pieces, rfl, rfl, .nil, halike, h⟩
  | cons c calls ih =>
      obtain ⟨answer, t', drawn, u', rest, hcall, htimes, halike', hfaces, hhands⟩ :=
        halike.call h c
      obtain ⟨answers, t'', more, u'', left, hcalls, hmore, hlater, halike'', hfaces'⟩ :=
        ih halike' hfaces
      refine ⟨answer :: answers, t'', drawn ++ more, u'', left, callAll_cons hcall hcalls, ?_,
        hhands hlater, halike'', hfaces'⟩
      rw [List.length_append]
      exact nextTimes_append htimes hmore

/-! At the end of its text a stream stays where it is. -/

theorem Faces.exhausted_of_end (h : t.Faces text pieces) (hnext : t.next = .ok (token, t'))
    (hend : token.isEnd = true) : t'.exhausted = true := by
  obtain ⟨_, _, _, hdrawn, hdraws, _⟩ := h.next
  cases hnext.symm.trans hdrawn
  exact (hdraws.of_isEnd h.category_ne_endOfText hend).1

theorem nextTimes_of_exhausted (h : t.Faces text []) (hexhausted : t.exhausted = true)
    (count : Nat) :
    ∃ last, t.nextTimes count = .ok (List.replicate count (endOf text), last) ∧ Alike t last := by
  induction count generalizing t with
  | zero => exact ⟨t, rfl, .refl t⟩
  | succ count ih =>
      have hnext := next_of_exhausted hexhausted
      rw [h.endToken_eq] at hnext
      obtain ⟨last, htimes, halike⟩ := ih (h.forgetDoc none) hexhausted
      refine ⟨last, ?_, halike⟩
      rw [nextTimes_succ hnext, htimes]
      rfl

theorem Faces.eq_nil_of_exhausted (h : t.Faces text pieces) (hexhausted : t.exhausted = true) :
    pieces = [] := by
  obtain ⟨passed, left, hstands, hcuts, _⟩ := h
  obtain rfl := (hstands.ended hexhausted).1
  exact hcuts.unique .nil

theorem exhausted_of_nextTimes (h : t.Faces text pieces)
    (htimes : t.nextTimes count = .ok (drawn, last))
    (hend : ∃ token ∈ drawn, token.isEnd = true) : last.exhausted = true := by
  induction count generalizing t pieces drawn with
  | zero =>
      cases htimes
      obtain ⟨token, hmem, _⟩ := hend
      cases hmem
  | succ count ih =>
      obtain ⟨token, t', rest, hnext, _, hfaces⟩ := h.next
      rw [nextTimes_succ hnext] at htimes
      obtain ⟨⟨later, stream⟩, hlater, hpair⟩ := Fault.map_eq_ok.mp htimes
      cases hpair
      obtain ⟨final, hmem, hend⟩ := hend
      rcases List.mem_cons.mp hmem with rfl | hmore
      · have hexhausted := h.exhausted_of_end hnext hend
        obtain rfl := hfaces.eq_nil_of_exhausted hexhausted
        obtain ⟨stays, hstays, halike⟩ := nextTimes_of_exhausted hfaces hexhausted count
        cases hlater.symm.trans hstays
        exact halike.exhausted_eq ▸ hexhausted
      · exact ih hfaces hlater ⟨final, hmore, hend⟩

/-- The stream stays at the end of its text, where a new look finds the end again. -/
structure Ended (text : Bytes) (t : TokenStream) : Prop where
  position_eq : t.position = text.length
  tokenStart_eq : t.tokenStart = text.length
  line_eq : t.line = 1 + newlines text
  next_eq : t.next = .ok (endOf text, { t with doc := none })
  look_eq : { t with exhausted := false }.next = t.next

theorem Faces.ended (h : t.Faces text pieces) (hexhausted : t.exhausted = true) : t.Ended text := by
  obtain rfl := h.eq_nil_of_exhausted hexhausted
  have hposition := h.position_of_nil
  have hnext := next_of_exhausted hexhausted
  obtain ⟨passed, left, hstands, hcuts, rfl⟩ := id h
  obtain ⟨rfl, hstart⟩ := hstands.ended hexhausted
  refine ⟨hposition, hstart.trans hposition, ?_, h.endToken_eq ▸ hnext, ?_⟩
  · rw [hstands.line_eq, List.append_nil]
  · have hlook : { t with exhausted := false, doc := none }.Stands passed [] :=
      ⟨hstands.text_eq, hstands.position_eq, hstands.line_eq, hstands.lines_lt,
        hstands.tokenStart_le, fun hfalse => absurd hfalse Bool.false_ne_true⟩
    have hforget : { t with doc := none }.finish = { t with doc := none } :=
      (hstands.forgetDoc none).finish_eq hexhausted
    rw [next_of_ready rfl, draw_of_some hlook.step_of_nil, hnext]
    exact congrArg (fun after => Except.ok (t.endToken, after)) hforget

/-- However draws and looks alternate, the stream hands out the tokens that it draws when nothing
else is asked, and is then the same stream. Once the end of the text is among them, each draw is
the end of the text, and nothing of the stream changes but the doc comment that it keeps. -/
theorem callAll_observed (htext : text.length + 1 < Offset.limit) (calls : List Call) :
    ∃ answers t drawn u, (ofBytes text).callAll calls = .ok (answers, t) ∧
      (ofBytes text).nextTimes drawn.length = .ok (drawn, u) ∧ HandsOut drawn calls answers ∧
      Alike t u ∧
      ((∃ token ∈ drawn, token.isEnd = true) → Ended text t ∧
        ∀ more, ∃ later last count, t.callAll more = .ok (later, last) ∧
          HandsOut (List.replicate count (endOf text)) more later ∧ Alike t last) := by
  obtain ⟨pieces, hcuts⟩ := @exists_cuts text (by omega)
  have hfaces := faces_ofBytes_of_lt htext hcuts
  obtain ⟨answers, t, drawn, u, rest, hcalls, htimes, hhands, halike, hlast⟩ :=
    (Alike.refl (ofBytes text)).callAll hfaces calls
  refine ⟨answers, t, drawn, u, hcalls, htimes, hhands, halike, ?_⟩
  intro hend
  have hexhausted : t.exhausted = true :=
    halike.exhausted_eq.trans (exhausted_of_nextTimes hfaces htimes hend)
  refine ⟨hlast.ended hexhausted, ?_⟩
  intro more
  obtain rfl := hlast.eq_nil_of_exhausted hexhausted
  obtain ⟨later, last, drawn', u', _, hmore, htimes', hhands', halike', _⟩ :=
    (Alike.refl t).callAll hlast more
  obtain ⟨stays, hstays, hsame⟩ := nextTimes_of_exhausted hlast hexhausted drawn'.length
  obtain ⟨hdrawn, rfl⟩ := Prod.mk.inj (Except.ok.inj (htimes'.symm.trans hstays))
  rw [hdrawn] at hhands'
  exact ⟨later, last, _, hmore, hhands', hsame.trans halike'.symm⟩

/-- A word, an open comment of two lines, and the end of the text drawn in four ways. -/
theorem callAll_observed_open_comment :
    let text : Bytes := [0x61, 0x20, 0x2f, 0x2a, 0x2a, 0x2f, 0x2f, 0x2a, 0x0a]
    let calls : List Call := [.ask .takeDoc, .ask .nextInText, .line, .ask .next, .ask .takeDoc,
      .ask (.textOf ⟨7, 40⟩), .ask .diagnostics, .tokenStart, .ask .nextInText, .position,
      .ask .log, .failed, .ask .next, .ask .rest]
    text.length + 1 < Offset.limit ∧
      ∃ answers t drawn u, (ofBytes text).callAll calls = .ok (answers, t) ∧
        (ofBytes text).nextTimes drawn.length = .ok (drawn, u) ∧
        HandsOut drawn calls answers ∧ Alike t u ∧
        ((∃ token ∈ drawn, token.isEnd = true) → Ended text t ∧
          ∀ more, ∃ later last count, t.callAll more = .ok (later, last) ∧
            HandsOut (List.replicate count (endOf text)) more later ∧ Alike t last) :=
  ⟨by decide, callAll_observed (by decide) _⟩

end TokenStream

end IdlLexis
