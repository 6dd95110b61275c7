import IdlLexis.Proofs.TokenStream.Drawing
/-!
What a stream has delivered. Whatever is asked of a stream, the tokens that it hands out are the
next ones that the pieces before it cook to, the diagnostics of these tokens go to the log, and
after the last of them nothing comes but the end of the text.
-/

namespace IdlLexis

open Lexeme (Cuts Piece)

namespace TokenStream

/-- The tokens that a response hands out. -/
def Response.handed : Response → List Token
  | Response.token drawn => [drawn]
  | tokenInText drawn => drawn.toList
  | tokens drawn => drawn
  | _ => []

/-- The token at the end of a text. -/
def endOf (text : Bytes) : Token := ⟨.endOfText, .point text.length, 1 + newlines text⟩

/-- Cooked tokens, and then the end of the text some number of times. -/
def delivered (text : Bytes) (cooked : List (Token × List Diagnostic)) (ends : Nat) :
    List Token :=
  cooked.map Prod.fst ++ List.replicate ends (endOf text)

/-- On its way to `t'` the stream delivers what it passes, and the end of the text only where
nothing is left. -/
structure Delivers (t : TokenStream) (text : Bytes) (pieces : List Piece)
    (cooked : List (Token × List Diagnostic)) (ends : Nat) (t' : TokenStream)
    (rest : List Piece) : Prop where
  faces : t'.Faces text rest
  suffix : rest <:+ pieces
  cooked_eq : cookAll t.position t.line pieces = cooked ++ cookAll t'.position t'.line rest
  log_eq : t'.log.toList = t.log.toList ++ cooked.flatMap Prod.snd
  ended : ends = 0 ∨ rest = []

variable {t t' t'' : TokenStream} {text : Bytes} {pieces rest left : List Piece} {token : Token}
  {cooked more : List (Token × List Diagnostic)} {ends moreEnds : Nat}

theorem delivered_append (h : ends = 0 ∨ more = []) :
    delivered text cooked ends ++ delivered text more moreEnds =
      delivered text (cooked ++ more) (ends + moreEnds) := by
  rw [delivered, delivered, delivered, List.map_append]
  rcases h with rfl | rfl
  · rw [List.replicate_zero, List.append_nil, Nat.zero_add, List.append_assoc]
  · rw [List.map_nil, List.nil_append, List.append_nil, List.append_assoc,
      List.replicate_append_replicate]

namespace Delivers

theorem silent (h : t.Faces text pieces) (doc : Option String) :
    t.Delivers text pieces [] 0 { t with doc := doc } pieces :=
  ⟨h.forgetDoc doc, List.suffix_refl pieces, rfl, (List.append_nil _).symm, .inl rfl⟩

theorem refl (h : t.Faces text pieces) : t.Delivers text pieces [] 0 t pieces := silent h t.doc

/-- Past the end of the text nothing more is cooked. -/
theorem nothing_after_end (h : t.Delivers text pieces cooked ends t' rest)
    (h' : t'.Delivers text rest more moreEnds t'' left) : ends = 0 ∨ more = [] := by
  rcases h.ended with hzero | rfl
  · exact .inl hzero
  · exact .inr (List.append_eq_nil_iff.mp h'.cooked_eq.symm).1

theorem trans (h : t.Delivers text pieces cooked ends t' rest)
    (h' : t'.Delivers text rest more moreEnds t'' left) :
    t.Delivers text pieces (cooked ++ more) (ends + moreEnds) t'' left := by
  refine ⟨h'.faces, h'.suffix.trans h.suffix, ?_, ?_, ?_⟩
  · rw [h.cooked_eq, h'.cooked_eq, List.append_assoc]
  · rw [h'.log_eq, h.log_eq, List.flatMap_append, List.append_assoc]
  · rcases h.ended with rfl | rfl
    · rw [Nat.zero_add]
      exact h'.ended
    · exact .inr (List.suffix_nil.mp h'.suffix)

end Delivers

/-! A draw delivers the next token, or the end of the text. -/

theorem Faces.endToken_eq (h : t.Faces text []) : t.endToken = endOf text := by
  obtain ⟨passed, left, hstands, hcuts, rfl⟩ := h
  obtain rfl : left = [] := hcuts.flatMap_bytes.symm
  have hlength : t.source.length = passed.length := by
    rw [← hstands.position_add, hstands.position_eq, List.length_nil, Nat.add_zero]
  rw [endToken, endOf, hstands.line_eq, hlength, List.append_nil]

theorem Draws.suffix (h : t.Draws pieces token t' rest) : rest <:+ pieces := by
  cases h with
  | finish _ => exact List.nil_suffix
  | @emit gap rest p _ _ _ => exact (List.suffix_cons p rest).trans (List.suffix_append gap _)

theorem Draws.of_isEnd (h : t.Draws pieces token t' rest)
    (hcategory : ∀ p ∈ pieces, p.category ≠ .endOfText) (hend : token.isEnd = true) :
    t'.exhausted = true ∧ token = t'.endToken ∧ rest = [] := by
  cases h with
  | finish _ => exact ⟨rfl, rfl, rfl⟩
  | @emit gap _ p reading _ hmeaning =>
      have hgoes := Token.isEnd_ofReading (hcategory p (by simp)) hmeaning
        ((t.passAll gap).spanOf p.bytes) (t.passAll gap).line
      exact absurd (hgoes.symm.trans hend) Bool.false_ne_true

theorem Draws.stop_eq (h : t.Draws pieces token t' rest) (hgoes : token.isEnd = false) :
    token.span.stop = t'.position := by
  cases h with
  | finish _ => contradiction
  | @emit gap _ p reading _ _ =>
      rw [cooked, Token.span_ofReading]
      rfl

theorem Faces.next_delivers (h : t.Faces text pieces) :
    ∃ token t' rest, t.next = .ok (token, t') ∧
      ((token = endOf text ∧ t.Delivers text pieces [] 1 t' rest) ∨
        ∃ diagnostics, token.isEnd = false ∧ token.span.stop = t'.position ∧
          t.Delivers text pieces [(token, diagnostics)] 0 t' rest) := by
  obtain ⟨token, t', rest, hnext, hdraws, hfaces⟩ := h.next
  refine ⟨token, t', rest, hnext, ?_⟩
  rcases hdraws.cookAll h.category_ne_endOfText with
    ⟨hend, hcooked, hlog, hrest⟩ | ⟨diagnostics, hgoes, hcooked, hlog, _⟩
  · obtain ⟨_, htoken, _⟩ := hdraws.of_isEnd h.category_ne_endOfText hend
    subst hrest
    refine .inl ⟨htoken.trans hfaces.endToken_eq, hfaces, hdraws.suffix, hcooked, ?_, .inr rfl⟩
    rw [hlog, List.flatMap_nil, List.append_nil]
  · refine .inr ⟨diagnostics, hgoes, hdraws.stop_eq hgoes, hfaces, hdraws.suffix, hcooked, ?_,
      .inl rfl⟩
    rw [hlog, List.flatMap_cons, List.flatMap_nil, List.append_nil]

/-! What a request delivers, and from it what a session does. -/

theorem Faces.respond_delivers (h : t.Faces text pieces) (request : Request) :
    ∃ response t' rest cooked ends, t.respond request = .ok (response, t') ∧
      response.handed = delivered text cooked ends ∧
      t.Delivers text pieces cooked ends t' rest := by
  cases request with
  | next =>
      obtain ⟨token, t', rest, hnext, hcase⟩ := h.next_delivers
      have hrespond : t.respond .next = .ok (.token token, t') := by
        rw [respond, hnext]
        rfl
      rcases hcase with ⟨rfl, hdelivers⟩ | ⟨diagnostics, _, _, hdelivers⟩
      · exact ⟨_, t', rest, _, _, hrespond, rfl, hdelivers⟩
      · exact ⟨_, t', rest, _, _, hrespond, rfl, hdelivers⟩
  | nextInText =>
      obtain ⟨token, t', rest, hnext, hcase⟩ := h.next_delivers
      have hrespond : t.respond .nextInText =
          .ok (.tokenInText (if token.isEnd then none else some token), t') := by
        rw [respond, hnext]
        rfl
      rcases hcase with ⟨rfl, hdelivers⟩ | ⟨diagnostics, hgoes, _, hdelivers⟩
      · exact ⟨_, t', rest, [], 0, hrespond, rfl, hdelivers.faces, hdelivers.suffix,
          hdelivers.cooked_eq, hdelivers.log_eq, .inl rfl⟩
      · refine ⟨_, t', rest, _, _, hrespond, ?_, hdelivers⟩
        rw [hgoes]
        rfl
  | rest =>
      obtain ⟨last, htokens, hlog, hfaces⟩ := h.tokens
      have hrespond : t.respond .rest =
          .ok (.tokens ((cookAll t.position t.line pieces).map Prod.fst), last) := by
        rw [respond, htokens]
        rfl
      refine ⟨_, last, [], cookAll t.position t.line pieces, 0, hrespond, ?_, hfaces,
        List.nil_suffix, ?_, hlog, .inl rfl⟩
      · exact (List.append_nil _).symm
      · exact (List.append_nil _).symm
  | takeDoc => exact ⟨_, _, pieces, [], 0, rfl, rfl, .silent h none⟩
  | textOf span => exact ⟨_, t, pieces, [], 0, rfl, rfl, .refl h⟩
  | diagnostics => exact ⟨_, t, pieces, [], 0, rfl, rfl, .refl h⟩
  | log => exact ⟨_, t, pieces, [], 0, rfl, rfl, .refl h⟩

theorem Faces.session_delivers (h : t.Faces text pieces) (requests : List Request) :
    ∃ responses t' rest cooked ends, t.session requests = .ok (responses, t') ∧
      responses.flatMap Response.handed = delivered text cooked ends ∧
      t.Delivers text pieces cooked ends t' rest := by
  induction requests generalizing t pieces with
  | nil => exact ⟨[], t, pieces, [], 0, rfl, rfl, .refl h⟩
  | cons request requests ih =>
      obtain ⟨response, t', rest, cooked, ends, hrespond, hhanded, hdelivers⟩ :=
        h.respond_delivers request
      obtain ⟨responses, last, left, more, moreEnds, hsession, hmore, hlater⟩ := ih hdelivers.faces
      refine ⟨response :: responses, last, left, cooked ++ more, ends + moreEnds,
        session_cons_eq_ok.mpr ⟨response, t', responses, hrespond, hsession, rfl⟩, ?_,
        hdelivers.trans hlater⟩
      rw [List.flatMap_cons, hhanded, hmore, delivered_append (hdelivers.nothing_after_end hlater)]

/-- Each request for a token hands out one. -/
theorem count_next_le {requests : List Request} {responses : List Response}
    (h : t.session requests = .ok (responses, t')) :
    requests.count .next ≤ (responses.flatMap Response.handed).length := by
  induction requests generalizing t responses with
  | nil => exact Nat.zero_le _
  | cons request requests ih =>
      obtain ⟨response, after, later, hrespond, hsession, rfl⟩ := session_cons_eq_ok.mp h
      have hlater := ih hsession
      rw [List.flatMap_cons, List.length_append]
      by_cases hrequest : request = .next
      · subst hrequest
        obtain ⟨⟨token, after⟩, _, hpair⟩ := Fault.map_eq_ok.mp hrespond
        cases hpair
        rw [List.count_cons_self, Nat.add_comm]
        exact Nat.add_le_add_left hlater 1
      · rw [List.count_cons_of_ne hrequest]
        omega

end TokenStream

end IdlLexis
