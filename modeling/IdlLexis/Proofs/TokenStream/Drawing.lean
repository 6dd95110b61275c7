import IdlLexis.Proofs.TokenStream.Step
/-!
Draws of a stream. A draw passes the separators before the next token and hands that out; if
nothing else is left, it hands out the end of the text. All draws together cook the pieces of the
text one by one.
-/

namespace IdlLexis

open Lexeme (First Cuts Piece)

theorem Token.kind_of_meaning {category : Lexeme.Category} {text : Bytes} {kind : Token.Kind}
    (hcategory : category ≠ .endOfText) (hmeaning : Token.meaning category text = some (.ok kind)) :
    kind ≠ .endOfText ∧ kind ≠ .error := by
  have hliteral {α : Type} (make : α → Kind)
      (hmake : ∀ value, make value ≠ .endOfText ∧ make value ≠ .error)
      (value : Except Literal.Failure α) (h : Kind.ofLiteral make value = .ok kind) :
      kind ≠ .endOfText ∧ kind ≠ .error := by
    cases value with
    | ok value =>
        cases h
        exact hmake value
    | error failure => contradiction
  cases category with
  | endOfText => exact absurd rfl hcategory
  | word =>
      cases hmeaning
      unfold Kind.ofWord
      split <;> exact ⟨Kind.noConfusion, Kind.noConfusion⟩
  | symbol s =>
      cases hmeaning
      exact ⟨Kind.noConfusion, Kind.noConfusion⟩
  | integer | hexInteger | real | quoted =>
      exact hliteral _ (fun _ => ⟨Kind.noConfusion, Kind.noConfusion⟩) _ (Option.some.inj hmeaning)
  | _ => cases hmeaning

theorem Token.isEnd_ofReading {p : Piece} {reading : Except Complaint Token.Kind}
    (hcategory : p.category ≠ .endOfText)
    (hmeaning : Token.meaning p.category p.bytes = some reading) (span : Span) (line : Nat) :
    (Token.ofReading span line reading).1.isEnd = false := by
  rw [← Bool.not_eq_true, Token.isEnd_iff]
  cases reading with
  | ok kind => exact (Token.kind_of_meaning hcategory hmeaning).1
  | error complaint => exact Kind.noConfusion

namespace TokenStream

variable {t t' : TokenStream} {token : Token} {p : Piece} {gap pieces rest : List Piece}
  {reading : Except Complaint Token.Kind}

theorem passAll_cons (t : TokenStream) (p : Piece) (pieces : List Piece) :
    t.passAll (p :: pieces) = (t.pass p).passAll pieces := rfl

theorem draw_of_none (h : t.step = .ok (none, t')) : t.draw = t'.draw := by
  rw [draw]
  split
  · next hstep =>
      rw [h] at hstep
      cases hstep
  · next hstep =>
      rw [h] at hstep
      cases hstep
  · next hstep =>
      rw [h] at hstep
      cases hstep
      rfl

theorem draw_of_some (h : t.step = .ok (some token, t')) : t.draw = .ok (token, t') := by
  rw [draw]
  split
  · next hstep =>
      rw [h] at hstep
      cases hstep
  · next hstep =>
      rw [h] at hstep
      cases hstep
      rfl
  · next hstep =>
      rw [h] at hstep
      cases hstep

theorem next_of_exhausted (h : t.exhausted = true) :
    t.next = .ok (t.endToken, { t with doc := none }) := if_pos h

theorem next_of_ready (h : t.exhausted = false) : t.next = { t with doc := none }.draw :=
  if_neg (Bool.eq_false_iff.mp h)

theorem tokens_of_end (h : t.next = .ok (token, t')) (hend : token.isEnd = true) :
    t.tokens = .ok ([], t') := by
  rw [tokens]
  split
  · next hnext =>
      rw [h] at hnext
      cases hnext
  · next hnext =>
      rw [h] at hnext
      cases hnext
      rw [dif_pos hend]

theorem tokens_of_next (h : t.next = .ok (token, t')) (hend : token.isEnd = false) :
    t.tokens = (fun (later, last) => (token :: later, last)) <$> t'.tokens := by
  rw [tokens]
  split
  · next hnext =>
      rw [h] at hnext
      cases hnext
  · next hnext =>
      rw [h] at hnext
      cases hnext
      rw [dif_neg (Bool.eq_false_iff.mp hend)]
      cases t'.tokens with
      | error fault => rfl
      | ok found => rfl

/-- What a draw makes of the pieces that the stream faces, and the pieces it leaves. -/
inductive Draws (t : TokenStream) : List Piece → Token → TokenStream → List Piece → Prop
  | finish {gap : List Piece} (htrivia : ∀ p ∈ gap, p.category.isTrivia = true) :
      Draws t gap (t.passAll gap).endToken (t.passAll gap).finish []
  | emit {gap rest : List Piece} {p : Piece} {reading : Except Complaint Token.Kind}
      (htrivia : ∀ p ∈ gap, p.category.isTrivia = true)
      (hmeaning : Token.meaning p.category p.bytes = some reading) :
      Draws t (gap ++ p :: rest) ((t.passAll gap).cooked p reading).1
        ((t.passAll gap).emit p reading) rest

theorem Draws.cons (h : Draws (t.pass p) pieces token t' rest)
    (hmeaning : Token.meaning p.category p.bytes = none) :
    Draws t (p :: pieces) token t' rest := by
  have hp := (Token.meaning_eq_none_iff _ _).mp hmeaning
  cases h with
  | finish htrivia =>
      rw [← passAll_cons]
      exact .finish (List.forall_mem_cons.mpr ⟨hp, htrivia⟩)
  | @emit gap rest q reading htrivia hmeaning =>
      rw [← passAll_cons, ← List.cons_append]
      exact .emit (List.forall_mem_cons.mpr ⟨hp, htrivia⟩) hmeaning

theorem isTrivia_eq_false (h : Token.meaning p.category p.bytes = some reading) :
    p.category.isTrivia = false := by
  rw [← Bool.not_eq_true, ← Token.meaning_eq_none_iff _ p.bytes, h]
  exact Option.some_ne_none reading

theorem Draws.of_nil (h : t.Draws [] token t' rest) :
    token = t.endToken ∧ t' = t.finish ∧ rest = [] := by
  generalize hnil : ([] : List Piece) = pieces at h
  cases h with
  | finish _ =>
      subst hnil
      exact ⟨rfl, rfl, rfl⟩
  | @emit gap _ _ _ _ _ => simp at hnil

theorem Draws.of_none (h : t.Draws (p :: pieces) token t' rest)
    (hmeaning : Token.meaning p.category p.bytes = none) :
    (t.pass p).Draws pieces token t' rest := by
  generalize hcons : p :: pieces = whole at h
  cases h with
  | finish htrivia =>
      subst hcons
      exact .finish (List.forall_mem_cons.mp htrivia).2
  | @emit gap rest q reading htrivia hsome =>
      cases gap with
      | nil =>
          obtain ⟨rfl, rfl⟩ := List.cons.inj hcons
          rw [hmeaning] at hsome
          contradiction
      | cons first gap =>
          obtain ⟨rfl, rfl⟩ := List.cons.inj hcons
          exact .emit (List.forall_mem_cons.mp htrivia).2 hsome

theorem Draws.of_gap (h : t.Draws (gap ++ pieces) token t' rest)
    (htrivia : ∀ p ∈ gap, p.category.isTrivia = true) :
    (t.passAll gap).Draws pieces token t' rest := by
  induction gap generalizing t with
  | nil => exact h
  | cons p gap ih =>
      obtain ⟨hp, hgap⟩ := List.forall_mem_cons.mp htrivia
      exact ih (h.of_none ((Token.meaning_eq_none_iff _ _).mpr hp)) hgap

theorem Draws.of_some (h : t.Draws (p :: pieces) token t' rest)
    (hmeaning : Token.meaning p.category p.bytes = some reading) :
    token = (t.cooked p reading).1 ∧ t' = t.emit p reading ∧ rest = pieces := by
  have htoken := isTrivia_eq_false hmeaning
  generalize hcons : p :: pieces = whole at h
  cases h with
  | finish htrivia =>
      subst hcons
      exact absurd (List.forall_mem_cons.mp htrivia).1 (by simp [htoken])
  | @emit gap rest q reading' htrivia hsome =>
      cases gap with
      | nil =>
          obtain ⟨rfl, rfl⟩ := List.cons.inj hcons
          rw [hmeaning] at hsome
          cases hsome
          exact ⟨rfl, rfl, rfl⟩
      | cons first gap =>
          obtain ⟨rfl, rfl⟩ := List.cons.inj hcons
          exact absurd (List.forall_mem_cons.mp htrivia).1 (by simp [htoken])

/-- Of the text the stream faces what falls into the pieces. -/
def Faces (t : TokenStream) (text : Bytes) (pieces : List Piece) : Prop :=
  ∃ passed left, t.Stands passed left ∧ Cuts left pieces ∧ passed ++ left = text

theorem Stands.draw {passed left : Bytes} (h : t.Stands passed left) (hcuts : Cuts left pieces) :
    ∃ token t' rest, t.draw = .ok (token, t') ∧ t.Draws pieces token t' rest ∧
      t'.Faces (passed ++ left) rest := by
  induction hcuts generalizing t passed with
  | nil =>
      refine ⟨_, _, [], draw_of_some h.step_of_nil, .finish ?_, _, _, h.finish, .nil, rfl⟩
      intro p hp
      cases hp
  | @cons category front tail pieces hfirst htail ih =>
      let p : Piece := ⟨category, front⟩
      rw [← List.append_assoc]
      cases hmeaning : Token.meaning category front with
      | none =>
          have hstep : t.step = .ok (none, t.pass p) := h.step_of_none hfirst hmeaning
          have hpass : (t.pass p).Stands (passed ++ front) tail := h.pass hfirst.ne_nil
          obtain ⟨token, t', rest, hdraw, hdraws, hfaces⟩ := ih hpass
          exact ⟨token, t', rest, (draw_of_none hstep).trans hdraw, hdraws.cons hmeaning, hfaces⟩
      | some reading =>
          have hstep : t.step = .ok (some (t.cooked p reading).1, t.emit p reading) :=
            h.step_of_some hfirst hmeaning
          have hemit : (t.emit p reading).Stands (passed ++ front) tail :=
            h.emit hfirst.ne_nil reading
          have hdraws : t.Draws (p :: pieces) (t.cooked p reading).1 (t.emit p reading) pieces :=
            @Draws.emit t [] pieces p reading (by simp) hmeaning
          exact ⟨_, _, pieces, draw_of_some hstep, hdraws, _, _, hemit, htail, rfl⟩

namespace Faces

variable {text : Bytes}

theorem draw (h : t.Faces text pieces) :
    ∃ token t' rest, t.draw = .ok (token, t') ∧ t.Draws pieces token t' rest ∧
      t'.Faces text rest := by
  obtain ⟨passed, left, hstands, hcuts, rfl⟩ := h
  exact hstands.draw hcuts

theorem forgetDoc (h : t.Faces text pieces) (doc : Option String) :
    { t with doc := doc }.Faces text pieces := by
  obtain ⟨passed, left, hstands, hcuts, htext⟩ := h
  exact ⟨passed, left, hstands.forgetDoc doc, hcuts, htext⟩

theorem position_le (h : t.Faces text pieces) : t.position ≤ text.length := by
  obtain ⟨passed, left, hstands, _, rfl⟩ := h
  rw [hstands.position_eq, List.length_append]
  exact Nat.le_add_right ..

theorem tokenStart_le (h : t.Faces text pieces) : t.tokenStart ≤ t.position := by
  obtain ⟨_, _, hstands, _, _⟩ := h
  exact hstands.tokenStart_le

theorem category_ne_endOfText (h : t.Faces text pieces) :
    ∀ p ∈ pieces, p.category ≠ .endOfText := by
  obtain ⟨_, _, _, hcuts, _⟩ := h
  exact hcuts.category_ne_endOfText

/-- After the end of the text a draw changes nothing, so each draw is one from where the stream
stands. -/
theorem next (h : t.Faces text pieces) :
    ∃ token t' rest, t.next = .ok (token, t') ∧
      { t with doc := none }.Draws pieces token t' rest ∧ t'.Faces text rest := by
  have hforget := h.forgetDoc none
  by_cases hexhausted : t.exhausted = true
  · obtain ⟨passed, left, hstands, hcuts, rfl⟩ := hforget
    obtain rfl := (hstands.ended hexhausted).1
    obtain rfl := hcuts.unique .nil
    have hdraws : { t with doc := none }.Draws [] t.endToken { t with doc := none }.finish [] :=
      .finish (by simp)
    rw [hstands.finish_eq hexhausted] at hdraws
    exact ⟨_, _, [], next_of_exhausted hexhausted, hdraws, passed, [], hstands, .nil, rfl⟩
  · rw [next_of_ready (Bool.eq_false_iff.mpr hexhausted)]
    exact hforget.draw

end Faces

/-! Each piece cooked from its category and bytes, its offset and its line. -/

def cookAll (offset line : Nat) : List Piece → List (Token × List Diagnostic)
  | [] => []
  | p :: rest =>
      let cooked := (Token.meaning p.category p.bytes).map
        (Token.ofReading ⟨offset, offset + p.bytes.length⟩ line)
      cooked.toList ++ cookAll (offset + p.bytes.length) (line + newlines p.bytes) rest

theorem cookAll_of_none {offset line : Nat}
    (hmeaning : Token.meaning p.category p.bytes = none) :
    cookAll offset line (p :: rest) =
      cookAll (offset + p.bytes.length) (line + newlines p.bytes) rest := by
  rw [cookAll, hmeaning]
  rfl

theorem cookAll_of_some {offset line : Nat}
    (hmeaning : Token.meaning p.category p.bytes = some reading) :
    cookAll offset line (p :: rest) =
      Token.ofReading ⟨offset, offset + p.bytes.length⟩ line reading ::
        cookAll (offset + p.bytes.length) (line + newlines p.bytes) rest := by
  rw [cookAll, hmeaning]
  rfl

theorem cookAll_gap (htrivia : ∀ p ∈ gap, p.category.isTrivia = true) :
    cookAll t.position t.line (gap ++ rest) =
      cookAll (t.passAll gap).position (t.passAll gap).line rest := by
  induction gap generalizing t with
  | nil => rfl
  | cons p gap ih =>
      obtain ⟨hp, hgap⟩ := List.forall_mem_cons.mp htrivia
      rw [List.cons_append, cookAll_of_none ((Token.meaning_eq_none_iff _ _).mpr hp)]
      exact ih (t := t.pass p) hgap

theorem log_passAll (t : TokenStream) (pieces : List Piece) :
    (t.passAll pieces).log = t.log := by
  induction pieces generalizing t with
  | nil => rfl
  | cons p pieces ih => exact ih (t.pass p)

theorem toList_pushAll (log : Log) (diagnostics : List Diagnostic) :
    (diagnostics.foldl Log.push log).toList = log.toList ++ diagnostics := by
  induction diagnostics generalizing log with
  | nil => rw [List.foldl_nil, List.append_nil]
  | cons d diagnostics ih =>
      rw [List.foldl_cons, ih, Log.toList_push, List.append_assoc, List.singleton_append]

/-- A draw hands out the first token that the pieces cook to, if they cook to any. -/
theorem Draws.cookAll (h : t.Draws pieces token t' rest)
    (hcategory : ∀ p ∈ pieces, p.category ≠ .endOfText) :
    (token.isEnd = true ∧ TokenStream.cookAll t.position t.line pieces = [] ∧
      t'.log = t.log ∧ rest = []) ∨
    ∃ diagnostics, token.isEnd = false ∧
      TokenStream.cookAll t.position t.line pieces =
        (token, diagnostics) :: TokenStream.cookAll t'.position t'.line rest ∧
      t'.log.toList = t.log.toList ++ diagnostics ∧ rest.length < pieces.length := by
  cases h with
  | finish htrivia =>
      have hgap := @cookAll_gap t pieces [] htrivia
      rw [List.append_nil] at hgap
      exact .inl ⟨rfl, hgap, log_passAll t pieces, rfl⟩
  | @emit gap _ p reading htrivia hmeaning =>
      refine .inr ⟨((t.passAll gap).cooked p reading).2, ?_, ?_, ?_, ?_⟩
      · exact Token.isEnd_ofReading (hcategory p (by simp)) hmeaning _ _
      · rw [cookAll_gap htrivia, cookAll_of_some hmeaning]
        rfl
      · rw [TokenStream.emit, toList_pushAll, log_passAll]
      · rw [List.length_append, List.length_cons]
        omega

/-- The tokens from the stream on are the pieces that it faces, cooked one by one. -/
theorem Faces.tokens {text : Bytes} (h : t.Faces text pieces) :
    ∃ last, t.tokens = .ok ((TokenStream.cookAll t.position t.line pieces).map Prod.fst, last) ∧
      last.log.toList =
        t.log.toList ++ (TokenStream.cookAll t.position t.line pieces).flatMap Prod.snd ∧
      last.Faces text [] := by
  induction hlength : pieces.length using Nat.strongRecOn generalizing t pieces with
  | ind length ih =>
      obtain ⟨token, t', rest, hnext, hdraws, hfaces⟩ := h.next
      rcases hdraws.cookAll h.category_ne_endOfText with
        ⟨hend, hcooked, hlog, rfl⟩ | ⟨diagnostics, hend, hcooked, hlog, hshorter⟩
      · refine ⟨t', ?_, ?_, hfaces⟩
        · rw [tokens_of_end hnext hend, hcooked]
          rfl
        · rw [hcooked, hlog, List.flatMap_nil, List.append_nil]
      · obtain ⟨last, htokens, hlater, hlast⟩ := ih rest.length (by omega) hfaces rfl
        refine ⟨last, ?_, ?_, hlast⟩
        · rw [tokens_of_next hnext hend, htokens, hcooked]
          rfl
        · rw [hlater, hlog, hcooked, List.flatMap_cons, List.append_assoc]

end TokenStream

end IdlLexis
