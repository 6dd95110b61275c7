import IdlLexis.Proofs.DocComment
import IdlLexis.Proofs.Lexeme.Returns
import IdlLexis.Proofs.TokenStream.Safety
/-!
Line ends make no difference. Put the same requests to a stream of a text and to a stream of the
text with a carriage return before each line feed: the two give the same tokens on the same lines,
with the same doc comments, and report the same errors. Only offsets differ.
-/

namespace IdlLexis

/-! Answers without the offsets in them. -/

def Token.unplaced (t : Token) : Token := { t with span := .point 0 }

def Diagnostic.unplaced (d : Diagnostic) : Diagnostic := { d with offset := 0 }

def Log.unplaced (log : Log) : Log := ⟨(log.toList.map Diagnostic.unplaced).toArray⟩

theorem Token.isEnd_of_unplaced {token other : Token} (h : other.unplaced = token.unplaced) :
    other.isEnd = token.isEnd := by
  have hkind := congrArg Token.kind h
  exact congrArg (fun kind => Kind.same kind .endOfText) hkind

namespace TokenStream

open Lexeme (Category Cuts Piece Returned Spaced)

/-- A response without offsets, and without the bytes that were asked for by their offsets. -/
def Response.unplaced : Response → Response
  | .token drawn => .token drawn.unplaced
  | .tokenInText drawn => .tokenInText (drawn.map Token.unplaced)
  | .tokens drawn => .tokens (drawn.map Token.unplaced)
  | .doc text => .doc text
  | .bytes _ => .bytes []
  | .diagnostics reported => .diagnostics (reported.map Diagnostic.unplaced)
  | .log entries => .log entries.unplaced

variable {t t' u u' : TokenStream} {token token' : Token} {category : Category}
  {front longer text : Bytes} {pieces others rest rest' : List Piece}

/-! A returned lexeme means what it meant, and makes the same of the lines and the doc comment. -/

theorem meaning_returned (h : Returned category front longer) :
    Token.meaning category longer = Token.meaning category front := by
  cases h with
  | same => rfl
  | within hbreak => cases category <;> first | rfl | contradiction
  | before hblanks => cases category <;> first | rfl | contradiction

theorem newlines_returned (h : Returned category front longer) :
    newlines longer = newlines front := by
  cases h with
  | same => rfl
  | within _ => exact Text.count_markBefore (by decide) front
  | before _ =>
      rw [newlines_append, newlines, newlines, List.count_singleton]
      rfl

theorem docAfter_returned (h : Returned category front longer) (doc : Option String) :
    docAfter doc category longer = docAfter doc category front := by
  cases h with
  | same => rfl
  | within hbreak =>
      cases category with
      | docComment => exact congrArg some (DocComment.plainText_withReturns front)
      | _ => rfl
  | before hblanks => cases category <;> first | rfl | contradiction

/-! Two streams abreast differ in what they have passed by offsets alone. -/

structure Abreast (t u : TokenStream) : Prop where
  line_eq : u.line = t.line
  doc_eq : u.doc = t.doc
  log_eq : u.log.toList.map Diagnostic.unplaced = t.log.toList.map Diagnostic.unplaced

namespace Abreast

theorem forgetDoc (h : Abreast t u) : Abreast { t with doc := none } { u with doc := none } :=
  ⟨h.line_eq, rfl, h.log_eq⟩

theorem pass (h : Abreast t u) (hreturned : Returned category front longer) :
    Abreast (t.pass ⟨category, front⟩) (u.pass ⟨category, longer⟩) := by
  refine ⟨?_, ?_, h.log_eq⟩
  · rw [TokenStream.pass, TokenStream.pass, h.line_eq, newlines_returned hreturned]
  · rw [TokenStream.pass, TokenStream.pass, h.doc_eq, docAfter_returned hreturned]

theorem space (h : Abreast t u) : Abreast t (u.pass ⟨.blank, [Byte.carriageReturn]⟩) :=
  ⟨h.line_eq, h.doc_eq, h.log_eq⟩

theorem finish (h : Abreast t u) : Abreast t.finish u.finish := ⟨h.line_eq, h.doc_eq, h.log_eq⟩

theorem endToken (h : Abreast t u) : u.endToken.unplaced = t.endToken.unplaced := by
  rw [Token.unplaced, Token.unplaced, TokenStream.endToken, TokenStream.endToken, h.line_eq]

theorem cooked (h : Abreast t u) (p q : Piece) (reading : Except Complaint Token.Kind) :
    (u.cooked q reading).1.unplaced = (t.cooked p reading).1.unplaced ∧
      (u.cooked q reading).2.map Diagnostic.unplaced =
        (t.cooked p reading).2.map Diagnostic.unplaced := by
  rw [TokenStream.cooked, TokenStream.cooked, h.line_eq]
  cases reading <;> exact ⟨rfl, rfl⟩

theorem emit (h : Abreast t u) (hreturned : Returned category front longer)
    (reading : Except Complaint Token.Kind) :
    Abreast (t.emit ⟨category, front⟩ reading) (u.emit ⟨category, longer⟩ reading) := by
  have hpass := h.pass hreturned
  refine ⟨hpass.line_eq, hpass.doc_eq, ?_⟩
  rw [TokenStream.emit, TokenStream.emit, toList_pushAll, toList_pushAll, List.map_append,
    List.map_append, h.log_eq, (h.cooked _ _ reading).2]

end Abreast

/-- Draws from streams abreast hand out the same token and leave the streams abreast. -/
theorem Draws.abreast (hspaced : Spaced pieces others) (habreast : Abreast t u)
    (hdraws : t.Draws pieces token t' rest) (hother : u.Draws others token' u' rest') :
    token'.unplaced = token.unplaced ∧ Abreast t' u' ∧ Spaced rest rest' := by
  induction hspaced generalizing t u with
  | nil =>
      obtain ⟨rfl, rfl, rfl⟩ := hdraws.of_nil
      obtain ⟨rfl, rfl, rfl⟩ := hother.of_nil
      exact ⟨habreast.endToken, habreast.finish, .nil⟩
  | @piece category front longer pieces others hreturned hrest ih =>
      have hsame := meaning_returned hreturned
      cases hmeaning : Token.meaning category front with
      | none =>
          exact ih (habreast.pass hreturned) (hdraws.of_none hmeaning)
            (hother.of_none (hsame.trans hmeaning))
      | some reading =>
          obtain ⟨rfl, rfl, rfl⟩ := hdraws.of_some hmeaning
          obtain ⟨rfl, rfl, rfl⟩ := hother.of_some (hsame.trans hmeaning)
          exact ⟨(habreast.cooked _ _ reading).1, habreast.emit hreturned reading, hrest⟩
  | space _ ih => exact ih habreast.space hdraws (hother.of_none rfl)

/-- The streams are abreast, and so are the pieces that they face. -/
def InStep (t u : TokenStream) : Prop :=
  ∃ text other pieces others, t.Faces text pieces ∧ u.Faces other others ∧
    Spaced pieces others ∧ Abreast t u

namespace InStep

theorem abreast (h : InStep t u) : Abreast t u := by
  obtain ⟨_, _, _, _, _, _, _, habreast⟩ := h
  exact habreast

theorem forgetDoc (h : InStep t u) : InStep { t with doc := none } { u with doc := none } := by
  obtain ⟨_, _, _, _, hfaces, hother, hspaced, habreast⟩ := h
  exact ⟨_, _, _, _, hfaces.forgetDoc none, hother.forgetDoc none, hspaced, habreast.forgetDoc⟩

theorem next (h : InStep t u) :
    ∃ token t' token' u', t.next = .ok (token, t') ∧ u.next = .ok (token', u') ∧
      token'.unplaced = token.unplaced ∧ InStep t' u' := by
  obtain ⟨text, other, _, _, hfaces, hother, hspaced, habreast⟩ := h
  obtain ⟨token, t', rest, hnext, hdraws, hlater⟩ := hfaces.next
  obtain ⟨token', u', rest', hnext', hdraws', hlater'⟩ := hother.next
  obtain ⟨htoken, habreast', hspaced'⟩ := hdraws.abreast hspaced habreast.forgetDoc hdraws'
  exact ⟨token, t', token', u', hnext, hnext', htoken, text, other, rest, rest', hlater, hlater',
    hspaced', habreast'⟩

theorem tokens (h : InStep t u) :
    ∃ drawn last drawn' last', t.tokens = .ok (drawn, last) ∧ u.tokens = .ok (drawn', last') ∧
      drawn'.map Token.unplaced = drawn.map Token.unplaced ∧ InStep last last' := by
  induction hleft : Offset.limit - t.position using Nat.strongRecOn generalizing t u with
  | ind left ih =>
      obtain ⟨token, t', token', u', hnext, hnext', htoken, hstep⟩ := h.next
      have hsame := Token.isEnd_of_unplaced htoken
      cases hend : token.isEnd with
      | true =>
          exact ⟨[], t', [], u', tokens_of_end hnext hend, tokens_of_end hnext' (hsame.trans hend),
            rfl, hstep⟩
      | false =>
          have hmoved := position_lt_of_next hnext hend
          obtain ⟨drawn, last, drawn', last', hdrawn, hdrawn', hall, hlast⟩ :=
            ih (Offset.limit - t'.position) (by omega) hstep rfl
          refine ⟨token :: drawn, last, token' :: drawn', last', ?_, ?_, ?_, hlast⟩
          · rw [tokens_of_next hnext hend, hdrawn]
            rfl
          · rw [tokens_of_next hnext' (hsame.trans hend), hdrawn']
            rfl
          · rw [List.map_cons, List.map_cons, htoken, hall]

theorem respond (h : InStep t u) (request : Request) :
    ∃ response t' response' u', t.respond request = .ok (response, t') ∧
      u.respond request = .ok (response', u') ∧ response'.unplaced = response.unplaced ∧
      InStep t' u' := by
  have habreast := h.abreast
  cases request with
  | next =>
      obtain ⟨token, t', token', u', hnext, hnext', htoken, hstep⟩ := h.next
      refine ⟨.token token, t', .token token', u', ?_, ?_, ?_, hstep⟩
      · rw [TokenStream.respond, hnext]
        rfl
      · rw [TokenStream.respond, hnext']
        rfl
      · rw [Response.unplaced, Response.unplaced, htoken]
  | nextInText =>
      obtain ⟨token, t', token', u', hnext, hnext', htoken, hstep⟩ := h.next
      refine ⟨.tokenInText (if token.isEnd then none else some token), t',
        .tokenInText (if token'.isEnd then none else some token'), u', ?_, ?_, ?_, hstep⟩
      · rw [TokenStream.respond, hnext]
        rfl
      · rw [TokenStream.respond, hnext']
        rfl
      · rw [Response.unplaced, Response.unplaced, Token.isEnd_of_unplaced htoken]
        split
        · rfl
        · rw [Option.map_some, Option.map_some, htoken]
  | rest =>
      obtain ⟨drawn, last, drawn', last', hdrawn, hdrawn', hall, hlast⟩ := h.tokens
      refine ⟨.tokens drawn, last, .tokens drawn', last', ?_, ?_, ?_, hlast⟩
      · rw [TokenStream.respond, hdrawn]
        rfl
      · rw [TokenStream.respond, hdrawn']
        rfl
      · rw [Response.unplaced, Response.unplaced, hall]
  | takeDoc =>
      refine ⟨_, _, _, _, rfl, rfl, ?_, h.forgetDoc⟩
      rw [takeDoc, takeDoc, habreast.doc_eq]
  | textOf span => exact ⟨_, _, _, _, rfl, rfl, rfl, h⟩
  | diagnostics =>
      refine ⟨_, _, _, _, rfl, rfl, ?_, h⟩
      rw [Response.unplaced, Response.unplaced, habreast.log_eq]
  | log =>
      refine ⟨_, _, _, _, rfl, rfl, ?_, h⟩
      rw [Response.unplaced, Response.unplaced, Log.unplaced, Log.unplaced, habreast.log_eq]

theorem session (h : InStep t u) (requests : List Request) :
    ∃ responses t' responses' u', t.session requests = .ok (responses, t') ∧
      u.session requests = .ok (responses', u') ∧
      responses'.map Response.unplaced = responses.map Response.unplaced ∧ InStep t' u' := by
  induction requests generalizing t u with
  | nil => exact ⟨[], t, [], u, rfl, rfl, rfl, h⟩
  | cons request requests ih =>
      obtain ⟨response, t', response', u', hrespond, hrespond', hresponse, hstep⟩ :=
        h.respond request
      obtain ⟨later, last, later', last', hlater, hlater', hall, hlast⟩ := ih hstep
      refine ⟨response :: later, last, response' :: later', last',
        session_cons_eq_ok.mpr ⟨response, t', later, hrespond, hlater, rfl⟩,
        session_cons_eq_ok.mpr ⟨response', u', later', hrespond', hlater', rfl⟩, ?_, hlast⟩
      rw [List.map_cons, List.map_cons, hresponse, hall]

end InStep

/-- Whatever is asked of a text, the same text with carriage returns before its line feeds gives
the same answers but for offsets. -/
theorem session_withReturns (htext : (withReturns text).length + 1 < Offset.limit)
    (requests : List Request) :
    ∃ responses t responses' u, (ofBytes text).session requests = .ok (responses, t) ∧
      (ofBytes (withReturns text)).session requests = .ok (responses', u) ∧
      responses'.map Response.unplaced = responses.map Response.unplaced ∧ u.line = t.line := by
  have hlength : text.length ≤ (withReturns text).length := Text.length_le_markBefore ..
  have hlimit : text.length < Offset.limit := by omega
  obtain ⟨pieces, hcuts⟩ := exists_cuts hlimit
  obtain ⟨others, hother, hspaced⟩ := hcuts.exists_spaced
  have hstep : InStep (ofBytes text) (ofBytes (withReturns text)) :=
    ⟨_, _, _, _, faces_ofBytes_of_lt (by omega) hcuts, faces_ofBytes_of_lt htext hother, hspaced,
      rfl, rfl, rfl⟩
  obtain ⟨responses, t, responses', u, hsession, hsession', hall, hlast⟩ := hstep.session requests
  exact ⟨responses, t, responses', u, hsession, hsession', hall, hlast.abreast.line_eq⟩

/-- A doc comment with a gutter, one of its lines already with a carriage return, before a word,
and a quote that a backslash before the line feed leaves open. -/
theorem session_withReturns_gutter :
    let text : Bytes :=
      [0x2f, 0x2a, 0x2a, 0x0a, 0x20, 0x2a, 0x20, 0x61, 0x0d, 0x0a, 0x20, 0x2a, 0x2f, 0x62, 0x0a,
        0x22, 0x5c, 0x0a, 0x09, 0x0a]
    let requests : List Request :=
      [.next, .takeDoc, .next, .takeDoc, .diagnostics, .next, .rest, .log]
    (withReturns text).length + 1 < Offset.limit ∧
      ∃ responses t responses' u, (ofBytes text).session requests = .ok (responses, t) ∧
        (ofBytes (withReturns text)).session requests = .ok (responses', u) ∧
        responses'.map Response.unplaced = responses.map Response.unplaced ∧ u.line = t.line :=
  ⟨by decide, session_withReturns (by decide) _⟩

end TokenStream

end IdlLexis
