import Mathlib.Data.List.Induction
import IdlLexis.Proofs.TokenStream.Tiling
/-!
Doc comments and tokens. A draw passes separators before its token. Of the comments among these the
last one counts: if it is a doc comment, its text can be taken with the token, once; in any other
case there is nothing to take, whatever earlier draws have left.
-/

namespace IdlLexis

open Lexeme (Category Cuts First Piece Placed)

namespace Lexeme

def Category.isComment : Category → Bool
  | lineComment | blockComment | docComment => true
  | _ => false

namespace Placed

variable {x : Placed} {text : Bytes} {front gap back pieces : List Piece} {offset start stop : Nat}

/-- The lexemes of a row that lie between two offsets. -/
def between (start stop : Nat) (row : List Placed) : List Placed :=
  row.filter fun x => start ≤ x.span.start ∧ x.span.stop ≤ stop

def isComment (x : Placed) : Bool := x.category.isComment

def lastComment? (row : List Placed) : Option Placed := (row.filter isComment).getLast?

/-! Rows of pieces, one after the other. -/

theorem row_append (offset : Nat) (front back : List Piece) :
    row offset ((front ++ back).map Piece.toLexeme) =
      row offset (front.map Piece.toLexeme) ++
        row (offset + (front.flatMap Piece.bytes).length) (back.map Piece.toLexeme) := by
  induction front generalizing offset with
  | nil => rfl
  | cons p front ih =>
      rw [List.cons_append, row_cons, row_cons, ih, List.flatMap_cons, List.length_append,
        Nat.add_assoc, List.cons_append]

theorem row_concat (offset : Nat) (gap : List Piece) (p : Piece) :
    row offset ((gap ++ [p]).map Piece.toLexeme) =
      row offset (gap.map Piece.toLexeme) ++
        [⟨p.category, offset + (gap.flatMap Piece.bytes).length,
          offset + (gap.flatMap Piece.bytes).length + p.bytes.length⟩] :=
  row_append offset gap [p]

theorem tiles_row (offset : Nat) (pieces : List Piece) :
    Span.Tiles offset ((row offset (pieces.map Piece.toLexeme)).map Placed.span)
      (offset + (pieces.flatMap Piece.bytes).length) := by
  induction pieces generalizing offset with
  | nil => rfl
  | cons p pieces ih =>
      rw [row_cons, List.flatMap_cons, List.length_append, ← Nat.add_assoc]
      exact ⟨rfl, Nat.le_add_right .., ih _⟩

theorem isTrivia_row (h : ∀ p ∈ pieces, p.category.isTrivia = true) (offset : Nat) :
    ∀ x ∈ row offset (pieces.map Piece.toLexeme), x.isTrivia = true := by
  induction pieces generalizing offset with
  | nil =>
      intro x hx
      cases hx
  | cons p pieces ih =>
      obtain ⟨hp, hpieces⟩ := List.forall_mem_cons.mp h
      rw [row_cons]
      exact List.forall_mem_cons.mpr ⟨hp, ih hpieces _⟩

theorem lies_row (hne : ∀ p ∈ pieces, p.bytes ≠ []) (offset : Nat) :
    ∀ x ∈ row offset (pieces.map Piece.toLexeme),
      x.span.start < x.span.stop ∧
        x.span.stop ≤ offset + (pieces.flatMap Piece.bytes).length := by
  induction pieces generalizing offset with
  | nil =>
      intro x hx
      cases hx
  | cons p pieces ih =>
      obtain ⟨hp, hpieces⟩ := List.forall_mem_cons.mp hne
      rw [row_cons, List.flatMap_cons, List.length_append, ← Nat.add_assoc]
      exact List.forall_mem_cons.mpr
        ⟨⟨Nat.lt_add_of_pos_right (List.length_pos_iff.mpr hp), Nat.le_add_right ..⟩,
          ih hpieces _⟩

/-! No piece is empty, so between two offsets lie only the pieces that begin and end there. -/

theorem between_before (hne : ∀ p ∈ front, p.bytes ≠ [])
    (hstart : offset + (front.flatMap Piece.bytes).length ≤ start) :
    between start stop (row offset (front.map Piece.toLexeme)) = [] := by
  rw [between, List.filter_eq_nil_iff]
  intro x hx
  obtain ⟨hlt, hle⟩ := lies_row hne offset x hx
  rw [decide_eq_true_eq]
  omega

theorem between_after (hne : ∀ p ∈ back, p.bytes ≠ []) (hstop : stop ≤ offset) :
    between start stop (row offset (back.map Piece.toLexeme)) = [] := by
  rw [between, List.filter_eq_nil_iff]
  intro x hx
  have hlt := (lies_row hne offset x hx).1
  have hle := le_start_row offset _ x hx
  rw [decide_eq_true_eq]
  omega

theorem between_self (hne : ∀ p ∈ gap, p.bytes ≠ []) :
    between offset (offset + (gap.flatMap Piece.bytes).length)
        (row offset (gap.map Piece.toLexeme)) = row offset (gap.map Piece.toLexeme) := by
  rw [between, List.filter_eq_self]
  intro x hx
  exact decide_eq_true ⟨le_start_row offset _ x hx, (lies_row hne offset x hx).2⟩

theorem between_row (hne : ∀ p ∈ front ++ (gap ++ back), p.bytes ≠ [])
    (hstart : start = (front.flatMap Piece.bytes).length)
    (hstop : stop = start + (gap.flatMap Piece.bytes).length) :
    between start stop (row 0 ((front ++ (gap ++ back)).map Piece.toLexeme)) =
      row start (gap.map Piece.toLexeme) := by
  obtain ⟨hfront, hrest⟩ := List.forall_mem_append.mp hne
  obtain ⟨hgap, hback⟩ := List.forall_mem_append.mp hrest
  have hbefore := @between_before front 0 start stop hfront (by omega)
  have hafter := @between_after back stop start stop hback (Nat.le_refl _)
  have hself := @between_self gap start hgap
  rw [← hstop] at hself
  rw [between] at hbefore hafter hself ⊢
  rw [row_append, row_append, Nat.zero_add, ← hstart, ← hstop, List.filter_append,
    List.filter_append, hbefore, hself, hafter, List.nil_append, List.append_nil]

/-! The last comment, and what follows it. -/

theorem lastComment?_concat (row : List Placed) (x : Placed) :
    lastComment? (row ++ [x]) = if x.isComment then some x else lastComment? row := by
  rw [lastComment?, List.filter_append]
  cases hx : x.isComment with
  | true => rw [List.filter_cons_of_pos hx, List.filter_nil, List.getLast?_concat, if_pos rfl]
  | false =>
      rw [List.filter_cons_of_neg (Bool.eq_false_iff.mp hx), List.filter_nil, List.append_nil]
      rfl

theorem exists_lastComment {row : List Placed} (h : lastComment? row = some x) :
    ∃ before after, row = before ++ x :: after ∧ ∀ y ∈ after, y.isComment = false := by
  obtain ⟨earlier, hfilter⟩ := List.getLast?_eq_some_iff.mp h
  obtain ⟨before, rest, rfl, _, hrest⟩ := List.filter_eq_append_iff.mp hfilter
  obtain ⟨blanks, after, rfl, _, _, hafter⟩ := List.filter_eq_cons_iff.mp hrest
  refine ⟨before ++ blanks, after, by rw [List.append_assoc], ?_⟩
  intro y hy
  exact Bool.eq_false_iff.mpr (List.filter_eq_nil_iff.mp hafter y hy)

end Placed

variable {category : Category} {front text : Bytes}

theorem First.blank (h : First .blank front text) : Run Byte.isBlank front := by
  rcases h with hlongest | ⟨_, hmistake⟩
  · cases hlongest.covers with
    | blank hrun => exact hrun
  · cases hmistake

/-- What separates tokens and is no comment is blanks or a line feed. -/
theorem First.separates (h : First category front text) (htrivia : category.isTrivia = true)
    (hcomment : category.isComment = false) :
    ∀ b ∈ front, Byte.isBlank b = true ∨ b = Byte.lineFeed := by
  intro b hb
  cases category with
  | blank => exact .inl (h.blank.2 b hb)
  | newline =>
      rw [h.newline] at hb
      exact .inr (List.mem_singleton.mp hb)
  | _ => contradiction

end Lexeme

/-! Spans that lie end to end may be cut between any two of them. -/

theorem Span.Tiles.of_append {start stop : Nat} {spans more : List Span}
    (h : Tiles start (spans ++ more) stop) :
    ∃ middle, Tiles start spans middle ∧ Tiles middle more stop := by
  induction spans generalizing start with
  | nil => exact ⟨start, rfl, h⟩
  | cons s spans ih =>
      obtain ⟨hstart, hle, htiles⟩ := h
      obtain ⟨middle, hfront, hback⟩ := ih htiles
      exact ⟨middle, ⟨hstart, hle, hfront⟩, hback⟩

namespace TokenStream

variable {t t' : TokenStream} {text passed tail : Bytes} {pieces gap rest : List Piece}
  {token : Token}

/-- The text of the last comment among separators, if that is a doc comment. -/
def docOf (text : Bytes) (gap : List Placed) : Option String :=
  match Placed.lastComment? gap with
  | some x =>
      if x.category = .docComment then
        some (DocComment.plainText (Utf8.lossy (x.span.bytes text)))
      else none
  | none => none

/-! The doc comment that a stream keeps is that of the separators that it has passed. -/

theorem docOf_concat (text : Bytes) (row : List Placed) (x : Placed) :
    docOf text (row ++ [x]) = docAfter (docOf text row) x.category (x.span.bytes text) := by
  rw [docOf, Placed.lastComment?_concat]
  obtain ⟨category, span⟩ := x
  cases category <;> rfl

theorem passAll_append (t : TokenStream) (front back : List Piece) :
    t.passAll (front ++ back) = (t.passAll front).passAll back := List.foldl_append

theorem doc_passAll (hdoc : t.doc = none) (passed : Bytes) (gap : List Piece) (tail : Bytes) :
    (t.passAll gap).doc =
      docOf (passed ++ (gap.flatMap Piece.bytes ++ tail))
        (Placed.row passed.length (gap.map Piece.toLexeme)) := by
  -- From the end of the gap, as each piece may undo what the pieces before it have left.
  induction gap using List.reverseRecOn generalizing tail with
  | nil => exact hdoc
  | append_singleton gap p ih =>
      have hpass : (t.passAll (gap ++ [p])).doc =
          docAfter (t.passAll gap).doc p.category p.bytes := by
        rw [passAll_append]
        rfl
      have hpieces : (gap ++ [p]).flatMap Piece.bytes ++ tail =
          gap.flatMap Piece.bytes ++ (p.bytes ++ tail) := by simp
      have hbytes := Span.bytes_front (passed ++ gap.flatMap Piece.bytes) p.bytes tail
      rw [List.length_append, List.append_assoc] at hbytes
      rw [hpass, Placed.row_concat, hpieces, docOf_concat, hbytes, ← ih]

/-! A draw passes the separators before its token, and keeps the doc comment that they leave. -/

theorem position_passAll (t : TokenStream) (pieces : List Piece) :
    (t.passAll pieces).position = t.position + (pieces.flatMap Piece.bytes).length := by
  induction pieces generalizing t with
  | nil => rfl
  | cons p pieces ih =>
      rw [passAll_cons, ih, List.flatMap_cons, List.length_append, ← Nat.add_assoc]
      rfl

theorem Faces.position_eq {front : List Piece} (h : t.Faces text rest)
    (hcuts : Cuts text (front ++ rest)) : t.position = (front.flatMap Piece.bytes).length := by
  have hadd := h.position_add
  have hlength := congrArg List.length hcuts.flatMap_bytes
  rw [List.flatMap_append, List.length_append] at hlength
  omega

theorem Faces.next_gap (h : t.Faces text pieces) :
    ∃ token t' gap back, t.next = .ok (token, t') ∧ pieces = gap ++ back ∧
      (∀ p ∈ gap, p.category.isTrivia = true) ∧
      token.span.start = t.position + (gap.flatMap Piece.bytes).length ∧
      t'.doc = ({ t with doc := none }.passAll gap).doc := by
  obtain ⟨token, t', rest, hnext, hdraws, hfaces⟩ := h.next
  cases hdraws with
  | finish htrivia =>
      refine ⟨_, _, pieces, [], hnext, (List.append_nil _).symm, htrivia, ?_, rfl⟩
      have hstart := congrArg (·.span.start) hfaces.endToken_eq
      exact hstart.trans h.position_add.symm
  | @emit gap rest p reading htrivia hmeaning =>
      refine ⟨_, _, gap, p :: rest, hnext, rfl, htrivia, ?_, docAfter_of_some hmeaning⟩
      rw [cooked, Token.span_ofReading, spanOf, position_passAll]

theorem blanks_after_comment {row : List Placed} {x : Placed} {start stop : Nat}
    (htrivia : ∀ x ∈ row, x.isTrivia = true) (hlies : ∀ x ∈ row, x.LiesIn text)
    (htiles : Span.Tiles start (row.map Placed.span) stop)
    (hlast : Placed.lastComment? row = some x) :
    ∀ b ∈ Span.bytes ⟨x.span.stop, stop⟩ text, Byte.isBlank b = true ∨ b = Byte.lineFeed := by
  obtain ⟨before, after, rfl, hafter⟩ := Placed.exists_lastComment hlast
  rw [List.map_append, List.map_cons] at htiles
  obtain ⟨_, _, _, _, hrest⟩ := htiles.of_append
  rw [← hrest.flatMap_bytes text, List.flatMap_map]
  intro b hb
  obtain ⟨y, hy, hb⟩ := List.mem_flatMap.mp hb
  have hmem : y ∈ before ++ x :: after := by simp [hy]
  exact (hlies y hmem).first.separates (htrivia y hmem) (hafter y hy) b hb

/-! A doc comment that was taken is gone until the next draw. -/

theorem respond_of_doc_eq_none {request : Request} (hdraws : request.draws = false)
    (hdoc : t.doc = none) :
    ∃ response after, t.respond request = .ok (response, after) ∧ after.doc = none := by
  obtain ⟨response, doc, hrespond, hkept⟩ := respond_of_draws_eq_false t hdraws
  exact ⟨response, { t with doc := doc }, hrespond, hkept.elim id fun heq => heq.trans hdoc⟩

theorem session_of_doc_eq_none {requests : List Request}
    (hdraws : ∀ request ∈ requests, request.draws = false) (hdoc : t.doc = none) :
    ∃ responses last, t.session requests = .ok (responses, last) ∧ last.doc = none := by
  induction requests generalizing t with
  | nil => exact ⟨[], t, rfl, hdoc⟩
  | cons request requests ih =>
      obtain ⟨hrequest, hrequests⟩ := List.forall_mem_cons.mp hdraws
      obtain ⟨response, after, hrespond, hafter⟩ := respond_of_doc_eq_none hrequest hdoc
      obtain ⟨responses, last, hsession, hlast⟩ := ih hrequests hafter
      exact ⟨response :: responses, last,
        session_cons_eq_ok.mpr ⟨response, after, responses, hrespond, hsession, rfl⟩, hlast⟩

/-- The separators lie end to end over the span, and of their comments the last leaves its text,
with nothing but blanks and line feeds after it. -/
structure Attached (text : Bytes) (gap : List Placed) (span : Span) (doc : Option String) :
    Prop where
  separators : ∀ x ∈ gap, x.isTrivia = true
  tiles : Span.Tiles span.start (gap.map Placed.span) span.stop
  doc_eq : doc = docOf text gap
  blanks_after : ∀ x, Placed.lastComment? gap = some x →
    ∀ b ∈ Span.bytes ⟨x.span.stop, span.stop⟩ text, Byte.isBlank b = true ∨ b = Byte.lineFeed

/-- Whatever has been asked of a stream, with its next token it gives the doc comment that the
separators before that token leave. Once taken it is gone, and the draw has dropped what the stream
kept before. -/
theorem session_docs (htext : text.length + 1 < Offset.limit) (requests : List Request) :
    ∃ found responses t token t', lexemes text = .ok found ∧
      (ofBytes text).session requests = .ok (responses, t) ∧ t.next = .ok (token, t') ∧
      Attached text (Placed.between t.position token.span.start (Placed.row 0 found))
        ⟨t.position, token.span.start⟩ t'.takeDoc.1 ∧
      (∀ later : List Request, (∀ request ∈ later, request.draws = false) →
        ∃ answers last, t'.takeDoc.2.session later = .ok (answers, last) ∧
          last.takeDoc.1 = none) ∧
      ∀ kept, { t with doc := kept }.next = .ok (token, t') := by
  have hlimit : text.length < Offset.limit := by omega
  obtain ⟨pieces, hcuts⟩ := exists_cuts hlimit
  obtain ⟨responses, t, rest, cooked, ends, hsession, _, hdelivers⟩ :=
    session_ofBytes htext hcuts requests
  obtain ⟨front, rfl⟩ := hdelivers.suffix
  obtain ⟨token, t', gap, back, hnext, rfl, htrivia, hstart, hdoc⟩ := hdelivers.faces.next_gap
  have hposition := hdelivers.faces.position_eq hcuts
  have hgap := Placed.between_row hcuts.bytes_ne_nil hposition hstart
  have htiles := Placed.tiles_row t.position gap
  rw [← hstart] at htiles
  have hlies : ∀ x ∈ Placed.row t.position (gap.map Piece.toLexeme), x.LiesIn text := by
    intro x hx
    rw [← hgap] at hx
    exact Placed.liesIn_row hcuts [] x (List.mem_filter.mp hx).1
  refine ⟨_, responses, t, token, t', lexemes_eq hlimit hcuts, hsession, hnext, ?_, ?_,
    fun _ => hnext⟩
  · rw [hgap]
    refine ⟨Placed.isTrivia_row htrivia t.position, htiles, ?_, ?_⟩
    · have hwhole := hcuts.flatMap_bytes
      rw [List.flatMap_append, List.flatMap_append] at hwhole
      have hdocs := doc_passAll (t := { t with doc := none }) rfl (front.flatMap Piece.bytes) gap
        (back.flatMap Piece.bytes)
      rw [hwhole, ← hposition] at hdocs
      exact hdoc.trans hdocs
    · intro x hlast
      exact blanks_after_comment (Placed.isTrivia_row htrivia t.position) hlies htiles hlast
  · intro later hdraws
    exact session_of_doc_eq_none hdraws rfl

/-- After the word, two doc comments side by side before a quote that is left open. -/
theorem session_docs_open_quote :
    let text : Bytes := [0x2f, 0x2a, 0x2a, 0x61, 0x2a, 0x2f, 0x23, 0x0a, 0x78, 0x2f, 0x2a, 0x2a,
      0x62, 0x2a, 0x2f, 0x2f, 0x2a, 0x2a, 0x63, 0x2a, 0x2f, 0x20, 0x27]
    text.length + 1 < Offset.limit ∧
      ∃ found responses t token t', lexemes text = .ok found ∧
        (ofBytes text).session [.next] = .ok (responses, t) ∧ t.next = .ok (token, t') ∧
        Attached text (Placed.between t.position token.span.start (Placed.row 0 found))
          ⟨t.position, token.span.start⟩ t'.takeDoc.1 ∧
        (∀ later : List Request, (∀ request ∈ later, request.draws = false) →
          ∃ answers last, t'.takeDoc.2.session later = .ok (answers, last) ∧
            last.takeDoc.1 = none) ∧
        ∀ kept, { t with doc := kept }.next = .ok (token, t') :=
  ⟨by decide, session_docs (by decide) _⟩

end TokenStream

end IdlLexis
