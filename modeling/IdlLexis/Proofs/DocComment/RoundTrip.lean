import IdlLexis.Proofs.DocComment.Layout
import IdlLexis.Proofs.RoundTrip
/-!
Doc comments survive being written and read. A comment that lines are laid out as is one lexeme,
and what follows it up to a token is passed without touching its text; so the token comes with the
lines that were laid out.
-/

namespace IdlLexis

open Lexeme (Cuts First Piece)

namespace DocComment

variable {lines : List (List Char)} {inner : List Char}

theorem encode_marked (inner : List Char) :
    Utf8.encode (marked inner) =
      [Byte.slash, Byte.star] ++ (Byte.star :: Utf8.encode inner) ++ [Byte.star, Byte.slash] := by
  rw [marked, Utf8.encode_append, Utf8.encode_append]
  rfl

theorem LaysOut.closedComment (h : LaysOut lines inner)
    (hlines : ∀ line ∈ lines, ¬ ['*', '/'] <:+: line) :
    Lexeme.ClosedComment (Utf8.encode (marked inner)) := by
  have hopen : ¬ ['*', '/'] <:+: ['*'] ++ (inner ++ ['*']) :=
    Text.pair_not_infix_append (by decide) (h.leavesOpen hlines) fun _ => h.head_ne ['*']
  have hbytes : ¬ [Byte.star, Byte.slash] <:+: Utf8.encode (['*'] ++ (inner ++ ['*'])) :=
    Utf8.pair_not_infix_encode (by decide) (by decide) hopen
  rw [Utf8.encode_append, Utf8.encode_append] at hbytes
  exact ⟨Byte.star :: Utf8.encode inner, hbytes, encode_marked inner⟩

theorem LaysOut.first (h : LaysOut lines inner)
    (hlines : ∀ line ∈ lines, ¬ ['*', '/'] <:+: line) (tail : Bytes) :
    First .docComment (Utf8.encode (marked inner)) (Utf8.encode (marked inner) ++ tail) := by
  have hclosed := h.closedComment hlines
  have hdoc : Lexeme.BeginsDoc (Utf8.encode (marked inner)) := by
    rw [encode_marked]
    refine ⟨⟨Utf8.encode inner ++ [Byte.star, Byte.slash], by simp⟩, ?_⟩
    simp only [List.length_append, List.length_cons, List.length_nil]
    omega
  exact .inl (Lexeme.isLongest_closedComment (.docComment hclosed hdoc) hclosed)

theorem plainText_marked (hnormal : Normal lines) (h : LaysOut lines inner) :
    plainText (Utf8.lossy (Utf8.encode (marked inner))) =
      String.ofList (['\n'].intercalate lines) := by
  rw [plainText, Utf8.lossy, String.toList_ofList, Utf8.decodeLossy_encode, text_marked hnormal h]

end DocComment

namespace TokenStream

variable {t : TokenStream} {gap : List Piece}

theorem doc_passAll_of_blank (h : ∀ p ∈ gap, p.category = .blank ∨ p.category = .newline) :
    (t.passAll gap).doc = t.doc := by
  induction gap generalizing t with
  | nil => rfl
  | cons p gap ih =>
      obtain ⟨hp, hgap⟩ := List.forall_mem_cons.mp h
      have hdoc : (t.pass p).doc = t.doc := by
        rw [pass]
        rcases hp with hp | hp <;> rw [hp] <;> rfl
      exact (ih hgap).trans hdoc

/-- The text is a comment that the lines are laid out as and, behind blanks and line feeds, a name
that is not reserved. -/
inductive Documents (lines : List (List Char)) (name : String) : Bytes → Prop
  | intro {inner : List Char} {gap : Bytes} (hlaid : DocComment.LaysOut lines inner)
      (hgap : ∀ b ∈ gap, b = Byte.space ∨ b = Byte.tab ∨ b = Byte.lineFeed)
      (hname : Lexeme.Covers .word (Utf8.encode name.toList))
      (hreserved : ∀ k : Keyword, k.spelling ≠ name) :
      Documents lines name
        (Utf8.encode (DocComment.marked inner) ++ (gap ++ Utf8.encode name.toList))

/-- Lines laid out as a doc comment before a name come back with the name. -/
theorem next_documented {lines : List (List Char)} {name : String} {text : Bytes}
    (hnormal : DocComment.Normal lines) (hdocuments : Documents lines name text)
    (htext : text.length + 1 < Offset.limit) :
    ∃ token t, (ofBytes text).next = .ok (token, t) ∧ token.kind = .identifier name ∧
      t.takeDoc.1 = some (String.ofList (['\n'].intercalate lines)) := by
  obtain @⟨inner, gap, hlaid, hgap, hname, hreserved⟩ := hdocuments
  have hwritten : (Token.Kind.identifier name).Writes (Utf8.encode name.toList) :=
    .identifier hname hreserved
  obtain ⟨category, hword, hmeaning, hstops⟩ := hwritten.cuts
  have hblanks : ∀ b ∈ gap, Byte.isBlank b = true ∨ b = Byte.lineFeed := by
    intro b hb
    rcases hgap b hb with rfl | rfl | rfl
    · exact .inl rfl
    · exact .inl rfl
    · exact .inr rfl
  obtain ⟨between, hrest, hbetween⟩ := hword.separated hblanks hstops
  have hcuts := Cuts.cons (hlaid.first hnormal.leavesOpen (gap ++ Utf8.encode name.toList)) hrest
  obtain ⟨token, t, rest, hnext, hdraws, _⟩ := (faces_ofBytes_of_lt htext hcuts).next
  have hpassed := (hdraws.of_none rfl).of_gap
    fun p hp => Lexeme.isTrivia_of_blank (hbetween p hp)
  obtain ⟨rfl, rfl, _⟩ := hpassed.of_some hmeaning
  refine ⟨_, _, hnext, rfl, ?_⟩
  have hdoc := congrArg some (DocComment.plainText_marked hnormal hlaid)
  exact (docAfter_of_some hmeaning).trans ((doc_passAll_of_blank hbetween).trans hdoc)

/-- Three lines: one with a star of its own, an empty one, and one behind a blank of two bytes. -/
theorem next_documented_inner_star :
    let lines : List (List Char) := [['*', 'a'], [], ['\u00a0', '\u00e9', '/']]
    let inner : List Char := ['\r', '\n', '\t', '*', ' ', '*', 'a', '\n', '*', ' ',
      '\n', ' ', ' ', '*', ' ', '\u00a0', '\u00e9', '/', '\r', '\n', ' ']
    let text : Bytes := Utf8.encode (DocComment.marked inner) ++
      ([Byte.tab, Byte.lineFeed] ++ Utf8.encode "a.b".toList)
    DocComment.Normal lines ∧ Documents lines "a.b" text ∧ text.length + 1 < Offset.limit ∧
      ∃ token t, (ofBytes text).next = .ok (token, t) ∧ token.kind = .identifier "a.b" ∧
        t.takeDoc.1 = some (String.ofList (['\n'].intercalate lines)) := by
  intro lines inner text
  have hnormal : DocComment.Normal lines := by
    refine ⟨by decide, by decide, ?_, by decide, by decide, '*', ['a'], by decide, by decide⟩
    simp [lines, Text.Trimmed, Text.isBlank]
  have hlaid : DocComment.LaysOut lines inner :=
    @DocComment.LaysOut.line ['\r', '\n'] ['\t'] _ _ _ .returned (by simp [DocComment.Indent])
      (@DocComment.LaysOut.line ['\n'] [] _ _ _ .lineFeed (by simp [DocComment.Indent])
        (@DocComment.LaysOut.line ['\n'] [' ', ' '] _ _ _ .lineFeed (by simp [DocComment.Indent])
          (@DocComment.LaysOut.close ['\r', '\n'] [' '] .returned (by simp [DocComment.Indent]))))
  have hname : Lexeme.Covers .word (Utf8.encode "a.b".toList) :=
    Lexeme.covers_word_iff.mpr ⟨rfl, .dot rfl (.word rfl .nil)⟩
  have hreserved : ∀ k : Keyword, k.spelling ≠ "a.b" := by
    intro k
    cases k <;> decide
  have hgap : ∀ b ∈ [Byte.tab, Byte.lineFeed],
      b = Byte.space ∨ b = Byte.tab ∨ b = Byte.lineFeed := by simp
  have hdocuments : Documents lines "a.b" text := .intro hlaid hgap hname hreserved
  have htext : text.length + 1 < Offset.limit := by decide +kernel
  exact ⟨hnormal, hdocuments, htext, next_documented hnormal hdocuments htext⟩

end TokenStream

end IdlLexis
