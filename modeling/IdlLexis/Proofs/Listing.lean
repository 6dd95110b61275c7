import IdlLexis.Proofs.Text.OneLine
import IdlLexis.Proofs.TokenStream.Diagnostics
import IdlLexis.Proofs.TokenStream.Observation
import IdlLexis.Proofs.TokenStream.Spelling
/-!
The listing of a text: a line for each token up to the end of the text, a line for each error, and
the exit code. Nothing that is shown goes on in another line. Names and numbers are made of bytes
among which there is no line feed, what a quoted literal stands for is written with escapes, and a
message about an escape shows a part of a body that has no line feed in it.
-/

namespace IdlLexis

open Lexeme (Category Cuts First Piece Placed)
open Text (OneLine HasLines oneLine_lossy)

/-! What a failure shows of the literal. -/

namespace Literal

variable {quote letter : Byte} {body after text : Bytes} {failure : Failure}

/-- The part of the literal that the message repeats. -/
def Failure.shown : Failure → String
  | integerOutOfRange text | malformedInteger text => text
  | realOutOfRange text | malformedReal text => text
  | unknownEscape escape | notACharacter escape => escape
  | loneBackslash | rawLineFeed | unclosed | illFormedText => ""

theorem Failure.oneLine_message (h : OneLine failure.shown) : OneLine failure.message := by
  cases failure with
  | loneBackslash | rawLineFeed | unclosed | illFormedText => decide
  | _ => exact (OneLine.append (by decide) h).append (by decide)

namespace Quoted

theorem Refusal.oneLine_shown (h : Refusal quote letter after failure)
    (hline : Byte.lineFeed ∉ letter :: after) : OneLine failure.shown := by
  cases h with
  | notACharacter _ hbegins => exact oneLine_lossy fun hmem => hline (hbegins.subset hmem)
  | unknown => exact oneLine_lossy fun hmem => hline (List.mem_of_mem_take hmem)

theorem oneLine_of_readBody (h : readBody quote body = .error failure) :
    OneLine failure.shown := by
  rcases failure_of_readBody h with ⟨_, rfl⟩ | rfl | ⟨hline, hresolve⟩
  · decide
  · decide
  · obtain ⟨row, rest, hparses, hhalts⟩ := exists_parses quote hline
    rw [hparses.text_eq, List.mem_append, not_or] at hline
    rw [hresolve] at hhalts
    cases hhalts with
    | lone => decide
    | refused hrefused =>
        have hafter := List.not_mem_of_not_mem_cons hline.2
        exact (refusal_of_escapesOf hrefused).oneLine_shown hafter

theorem oneLine_of_decode (h : decode text = .error failure) : OneLine failure.shown := by
  unfold decode at h
  split at h
  · cases h
    decide
  · split at h
    · exact oneLine_of_readBody h
    · cases h
      decide

end Quoted

end Literal

/-! What is said of a lexeme of a text. -/

namespace Token

variable {category : Category} {front text : Bytes} {complaint : Complaint} {name : String}

theorem oneLine_of_complaint (hfirst : First category front text)
    (hmeaning : meaning category front = some (.error complaint)) : OneLine complaint.message := by
  cases category with
  | integer | hexInteger =>
      obtain ⟨failure, hdecode, rfl⟩ := Kind.ofLiteral_eq_error (Option.some.inj hmeaning)
      obtain rfl := hfirst.decodes.integer (by simp) failure hdecode
      exact Literal.Failure.oneLine_message (oneLine_lossy (hfirst.lineFeed_not_mem rfl))
  | real =>
      obtain ⟨failure, hdecode, rfl⟩ := Kind.ofLiteral_eq_error (Option.some.inj hmeaning)
      obtain rfl := hfirst.decodes.real rfl failure hdecode
      exact Literal.Failure.oneLine_message (oneLine_lossy (hfirst.lineFeed_not_mem rfl))
  | quoted quote =>
      obtain ⟨failure, hdecode, rfl⟩ := Kind.ofLiteral_eq_error (Option.some.inj hmeaning)
      exact Literal.Failure.oneLine_message (Literal.Quoted.oneLine_of_decode hdecode)
  | strayByte =>
      cases hmeaning
      have hbyte := Text.oneLine_ofList (Text.lineFeed_not_mem_escapedByte (front.headD 0))
      exact (OneLine.append (by decide) hbyte).append (by decide)
  | openQuote | openComment =>
      cases hmeaning
      decide
  | _ => cases hmeaning

theorem oneLine_of_identifier (hfirst : First category front text)
    (hmeaning : meaning category front = some (.ok (.identifier name))) : OneLine name := by
  cases category with
  | word =>
      have hword := Except.ok.inj (Option.some.inj hmeaning)
      unfold Kind.ofWord at hword
      split at hword
      · contradiction
      · cases hword
        exact oneLine_lossy (hfirst.lineFeed_not_mem rfl)
  | integer | hexInteger | real | quoted =>
      obtain ⟨value, hvalue⟩ := Kind.exists_of_ofLiteral (Option.some.inj hmeaning)
      cases hvalue
  | _ => cases hmeaning

end Token

/-! The lines of a report. -/

theorem Token.Class.oneLine_display (c : Token.Class) : OneLine c.display := by
  have hall : ∀ c ∈ Token.Class.all, OneLine c.display := by decide
  exact hall c c.mem_all

theorem Diagnostic.Code.oneLine_text (code : Diagnostic.Code) : OneLine code.text := by
  have hall : ∀ code ∈ Diagnostic.Code.all, OneLine code.text := by decide
  exact hall code code.mem_all

namespace Report

variable {path : String} {token : Token} {d : Diagnostic} {kind : Token.Kind}

/-- Of all that a token carries only a name is shown as it is. -/
theorem oneLine_payload (h : ∀ name, kind = .identifier name → OneLine name) :
    OneLine (payload kind) := by
  have hspace : OneLine " " := by decide
  have hempty : OneLine "" := by decide
  cases kind with
  | identifier name => exact hspace.append (h name rfl)
  | integer value => exact hspace.append (Text.oneLine_intRepr value)
  | real value => exact hspace.append value.oneLine_display
  | text value =>
      have hquoted := Text.oneLine_ofList (Text.lineFeed_not_mem_quoted value.toList)
      exact hspace.append hquoted
  | endOfText | symbol | keyword | error => exact hempty

theorem oneLine_tokenLine (h : ∀ name, token.kind = .identifier name → OneLine name) :
    OneLine (tokenLine token) := by
  have hline : OneLine (toString token.line) := Text.oneLine_natRepr _
  have hspan : OneLine token.span.display :=
    ((Text.oneLine_natRepr _).append (by decide)).append (Text.oneLine_natRepr _)
  have hkind : OneLine token.kind.display := token.kind.toClass.oneLine_display
  exact ((((hline.append (by decide)).append hspan).append (by decide)).append hkind).append
    (oneLine_payload h)

theorem oneLine_diagnosticLine (hpath : OneLine path) (hmessage : OneLine d.message) :
    OneLine (diagnosticLine path d) := by
  have hline : OneLine ("line " ++ toString d.line) :=
    OneLine.append (by decide) (Text.oneLine_natRepr _)
  have hdisplay : OneLine d.display := (hline.append (by decide)).append hmessage
  have hcode : OneLine d.code.text := d.code.oneLine_text
  exact ((((hpath.append (by decide)).append hdisplay).append (by decide)).append hcode).append
    (by decide)

end Report

/-! The draws up to the end of a text, and what they leave in the log. -/

namespace TokenStream

variable {t last : TokenStream} {text : Bytes} {pieces rest : List Piece} {token : Token}
  {drawn : List Token} {cooked : List (Token × List Diagnostic)} {ends count : Nat}

theorem Faces.eq_endOf_of_nextTimes (h : t.Faces text pieces)
    (htimes : t.nextTimes count = .ok (drawn, last)) :
    ∀ token ∈ drawn, token.isEnd = true → token = endOf text := by
  induction count generalizing t pieces drawn with
  | zero =>
      cases htimes
      simp
  | succ count ih =>
      obtain ⟨token, t', rest, hnext, hdelivers⟩ := h.next_delivers
      rw [nextTimes_succ hnext] at htimes
      obtain ⟨⟨later, stream⟩, hlater, hpair⟩ := Fault.map_eq_ok.mp htimes
      cases hpair
      rcases hdelivers with ⟨htoken, hdelivers⟩ | ⟨diagnostics, hgoes, _, hdelivers⟩
      · exact List.forall_mem_cons.mpr ⟨fun _ => htoken, ih hdelivers.faces hlater⟩
      · refine List.forall_mem_cons.mpr ⟨?_, ih hdelivers.faces hlater⟩
        intro hend
        exact absurd (hgoes.symm.trans hend) Bool.false_ne_true

/-- The draws up to the end of the text deliver all its pieces and then the end once. -/
theorem exists_tokens (htext : text.length + 1 < Offset.limit) (hcuts : Cuts text pieces) :
    ∃ tokens last, (ofBytes text).tokens = .ok (tokens, last) ∧
      (∀ earlier ∈ tokens, earlier.isEnd = false) ∧ last.endToken.isEnd = true ∧
      (ofBytes text).nextTimes (tokens ++ [last.endToken]).length =
        .ok (tokens ++ [last.endToken], last) ∧
      tokens ++ [last.endToken] = delivered text (cookAll 0 1 pieces) 1 ∧
      (ofBytes text).Delivers text pieces (cookAll 0 1 pieces) 1 last [] := by
  have hfaces := faces_ofBytes_of_lt htext hcuts
  obtain ⟨tokens, token, last, _, htokens, hgo, hend, htimes, _⟩ := hfaces.tokens_nextTimes
  obtain ⟨_, hcooked, hlog, hlast⟩ := hfaces.tokens
  cases htokens.symm.trans hcooked
  obtain rfl : token = last.endToken := by
    rw [hlast.endToken_eq]
    exact hfaces.eq_endOf_of_nextTimes htimes token (by simp) hend
  refine ⟨_, last, htokens, hgo, hend, htimes, ?_,
    hlast, List.nil_suffix, (List.append_nil _).symm, hlog, .inr rfl⟩
  rw [hlast.endToken_eq]
  rfl

theorem oneLine_of_delivered (hcuts : Cuts text pieces) (hcooked : cooked <+: cookAll 0 1 pieces)
    (htoken : token ∈ delivered text cooked ends) : OneLine (Report.tokenLine token) := by
  apply Report.oneLine_tokenLine
  intro name hname
  rcases mem_delivered hcuts hcooked htoken with rfl | ⟨_, x, _, hlies, hcook⟩
  · contradiction
  · obtain ⟨reading, hmeaning, hreading⟩ := Option.map_eq_some_iff.mp hcook
    cases reading with
    | error complaint =>
        cases hreading
        contradiction
    | ok kind =>
        cases hreading
        obtain rfl : kind = .identifier name := hname
        exact Token.oneLine_of_identifier hlies.first hmeaning

theorem Delivers.oneLine_message (hcuts : Cuts text pieces)
    (h : (ofBytes text).Delivers text pieces cooked ends t rest) :
    ∀ d ∈ t.log.toList, OneLine d.message := by
  intro d hd
  obtain ⟨x, _, hlies, complaint, hmeaning, rfl⟩ := h.exists_complaint hcuts hd
  exact Token.oneLine_of_complaint hlies.first hmeaning

end TokenStream

namespace Report

variable {path : String} {text : Bytes} {pieces rest : List Piece} {t : TokenStream}
  {cooked : List (Token × List Diagnostic)} {ends : Nat}

/-- What a report writes and returns, held against the tokens that were drawn from a text and the
diagnostics that were logged meanwhile. -/
structure Lists (path : String) (drawn : List Token) (log : List Diagnostic) (report : Report) :
    Prop where
  output_lines : HasLines (joinLines report.output) (drawn.map tokenLine)
  error_lines : HasLines (joinLines report.errors) (log.map (diagnosticLine path))
  places_eq : log.map Diagnostic.place = (drawn.filter Token.isError).map Token.place
  oneLine_message : ∀ d ∈ log, OneLine d.message
  exit_zero_iff : report.exitCode = 0 ↔ ∀ token ∈ drawn, token.isError = false
  exit_one_iff : report.exitCode = 1 ↔ ∃ token ∈ drawn, token.isError = true

theorem lists_of_delivers (hpath : OneLine path) (hcuts : Cuts text pieces)
    (h : (TokenStream.ofBytes text).Delivers text pieces cooked ends t rest) :
    Lists path (TokenStream.delivered text cooked ends) t.log.toList
      ⟨(TokenStream.delivered text cooked ends).map tokenLine,
        t.log.toList.map (diagnosticLine path), if t.failed then 1 else 0⟩ := by
  have hmessages := h.oneLine_message hcuts
  have hplaces := h.places_eq hcuts
  have hfailed := TokenStream.failed_iff_of_places hplaces
  constructor
  case output_lines =>
    apply Text.hasLines_joinLines
    rw [List.forall_mem_map]
    exact fun token htoken => TokenStream.oneLine_of_delivered hcuts h.isPrefix htoken
  case error_lines =>
    apply Text.hasLines_joinLines
    rw [List.forall_mem_map]
    exact fun d hd => oneLine_diagnosticLine hpath (hmessages d hd)
  case places_eq => exact hplaces
  case oneLine_message => exact hmessages
  case exit_zero_iff =>
    have hnone : t.failed = false ↔
        ∀ token ∈ TokenStream.delivered text cooked ends, token.isError = false := by
      rw [← Bool.not_eq_true, hfailed]
      simp
    rw [← hnone]
    cases t.failed <;> simp
  case exit_one_iff =>
    rw [← hfailed]
    cases t.failed <;> simp

/-- The report on a text writes a line for each token up to the first end of the text and a line for
each error among these, in their order, and no line feeds but those that end the lines. Its exit
code is zero if there is no error, and one if there is. -/
theorem answer_lex (htext : text.length + 1 < Offset.limit) (hpath : '\n' ∉ path.toList)
    (more : List String) :
    ∃ tokens token t report,
      (TokenStream.ofBytes text).nextTimes (tokens ++ [token]).length =
        .ok (tokens ++ [token], t) ∧
      (∀ earlier ∈ tokens, earlier.isEnd = false) ∧ token.isEnd = true ∧
      answer (Command.ofArguments ("lex" :: path :: more)) (.ok text) = .ok report ∧
      Lists path (tokens ++ [token]) t.log.toList report := by
  have hlimit : text.length < Offset.limit := by omega
  obtain ⟨pieces, hcuts⟩ := exists_cuts hlimit
  obtain ⟨tokens, last, htokens, hgo, hend, htimes, hdrawn, hdelivers⟩ :=
    TokenStream.exists_tokens htext hcuts
  have hlists := lists_of_delivers hpath hcuts hdelivers
  rw [← hdrawn] at hlists
  refine ⟨tokens, last.endToken, last, _, htimes, hgo, hend, ?_, hlists⟩
  change listing path text = _
  rw [listing, htokens]
  rfl

/-- A string whose value is a line feed, one with an unknown escape, and a zero byte. -/
theorem answer_lex_escaped_line_feed :
    let text : Bytes := [0x22, 0x5c, 0x6e, 0x22, 0x20, 0x22, 0x5c, 0xff, 0x22, 0x0a, 0x00]
    let report : Report :=
      { output := ["1:0..4 string literal \"\\n\"", "1:5..9 lexical error",
          "2:10..11 lexical error", "2:11..11 end of file"]
        errors := ["a.thrift:line 1: invalid escape sequence `\\\uFFFD` [E0006]",
          "a.thrift:line 2: unexpected character `\\x00` [E0001]"]
        exitCode := 1 }
    answer (Command.ofArguments ["lex", "a.thrift"]) (.ok text) = .ok report ∧
      ∃ drawn t, (TokenStream.ofBytes text).nextTimes drawn.length = .ok (drawn, t) ∧
        Lists "a.thrift" drawn t.log.toList report := by
  intro text report
  have hreport : answer (Command.ofArguments ["lex", "a.thrift"]) (.ok text) = .ok report := by
    decide +kernel
  obtain ⟨tokens, token, t, _, htimes, _, _, hanswer, hlists⟩ :=
    @answer_lex "a.thrift" text (by decide) (by decide) []
  cases hanswer.symm.trans hreport
  exact ⟨hreport, _, t, htimes, hlists⟩

end Report

end IdlLexis
