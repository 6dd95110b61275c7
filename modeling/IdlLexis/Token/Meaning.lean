import IdlLexis.DocComment
import IdlLexis.Lexeme
import IdlLexis.Literal.Quoted
import IdlLexis.Literal.Real
import IdlLexis.Text.Escaped
import IdlLexis.Token
/-!
What a lexeme means to a parser, judged by its category and its bytes alone: nothing if it only
separates tokens, else the kind of a token, or a complaint in place of one.
-/

namespace IdlLexis

structure Complaint where
  code : Diagnostic.Code
  message : String
  deriving DecidableEq, Repr

namespace Token

def Kind.ofWord (text : Bytes) : Kind :=
  match Keyword.ofBytes? text with
  | some k => .keyword k
  | none => .identifier (Utf8.lossy text)

def Kind.ofLiteral {α : Type} (kind : α → Kind) : Except Literal.Failure α → Except Complaint Kind
  | .ok value => .ok (kind value)
  | .error failure => .error ⟨failure.code, failure.message⟩

def strayByteComplaint (text : Bytes) : Complaint :=
  ⟨.strayByte,
    "unexpected character `" ++ String.ofList (Text.escapedByte (text.headD 0)) ++ "`"⟩

def meaning (category : Lexeme.Category) (text : Bytes) : Option (Except Complaint Kind) :=
  match category with
  | .blank | .newline | .lineComment | .blockComment | .docComment => none
  | .endOfText => some (.ok .endOfText)
  | .symbol s => some (.ok (.symbol s))
  | .word => some (.ok (Kind.ofWord text))
  | .integer | .hexInteger => some (Kind.ofLiteral .integer (Literal.Integer.decode text))
  | .real => some (Kind.ofLiteral .real (Literal.Real.decode text))
  | .quoted _ => some (Kind.ofLiteral .text (Literal.Quoted.decode text))
  | .strayByte => some (.error (strayByteComplaint text))
  | .openQuote => some (.error ⟨.openQuote, "unterminated string literal"⟩)
  | .openComment => some (.error ⟨.openComment, "unterminated block comment"⟩)

theorem meaning_eq_none_iff (category : Lexeme.Category) (text : Bytes) :
    meaning category text = none ↔ category.isTrivia = true := by
  cases category <;> simp [meaning, Lexeme.Category.isTrivia]

end Token

end IdlLexis
