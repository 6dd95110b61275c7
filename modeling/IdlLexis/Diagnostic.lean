/-!
A diagnostic reports one error of a text: its code, the line and the offset at which the
offending token starts, and a message. A code stands for a class of errors and has a fixed
number.
-/

namespace IdlLexis

inductive Diagnostic.Code
  | strayByte
  | openQuote
  | openComment
  | integer
  | real
  | escape
  | encoding
  deriving DecidableEq, Repr

namespace Diagnostic.Code

def all : List Code := [strayByte, openQuote, openComment, integer, real, escape, encoding]

def text : Code → String
  | strayByte => "E0001"
  | openQuote => "E0002"
  | openComment => "E0003"
  | integer => "E0004"
  | real => "E0005"
  | escape => "E0006"
  | encoding => "E0007"

def description : Code → String
  | strayByte => "unrecognized character"
  | openQuote => "unterminated string literal"
  | openComment => "unterminated block comment"
  | integer => "invalid integer literal"
  | real => "invalid float literal"
  | escape => "invalid escape sequence"
  | encoding => "string literal is not valid UTF-8"

/-- Two spellings of a code are the same if they differ only in the case of ASCII letters. -/
def ofText? (spelling : String) : Option Code :=
  all.find? fun code =>
    code.text.toList.map Char.toLower == spelling.toList.map Char.toLower

theorem mem_all (code : Code) : code ∈ all := by
  cases code <;> decide

end Diagnostic.Code

structure Diagnostic where
  code : Diagnostic.Code
  line : Nat
  offset : Nat
  message : String
  deriving DecidableEq, Repr

namespace Diagnostic

def display (d : Diagnostic) : String := "line " ++ toString d.line ++ ": " ++ d.message

end Diagnostic

end IdlLexis
