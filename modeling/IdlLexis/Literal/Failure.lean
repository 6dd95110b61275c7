import IdlLexis.Diagnostic
/-!
Why a literal has no value. Each cause belongs to one class of diagnostics and has one wording.
-/

namespace IdlLexis

namespace Literal

inductive Failure
  | integerOutOfRange (text : String)
  | malformedInteger (text : String)
  | realOutOfRange (text : String)
  | malformedReal (text : String)
  | unknownEscape (escape : String)
  | notACharacter (escape : String)
  | loneBackslash
  | rawLineFeed
  | unclosed
  | illFormedText
  deriving DecidableEq, Repr

namespace Failure

def code : Failure → Diagnostic.Code
  | integerOutOfRange _ | malformedInteger _ => .integer
  | realOutOfRange _ | malformedReal _ => .real
  | unknownEscape _ | notACharacter _ | loneBackslash => .escape
  | rawLineFeed | unclosed => .openQuote
  | illFormedText => .encoding

def message : Failure → String
  | integerOutOfRange text =>
      "integer literal `" ++ text ++ "` does not fit in a 64-bit signed integer"
  | malformedInteger text => "malformed integer literal `" ++ text ++ "`"
  | realOutOfRange text => "float literal `" ++ text ++ "` is out of range"
  | malformedReal text => "malformed float literal `" ++ text ++ "`"
  | unknownEscape escape => "invalid escape sequence `\\" ++ escape ++ "`"
  | notACharacter escape =>
      "escape `\\" ++ escape ++ "` is not a valid Unicode scalar value"
  | loneBackslash => "string literal ends with a lone backslash"
  | rawLineFeed => "string literal contains a raw newline"
  | unclosed => "unterminated string literal"
  | illFormedText => "string literal is not valid UTF-8"

end Failure

end Literal

end IdlLexis
