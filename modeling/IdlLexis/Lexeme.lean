import IdlLexis.Mark
/-!
A lexeme is a stretch of a text that one lexical rule covers: its category and its length.
Where it starts follows from where the lexemes before it end.
-/

namespace IdlLexis

inductive Lexeme.Category
  | word
  | integer
  | hexInteger
  | real
  | quoted (quote : Quote)
  | symbol (symbol : Symbol)
  | blank
  | newline
  | lineComment
  | blockComment
  | docComment
  | strayByte
  | openQuote
  | openComment
  | endOfText
  deriving DecidableEq, Repr

structure Lexeme where
  category : Lexeme.Category
  length : Nat
  deriving DecidableEq, Repr

namespace Lexeme.Category

def all : List Category :=
  [.word, .integer, .hexInteger, .real, .quoted .double, .quoted .single] ++
    Symbol.all.map .symbol ++
    [.blank, .newline, .lineComment, .blockComment, .docComment,
      .strayByte, .openQuote, .openComment, .endOfText]

/-- Literals and words come first, then symbols, what separates tokens, errors and the end. -/
def number : Category → Nat
  | word => 0
  | integer => 1
  | hexInteger => 2
  | real => 3
  | quoted .double => 4
  | quoted .single => 5
  | symbol s => 32 + Symbol.all.idxOf s
  | blank => 112
  | newline => 113
  | lineComment => 114
  | blockComment => 115
  | docComment => 116
  | strayByte => 240
  | openQuote => 241
  | openComment => 242
  | endOfText => 255

def ofNumber? (n : Nat) : Option Category := all.find? (·.number == n)

def name : Category → String
  | word => "identifier"
  | integer => "integer literal"
  | hexInteger => "hex integer literal"
  | real => "float literal"
  | quoted .double => "double-quoted string"
  | quoted .single => "single-quoted string"
  | symbol s => "`" ++ s.spelling ++ "`"
  | blank => "whitespace"
  | newline => "newline"
  | lineComment => "line comment"
  | blockComment => "block comment"
  | docComment => "doc comment"
  | strayByte => "invalid byte"
  | openQuote => "unterminated string"
  | openComment => "unterminated block comment"
  | endOfText => "end of file"

/-- The bytes that every lexeme of the category covers, where they are always the same. -/
def spelling? : Category → Option String
  | symbol s => some s.spelling
  | _ => none

/-- What only separates tokens. -/
def isTrivia : Category → Bool
  | blank | newline | lineComment | blockComment | docComment => true
  | _ => false

def isError : Category → Bool
  | strayByte | openQuote | openComment => true
  | _ => false

theorem mem_all (c : Category) : c ∈ all := by
  cases c with
  | quoted quote => cases quote <;> decide
  | symbol s => cases s <;> decide
  | _ => decide

theorem ofNumber?_number (c : Category) : ofNumber? c.number = some c := by
  cases c with
  | quoted quote => cases quote <;> decide
  | symbol s => cases s <;> decide
  | _ => decide

end Lexeme.Category

end IdlLexis
