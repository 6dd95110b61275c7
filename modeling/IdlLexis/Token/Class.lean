import IdlLexis.Keyword
import IdlLexis.Mark
/-!
The class of a token: what it is without the value that it may carry. Each class has a fixed
number: a symbol that of its byte, the reserved words those from 128 on.
-/

namespace IdlLexis

inductive Token.Class
  | endOfText
  | symbol (symbol : Symbol)
  | keyword (keyword : Keyword)
  | identifier
  | integer
  | real
  | text
  | error
  deriving DecidableEq, Repr

namespace Token.Class

/-- The symbols by the order of their bytes. -/
def symbolsInOrder : List Symbol :=
  [.openParen, .closeParen, .star, .comma, .colon, .semicolon, .less, .equal, .greater,
    .openBracket, .closeBracket, .openBrace, .closeBrace]

/-- All classes by the order of their numbers. -/
def all : List Class :=
  [endOfText] ++ symbolsInOrder.map symbol ++ Keyword.all.map keyword ++
    [identifier, integer, real, text, error]

def number : Class → Nat
  | endOfText => 0
  | symbol s => s.byte.toNat
  | keyword k => 128 + k.rank
  | identifier => 160
  | integer => 161
  | real => 162
  | text => 163
  | error => 255

def ofNumber? (n : Nat) : Option Class := all.find? (·.number == n)

def isKeyword : Class → Bool
  | keyword _ => true
  | _ => false

def isSymbol : Class → Bool
  | symbol _ => true
  | _ => false

/-- The spelling of a class all of whose tokens are spelled alike. -/
def spelling? : Class → Option String
  | symbol s => some s.spelling
  | keyword k => some k.spelling
  | _ => none

def display : Class → String
  | endOfText => "end of file"
  | symbol s => "'" ++ s.spelling ++ "'"
  | keyword k => k.spelling
  | identifier => "identifier"
  | integer => "integer constant"
  | real => "float constant"
  | text => "string literal"
  | error => "lexical error"

theorem mem_all (c : Class) : c ∈ all := by
  cases c with
  | symbol s => cases s <;> decide
  | keyword k => cases k <;> decide
  | _ => decide

theorem ofNumber?_number (c : Class) : ofNumber? c.number = some c := by
  cases c with
  | symbol s => cases s <;> decide
  | keyword k => cases k <;> decide
  | _ => decide

end Token.Class

end IdlLexis
