import IdlLexis.Decimal.Binary64
import IdlLexis.Offset
import IdlLexis.Token.Class
/-!
A token: its kind, with the value that a word or a literal stands for, the offsets between
which it lies, and the line on which it starts.
-/

namespace IdlLexis

/-- The offsets from `start` up to but not including `stop`. -/
structure Span where
  start : Nat
  stop : Nat
  deriving DecidableEq, Repr

namespace Span

def point (offset : Nat) : Span := ⟨offset, offset⟩

def length (s : Span) : Except Fault Nat := Offset.sub s.stop s.start

def isEmpty (s : Span) : Bool := s.start == s.stop

def display (s : Span) : String := toString s.start ++ ".." ++ toString s.stop

end Span

inductive Token.Kind
  | endOfText
  | symbol (symbol : Symbol)
  | keyword (keyword : Keyword)
  | identifier (name : String)
  | integer (value : Int)
  | real (value : Binary64)
  | text (value : String)
  | error
  deriving DecidableEq, Repr

structure Token where
  kind : Token.Kind
  span : Span
  line : Nat
  deriving DecidableEq, Repr

namespace Token

namespace Kind

def toClass : Kind → Class
  | endOfText => .endOfText
  | symbol s => .symbol s
  | keyword k => .keyword k
  | identifier _ => .identifier
  | integer _ => .integer
  | real _ => .real
  | text _ => .text
  | error => .error

def isKeyword (k : Kind) : Bool := k.toClass.isKeyword

def display (k : Kind) : String := k.toClass.display

/-- Whether two kinds are the same and carry the same value; reals compare as numbers. -/
def same : Kind → Kind → Bool
  | real x, real y => x.sameNumber y
  | k₁, k₂ => k₁ == k₂

end Kind

def isEnd (t : Token) : Bool := t.kind.same .endOfText

theorem isEnd_iff (t : Token) : t.isEnd = true ↔ t.kind = .endOfText := by
  unfold isEnd
  cases t.kind <;> simp [Kind.same]

end Token

end IdlLexis
