import IdlLexis.Literal.Failure
import IdlLexis.Mark
import IdlLexis.Text.Utf8
/-!
Quoted literals. The body between the quotes is a row of items: bytes that stand for
themselves, and escapes, which a backslash begins. Each style of quote has its own escapes. The
bytes that the items stand for must be well-formed UTF-8.
-/

namespace IdlLexis

namespace Literal

/-- What an escape stands for, and how many bytes it takes after its letter. -/
structure Escape where
  bytes : Bytes
  width : Nat
  deriving DecidableEq, Repr

namespace Escape

def byte (b : Byte) : Except Failure Escape := .ok ⟨[b], 0⟩

def unknown (letter : Byte) (rest : Bytes) (width : Nat) : Failure :=
  .unknownEscape (Utf8.lossy (letter :: rest.take width))

/-- The value of `width` digits, all of which are there and are digits. -/
def number? (radix width : Nat) (text : Bytes) : Option Nat := do
  guard (width ≤ text.length)
  let values ← (text.take width).mapM (Byte.digitValue? radix)
  return values.foldl (fun n digit => n * radix + digit) 0

def hexByte (letter : Byte) (rest : Bytes) : Except Failure Escape :=
  match number? 16 2 rest with
  | some value => .ok ⟨[UInt8.ofNat value], 2⟩
  | none => .error (unknown letter rest 2)

def character (letter : Byte) (rest : Bytes) (width : Nat) : Except Failure Escape :=
  match number? 16 width rest with
  | none => .error (unknown letter rest width)
  | some value =>
      if value.isValidChar then .ok ⟨String.utf8EncodeChar (Char.ofNat value), width⟩
      else .error (.notACharacter (Utf8.lossy (letter :: rest.take width)))

/-- Three octal digits that make up a byte; a zero that does not begin such is a zero byte. -/
def octal (letter : Byte) (rest : Bytes) : Except Failure Escape :=
  match (number? 8 3 (letter :: rest)).filter (· < 256) with
  | some value => .ok ⟨[UInt8.ofNat value], 2⟩
  | none => if letter = Byte.zero then byte 0 else .error (unknown letter rest 0)

/-! The escapes that one letter makes up, as letter and byte. -/

def singleLetters : List (Byte × Byte) :=
  [(0x6e, 0x0a), (0x74, 0x09), (0x5c, 0x5c), (0x27, 0x27), (0x22, 0x22)]

def doubleLetters : List (Byte × Byte) :=
  singleLetters ++
    [(0x72, 0x0d), (0x2f, 0x2f), (0x61, 0x07), (0x62, 0x08), (0x66, 0x0c), (0x76, 0x0b)]

def inSingle (letter : Byte) (rest : Bytes) : Except Failure Escape :=
  match singleLetters.lookup letter with
  | some b => byte b
  | none => .error (unknown letter rest 0)

def inDouble (letter : Byte) (rest : Bytes) : Except Failure Escape :=
  match doubleLetters.lookup letter with
  | some b => byte b
  | none =>
      if letter = 0x78 then hexByte letter rest
      else if letter = 0x75 then character letter rest 4
      else if letter = 0x55 then character letter rest 8
      else if 0x30 ≤ letter ∧ letter ≤ 0x37 then octal letter rest
      else .error (unknown letter rest 0)

end Escape

namespace Quoted

/-- The bytes that a body stands for, given how the escapes of its style read. -/
def resolve (escape : Byte → Bytes → Except Failure Escape) : Bytes → Except Failure Bytes
  | [] => .ok []
  | b :: rest =>
      if b = Byte.backslash then
        match rest with
        | [] => .error .loneBackslash
        | letter :: after =>
            match escape letter after with
            | .error failure => .error failure
            | .ok e =>
                match resolve escape (after.drop e.width) with
                | .error failure => .error failure
                | .ok resolved => .ok (e.bytes ++ resolved)
      else
        match resolve escape rest with
        | .error failure => .error failure
        | .ok resolved => .ok (b :: resolved)
termination_by body => body.length
decreasing_by
  · simp only [List.length_drop, List.length_cons]
    omega
  · exact Nat.lt_succ_self _

/-- The escapes of a quote: a single quote has its own, any other byte those of a double one. -/
def escapesOf (quote : Byte) : Byte → Bytes → Except Failure Escape :=
  if quote = Quote.single.byte then Escape.inSingle else Escape.inDouble

/-- A body without a backslash stands for itself. -/
def bodyBytes (quote : Byte) (body : Bytes) : Except Failure Bytes :=
  if body.contains Byte.backslash then resolve (escapesOf quote) body else .ok body

def readBody (quote : Byte) (body : Bytes) : Except Failure String :=
  if body.contains Byte.lineFeed then .error .rawLineFeed
  else do
    let bytes ← bodyBytes quote body
    match Utf8.decode? bytes with
    | some text => .ok text
    | none => .error .illFormedText

/-- The value of a literal with its quotes. -/
def decode : Bytes → Except Failure String
  | [] => .error .unclosed
  | first :: rest =>
      if (Quote.ofByte? first).isSome ∧ rest.getLast? = some first then
        readBody first rest.dropLast
      else .error .unclosed

end Quoted

end Literal

end IdlLexis
