import IdlLexis.Text.Escaped
import IdlLexis.Text.Extending
import IdlLexis.Text.Printable
/-!
A text on one line between double quotes. Characters that would not show by themselves are
written as escapes; a single quote needs none.
-/

namespace IdlLexis

namespace Text

/-- A character by its number in hexadecimal. -/
def numberedChar (c : Char) : List Char :=
  ['\\', 'u', '{'] ++ Nat.toDigits 16 c.toNat ++ ['}']

def quotedChar (c : Char) : List Char :=
  if c = '\x00' then ['\\', '0']
  else if c = '\t' then ['\\', 't']
  else if c = '\r' then ['\\', 'r']
  else if c = '\n' then ['\\', 'n']
  else if c = '"' ∨ c = '\\' then ['\\', c]
  else if isExtending c ∨ !isPrintable c then numberedChar c
  else [c]

def quoted (text : List Char) : List Char := '"' :: text.flatMap quotedChar ++ ['"']

end Text

end IdlLexis
