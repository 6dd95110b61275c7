import IdlLexis.Text.Blank
import IdlLexis.Text.Line
/-!
The text of a doc comment: its lines without the comment's marks, without the star that may
begin each line, without the indentation that all of them share, and without blank lines at
either end.
-/

namespace IdlLexis

namespace DocComment

open Text

def body (comment : List Char) : List Char :=
  let opened := (List.isPrefixOf? ['/', '*', '*'] comment).getD comment
  (List.isSuffixOf? ['*', '/'] opened).getD opened

/-- A star that begins a line goes, with the blanks before it. -/
def withoutGutter (line : List Char) : List Char :=
  match trimStart line with
  | '*' :: rest => rest
  | _ => line

/-- The length in bytes of the blanks that begin a line. -/
def indentation (line : List Char) : Nat := byteLength (line.takeWhile isBlank)

def sharedIndentation (lines : List (List Char)) : Nat :=
  (((lines.filter (!isAllBlank ·)).map indentation).min?).getD 0

/-- A line less its first bytes; it stays whole if they end inside a character. -/
def dedent (indent : Nat) (line : List Char) : List Char :=
  if isAllBlank line then [] else trimEnd ((dropBytes? indent line).getD line)

def withoutBlankEnds (lines : List (List Char)) : List (List Char) :=
  ((lines.reverse.dropWhile List.isEmpty).reverse).dropWhile List.isEmpty

def textLines (comment : List Char) : List (List Char) :=
  let lines := (lines (body comment)).map withoutGutter
  withoutBlankEnds (lines.map (dedent (sharedIndentation lines)))

def text (comment : List Char) : List Char := ['\n'].intercalate (textLines comment)

def plainText (comment : String) : String := String.ofList (text comment.toList)

end DocComment

end IdlLexis
