/-!
The characters with the property White_Space, and the blanks at the two ends of a line.
-/

namespace IdlLexis

namespace Text

def isBlank (c : Char) : Bool :=
  let n := c.toNat
  (0x09 ≤ n && n ≤ 0x0d) || n == 0x20 || n == 0x85 || n == 0xa0 || n == 0x1680 ||
    (0x2000 ≤ n && n ≤ 0x200a) || n == 0x2028 || n == 0x2029 || n == 0x202f ||
    n == 0x205f || n == 0x3000

def isAllBlank (line : List Char) : Bool := line.all isBlank

def trimStart (line : List Char) : List Char := line.dropWhile isBlank

def trimEnd (line : List Char) : List Char := (line.reverse.dropWhile isBlank).reverse

end Text

end IdlLexis
