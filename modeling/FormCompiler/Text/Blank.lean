/-!
# White space

White space is the property White_Space of the Unicode standard.
-/

namespace FormCompiler.Text

def isWhite (c : Char) : Bool :=
  let n := c.toNat
  (0x9 ≤ n && n ≤ 0xd) || n == 0x20 || n == 0x85 || n == 0xa0 || n == 0x1680 ||
    (0x2000 ≤ n && n ≤ 0x200a) || n == 0x2028 || n == 0x2029 || n == 0x202f || n == 0x205f ||
    n == 0x3000

/-- A text of white space only; the empty text is blank. -/
def isBlank (s : String) : Bool := s.toList.all isWhite

def trimLeft (cs : List Char) : List Char := cs.dropWhile isWhite

def trimRight (cs : List Char) : List Char := (cs.reverse.dropWhile isWhite).reverse

/-- The text without white space at either end. -/
def trim (s : String) : String := String.ofList (trimRight (trimLeft s.toList))

end FormCompiler.Text
