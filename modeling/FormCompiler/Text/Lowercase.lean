import FormCompiler.Text.Cased

/-!
# Lower case

`lowerChar` is the full lower case mapping of one character, `lowercase` that of a text.  They
differ on sigma alone: at the end of a word a text has its final form.
-/

set_option maxRecDepth 4000

namespace FormCompiler.Text

/-- Letters whose lower case is one character: those of pairs, and those that share the lower case
of another letter or have no upper case of one character. -/
def lowercaseShifts : List Shift := letterPairs ++ shiftsOf [
  (0x1f88, 0x1f8f, 1, 0x1f80), (0x1f98, 0x1f9f, 1, 0x1f90), (0x1fa8, 0x1faf, 1, 0x1fa0)] ++
  pairsOf [
  (0x1c5, 0x1c6), (0x1c8, 0x1c9), (0x1cb, 0x1cc), (0x1f2, 0x1f3), (0x3f4, 0x3b8), (0x1e9e, 0xdf),
  (0x1fbc, 0x1fb3), (0x1fcc, 0x1fc3), (0x1ffc, 0x1ff3), (0x2126, 0x3c9), (0x212a, 0x6b),
  (0x212b, 0xe5)]

/-- The lower case of a character by itself; the dotted capital i needs two characters. -/
def lowerChar (c : Char) : List Char :=
  if c.toNat = 0x130 then ['i', Char.ofNat 0x307]
  else [((shifted? lowercaseShifts c.toNat).map Char.ofNat).getD c]

/-- Whether the nearest character that is not case-ignorable has a case. -/
def nextIsCased (cs : List Char) : Bool :=
  (cs.dropWhile isCaseIgnorable).head?.any isCased

/-- Lower case of a text whose preceding characters, last first, are `before`. -/
def lowercaseAfter (before : List Char) : List Char → List Char
  | [] => []
  | c :: rest =>
    (if c.toNat = 0x3a3 then
      [Char.ofNat (if nextIsCased before && !nextIsCased rest then 0x3c2 else 0x3c3)]
    else lowerChar c) ++ lowercaseAfter (c :: before) rest

def lowercase (s : String) : String := String.ofList (lowercaseAfter [] s.toList)

end FormCompiler.Text
