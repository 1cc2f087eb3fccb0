/-!
# ASCII letters

Comparisons that ignore the case of the 26 letters and of no other character.
-/

namespace FormCompiler.Text

/-- Equality up to the case of ASCII letters. -/
def equalsIgnoringCase (s t : String) : Bool :=
  s.toList.map Char.toLower == t.toList.map Char.toLower

/-- The spelling of a true flag, in any case. -/
def isTrueWord (s : String) : Bool := equalsIgnoringCase s "true"

end FormCompiler.Text
