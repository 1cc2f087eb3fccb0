import FormCompiler.Text.Extending
import FormCompiler.Text.LetterPairs

/-!
# Upper case, cased and case-ignorable characters

`isUppercase` is the property Uppercase.  `isCased` and `isCaseIgnorable` are the two properties
that decide whether a sigma ends a word.
-/

set_option maxRecDepth 4000

namespace FormCompiler.Text

/-- Upper case letters that are not of a pair. -/
def unpairedUppercaseStretches : List Nat := [
  304, 1, 673, 3, 31, 1, 6825, 1, 611, 1, 4, 1, 3, 3, 2, 3, 2, 1, 3, 5, 6, 1, 1, 1, 1, 1, 1, 4, 2,
  2, 1, 1, 10, 2, 5, 1, 111290, 26, 26, 26, 26, 26, 26, 1, 1, 2, 2, 1, 2, 2, 2, 4, 1, 8, 26, 26, 26,
  2, 1, 4, 2, 8, 1, 7, 27, 2, 1, 4, 1, 5, 1, 1, 3, 7, 27, 26, 26, 26, 26, 26, 26, 26, 26, 26, 26,
  26, 30, 25, 33, 25, 33, 25, 33, 25, 33, 25, 33, 1, 6501, 26, 6, 26, 6, 26]

def isUppercase (c : Char) : Bool :=
  letterPairs.any (·.run.contains c.toNat) || inStretches unpairedUppercaseStretches c

/-- Characters that have a case. -/
def casedStretches : List Nat := [
  65, 26, 6, 26, 47, 1, 10, 1, 4, 1, 5, 23, 1, 31, 1, 195, 1, 4, 4, 208, 2, 35, 7, 2, 30, 5, 96, 1,
  42, 4, 2, 2, 2, 4, 1, 1, 6, 1, 1, 3, 1, 1, 1, 20, 1, 83, 1, 139, 8, 166, 1, 38, 9, 41, 2839, 38,
  1, 1, 5, 1, 2, 43, 1, 4, 672, 86, 2, 6, 2178, 11, 5, 43, 2, 3, 64, 192, 64, 278, 2, 6, 2, 38, 2,
  6, 2, 8, 1, 1, 1, 1, 1, 1, 1, 31, 2, 53, 1, 7, 1, 1, 3, 3, 1, 7, 3, 4, 2, 6, 4, 13, 5, 3, 1, 7,
  116, 1, 13, 1, 16, 13, 101, 1, 4, 1, 2, 10, 1, 1, 3, 5, 6, 1, 1, 1, 1, 1, 1, 4, 1, 6, 4, 1, 2, 4,
  5, 5, 4, 1, 17, 32, 3, 2, 817, 52, 1814, 229, 6, 4, 3, 2, 12, 38, 1, 1, 5, 1, 30994, 46, 18, 30,
  132, 102, 3, 4, 1, 77, 20, 6, 1, 3, 821, 43, 1, 14, 6, 80, 20288, 7, 12, 5, 1033, 26, 6, 26, 1189,
  80, 96, 36, 4, 36, 116, 11, 1, 15, 1, 7, 1, 2, 1, 11, 1, 15, 1, 7, 1, 2, 451, 1, 2, 3, 1, 42, 1,
  9, 1221, 51, 13, 51, 93, 22, 10, 22, 2842, 64, 21856, 64, 32, 25, 2, 25, 25900, 85, 1, 71, 1, 2,
  2, 1, 2, 2, 2, 4, 1, 12, 1, 1, 1, 7, 1, 65, 1, 4, 2, 8, 1, 7, 1, 28, 1, 4, 1, 5, 1, 1, 3, 7, 1,
  340, 2, 25, 1, 25, 1, 31, 1, 25, 1, 31, 1, 25, 1, 31, 1, 25, 1, 31, 1, 25, 1, 8, 1844, 10, 1, 20,
  6, 6, 261, 62, 2194, 68, 2028, 26, 6, 26, 6, 26]

def isCased (c : Char) : Bool := inStretches casedStretches c

/-- Extending characters that are not case-ignorable: those that take room of their own. -/
def spacingStretches : List Nat := [
  2494, 1, 24, 1, 358, 1, 24, 1, 102, 1, 24, 1, 232, 1, 1, 1, 4, 2, 1, 2, 9, 2, 103, 1, 24, 1, 119,
  1, 15, 1, 2357, 1, 30, 1, 1024, 1, 5, 1, 1, 1, 5, 2, 101, 1, 71, 2, 5178, 2, 31011, 1, 108, 1,
  26623, 1, 116, 1, 264, 1, 14, 1, 9, 1, 96, 1, 9, 1, 2, 1, 1, 3, 5, 1, 224, 1, 12, 1, 241, 1, 262,
  1, 633, 1, 12, 1, 1539, 1, 20654, 2, 24947, 2, 6, 6]

/-- Case-ignorable characters that do not extend others. -/
def otherIgnorableStretches : List Nat := [
  39, 1, 6, 1, 11, 1, 35, 1, 1, 1, 71, 1, 4, 1, 1, 1, 4, 1, 2, 2, 503, 80, 116, 2, 4, 1, 9, 2, 1, 1,
  465, 1, 5, 1, 148, 1, 11, 6, 22, 1, 35, 1, 156, 1, 7, 2, 40, 1, 228, 2, 4, 1, 31, 1, 9, 1, 3, 1,
  95, 1, 7, 2, 55, 1, 24, 1, 142, 1, 1236, 1, 127, 1, 565, 1, 1754, 1, 54, 1, 52, 1, 611, 1, 464, 6,
  174, 63, 13, 1, 34, 37, 509, 1, 1, 3, 11, 3, 13, 3, 13, 3, 13, 2, 12, 5, 8, 2, 10, 1, 2, 1, 2, 5,
  49, 5, 1, 10, 1, 1, 13, 1, 16, 13, 3039, 2, 241, 1, 191, 1, 469, 1, 43, 5, 5, 1, 95, 4, 93, 3,
  28438, 1, 1250, 6, 270, 1, 114, 1, 28, 2, 98, 34, 78, 1, 23, 3, 102, 4, 3, 2, 469, 1, 22, 1, 137,
  1, 108, 1, 21, 2, 102, 5, 9, 3, 20550, 17, 592, 1, 62, 1, 2, 1, 169, 1, 7, 1, 6, 1, 11, 1, 35, 1,
  1, 1, 47, 1, 45, 2, 67, 1, 21, 3, 1924, 6, 1, 42, 1, 9, 1427, 1, 32, 1, 341, 1, 503, 1, 15, 1,
  3339, 1, 5718, 16, 14080, 4, 508, 3, 40, 2, 550, 13, 64, 2, 1, 1, 14, 2, 16380, 4, 1, 7, 1, 2,
  3233, 4, 5327, 8, 3765, 62, 201, 7, 941, 1, 531, 1, 587, 1, 2735, 5, 789505, 1, 30, 96]

def isCaseIgnorable (c : Char) : Bool :=
  isExtending c && !inStretches spacingStretches c || inStretches otherIgnorableStretches c

end FormCompiler.Text
