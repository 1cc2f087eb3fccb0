/-!
# Pieces of a text

The splitting of a text at a separator, and the search for a piece in a text.
-/

namespace FormCompiler.Text

/-- The pieces of a run of characters between the separators that hold; `piece` is the piece begun,
last character first. -/
def splitFrom (isSeparator : Char → Bool) (piece : List Char) : List Char → List String
  | [] => [String.ofList piece.reverse]
  | c :: cs =>
    if isSeparator c then String.ofList piece.reverse :: splitFrom isSeparator [] cs
    else splitFrom isSeparator (c :: piece) cs

/-- The pieces of a text between occurrences of a character; there is always at least one. -/
def splitAt (separator : Char) (s : String) : List String :=
  splitFrom (· == separator) [] s.toList

/-- The part of a text before the first occurrence of a character, or all of it. -/
def before (separator : Char) (s : String) : String :=
  String.ofList (s.toList.takeWhile (· != separator))

/-- The pieces of a run of characters between double colons; `piece` is the piece begun, last
character first. -/
def splitScopesFrom (piece : List Char) : List Char → List String
  | [] => [String.ofList piece.reverse]
  | ':' :: ':' :: cs => String.ofList piece.reverse :: splitScopesFrom [] cs
  | c :: cs => splitScopesFrom (c :: piece) cs

/-- The parts of a qualified name. -/
def splitScopes (s : String) : List String := splitScopesFrom [] s.toList

/-- Whether one list of characters occurs in another. -/
def occursIn (piece : List Char) : List Char → Bool
  | [] => piece.isEmpty
  | c :: cs => piece.isPrefixOf (c :: cs) || occursIn piece cs

/-- Whether `piece` occurs in `s`. -/
def contains (piece s : String) : Bool := occursIn piece.toList s.toList

end FormCompiler.Text
