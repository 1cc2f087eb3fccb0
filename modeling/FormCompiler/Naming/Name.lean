import FormCompiler.Files.Path
import FormCompiler.Text.Alphanumeric
import FormCompiler.Text.Lowercase

/-!
# Names in generated code

The identifiers of the generated code: the normal form of a name given in a form, the name of an
object that has a class only, and the include guard of a file.
-/

namespace FormCompiler.Naming

/-- A character of an identifier; everything else becomes an underscore. -/
def identifierChar (c : Char) : Char := if Text.isAlphanumeric c then c else '_'

/-- The normal form of a name. -/
def normalized (name : String) : String := name.map identifierChar

/-- Lower case for the upper case letters at the beginning. -/
def lowerLeading : List Char → List Char
  | [] => []
  | c :: cs => if Text.isUppercase c then Text.lowerChar c ++ lowerLeading cs else c :: cs

/-- The class name without the letter that marks a library class. -/
def stripMark : List Char → List Char
  | [] => []
  | [c] => [c]
  | c :: cs => if c = 'Q' ∨ c = 'K' then cs else c :: cs

/-- A variable name for an instance of a class: `QPushButton` gives `pushButton`. -/
def ofClass (className : String) : String :=
  String.ofList (lowerLeading (stripMark className.toList))

/-- The include guard of a file, from its name up to the first dot: `ui_form.h` gives
`UI_FORM_H`. -/
def guardOf (path : String) : String :=
  let base := (Text.before '.' ((Files.fileName? path).getD "")).toList
  let base := if base.isEmpty then "noname".toList else base
  let lead := if base.head?.any Char.isDigit then ['_'] else []
  String.ofList (lead ++ base.map fun c => (identifierChar c).toUpper) ++ "_H"

end FormCompiler.Naming
