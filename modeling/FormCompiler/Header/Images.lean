import FormCompiler.Code.Statement
import FormCompiler.Form.Image
import FormCompiler.Naming.Table

/-!
# Images in a header

A header that holds the images of a form has an enumerator and an array for each of them, and a
function that makes a picture from an enumerator.  `Gallery` lists the three in their order; of
several images of one name the first counts.
-/

namespace FormCompiler.Header

open Code Naming

/-! ## Arrays -/

/-- The column at which a row of an image in source form is broken. -/
def rowLimit : Nat := 512

/-- Breaks literals that grow too long into adjacent ones. -/
def breakRows (column : Nat) (inQuote : Bool) : List Char → List Char
  | [] => []
  | c :: cs =>
    let inQuote := if c = '"' then !inQuote else inQuote
    let column := (if c = '\n' then 0 else column) + 1
    if rowLimit ≤ column && inQuote then c :: '"' :: '\n' :: '"' :: breakRows 1 inQuote cs
    else c :: breakRows column inQuote cs

/-- The source text of an image from its first row on. -/
def rows (i : Image) : List Char := (Text.decodeLossy i.bytes).toList.dropWhile (· != '"')

/-- The end of an array. -/
def arrayEnd : List Char := ['\x7d', ';']

/-- Whether rows bring the end of the array with them. -/
def isClosed (rows : List Char) : Bool :=
  arrayEnd.reverse.isPrefixOf (Text.trimRight rows).reverse

def dataName (name : String) : String := name ++ "_data"

/-- The array of an image. -/
def imageText (indent : String) (breaksRows : Bool) (i : Image) : String :=
  if i.isSourceText then
    let rows := rows i
    indent ++ "/* XPM */\n" ++
      indent ++ "static const char* const " ++ dataName i.name ++ "[] = \x7b \n" ++
      String.ofList (if breaksRows then breakRows 0 false rows else rows) ++
      (if isClosed rows then "" else String.ofList arrayEnd) ++ "\n\n"
  else
    indent ++ "static const unsigned char " ++ dataName i.name ++ "[] =\n" ++
      indent ++ literal i.bytes indent ++ ";\n\n"

/-! ## Galleries -/

/-- Declares the images that have a name and are not declared yet. -/
def declareImages : List Image → Table → List String × Table
  | [], t => ([], t)
  | i :: rest, t =>
    if i.name.isEmpty || t.containsPixmap i.name then declareImages rest t
    else
      let (names, t) := declareImages rest (t.insertPixmap i.name)
      (i.name :: names, t)

/-- The images that are the first of their name. -/
def firstOfName (images : List Image) : List Image :=
  images.eraseDupsBy fun a b => a.name == b.name

/-- The images that have an array: those that are declared. -/
def declaredImages (t : Table) (images : List Image) : List Image :=
  firstOfName (images.filter fun i => t.containsPixmap i.name)

/-- The images that the function can make pictures from: those that have a name. -/
def namedImages (images : List Image) : List Image :=
  firstOfName (images.filter fun i => !i.name.isEmpty)

/-- The images that a header holds. -/
structure Gallery where
  enumerators : List String
  arrays : List Image
  cases : List Image

def gallery (images : List Image) : StateM Session Gallery := do
  let s ← get
  let (enumerators, t) := declareImages images s.table
  set { s with table := t }
  return ⟨enumerators, declaredImages t images, namedImages images⟩

/-! ## Texts -/

def enumeratorText (indent name : String) : String :=
  indent ++ indent ++ imageEnumerator name ++ ",\n"

def caseText (indent : String) (i : Image) : String :=
  let inner := indent ++ indent
  let data := dataName i.name
  inner ++ "case " ++ imageEnumerator i.name ++ ": " ++
    (if i.isSourceText then "return QPixmap((const char**)" ++ data ++ ");\n"
    else
      "\x7b QImage img; img.loadFromData(" ++ data ++ ", sizeof(" ++ data ++ ") - 1, " ++
        textLiteral i.format inner ++ "); return QPixmap::fromImage(img); \x7d\n")

def enumeratorsText (indent : String) (names : List String) : String :=
  String.join (names.map (enumeratorText indent))

def arraysText (indent : String) (images : List Image) : String :=
  String.join (images.map (imageText indent true))

/-- The function that makes pictures. -/
def pictureFunctionText (indent : String) (arrays cases : List Image) : String :=
  indent ++ "static QPixmap " ++ imageFunction ++ "(IconID id)\n" ++ indent ++ "\x7b\n" ++
    arraysText indent arrays ++
    indent ++ "switch (id) \x7b\n" ++ String.join (cases.map (caseText indent)) ++
    indent ++ indent ++ "default: return QPixmap();\n" ++
    indent ++ "\x7d // switch\n" ++ indent ++ "\x7d // icon\n\n"

def Gallery.render (indent : String) (g : Gallery) : String :=
  "\nprotected:\n" ++ indent ++ "enum IconID\n" ++ indent ++ "\x7b\n" ++
    enumeratorsText indent g.enumerators ++ indent ++ indent ++ "unknown_ID\n" ++
    indent ++ "\x7d;\n" ++ pictureFunctionText indent g.arrays g.cases

end FormCompiler.Header
