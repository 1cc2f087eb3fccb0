/-!
# Names and blanks of XML

The four characters that separate the parts of a tag, and the local part of a qualified name.
-/

namespace FormCompiler.Xml

/-- The characters that separate the parts of a tag. -/
def isSpace (c : Char) : Bool := c == ' ' || c == '\t' || c == '\r' || c == '\n'

/-- What follows the first colon of a name, or the whole name. -/
def localName (name : List Char) : List Char :=
  match name.dropWhile (· != ':') with
  | [] => name
  | _ :: rest => rest

end FormCompiler.Xml
