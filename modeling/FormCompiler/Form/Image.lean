import FormCompiler.Document.Form
import FormCompiler.Hex

/-!
# Embedded images

An image of a form has a name, a format and bytes, which the form holds as a hexadecimal payload.
The format `XPM.GZ` marks the source text of an image.
-/

namespace FormCompiler

open Document

structure Image where
  name? : Option String
  format : String
  bytes : List UInt8
  deriving DecidableEq

namespace Image

def ofNode (n : Node) : Image :=
  let data := n.child? "data"
  { name? := n.stringAttribute? "name"
    format := (data.map (·.stringAttribute "format")).getD ""
    bytes := (data.map fun d => Hex.decode d.text).getD [] }

def name (i : Image) : String := i.name?.getD ""

/-- The extension of a file for the image: the format up to its first dot, in lower case. -/
def extension (i : Image) : String := Text.lowercase (Text.before '.' i.format)

/-- Whether the bytes are the source text of an image. -/
def isSourceText (i : Image) : Bool := i.format == "XPM.GZ"

/-- The name of a file for the image. -/
def fileName (i : Image) : String := i.name ++ "." ++ i.extension

end Image

/-- The images of a form, if it has a section for them. -/
def Document.Form.images? (f : Form) : Option (List Image) :=
  (f.node.child? "images").map fun n => (n.children "image").map Image.ofNode

end FormCompiler
