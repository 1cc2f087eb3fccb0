import FormCompiler.Document.Reading
import FormCompiler.Document.Writing

/-!
# Forms

A form is the node of a whole document.  `Form.ofText` reads a document: its root is a form, or a
single widget, which then stands for a form of the widget's name.  Forms written by a version before
4 or for another language than C++ are refused.
-/

namespace FormCompiler.Document

open Xml (Located)

/-! ## Texts and numbers of a node -/

namespace Node

def stringAttribute? (n : Node) (name : String) : Option String :=
  (n.attribute? name).bind Scalar.string?

/-- A text attribute, empty if it is missing. -/
def stringAttribute (n : Node) (name : String) : String := (n.stringAttribute? name).getD ""

def intAttribute? (n : Node) (name : String) : Option Int := (n.attribute? name).bind Scalar.int?

def floatAttribute? (n : Node) (name : String) : Option Number.Binary :=
  (n.attribute? name).bind Scalar.float?

def string? (n : Node) (tag : String) : Option String := (n.scalar? tag).bind Scalar.string?

/-- The text of a child, empty if it is missing. -/
def string (n : Node) (tag : String) : String := (n.string? tag).getD ""

def strings (n : Node) (tag : String) : List String := (n.scalars tag).filterMap Scalar.string?

def int? (n : Node) (tag : String) : Option Int := (n.scalar? tag).bind Scalar.int?

/-- The number of a child, zero if it is missing. -/
def int (n : Node) (tag : String) : Int := (n.int? tag).getD 0

def bool? (n : Node) (tag : String) : Option Bool := (n.scalar? tag).bind Scalar.bool?

def float? (n : Node) (tag : String) : Option Number.Binary :=
  (n.scalar? tag).bind Scalar.float?

end Node

/-! ## Forms -/

/-- The node of a whole document. -/
structure Form where
  node : Node

namespace Form

/-- The name of the class that the form describes. -/
def className (f : Form) : String := f.node.string "class"

def rootWidget? (f : Form) : Option Node := f.node.child? "widget"

/-- Whether properties are set by setters unless they say otherwise; the attribute has an older
spelling. -/
def usesSetters (f : Form) : Bool :=
  match (f.node.intAttribute? "stdsetdef").or (f.node.intAttribute? "stdSetDef") with
  | some v => v != 0
  | none => true

/-- Whether a version is older than 4; a version that cannot be read is not. -/
def isOldVersion (version : String) : Bool :=
  match Number.readInteger? .uint32 (Text.trim (Text.before '.' version)) with
  | some v => v.val < 4
  | none => false

/-- Refuses old versions and other languages. -/
def checkHeader (n : Node) : Except Error Unit :=
  match n.stringAttribute? "version", n.stringAttribute? "language" with
  | some version, language =>
    if isOldVersion version then .error (.oldVersion version) else checkLanguage language
  | none, language => checkLanguage language
where
  checkLanguage : Option String → Except Error Unit
    | none => .ok ()
    | some language =>
      if language.isEmpty || Text.equalsIgnoringCase language "c++" then .ok ()
      else .error (.unsupportedLanguage language)

/-- The form of a document that holds a widget only. -/
def ofWidget (w : Node) : Form :=
  let ui := (Node.empty .ui).addField (.node "widget" w)
  match w.attribute? "name" with
  | some name => ⟨ui.addField (.value "class" name)⟩
  | none => ⟨ui⟩

/-- Reads the root element of a document. -/
def ofElement (source : String) (e : Xml.Element) : List Notice × Except Error Form :=
  if e.tag = "ui" then
    let r := (Node.empty .ui).readElement e
    (r.notices, match r.failure with
      | some failure => .error (failure.locate source)
      | none => (checkHeader r.node).map fun _ => ⟨r.node⟩)
  else if e.tag = "widget" then
    let r := (Node.empty .widget).readElement e
    (r.notices, match r.failure with
      | some failure => .error (failure.locate source)
      | none => .ok (ofWidget r.node))
  else ([], .error (Failure.locate source ⟨e.offset, .unexpectedRoot e.tag⟩))

/-- The root element of a document; only blank text may stand before it. -/
def rootElement : List Located → Except Failure Xml.Element
  | [] => .error ⟨0, .endOfDocument⟩
  | ⟨token, offset⟩ :: rest => match token with
    | .start tag attributes => .ok (Xml.Element.take tag attributes offset rest).1
    | .text (.error fault) => .error ⟨offset, .malformed fault⟩
    | .text (.ok s) =>
      if Text.isBlank s then rootElement rest else .error ⟨offset, .unexpectedRoot "#text"⟩
    | .stop => .error ⟨offset, .unexpectedRoot "#text"⟩
    | .broken fault => .error ⟨offset, .malformed fault⟩
    | .finish => .error ⟨offset, .endOfDocument⟩

/-- Reads a document. -/
def ofText (source : String) : List Notice × Except Error Form :=
  match rootElement (Xml.tokens source) with
  | .error failure => ([], .error (failure.locate source))
  | .ok e => ofElement source e

/-- The document of a form. -/
def toText (f : Form) : String := Xml.write (.declaration :: f.node.commands "")

end Form

end FormCompiler.Document
