import FormCompiler.Document.Node
import FormCompiler.Text.Ascii
import FormCompiler.Text.Pieces
import FormCompiler.Xml.Tree

/-!
# Reading nodes

A node is read from an element of a document: first its attributes, then its content in document
order.  Whatever the schema does not allow ends the reading.  What was read up to then stays in the
node, and the numbers that could not be read are noted.
-/

namespace FormCompiler.Document

open Xml (Element Item Located)

/-- What comes out of reading: the node as far as it was read, notices, and why the reading stopped
early, if it did. -/
structure Reading where
  node : Node
  notices : List Notice
  failure : Option Failure

namespace Reading

/-- Notices from before the reading. -/
def after (r : Reading) (notices : List Notice) : Reading :=
  { r with notices := notices ++ r.notices }

end Reading

namespace Node

/-- Reads attributes into a node; `offset` is where they are reported. -/
def readAttributes (offset : Nat) (n : Node) : List (String × String) → Reading
  | [] => ⟨n, [], none⟩
  | (name, value) :: rest => match n.kind.attribute? name with
    | none => ⟨n, [], some ⟨offset, .unexpectedAttribute n.kind.tag name⟩⟩
    | some spec =>
      let (v, notices) := Scalar.parse spec.type value
      (readAttributes offset (n.setAttribute name v) rest).after notices

/-- The character data of an element that may hold nothing else. -/
def readText (tag : String) : List Item → Except Failure String
  | [] => .ok ""
  | .text (.ok s) _ :: rest => (readText tag rest).map (s ++ ·)
  | .text (.error fault) offset :: _ => .error ⟨offset, .malformed fault⟩
  | .element e :: _ => .error ⟨e.offset, .expectedText tag⟩
  | .cut failure :: _ => .error failure

/-- A field that holds a scalar. -/
def readScalar (spec : ChildSpec) (type : ScalarType) (content : List Item) :
    List Notice × Except Failure Field :=
  match readText spec.tag content with
  | .error failure => ([], .error failure)
  | .ok s =>
    let (v, notices) := Scalar.parse type s
    (notices, .ok (.value spec.tag v))

/-- Reads the attributes of a start tag into a node. -/
def readTag (n : Node) (attributes : Except Xml.Fault (List (String × String))) (offset : Nat) :
    Reading :=
  match attributes with
  | .error fault => ⟨n, [], some ⟨offset, .malformed fault⟩⟩
  | .ok attributes => n.readAttributes offset attributes

mutual

/-- Reads the content of an element into a node.  Blank text is dropped. -/
def readContent (n : Node) : List Item → Reading
  | [] => ⟨n, [], none⟩
  | .text (.ok s) _ :: rest => readContent (if Text.isBlank s then n else n.addText s) rest
  | .text (.error fault) offset :: _ => ⟨n, [], some ⟨offset, .malformed fault⟩⟩
  | .cut failure :: _ => ⟨n, [], some failure⟩
  | .element e :: rest =>
    match readField n.kind e with
    | (notices, .error failure) => ⟨n, notices, some failure⟩
    | (notices, .ok f) => (readContent (n.addField f) rest).after notices
termination_by structural items => items

/-- Reads a child element of a node of the given kind. -/
def readField (kind : Kind) : Element → List Notice × Except Failure Field
  | .mk tag attributes offset content => match kind.child? tag with
    | none => ([], .error ⟨offset, .unexpectedElement kind.tag tag⟩)
    | some spec => match spec.content with
      | .scalar type => readScalar spec type content
      | .node k =>
        let r := (empty k).readTag attributes offset
        match r.failure with
        | some failure => (r.notices, .error failure)
        | none =>
          let r := (readContent r.node content).after r.notices
          match r.failure with
          | some failure => (r.notices, .error failure)
          | none => (r.notices, .ok (.node tag r.node))
termination_by structural e => e

end

/-- Reads an element into a node. -/
def readElement (n : Node) (e : Element) : Reading :=
  let r := n.readTag e.attributes e.offset
  match r.failure with
  | some _ => r
  | none => (readContent r.node e.content).after r.notices

end Node

/-! ## Whole documents -/

/-- The first element of a document, whatever stands before it. -/
def firstElement : List Located → Except Failure Element
  | [] => .error ⟨0, .endOfDocument⟩
  | ⟨token, offset⟩ :: rest => match token with
    | .start tag attributes => .ok (Element.take tag attributes offset rest).1
    | .text (.error fault) => .error ⟨offset, .malformed fault⟩
    | .text (.ok _) | .stop => firstElement rest
    | .broken fault => .error ⟨offset, .malformed fault⟩
    | .finish => .error ⟨offset, .endOfDocument⟩

/-- Reads the first element of a document into a node. -/
def Node.readInto (n : Node) (source : String) : Node × List Notice × Option Error :=
  match firstElement (Xml.tokens source) with
  | .error failure => (n, [], some (failure.locate source))
  | .ok e =>
    let r := n.readElement e
    (r.node, r.notices, r.failure.map (·.locate source))

/-- Reads a node of a kind; the tag of the first element is not looked at. -/
def Node.ofText (kind : Kind) (source : String) : List Notice × Except Error Node :=
  match (Node.empty kind).readInto source with
  | (n, notices, none) => (notices, .ok n)
  | (_, notices, some error) => (notices, .error error)

end FormCompiler.Document
