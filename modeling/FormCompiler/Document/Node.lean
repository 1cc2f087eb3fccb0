import FormCompiler.Document.Schema

/-!
# Nodes

A node has a kind, attributes, fields (its child elements) and text.  Attributes and fields are kept
in the order of the schema, so two nodes with the same contents are the same value, whatever order
they were given in.
-/

namespace FormCompiler.Document

mutual

/-- A node of a form. -/
inductive Node where
  | mk (kind : Kind) (attributes : List (String × Scalar)) (fields : List Field) (text : String)

/-- A child element: a scalar or a node, under its tag. -/
inductive Field where
  | value (tag : String) (v : Scalar)
  | node (tag : String) (n : Node)

end

namespace Field

def tag : Field → String
  | value tag _ => tag
  | node tag _ => tag

def scalar? : Field → Option Scalar
  | value _ v => some v
  | node _ _ => none

def node? : Field → Option Node
  | value _ _ => none
  | node _ n => some n

end Field

/-- A list with a new entry behind those of no greater rank. -/
def inserted {α : Type} (rank : α → Nat) (l : List α) (x : α) : List α :=
  l.takeWhile (fun a => rank a ≤ rank x) ++ x :: l.dropWhile (fun a => rank a ≤ rank x)

namespace Node

def kind : Node → Kind
  | mk kind _ _ _ => kind

def attributes : Node → List (String × Scalar)
  | mk _ attributes _ _ => attributes

def fields : Node → List Field
  | mk _ _ fields _ => fields

def text : Node → String
  | mk _ _ _ text => text

/-- The node of a kind with nothing in it. -/
def empty (kind : Kind) : Node := mk kind [] [] ""

/-! ## Looking up -/

def attribute? (n : Node) (name : String) : Option Scalar := n.attributes.lookup name

/-- The fields with a tag, in order. -/
def fieldsWith (n : Node) (tag : String) : List Field := n.fields.filter (·.tag == tag)

/-- The child nodes with a tag, in order. -/
def children (n : Node) (tag : String) : List Node := (n.fieldsWith tag).filterMap Field.node?

/-- The child node with a tag that occurs at most once. -/
def child? (n : Node) (tag : String) : Option Node := (n.children tag).head?

/-- The scalars of the children with a tag, in order. -/
def scalars (n : Node) (tag : String) : List Scalar := (n.fieldsWith tag).filterMap Field.scalar?

def scalar? (n : Node) (tag : String) : Option Scalar := (n.scalars tag).head?

/-- The payload of a choice. -/
def payload? (n : Node) : Option Field := n.fields.head?

/-- The place among the fields of the first child of a kind. -/
def firstOfKind? (n : Node) (kind : Kind) : Option Nat :=
  n.fields.findIdx? fun f => (f.node?.map Node.kind) == some kind

/-! ## Changing -/

/-- Puts an attribute in its place, instead of one of the same name if there is one. -/
def setAttribute (n : Node) (name : String) (v : Scalar) : Node :=
  let others := n.attributes.filter (·.1 != name)
  mk n.kind (inserted (fun a => n.kind.attributeRank a.1) others (name, v)) n.fields n.text

/-- Adds a field.  It is the only one of a choice, takes the place of an earlier one if its tag
occurs at most once, and follows those of its tag otherwise. -/
def addField (n : Node) (f : Field) : Node :=
  let kept :=
    if n.kind.schema.isChoice then []
    else if (n.kind.child? f.tag).any (·.many) then n.fields
    else n.fields.filter (·.tag != f.tag)
  mk n.kind n.attributes (inserted (fun g => n.kind.childRank g.tag) kept f) n.text

def addText (n : Node) (s : String) : Node := mk n.kind n.attributes n.fields (n.text ++ s)

/-- Drops the children; with `everything`, also the attributes and the text. -/
def clear (n : Node) (everything : Bool) : Node :=
  if everything then empty n.kind else mk n.kind n.attributes [] n.text

/-- Whether nothing was ever put into the node. -/
def isEmpty (n : Node) : Bool := n.attributes.isEmpty && n.fields.isEmpty && n.text.isEmpty

/-! ## Comparing -/

/-- Attributes are compared in order. -/
def sameAttributes : List (String × Scalar) → List (String × Scalar) → Bool
  | [], [] => true
  | (name, v) :: rest, (name', v') :: rest' =>
    name == name' && v.same v' && sameAttributes rest rest'
  | _, _ => false

mutual

/-- Equality of nodes; numbers in them compare as numbers. -/
def same : Node → Node → Bool
  | mk kind attributes fields text, mk kind' attributes' fields' text' =>
    kind == kind' && sameAttributes attributes attributes' && sameFields fields fields' &&
      text == text'

def sameFields : List Field → List Field → Bool
  | [], [] => true
  | f :: rest, f' :: rest' => sameField f f' && sameFields rest rest'
  | _, _ => false

def sameField : Field → Field → Bool
  | .value tag v, .value tag' v' => tag == tag' && v.same v'
  | .node tag n, .node tag' n' => tag == tag' && same n n'
  | _, _ => false

end

end Node

end FormCompiler.Document
