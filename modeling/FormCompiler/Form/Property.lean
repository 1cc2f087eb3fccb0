import FormCompiler.Form.Value

/-!
# Properties

A property is a named value.  In a list of properties the last one of a name counts.
-/

namespace FormCompiler

open Document

structure Property where
  name : String
  /-- Whether a setter is to be used, where the property says so: zero stands for no. -/
  stdset : Option Int
  value : Value
  deriving Repr, DecidableEq

namespace Property

def ofNode (n : Node) : Property where
  name := n.stringAttribute "name"
  stdset := n.intAttribute? "stdset"
  value := (n.payload?.map Value.ofField).getD .none

/-- The property of a name that counts. -/
def find? (ps : List Property) (name : String) : Option Property :=
  ps.reverse.find? (·.name == name)

def number? (p : Property) : Option Int :=
  match p.value with
  | .number n => some n
  | _ => none

def string? (p : Property) : Option Phrase :=
  match p.value with
  | .string s => some s
  | _ => none

def enum? (p : Property) : Option String :=
  match p.value with
  | .enum s => some s
  | _ => none

def bool? (p : Property) : Option String :=
  match p.value with
  | .bool s => some s
  | _ => none

/-- The picture a property holds. -/
def picture (p : Property) : Picture :=
  match p.value with
  | .icon i => .icon i
  | .pixmap q => .pixmap q
  | _ => .none

/-- The phrase under a name, if the property of that name is a text. -/
def phrase? (ps : List Property) (name : String) : Option Phrase :=
  (find? ps name).bind string?

end Property

/-- The properties of a node. -/
def Document.Node.properties (n : Node) : List Property :=
  (n.children "property").map Property.ofNode

/-- The attributes of a node that are given like properties: what its container has to know. -/
def Document.Node.containerAttributes (n : Node) : List Property :=
  (n.children "attribute").map Property.ofNode

end FormCompiler
