import FormCompiler.Document.Node

/-!
# Choices

A property, a brush and a layout item hold at most one payload.  Setting a payload replaces whatever
is held, and taking one leaves the node without any if the kind agrees.
-/

namespace FormCompiler.Document.Node

/-- The tag of the payload held. -/
def payloadTag? (n : Node) : Option String := n.payload?.map Field.tag

/-- The payload, if it has the given tag. -/
def payloadWith? (n : Node) (tag : String) : Option Field := n.payload?.filter (·.tag == tag)

def holds (n : Node) (tag : String) : Bool := (n.payloadWith? tag).isSome

/-- Replaces the payload. -/
def setPayload (n : Node) (f : Field) : Node := (n.clear false).addField f

/-- Moves the payload out if it has the given tag. -/
def takePayload (n : Node) (tag : String) : Option Field × Node :=
  match n.payloadWith? tag with
  | some f => (some f, n.clear false)
  | none => (none, n)

end FormCompiler.Document.Node
