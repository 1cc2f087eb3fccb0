import FormCompiler.Document.Node
import FormCompiler.Text.Lowercase
import FormCompiler.Xml.Writer

/-!
# Writing nodes

A node is written as its attributes and fields in the order of the schema, then its text.  So
writing what was read from a written node changes nothing.
-/

namespace FormCompiler.Document

open Xml (Command)

/-- The name under which an attribute is written. -/
def Kind.writtenAttribute (k : Kind) (name : String) : String :=
  ((k.attribute? name).map (·.written)).getD name

/-- The tag under which a child is written. -/
def Kind.writtenTag (k : Kind) (tag : String) : String :=
  ((k.child? tag).map (·.written)).getD tag

namespace Node

/-- The tag under which a node is written; without one it is that of its kind. -/
def tagFor (kind : Kind) (tag : String) : String :=
  if tag.isEmpty then kind.tag else Text.lowercase tag

def textCommands (text : String) : List Command := if text.isEmpty then [] else [.text text]

mutual

/-- The commands that write a node under a tag. -/
def commands (tag : String) : Node → List Command
  | mk kind attributes fields text =>
    .start (tagFor kind tag) ::
      (attributes.map fun a => .attribute (kind.writtenAttribute a.1) a.2.format) ++
      fieldsCommands kind fields ++ textCommands text ++ [.stop]

def fieldsCommands (kind : Kind) : List Field → List Command
  | [] => []
  | f :: rest => fieldCommands kind f ++ fieldsCommands kind rest

def fieldCommands (kind : Kind) : Field → List Command
  | .value tag v => [.textElement (kind.writtenTag tag) v.format]
  | .node tag n => commands (kind.writtenTag tag) n

end

/-- The document a node is written as, under the given tag. -/
def toTextAs (n : Node) (tag : String) : String := Xml.write (n.commands tag)

/-- The document a node is written as. -/
def toText (n : Node) : String := n.toTextAs ""

end Node

end FormCompiler.Document
