import FormCompiler.Xml.Escape

/-!
# Writing a document

A document is written by a sequence of commands.  A start tag is held back until its first content
arrives, so an element without content is written as one empty tag.  Tags stand on lines of their
own, indented by one space for each open element, except next to character data.
-/

namespace FormCompiler.Xml

inductive Command where
  | declaration
  | start (tag : String)
  | attribute (key value : String)
  | text (content : String)
  | stop
  | textElement (tag content : String)
  deriving Repr, DecidableEq

/-- A start tag held back, with the attributes added to it so far as they will be written. -/
structure HeldTag where
  tag : String
  attributes : String
  deriving Repr, DecidableEq

/-- The state between commands: the start tag held back, the tags opened (innermost first), the
indentation, and whether the next tag begins a line. -/
structure Writer where
  held : Option HeldTag
  tags : List String
  level : Nat
  breakLine : Bool
  deriving Repr, DecidableEq

namespace Writer

def empty : Writer := ⟨none, [], 0, false⟩

/-- A line break and the indentation, where a tag begins a line. -/
def lead (w : Writer) : String :=
  if w.breakLine then String.ofList ('\n' :: List.replicate w.level ' ') else ""

/-- Writes the start tag held back, if there is one. -/
def flush (w : Writer) : Writer × String :=
  match w.held with
  | none => (w, "")
  | some h =>
    ({ w with held := none, level := w.level + 1, breakLine := true },
      w.lead ++ "<" ++ h.tag ++ h.attributes ++ ">")

def declaration (w : Writer) : Writer × String :=
  ({ w with breakLine := true }, w.lead ++ "<?xml version=\"1.0\" encoding=\"UTF-8\"?>")

def start (w : Writer) (tag : String) : Writer × String :=
  let (w, out) := w.flush
  ({ w with held := some ⟨tag, ""⟩, tags := tag :: w.tags }, out)

/-- Adds an attribute to the start tag held back; without one the attribute is ignored. -/
def addAttribute (w : Writer) (key value : String) : Writer :=
  { w with held := w.held.map fun h =>
      { h with attributes := h.attributes ++ " " ++ key ++ "=\"" ++ escape value ++ "\"" } }

def addText (w : Writer) (content : String) : Writer × String :=
  let (w, out) := w.flush
  ({ w with breakLine := false }, out ++ escape content)

/-- Closes the innermost element. -/
def stop (w : Writer) : Writer × String :=
  let tag := w.tags.headD ""
  let w := { w with tags := w.tags.tail }
  match w.held with
  | some h =>
    ({ w with held := none, breakLine := true }, w.lead ++ "<" ++ h.tag ++ h.attributes ++ "/>")
  | none =>
    let w := { w with level := w.level - 1 }
    ({ w with breakLine := true }, w.lead ++ "</" ++ tag ++ ">")

/-- Carries out a command and gives the text it writes. -/
def step (w : Writer) : Command → Writer × String
  | .declaration => w.declaration
  | .start tag => w.start tag
  | .attribute key value => (w.addAttribute key value, "")
  | .text content => w.addText content
  | .stop => w.stop
  | .textElement tag content =>
    let (w, first) := w.start tag
    let (w, second) := if content.isEmpty then (w, "") else w.addText content
    let (w, third) := w.stop
    (w, first ++ second ++ third)

/-- What is written when the document is complete. -/
def close (w : Writer) : String := w.flush.2 ++ "\n"

/-- The text each command writes, and the text that completes the document. -/
def pieces (w : Writer) : List Command → List String
  | [] => [w.close]
  | c :: cs =>
    let (next, out) := w.step c
    out :: next.pieces cs

end Writer

/-- The document that a sequence of commands writes. -/
def write (commands : List Command) : String := String.join (Writer.empty.pieces commands)

end FormCompiler.Xml
