import FormCompiler.Error
import FormCompiler.Xml.Token

/-!
# Elements of a document

`Element.take` collects the tokens up to the end tag of an element into a tree.  Where the document
breaks off or is not well formed, the tree is cut: its last item says why, and everything before it
is there.  `elementText` reads the character data of an element that has nothing else.
-/

namespace FormCompiler.Xml

mutual

/-- An element: its tag, its attributes, the offset after its start tag, and its content. -/
inductive Element where
  | mk (tag : String) (attributes : Except Fault (List (String × String))) (offset : Nat)
      (content : List Item)

/-- An item of an element's content. -/
inductive Item where
  | text (content : Except Fault String) (offset : Nat)
  | element (e : Element)
  | cut (failure : Failure)

end

namespace Element

def tag : Element → String
  | mk tag _ _ _ => tag

def attributes : Element → Except Fault (List (String × String))
  | mk _ attributes _ _ => attributes

def offset : Element → Nat
  | mk _ _ offset _ => offset

def content : Element → List Item
  | mk _ _ _ content => content

end Element

/-- An element that is still open; its items are kept last first. -/
structure Frame where
  tag : String
  attributes : Except Fault (List (String × String))
  offset : Nat
  items : List Item

namespace Frame

def add (f : Frame) (item : Item) : Frame := { f with items := item :: f.items }

def close (f : Frame) : Element := .mk f.tag f.attributes f.offset f.items.reverse

/-- Closes an element that is cut, and with it all elements around it, innermost first. -/
def closeAll (f : Frame) : List Frame → Element
  | [] => f.close
  | outer :: rest => (outer.add (.element f.close)).closeAll rest

end Frame

/-- Completes the element `top`, which lies in the open elements `below`, and gives the outermost of
them with the tokens after it. -/
def Element.takeFrom (top : Frame) (below : List Frame) : List Located → Element × List Located
  | [] => ((top.add (.cut ⟨0, .endOfDocument⟩)).closeAll below, [])
  | ⟨token, offset⟩ :: rest => match token with
    | .start tag attributes => takeFrom ⟨tag, attributes, offset, []⟩ (top :: below) rest
    | .text content => takeFrom (top.add (.text content offset)) below rest
    | .stop => match below with
      | [] => (top.close, rest)
      | outer :: below => takeFrom (outer.add (.element top.close)) below rest
    | .broken fault =>
      ((top.add (.cut ⟨offset, .malformed fault⟩)).closeAll below, rest)
    | .finish =>
      ((top.add (.cut ⟨offset, .endOfDocument⟩)).closeAll below, [⟨.finish, offset⟩])

/-- The element whose start tag has just been read, and the tokens after it. -/
def Element.take (tag : String) (attributes : Except Fault (List (String × String)))
    (offset : Nat) (rest : List Located) : Element × List Located :=
  takeFrom ⟨tag, attributes, offset, []⟩ [] rest

/-- The character data up to the end tag of the current element, and the tokens after it.  An
element inside is a failure. -/
def elementText (tag : String) : List Located → Except Failure String × List Located
  | [] => (.error ⟨0, .endOfDocument⟩, [])
  | ⟨token, offset⟩ :: rest => match token with
    | .text (.ok content) =>
      let (more, rest) := elementText tag rest
      (more.map (content ++ ·), rest)
    | .text (.error fault) => (.error ⟨offset, .malformed fault⟩, rest)
    | .stop => (.ok "", rest)
    | .start .. => (.error ⟨offset, .expectedText tag⟩, rest)
    | .broken fault => (.error ⟨offset, .malformed fault⟩, rest)
    | .finish => (.error ⟨offset, .endOfDocument⟩, [⟨.finish, offset⟩])

end FormCompiler.Xml
