import FormCompiler.Xml.Tree
import FormCompiler.Xml.Writer
import FormCompiler.Text.Lowercase

/-!
# Trees of markup

`Markup` is an element as a tree: its tag, its attributes, and its parts, which are pieces of
character data and elements.  The same trees say what is to be written and what is read.

* `commands` are the calls of a writer for a tree.
* `seen` is the tree that a reader finds in the document written: tags and attributes go by their
  local names, the tags in lower case, and between two tags without character data a line break and
  the indentation may stand.
* `Forms items tokens`: the tokens are those of balanced content with these items.
* `Spells parts items tokens`: the tokens are those of well-formed content with these parts, and
  `items` is that content with the places of its tokens.  `Forms.take` collects such tokens into
  an element and stops right behind its end tag.
-/

namespace FormCompiler.Xml

mutual

/-- An element as a tree. -/
inductive Markup where
  | mk (tag : String) (attributes : List (String × String)) (content : List Part)

/-- A part of an element's content. -/
inductive Part where
  | text (s : String)
  | element (m : Markup)

end

/-- The local name of an attribute and its value, as they are reported. -/
def reported (a : String × String) : String × String :=
  (String.ofList (localName a.1.toList), a.2)

/-- The tag under which an element is reported. -/
def reportedTag (tag : String) : String := Text.lowercase (String.ofList (localName tag.toList))

namespace Markup

def tag : Markup → String
  | mk tag _ _ => tag

def attributes : Markup → List (String × String)
  | mk _ attributes _ => attributes

def content : Markup → List Part
  | mk _ _ content => content

/-! ## Writing -/

mutual

/-- The commands that write an element. -/
def commands : Markup → List Command
  | mk tag attributes content =>
    .start tag :: (attributes.map fun a => .attribute a.1 a.2) ++
      (partsCommands content ++ [.stop])

def partsCommands : List Part → List Command
  | [] => []
  | .text s :: rest => .text s :: partsCommands rest
  | .element m :: rest => m.commands ++ partsCommands rest

end

/-! ## Reading -/

/-- The line break and the indentation before a tag that begins a line. -/
def lead (level : Nat) (breakLine : Bool) : String :=
  if breakLine then String.ofList ('\n' :: List.replicate level ' ') else ""

/-- The part for the character data between two tags; there is none if it is empty. -/
def gapParts (g : String) : List Part := if g = "" then [] else [.text g]

mutual

/-- The tree that is read where an element was written at a level of indentation. -/
def seen (level : Nat) : Markup → Markup
  | mk tag attributes content =>
    mk (reportedTag tag) (attributes.map reported)
      (if content.isEmpty then [] else partsSeen (level + 1) true "" content)

/-- The parts read inside an element at a level, up to its end tag.  `g` is the character data since
the last tag, and `breakLine` tells whether the next tag begins a line. -/
def partsSeen (level : Nat) (breakLine : Bool) (g : String) : List Part → List Part
  | [] => gapParts (g ++ lead (level - 1) breakLine)
  | .text s :: rest => partsSeen level false (g ++ s) rest
  | .element m :: rest =>
    gapParts (g ++ lead level breakLine) ++ .element (m.seen level) :: partsSeen level true "" rest

end

end Markup

/-! ## Tokens -/

/-- The tokens of content whose start and end tags are balanced, and its items with the places at
which they are reported. -/
inductive Forms : List Item → List Located → Prop
  | nil : Forms [] []
  | text {content : Except Fault String} {offset : Nat} {items : List Item} {tokens : List Located}
      (rest : Forms items tokens) :
      Forms (.text content offset :: items) (⟨.text content, offset⟩ :: tokens)
  | element {tag : String} {attributes : Except Fault (List (String × String))} {offset stop : Nat}
      {inner items : List Item} {body tokens : List Located} (inside : Forms inner body)
      (rest : Forms items tokens) :
      Forms (.element (.mk tag attributes offset inner) :: items)
        (⟨.start tag attributes, offset⟩ :: (body ++ ⟨.stop, stop⟩ :: tokens))

theorem Forms.takeFrom_items {items : List Item} {tokens : List Located} (h : Forms items tokens)
    (top : Frame) (below : List Frame) (rest : List Located) :
    Element.takeFrom top below (tokens ++ rest) =
      Element.takeFrom { top with items := items.reverse ++ top.items } below rest := by
  induction h generalizing top below rest with
  | nil => rfl
  | text h ih =>
    rw [List.cons_append, Element.takeFrom, ih]
    simp [Frame.add]
  | element inside h ihInside ih =>
    rw [List.cons_append, List.append_assoc, List.cons_append, Element.takeFrom, ihInside,
      Element.takeFrom, ih]
    simp [Frame.add, Frame.close]

/-- The element of a start tag is taken up to its own end tag, whatever follows. -/
theorem Forms.take {items : List Item} {tokens : List Located} (h : Forms items tokens)
    (tag : String) (attributes : Except Fault (List (String × String))) (offset stop : Nat)
    (rest : List Located) :
    Element.take tag attributes offset (tokens ++ ⟨.stop, stop⟩ :: rest) =
      (.mk tag attributes offset items, rest) := by
  rw [Element.take, h.takeFrom_items, Element.takeFrom]
  simp [Frame.close]

/-- The tokens of well-formed content, its items with the places at which they are reported, and the
parts they stand for.  Start and end tags are balanced, and everything can be unescaped. -/
inductive Spells : List Part → List Item → List Located → Prop
  | nil : Spells [] [] []
  | text {s : String} {offset : Nat} {parts : List Part} {items : List Item}
      {tokens : List Located} (rest : Spells parts items tokens) :
      Spells (.text s :: parts) (.text (.ok s) offset :: items) (⟨.text (.ok s), offset⟩ :: tokens)
  | element {tag : String} {attributes : List (String × String)} {offset stop : Nat}
      {content parts : List Part} {inner items : List Item} {body tokens : List Located}
      (inside : Spells content inner body) (rest : Spells parts items tokens) :
      Spells (.element (.mk tag attributes content) :: parts)
        (.element (.mk tag (.ok attributes) offset inner) :: items)
        (⟨.start tag (.ok attributes), offset⟩ :: (body ++ ⟨.stop, stop⟩ :: tokens))

namespace Spells

theorem append {parts parts' : List Part} {items items' : List Item}
    {tokens tokens' : List Located} (h : Spells parts items tokens)
    (h' : Spells parts' items' tokens') :
    Spells (parts ++ parts') (items ++ items') (tokens ++ tokens') := by
  induction h with
  | nil => exact h'
  | text rest ih => exact .text ih
  | element inside rest _ ih =>
    rw [List.cons_append, List.cons_append, List.cons_append, List.append_assoc, List.cons_append]
    exact .element inside ih

theorem of_text {s : String} {parts : List Part} {items : List Item} {tokens : List Located}
    (h : Spells (.text s :: parts) items tokens) :
    ∃ offset items' tokens', items = .text (.ok s) offset :: items' ∧
      Spells parts items' tokens' := by
  cases h with
  | text rest => exact ⟨_, _, _, rfl, rest⟩

theorem of_element {m : Markup} {parts : List Part} {items : List Item} {tokens : List Located}
    (h : Spells (.element m :: parts) items tokens) :
    ∃ e found items' tokens', items = .element e :: items' ∧
      Spells [.element m] [.element e] found ∧ Spells parts items' tokens' := by
  cases h with
  | element inside rest =>
    exact ⟨_, _ :: (_ ++ [⟨.stop, 0⟩]), _, _, rfl, .element inside .nil, rest⟩

theorem of_single {tag : String} {attributes : List (String × String)} {content : List Part}
    {e : Element} {tokens : List Located}
    (h : Spells [.element (.mk tag attributes content)] [.element e] tokens) :
    ∃ offset inner body, e = .mk tag (.ok attributes) offset inner ∧ Spells content inner body := by
  cases h with
  | element inside rest => exact ⟨_, _, _, rfl, inside⟩

theorem forms {parts : List Part} {items : List Item} {tokens : List Located}
    (h : Spells parts items tokens) : Forms items tokens := by
  induction h with
  | nil => exact .nil
  | text _ ih => exact .text ih
  | element _ _ ihInside ih => exact .element ihInside ih

end Spells

/-! ## Elements keep their start tags -/

namespace Frame

/-- The element has the start tag of the frame. -/
def Opens (f : Frame) (e : Element) : Prop :=
  e.tag = f.tag ∧ e.attributes = f.attributes ∧ e.offset = f.offset

theorem opens_add (f : Frame) (item : Item) (below : List Frame) (e : Element)
    (h : (below.getLastD (f.add item)).Opens e) : (below.getLastD f).Opens e := by
  cases below with
  | nil => exact h
  | cons outer below => exact h

theorem opens_closeAll (top : Frame) (below : List Frame) :
    (below.getLastD top).Opens (top.closeAll below) := by
  induction below generalizing top with
  | nil => exact ⟨rfl, rfl, rfl⟩
  | cons outer below ih =>
    rw [List.getLastD_cons]
    exact opens_add outer _ below _ (ih _)

end Frame

theorem Element.opens_takeFrom (tokens : List Located) (top : Frame) (below : List Frame) :
    (below.getLastD top).Opens (takeFrom top below tokens).1 := by
  induction tokens generalizing top below with
  | nil => exact Frame.opens_add top _ below _ (Frame.opens_closeAll _ below)
  | cons t rest ih =>
    obtain ⟨token, offset⟩ := t
    cases token with
    | start tag attributes =>
      have h := ih ⟨tag, attributes, offset, []⟩ (top :: below)
      rw [List.getLastD_cons] at h
      exact h
    | text content => exact Frame.opens_add top _ below _ (ih _ below)
    | stop =>
      cases below with
      | nil => exact ⟨rfl, rfl, rfl⟩
      | cons outer below =>
        rw [List.getLastD_cons]
        exact Frame.opens_add outer _ below _ (ih _ below)
    | broken fault => exact Frame.opens_add top _ below _ (Frame.opens_closeAll _ below)
    | finish => exact Frame.opens_add top _ below _ (Frame.opens_closeAll _ below)

theorem Element.opens_take (tag : String) (attributes : Except Fault (List (String × String)))
    (offset : Nat) (rest : List Located) :
    (take tag attributes offset rest).1.tag = tag ∧
      (take tag attributes offset rest).1.attributes = attributes ∧
      (take tag attributes offset rest).1.offset = offset :=
  opens_takeFrom rest ⟨tag, attributes, offset, []⟩ []

end FormCompiler.Xml
