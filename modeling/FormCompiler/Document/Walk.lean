import FormCompiler.Document.Form

/-!
# Walking a form

A walk goes from a node to the nodes below it along the ways that are listed for its kind, one after
another.  A walker sees a node when the walk enters it and again when it leaves it; it may keep the
walk out of a node, and it can hand a context down to the nodes that are met next.  No way leads to
the nodes of a few kinds, so they are not met; one way leads through such nodes.

`Node.visits` lists all nodes in the order in which they are written; `Node.trace` lists those that
a walk meets which stays out of some kinds.
-/

namespace FormCompiler.Document

/-! ## Ways -/

namespace Kind

/-- Ways to the children under some tags. -/
def direct (tags : List String) : List (List String) := tags.map fun tag => [tag]

/-- The ways from a node of a kind to the nodes that a walk meets next, in the order in which they
are taken: the tags of the elements on the way. -/
def ways : Kind → List (List String)
  | ui => direct ["widget", "layoutdefault", "layoutfunction", "customwidgets", "tabstops",
      "images", "includes", "resources", "connections", "designerdata", "slots", "buttongroups"]
  | customWidgets => direct ["customwidget"]
  | customWidget => direct ["sizehint", "script", "slots"]
  | layout => direct ["property", "attribute", "item"]
  | layoutItem => direct ["widget", "layout", "spacer"]
  | widget => direct ["property", "script", "widgetdata", "attribute", "row", "column", "item",
      "layout", "widget", "action", "actiongroup", "addaction"]
  | spacer | widgetData | row | column | designerData => direct ["property"]
  | item => direct ["property", "item"]
  | property => direct ["color", "font", "iconset", "pixmap", "palette", "point", "rect", "locale",
      "sizepolicy", "size", "string", "stringlist", "date", "time", "datetime", "pointf", "rectf",
      "sizef", "char", "url", "brush"]
  | gradient => [["gradientstop", "color"]]
  | brush => direct ["color", "texture", "gradient"]
  | colorRole => direct ["brush"]
  | colorGroup => direct ["colorrole", "color"]
  | palette => direct ["active", "inactive", "disabled"]
  | resourceIcon => direct ["normaloff", "normalon", "disabledoff", "disabledon", "activeoff",
      "activeon", "selectedoff", "selectedon"]
  | url => direct ["string"]
  | images => direct ["image"]
  | includes | resources => direct ["include"]
  | actionGroup => direct ["action", "actiongroup", "property", "attribute"]
  | action | buttonGroup => direct ["property", "attribute"]
  | connections => direct ["connection"]
  | connection => direct ["hints"]
  | connectionHints => direct ["hint"]
  | buttonGroups => direct ["buttongroup"]
  | _ => []

/-- Whether a walk can meet nodes of a kind. -/
def isVisited : Kind → Bool
  | header | properties | propertyData | sizePolicyData | propertySpecifications
  | stringPropertySpecification | gradientStop | imageData => false
  | _ => true

/-- The kinds that a walk meets and from which it goes no further. -/
def isLeaf : Kind → Bool
  | layoutDefault | layoutFunction | tabStops | script | string | resourcePixmap | includeFile
  | color | font | point | rect | sizePolicy | size | date | time | dateTime | locale | stringList
  | pointF | rectF | sizeF | char | image | resource | actionRef | connectionHint | slots => true
  | _ => false

end Kind

/-! ## Walks -/

/-- A node and the way to it from where the walk began: the places among the fields, innermost
first. -/
structure Visit where
  path : List Nat
  node : Node

/-- A walker over a state, with a context that is handed down. -/
structure Walker (σ κ : Type) where
  /-- Meets a node; the answer is the context for its children, or `none` to stay out. -/
  enter : κ → Visit → StateM σ (Option κ)
  /-- Leaves a node that was entered, given its own context and that of its children. -/
  leave : κ → κ → Visit → StateM σ Unit

namespace Node

variable {σ κ : Type}

mutual

/-- Walks over a node and along the ways from it. -/
def walk (w : Walker σ κ) (context : κ) (path : List Nat) : Node → StateM σ Unit
  | mk kind attributes fields text => do
    let visit : Visit := ⟨path, mk kind attributes fields text⟩
    match ← w.enter context visit with
    | none => pure ()
    | some inner => do
      kind.ways.forM fun way => walkAlong w inner path way 0 fields
      w.leave context inner visit
termination_by structural n => n

/-- Walks along one way among the fields of a node. -/
def walkAlong (w : Walker σ κ) (context : κ) (path : List Nat) (way : List String) (i : Nat) :
    List Field → StateM σ Unit
  | [] => pure ()
  | f :: rest => do
    walkInto w context (i :: path) way f
    walkAlong w context path way (i + 1) rest
termination_by structural fields => fields

/-- Goes on along a way from one field: the walk meets the node at its end. -/
def walkInto (w : Walker σ κ) (context : κ) (path : List Nat) (way : List String) :
    Field → StateM σ Unit
  | .value _ _ => pure ()
  | .node tag (mk kind attributes fields text) =>
    match way with
    | [] => pure ()
    | [last] => if tag = last then walk w context path (mk kind attributes fields text) else pure ()
    | next :: way => if tag = next then walkAlong w context path way 0 fields else pure ()
termination_by structural f => f

end

mutual

/-- All nodes from a node down, in the order in which they are written. -/
def visits (path : List Nat) : Node → List Visit
  | mk kind attributes fields text =>
    ⟨path, mk kind attributes fields text⟩ :: fieldsVisits path 0 fields
termination_by structural n => n

def fieldsVisits (path : List Nat) (i : Nat) : List Field → List Visit
  | [] => []
  | f :: rest => fieldVisits (i :: path) f ++ fieldsVisits path (i + 1) rest
termination_by structural fields => fields

def fieldVisits (path : List Nat) : Field → List Visit
  | .value _ _ => []
  | .node _ n => visits path n
termination_by structural f => f

end

/-- The nodes strictly below a node. -/
def descendants (n : Node) (path : List Nat) : List Visit := fieldsVisits path 0 n.fields

end Node

/-- Records every visit and stays out of the nodes whose kind is pruned. -/
def recorder (pruned : Kind → Bool) : Walker (List Visit) Unit where
  enter _ visit := do
    modify (· ++ [visit])
    return if pruned visit.node.kind then none else some ()
  leave _ _ _ := pure ()

/-- Records the visits of leaves only. -/
def leafRecorder : Walker (List Visit) Unit where
  enter _ visit := do
    if visit.node.kind.isLeaf then modify (· ++ [visit])
    return some ()
  leave _ _ _ := pure ()

namespace Node

/-- The visits of a walk that stays out of the pruned kinds. -/
def trace (n : Node) (pruned : Kind → Bool) : List Visit :=
  ((n.walk (recorder pruned) () []).run []).2

/-- The leaves that a walk meets. -/
def leafTrace (n : Node) : List Visit := ((n.walk leafRecorder () []).run []).2

end Node

namespace Form

/-- All nodes of a form. -/
def visits (f : Form) : List Visit := f.node.visits []

/-- The root widget and the way to it. -/
def rootVisit? (f : Form) : Option Visit := do
  let i ← f.node.firstOfKind? .widget
  return ⟨[i], ← f.rootWidget?⟩

end Form

end FormCompiler.Document
