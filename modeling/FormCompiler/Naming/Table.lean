import FormCompiler.Document.Choice
import FormCompiler.Document.Form
import FormCompiler.Document.Walk
import FormCompiler.Notice
import FormCompiler.Naming.Name

/-!
# Symbol tables

A symbol table hands out names for the objects of forms and remembers them.  No name is handed out
twice.  An object is known by its place: the document it stands in and the way to it.  Button groups
are known by the name they are declared under, so a group created for a reference without a
declaration is found again under the same name.

`Table.unique` gives the first free name among `base`, `base1`, `base2`, ….
-/

namespace FormCompiler.Naming

open Document

/-- The place of an object. -/
structure Place where
  document : Nat
  path : List Nat
  deriving Repr, DecidableEq

/-- What an object is, with what later lookups by name ask about it. -/
inductive Role where
  | widget (className : String)
  | spacer
  | layout
  | actionGroup
  | action (isMenu : Bool)
  deriving Repr, DecidableEq

/-- An object that gets a name: its role, the name and the class given in the form. -/
structure Object where
  role : Role
  wanted : String
  className : String
  deriving Repr, DecidableEq

/-- The object a node describes. -/
def Object.ofNode? (n : Node) : Option Object :=
  let name := n.stringAttribute "name"
  match n.kind with
  | .widget => some ⟨.widget (n.stringAttribute "class"), name, n.stringAttribute "class"⟩
  | .spacer => some ⟨.spacer, name, "QSpacerItem"⟩
  | .layout => some ⟨.layout, name, n.stringAttribute "class"⟩
  | .actionGroup => some ⟨.actionGroup, name, "QActionGroup"⟩
  | .action => some ⟨.action (n.attribute? "menu").isSome, name, "QAction"⟩
  | _ => none

/-- A tracked object. -/
structure Entry where
  place : Place
  role : Role
  name : String
  deriving Repr, DecidableEq

/-- A tracked button group: the name it is declared under, its generated name, and its node. -/
structure Group where
  declared : String
  name : String
  node : Node

structure Table where
  /-- Every name handed out, the latest first. -/
  taken : List String := []
  entries : List Entry := []
  groups : List Group := []
  /-- Images that have an enumerator. -/
  pixmaps : List String := []
  problems : List String := []

namespace Table

/-! ## Names -/

/-- The name from which candidates are made. -/
def baseName (wanted className : String) : String :=
  if !wanted.isEmpty then normalized wanted
  else if !className.isEmpty then normalized (ofClass className)
  else "var"

/-- A base name with a number behind it. -/
def numbered (base : String) (k : Nat) : String := base ++ Number.natText k

/-- The first of `base`, `base1`, `base2`, … that is not among the names taken. -/
def firstFree (taken : List String) (base : String) : String :=
  if taken.contains base then
    (((List.range (taken.length + 1)).map fun k => numbered base (k + 1)).find?
      (!taken.contains ·)).getD base
  else base

def hasName (t : Table) (name : String) : Bool := t.taken.contains name

/-- Hands out a free name.  It is noted if the name of an object of a known class had to change. -/
def unique (t : Table) (wanted className : String) : String × Table × List Notice :=
  let base := baseName wanted className
  let name := firstFree t.taken base
  (name, { t with taken := name :: t.taken },
    if t.taken.contains base && !wanted.isEmpty && !className.isEmpty then
      [.nameTaken wanted className name]
    else [])

/-! ## Objects -/

def entry? (t : Table) (p : Place) : Option Entry := t.entries.find? (·.place == p)

/-- The name of an object, handed out when it is first asked for. -/
def nameOf (t : Table) (p : Place) (o : Object) : String × Table × List Notice :=
  match t.entry? p with
  | some e => (e.name, t, [])
  | none =>
    let (name, t, notices) := t.unique o.wanted o.className
    (name, { t with entries := ⟨p, o.role, name⟩ :: t.entries }, notices)

def group? (t : Table) (declared : String) : Option Group :=
  t.groups.find? (·.declared == declared)

/-- The name of a button group, handed out when a group of its declared name is first asked for. -/
def nameOfGroup (t : Table) (n : Node) : String × Table × List Notice :=
  let declared := n.stringAttribute "name"
  match t.group? declared with
  | some g => (g.name, t, [])
  | none =>
    let (name, t, notices) := t.unique declared "QButtonGroup"
    (name, { t with groups := ⟨declared, name, n⟩ :: t.groups }, notices)

/-! ## Lookups by name -/

/-- The class of the widget that has a name. -/
def widgetClass? (t : Table) (name : String) : Option String :=
  t.entries.findSome? fun e => match e.role with
    | .widget className => if e.name == name then some className else none
    | _ => none

/-- Whether the action that has a name stands for a menu. -/
def actionIsMenu? (t : Table) (name : String) : Option Bool :=
  t.entries.findSome? fun e => match e.role with
    | .action isMenu => if e.name == name then some isMenu else none
    | _ => none

def isActionGroup (t : Table) (name : String) : Bool :=
  t.entries.any fun e => e.role == .actionGroup && e.name == name

/-! ## Images and problems -/

def insertPixmap (t : Table) (name : String) : Table :=
  if t.pixmaps.contains name then t else { t with pixmaps := name :: t.pixmaps }

def containsPixmap (t : Table) (name : String) : Bool := t.pixmaps.contains name

def addProblem (t : Table) (text : String) : Table := { t with problems := t.problems ++ [text] }

end Table

/-! ## Sessions -/

/-- A symbol table in use, with the notices given so far. -/
structure Session where
  table : Table := {}
  notices : List Notice := []

namespace Session

def note (n : Notice) : StateM Session Unit :=
  modify fun s => { s with notices := s.notices ++ [n] }

/-- Takes a name from the table and keeps its notices. -/
def take (f : Table → String × Table × List Notice) : StateM Session String := fun s =>
  let (name, table, notices) := f s.table
  (name, ⟨table, s.notices ++ notices⟩)

def unique (wanted className : String) : StateM Session String :=
  take (·.unique wanted className)

def nameOf (p : Place) (o : Object) : StateM Session String := take (·.nameOf p o)

def nameOfGroup (n : Node) : StateM Session String := take (·.nameOfGroup n)

/-- The name of the object or group that a visit meets; that of a layout item is the name of what it
holds. -/
def nameOfVisit? (document : Nat) (v : Visit) : StateM Session (Option String) :=
  match v.node.kind with
  | .layoutItem => match v.node.payload? with
    | some (.node _ n) => match Object.ofNode? n with
      | some o => some <$> nameOf ⟨document, 0 :: v.path⟩ o
      | none => return some ""
    | _ => return some ""
  | .buttonGroup => some <$> nameOfGroup v.node
  | _ => match Object.ofNode? v.node with
    | some o => some <$> nameOf ⟨document, v.path⟩ o
    | none => return none

end Session

end FormCompiler.Naming
