import FormCompiler.Document.Form

/-!
# Classes that a form declares

A form may declare classes of its own.  `Custom.derives` follows the chain of base classes; what is
a button, a container or a menu is decided by the base classes among those of the toolkit.
-/

namespace FormCompiler.Classes

open Document

/-- The classes a form declares, each name once, with their declarations. -/
structure Custom where
  entries : List (String × Node)

namespace Custom

/-- Adds a declaration, instead of an earlier one of the same name. -/
def insert (t : Custom) (className : String) (n : Node) : Custom :=
  if t.entries.any (·.1 == className) then
    ⟨t.entries.map fun e => if e.1 == className then (className, n) else e⟩
  else ⟨t.entries ++ [(className, n)]⟩

/-- The declarations of a form; those without a name are ignored. -/
def ofForm (f : Form) : Custom :=
  let declared := ((f.node.child? "customwidgets").map (·.children "customwidget")).getD []
  declared.foldl (fun t n =>
    let className := n.string "class"
    if className.isEmpty then t else t.insert className n) ⟨[]⟩

def find? (t : Custom) (className : String) : Option Node := t.entries.lookup className

/-- The base class a declaration names. -/
def base? (t : Custom) (className : String) : Option String :=
  (t.find? className).bind (·.string? "extends")

/-- Whether `base` is met within `steps` steps to base classes. -/
def reaches (t : Custom) (base : String) : Nat → String → Bool
  | 0, _ => false
  | steps + 1, current => match t.base? current with
    | none => false
    | some next => next == base || (next != current && t.reaches base steps next)

/-- Whether a class is `base` or derives from it.  A chain longer than the table is a cycle. -/
def derives (t : Custom) (className base : String) : Bool :=
  className == base || t.reaches base (t.entries.length + 1) className

def derivesFromAny (t : Custom) (className : String) (bases : List String) : Bool :=
  bases.any (t.derives className)

/-- The class that is constructed: a line is a frame. -/
def realClass (className : String) : String := if className = "Line" then "QFrame" else className

/-- The method by which a container of this class takes a page. -/
def addPageMethod? (t : Custom) (className : String) : Option String :=
  ((t.find? className).bind (·.string? "addpagemethod")).filter (!·.isEmpty)

/-- Whether a declaration says that its class is a container. -/
def isDeclaredContainer (t : Custom) (className : String) : Bool :=
  match (t.find? className).bind (·.int? "container") with
  | some v => v != 0
  | none => false

def isButton (t : Custom) (className : String) : Bool :=
  t.derivesFromAny className
    ["QRadioButton", "QToolButton", "QCheckBox", "QPushButton", "QCommandLinkButton"]

/-- Containers take their pages by a method of their own. -/
def isContainer (t : Custom) (className : String) : Bool :=
  t.derivesFromAny className
    ["QStackedWidget", "QToolBox", "QTabWidget", "QScrollArea", "QMdiArea", "QWizard",
      "QDockWidget"] ||
    t.isDeclaredContainer className

def isMenu (t : Custom) (className : String) : Bool :=
  t.derivesFromAny className ["QMenu", "QPopupMenu"]

end Custom

end FormCompiler.Classes
