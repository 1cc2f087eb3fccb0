import FormCompiler.Header.Images
import FormCompiler.Setup.Functions

/-!
# The class of a form

The class has a member for every object of the form but the form itself, the two functions that set
them up, and the images unless they are kept in files.  It stands in the namespaces that its name
gives, and a second class in the namespace `Ui` derives from it.
-/

namespace FormCompiler.Header

open Code Document Naming

/-! ## Members -/

structure Member where
  className : String
  name : String
  deriving Repr, DecidableEq

/-- The class of the member for a node. -/
def memberClass? (n : Node) : Option String :=
  let className := n.stringAttribute "class"
  match n.kind with
  | .widget => some (if className.isEmpty then "QWidget" else Classes.Custom.realClass className)
  | .layout => some (if className.isEmpty then "QLayout" else className)
  | .spacer => some "QSpacerItem"
  | .actionGroup => some "QActionGroup"
  | .action => some "QAction"
  | _ => none

/-- The member for an object. -/
def member? (document : Nat) (visit : Visit) : StateM Session (Option Member) := do
  match memberClass? visit.node with
  | none => return none
  | some className =>
    return (← Session.nameOfVisit? document visit).map fun name => ⟨className, name⟩

/-- The members for the objects of a form below its root widget. -/
def objectMembers (document : Nat) (root : Visit) : StateM Session (List Member) :=
  (root.node.descendants root.path).filterMapM (member? document)

/-- The members for the button groups that a form declares, each once. -/
def groupMembers (f : Form) : StateM Session (List Member) := do
  let groups := ((f.node.child? "buttongroups").map (·.children "buttongroup")).getD []
  let names ← groups.mapM Session.nameOfGroup
  return names.eraseDups.map fun name => ⟨"QButtonGroup", name⟩

/-! ## Declarations -/

structure Declaration where
  /-- The namespaces the class stands in, outermost first. -/
  scopes : List String
  className : String
  /-- What is written before the name of the class for it to be exported. -/
  exportMacro : String
  members : List Member
  functions : Setup.Functions
  gallery : Option Gallery

/-- The name of the class, and the namespaces in front of it. -/
def splitName (qualified : String) : List String × String :=
  let parts := Text.splitScopes qualified
  (parts.dropLast, parts.getLast?.getD "")

/-- The declaration for a form with the given root widget.  The root has its name before all
others. -/
def declaration (o : Options) (document : Nat) (f : Form) (root : Visit) :
    StateM Session Declaration := do
  let (scopes, className) := splitName (f.className ++ o.classPostfix)
  let _ ← Session.nameOfVisit? document root
  let objects ← objectMembers document root
  let groups ← groupMembers f
  let functions ← Setup.functions o document f root
  let gallery ← match f.images? with
    | some images => if o.extractImages then pure none else some <$> gallery images
    | none => pure none
  return {
    scopes, className, functions, gallery
    exportMacro := f.node.string "exportmacro"
    members := objects ++ groups }

/-! ## Texts -/

def openScopes (scopes : List String) : String :=
  String.join ((scopes.filter (!·.isEmpty)).map fun s => "namespace " ++ s ++ " \x7b\n")

def closeScopes (scopes : List String) : String :=
  String.join ((scopes.reverse.filter (!·.isEmpty)).map fun s => "\x7d // namespace " ++ s ++ "\n")

def Member.render (indent : String) (m : Member) : String :=
  indent ++ m.className ++ " *" ++ m.name ++ ";\n"

namespace Declaration

def macroText (d : Declaration) : String :=
  if d.exportMacro.isEmpty then "" else d.exportMacro ++ " "

/-- The class itself. -/
def classText (o : Options) (style : Style) (d : Declaration) : String :=
  "class " ++ d.macroText ++ o.classPrefix ++ d.className ++ "\n\x7b\npublic:\n" ++
    String.join (d.members.map (·.render o.indent)) ++ "\n" ++ d.functions.render style ++
    (match d.gallery with
      | some g => g.render o.indent
      | none => "") ++ "\x7d;\n\n"

/-- The class in the namespace `Ui`. -/
def uiClassText (o : Options) (d : Declaration) : String :=
  openScopes d.scopes ++ "namespace Ui \x7b\n" ++
    o.indent ++ "class " ++ d.macroText ++ d.className ++ ": public " ++ o.classPrefix ++
    d.className ++ " \x7b\x7d;\n" ++ "\x7d // namespace Ui\n" ++ closeScopes d.scopes ++ "\n"

def render (o : Options) (style : Style) (d : Declaration) : String :=
  let blank := if d.scopes.isEmpty then "" else "\n"
  "QT_BEGIN_NAMESPACE\n\n" ++ openScopes d.scopes ++ blank ++ d.classText o style ++
    closeScopes d.scopes ++ blank ++
    (if o.uiNamespace && !d.className.isEmpty then d.uiClassText o else "") ++
    "QT_END_NAMESPACE\n\n"

end Declaration

end FormCompiler.Header
