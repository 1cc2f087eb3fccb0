import FormCompiler.Form.Image
import FormCompiler.Setup.Widget

/-!
# The functions of a form

The setup function creates the objects of a form, then links them: buddies, the tab order, actions,
connections, and last what had to wait until everything exists.  The retranslate function holds what
depends on the language.
-/

namespace FormCompiler.Setup

open Code Document Naming

/-! ## Links between objects -/

/-- Gives labels their buddies. -/
def writeBuddies (plan : Plan) : Build Unit := do
  let b ← get
  let isWidget := b.widgets.contains
  let stmts ← b.buddies.filterMapM fun (label, buddy) => do
    match [label, buddy].find? (!isWidget ·) with
    | some invalid =>
      note plan (.invalidBuddy invalid)
      return none
    | none => return some (Stmt.call label "setBuddy" [.ref buddy])
  if !b.buddies.isEmpty then emitAll (guarded (some "QT_NO_SHORTCUT") stmts)

/-- The steps of the tab order from the stop `last` on; from no stop there is no step. -/
def tabSteps (isWidget : String → Bool) (last : String) : List String → List (String × String)
  | [] => []
  | name :: rest =>
    if !isWidget name || name.isEmpty || last.isEmpty then tabSteps isWidget last rest
    else (last, name) :: tabSteps isWidget name rest

/-- The steps of the tab order.  It begins at the first name only. -/
def tabOrder (isWidget : String → Bool) : List String → List (String × String)
  | [] => []
  | first :: rest => tabSteps isWidget (if isWidget first then first else "") rest

/-- Sets the tab order. -/
def writeTabStops (plan : Plan) (names : List String) : Build Unit := do
  let b ← get
  let isWidget := b.widgets.contains
  (names.filter (!isWidget ·)).forM fun name => note plan (.invalidTabStop name)
  emitAll ((tabOrder isWidget names).map fun (a, b) => .run "QWidget::setTabOrder" [.ref a, .ref b])

/-- The variable of the widget, action or button group that a form calls by a name. -/
def variableOf? (t : Table) (name : String) : Option String :=
  let name := normalized name
  if (t.widgetClass? name).isSome || (t.actionIsMenu? name).isSome then some name
  else (t.group? name).map Group.name

/-- Connects a signal to a slot, if both objects are known. -/
def connectionStmt? (t : Table) (n : Node) : Option Stmt := do
  let sender ← variableOf? t (n.string "sender")
  let receiver ← variableOf? t (n.string "receiver")
  return .run "QObject::connect"
    [.ref sender, .wrap "SIGNAL" (.code (n.string "signal")),
      .ref receiver, .wrap "SLOT" (.code (n.string "slot"))]

/-! ## Plans -/

/-- Functions that load a picture go by other names today. -/
def pictureLoader (f : Form) : String :=
  match f.node.string "pixmapfunction" with
  | "QPixmap::fromMimeSource" => "qPixmapFromMimeSource"
  | function => function

/-- The default of a form for a distance of its layouts. -/
def layoutDefault (f : Form) (name : String) : LayoutDefault where
  value := (f.node.child? "layoutdefault").bind (·.intAttribute? name)
  function := ((f.node.child? "layoutfunction").bind (·.stringAttribute? name)).map (· ++ "()")

/-- The images of a form that have a name, with the extensions of their files. -/
def namedImages (f : Form) : List (String × String) :=
  (f.images?.getD []).filterMap fun i => i.name?.map (·, i.extension)

def Plan.ofForm (options : Options) (document : Nat) (f : Form) (mainForm : String) : Plan where
  options
  classes := Classes.Custom.ofForm f
  document
  usesSetters := f.usesSetters
  margin := layoutDefault f "margin"
  spacing := layoutDefault f "spacing"
  mainForm
  pixmapFunction := pictureLoader f
  images := namedImages f

/-! ## Functions -/

/-- The two functions of a form: the class and the name of their parameter, and their statements. -/
structure Functions where
  formClass : String
  form : String
  setup : List Stmt
  retranslate : List Stmt

/-- The statements after the objects are created, in their order. -/
def link (plan : Plan) (f : Form) : Build Unit := do
  writeBuddies plan
  writeTabStops plan (((f.node.child? "tabstops").map (·.strings "tabstop")).getD [])
  let b ← get
  let t := b.session.table
  if !b.delayedActions.isEmpty then emitAll (.blank :: b.delayedActions)
  emitAll [.blank, .run "retranslateUi" [.ref plan.mainForm]]
  let connections := ((f.node.child? "connections").map (·.children "connection")).getD []
  emitAll (connections.filterMap (connectionStmt? t))
  if !b.delayed.isEmpty then emitAll ([.blank] ++ b.delayed ++ [.blank])
  if plan.options.autoConnection then
    emitAll [.blank, .run "QMetaObject::connectSlotsByName" [.ref plan.mainForm]]

/-- Sets up a form: creates its objects and links them. -/
def setUp (plan : Plan) (f : Form) : Build Unit := do
  f.node.walk (walker plan) {} []
  link plan f

/-- What setting up a form gives. -/
def built (plan : Plan) (f : Form) (s : Session) : Builder :=
  ((setUp plan f).run { session := s }).2

/-- The functions of a form with the given root widget. -/
def functions (options : Options) (document : Nat) (f : Form) (root : Visit) :
    StateM Session Functions := do
  let mainForm := (← Session.nameOfVisit? document root).getD ""
  let plan := Plan.ofForm options document f mainForm
  let b := built plan f (← get)
  set b.session
  let unused := if b.retranslatesForm then [] else [Stmt.unused mainForm]
  return { formClass := root.node.stringAttribute "class", form := mainForm,
           setup := b.setup, retranslate := b.retranslate ++ unused }

/-- How the code of a form is rendered. -/
def style (options : Options) (f : Form) : Style :=
  ⟨options.indent, f.className ++ options.classPostfix, options.translateFunction⟩

/-- The text of a member function. -/
def functionText (style : Style) (name type parameter : String) (body : List Stmt) : String :=
  style.indent ++ "void " ++ name ++ "(" ++ type ++ " *" ++ parameter ++ ")\n" ++
    style.indent ++ "\x7b\n" ++ renderAll style body ++ style.indent ++ "\x7d\n\n"

def Functions.render (style : Style) (fs : Functions) : String :=
  functionText style "setupUi" fs.formClass fs.form fs.setup ++
    functionText style "retranslateUi" fs.formClass fs.form fs.retranslate

end FormCompiler.Setup
