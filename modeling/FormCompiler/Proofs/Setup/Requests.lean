import FormCompiler.Proofs.Code.Locals
import FormCompiler.Proofs.Setup.Outline

/-!
# What a form needs variables for

The values of a form for which the setup function declares variables, each with the code that uses
it (`Job.requests`).  This is read off the form: properties that are set, the icons of items and
pages, and the textures of brushes.  It does not say which variables there are, nor whether two
requests get the same one.
-/

namespace FormCompiler

/-- The color that a brush paints with, unless its style has no use for one. -/
def Brush.paintedColor (c : Brush) : Color :=
  match c.fill with
  | .color color => color
  | _ => Color.black

namespace Setup

open Code Document Naming

/-- A value of which equal ones share a variable. -/
inductive Shared where
  | font (f : Font)
  | icon (i : Icon)
  | sizePolicy (p : SizePolicy)
  deriving DecidableEq

namespace Shared

/-- The code that declares the variable of a value; `themed` tells whether the variable for theme
names exists. -/
def declaration (plan : Plan) (themed : Bool) (x : String) : Shared → List Stmt
  | font f => fontStmts x f
  | icon i => iconStmts plan themed x i
  | sizePolicy p => policyStmts x p

/-- Whether a value is an icon from the theme with files to fall back on. -/
def hasFallback : Shared → Bool
  | icon i => i.hasFallback
  | _ => false

end Shared

/-- The types of variables that are shared. -/
def sharedTypes : List String := ["QFont", "QIcon", "const QIcon", "QSizePolicy"]

/-- The variable of a shared type that a statement declares. -/
def sharedName? : Stmt → Option String
  | .declare type x _ => if sharedTypes.contains type then some x else none
  | _ => none

/-- A use of a value.  Its code is given the variable of the value, and another one that the code
may need: that of the brush with a texture, or that of the palette which has a brush. -/
structure Use (α : Type) where
  value : α
  code : String → String → List Stmt

inductive Request where
  | shared (u : Use Shared)
  | brush (u : Use Brush)

/-! ## Values -/

/-- The request for a picture; only icons have variables. -/
def pictureRequests (code : Expr → String → List Stmt) : Picture → List Request
  | .icon i => [.shared ⟨.icon i, fun x y => code (.ref x) y⟩]
  | _ => []

/-- The code that makes a brush of a picture. -/
def textureCode (e : Expr) (brush : String) : List Stmt :=
  [.declare "QBrush" brush (.value (.wrap "QBrush" e))]

/-- The request for the texture of a brush. -/
def textureRequests (c : Brush) : List Request :=
  if c.styleName = "TexturePattern" then
    match c.fill with
    | .texture _ p => pictureRequests textureCode p
    | _ => []
  else []

def brushRequests (code : Expr → String → List Stmt) (c : Brush) : List Request :=
  .brush ⟨c, fun x y => code (.ref x) y⟩ :: textureRequests c

/-- The code that gives a palette the brush for a role. -/
def roleCode (group role : String) (e : Expr) (palette : String) : List Stmt :=
  [.modify palette "setBrush" [.code ("QPalette::" ++ group), .code ("QPalette::" ++ role), e]]

def roleRequests (group : String) (r : ColorRole) : List Request :=
  match r.role with
  | some role => brushRequests (roleCode group role) r.brush
  | none => []

def colorGroupRequests (group : String) (g : ColorGroup) : List Request :=
  g.roles.flatMap (roleRequests group)

def paletteRequests (p : Palette) : List Request :=
  p.active.toList.flatMap (colorGroupRequests "Active") ++
    p.inactive.toList.flatMap (colorGroupRequests "Inactive") ++
    p.disabled.toList.flatMap (colorGroupRequests "Disabled")

/-- The requests for a value that a property of the object `name` is set to by `setter`. -/
def valueRequests (setter : Expr → List Stmt) (name : String) : Value → List Request
  | .font f => [.shared ⟨.font f, fun x _ => setter (.ref x)⟩]
  | .icon i => [.shared ⟨.icon i, fun x _ => setter (.ref x)⟩]
  | .sizePolicy p => [.shared ⟨.sizePolicy p, fun x _ =>
      .modify x "setHeightForWidth" [.invoke name "sizePolicy().hasHeightForWidth" []] ::
        setter (.ref x)⟩]
  | .brush c => brushRequests (fun e _ => setter e) c
  | .palette p => paletteRequests p
  | _ => []

/-! ## Properties, items and pages -/

/-- The code that sets a property to an expression. -/
def setterCode (plan : Plan) (target : Target) (p : Property) (e : Expr) : List Stmt :=
  guarded (switchOf? p.name) [setterStmt plan target p e]

def propertyRequests (plan : Plan) (name className : String) (isLayout : Bool) (p : Property) :
    List Request :=
  if defect? p = none ∧ treatment plan ⟨"", className, true, isLayout⟩ false p = .set then
    valueRequests (setterCode plan ⟨name, className, true, isLayout⟩ p) name p.value
  else []

def propertiesRequests (plan : Plan) (name className : String) (isLayout : Bool)
    (ps : List Property) : List Request :=
  ps.flatMap (propertyRequests plan name className isLayout)

/-- The request for the icon of an item or a page. -/
def iconRequests (code : Expr → List Stmt) (icon : Option Property) : List Request :=
  match icon with
  | some p => pictureRequests (fun e _ => code e) p.picture
  | none => []

def itemRequests (name : String) (i : ComboItem) : List Request :=
  iconRequests (fun e => [.call name "addItem"
    [e, if i.isTranslated then .emptyText else plainText i.text ""]]) i.icon

/-- The requests for a page of a tool box or a tab widget. -/
def pageRequests (plan : Plan) (parent parentClass name : String) (attrs : List Property) :
    List Request :=
  if takesPlainly plan parentClass then []
  else if plan.classes.derives parentClass "QToolBox" then
    iconRequests (fun e => [.call parent "addItem"
      [.ref name, e, plainText (Property.phrase? attrs "label") pageTitle]])
      (Property.find? attrs "icon")
  else if plan.classes.derives parentClass "QTabWidget" then
    iconRequests (fun e => [.call parent "addTab" [.ref name, e, .emptyText]])
      (Property.find? attrs "icon")
  else []

namespace Job

variable (job : Job)

/-! ## Objects -/

/-- The requests of the properties of a group that is in the table. -/
def groupRequests (declared : String) : List Request :=
  match job.table.group? declared with
  | some g => propertiesRequests job.plan g.name "QButtonGroup" false g.node.properties
  | none => []

/-- The requests of the group that a button joins. -/
def joiningRequests (button : Node) : List Request :=
  match groupOf? button with
  | some d => job.groupRequests d
  | none => []

/-- The requests for an object and what belongs to it, before what is below it. -/
def enterRequests (v : Visit) : List Request :=
  let n := v.node
  match n.kind with
  | .widget =>
    let className := n.stringAttribute "class"
    (if job.plan.classes.derives className "QComboBox" then
      ((n.children "item").map ComboItem.ofNode).flatMap (itemRequests (job.name v)) else []) ++
    (if job.plan.classes.isButton className then job.joiningRequests n else []) ++
      propertiesRequests job.plan (job.name v) className false n.properties
  | .layout =>
    propertiesRequests job.plan (job.name v) (n.stringAttribute "class") true n.properties
  | .actionGroup => propertiesRequests job.plan (job.name v) "QActionGroup" false n.properties
  | .action =>
    if (n.attribute? "menu").isSome then []
    else propertiesRequests job.plan (job.name v) "QAction" false n.properties
  | _ => []

/-- The requests for a widget as a page of the widget around it, after what is below it. -/
def leaveRequests (v : Visit) : List Request :=
  if v.node.kind = .widget then
    let c := job.contextAt v.path
    pageRequests job.plan c.widgetName c.widgetClass (job.name v) v.node.containerAttributes
  else []

def requests : List Request :=
  job.form.visits.flatMap fun v => job.enterRequests v ++ job.leaveRequests v

end Job

end Setup

end FormCompiler
