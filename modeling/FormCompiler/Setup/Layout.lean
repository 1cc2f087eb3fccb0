import FormCompiler.Setup.Context

/-!
# Layouts

A layout is created when the walk enters it, together with its distances and properties.  Its items
are added one by one as the walk leaves them, and its stretch factors are set last.
-/

namespace FormCompiler.Setup

open Code Document

/-! ## Distances -/

inductive Distance where
  | margin
  | spacing
  deriving Repr, DecidableEq

namespace Distance

/-- Sets a distance to a number; a margin is set on all four sides. -/
def setTo (name : String) (n : Int) : Distance → Stmt
  | margin => .call name "setContentsMargins" [.int n, .int n, .int n, .int n]
  | spacing => .call name "setSpacing" [.int n]

/-- Sets a distance to what a function gives. -/
def setBy (name function : String) : Distance → Stmt
  | margin => .call name "setMargin" [.code function]
  | spacing => .call name "setSpacing" [.code function]

end Distance

/-- The default of the form for a distance. -/
def defaultStmts (form : LayoutDefault) (d : Distance) (name : String) : List Stmt :=
  match form.function, form.value with
  | some function, _ => [d.setBy name function]
  | none, some n => [d.setTo name n]
  | none, none => []

/-- Sets a distance of a layout.  A number that is the default of the form stands for the function
of the form.  Without a default, a number that is the usual one is left to the platform on Darwin.
-/
def distanceStmts (form : LayoutDefault) (d : Distance) (name : String) (value : Option Int)
    (usual : Int) (ignoresDefault : Bool) : List Stmt :=
  let fallback := if ignoresDefault then [] else defaultStmts form d name
  match value with
  | none => fallback
  | some n =>
    if !ignoresDefault && form.function.isSome && form.value == some n then fallback
    else if form.value.isNone && form.function.isNone && n == usual then
      guarded (some "Q_OS_DARWIN") [d.setTo name n]
    else [d.setTo name n]

/-- The number under a name; zero if the property is no number. -/
def numberNamed? (ps : List Property) (name : String) : Option Int :=
  (Property.find? ps name).map fun p => p.number?.getD 0

def MarginType.usualSpacing (m : MarginType) : Int := if m = .unset then -1 else 6

/-- Sets both distances of a layout; a layout that is an item takes no default for its margin. -/
def layoutDistances (plan : Plan) (ps : List Property) (m : MarginType) (isItem : Bool)
    (name : String) : List Stmt :=
  distanceStmts plan.spacing .spacing name (numberNamed? ps "spacing") m.usualSpacing false ++
    distanceStmts plan.margin .margin name (numberNamed? ps "margin") m.usualMargin isItem

/-! ## Layouts -/

/-- The sides of a margin, by the names of their properties. -/
def sideNames : List String := ["leftMargin", "topMargin", "rightMargin", "bottomMargin"]

/-- The margins that a list of properties does not set by a number, set to zero. -/
def missingMargins (ps : List Property) : List Property :=
  (sideNames.filter fun side => !ps.any fun p => p.name == side && p.number?.isSome).map
    fun side => ⟨side, none, .number 0⟩

/-- Creates a layout. -/
def enterLayout (plan : Plan) (c : Context) (visit : Visit) : Build Context := do
  let ps := visit.node.properties
  let className := visit.node.stringAttribute "class"
  let name ← nameAt plan visit
  let isItem := c.layout.isSome
  emit (.create name className (if isItem then [] else [.ref (c.ownerName plan)]))
  let b ← get
  let marginType := if (Property.find? ps "margin").isSome then b.marginType else .unset
  emitAll (layoutDistances plan ps marginType isItem name)
  modify fun b => { b with marginType := .subLayout }
  let extra := if c.bareLayout = some visit.path then missingMargins ps else []
  writeProperties plan (c.target name className true) (ps ++ extra)
  return { c with layout := some ⟨name, className⟩ }

/-- One call for each entry of a list of numbers that is not zero. -/
def listStmts (name method value : String) : List Stmt :=
  if value.isEmpty then []
  else (Text.splitAt ',' value).zipIdx.filterMap fun (v, i) =>
    if v = "0" then none else some (.call name method [.int i, .code v])

/-- The attributes of a layout that hold a number for each row or column, with their setters. -/
def listSetters : List (String × String) := [
  ("stretch", "setStretch"), ("rowstretch", "setRowStretch"), ("columnstretch", "setColumnStretch"),
  ("columnminimumwidth", "setColumnMinimumWidth"), ("rowminimumheight", "setRowMinimumHeight")]

/-- Sets the stretch factors and least sizes of a layout. -/
def leaveLayout (name : String) (n : Node) : List Stmt :=
  listSetters.flatMap fun (attr, method) => listStmts name method (n.stringAttribute attr)

/-! ## Items -/

/-- The way a layout takes an item: the beginning of the method's name, and the arguments. -/
def itemPlacement (layoutClass itemName : String) (item : Node) : String × List Expr :=
  let row := (item.intAttribute? "row").getD 0
  let column := (item.intAttribute? "column").getD 0
  let columnSpan := (item.intAttribute? "colspan").getD 1
  let alignment := item.stringAttribute "alignment"
  if layoutClass = "QGridLayout" then
    let rowSpan := (item.intAttribute? "rowspan").getD 1
    ("add", [.ref itemName, .int row, .int column, .int rowSpan, .int columnSpan] ++
      (if alignment.isEmpty then [] else [.code alignment]))
  else if layoutClass = "QFormLayout" then
    let role :=
      if 1 < columnSpan then "QFormLayout::SpanningRole"
      else if column = 0 then "QFormLayout::LabelRole"
      else "QFormLayout::FieldRole"
    ("set", [.int row, .code role, .ref itemName])
  else
    let isBox := Text.contains "Box" layoutClass
    ("add", .ref itemName ::
      (if alignment.isEmpty || !isBox then [] else [.int 0, .code alignment]))

/-- What an item holds, as methods of layouts name it. -/
def itemNoun? (item : Node) : Option String :=
  match item.payload?.bind Field.node? with
  | some n => match n.kind with
    | .widget => some "Widget"
    | .layout => some "Layout"
    | .spacer => some "Item"
    | _ => none
  | none => none

/-- Adds an item to its layout. -/
def leaveItem (plan : Plan) (c : Context) (visit : Visit) : Build Unit := do
  match c.layout, itemNoun? visit.node with
  | some layout, some noun =>
    let itemName ← nameAt plan visit
    let (verb, args) := itemPlacement layout.className itemName visit.node
    emitAll [.blank, .call layout.name (verb ++ noun) args, .blank]
  | _, _ => pure ()

/-! ## Spacers -/

/-- The arguments that construct a spacer; it is horizontal and expands unless told otherwise. -/
def spacerArgs (ps : List Property) : List Expr :=
  let hint := match (Property.find? ps "sizeHint").map Property.value with
    | some (.size width height) => [.int width, .int height]
    | _ => []
  let sizeType := ((Property.find? ps "sizeType").bind Property.enum?).getD "Expanding"
  let sizeType :=
    if sizeType.startsWith "QSizePolicy::" then sizeType else "QSizePolicy::" ++ sizeType
  let orientation := (Property.find? ps "orientation").bind Property.enum?
  let isVertical := orientation = some "Qt::Vertical" ∨ orientation = some "Vertical"
  hint ++
    (if isVertical then [.code "QSizePolicy::Minimum", .code sizeType]
      else [.code sizeType, .code "QSizePolicy::Minimum"])

/-- Creates a spacer. -/
def writeSpacer (plan : Plan) (visit : Visit) : Build Unit := do
  let name ← nameAt plan visit
  emit (.create name "QSpacerItem" (spacerArgs visit.node.properties))

end FormCompiler.Setup
