import FormCompiler.Setup.Values
import FormCompiler.Text.Uppercase

/-!
# Setting properties

Most properties are set by a call of their setter, or by their name where no setter is to be used.
Some are left out, put off to the end of the setup function, or gathered, as the four margins are.
`treatment` says what becomes of a property.
-/

namespace FormCompiler.Setup

open Code

/-- An object of which properties are set: its variable, its class, whether it stands in the form
(only the form itself and what belongs to it does not), and whether it is a layout, whose distances
are set elsewhere. -/
structure Target where
  name : String
  className : String
  inForm : Bool
  isLayout : Bool
  deriving Repr, DecidableEq

/-- The four sides of a margin. -/
inductive Side where
  | left
  | top
  | right
  | bottom
  deriving Repr, DecidableEq

def Side.ofProperty? (name : String) : Option Side :=
  match name with
  | "leftMargin" => some .left
  | "topMargin" => some .top
  | "rightMargin" => some .right
  | "bottomMargin" => some .bottom
  | _ => none

/-- Four margins; `-1` stands for one that is not set. -/
structure Margins where
  left : Int := -1
  top : Int := -1
  right : Int := -1
  bottom : Int := -1
  deriving Repr, DecidableEq

namespace Margins

def set (m : Margins) (n : Int) : Side → Margins
  | .left => { m with left := n }
  | .top => { m with top := n }
  | .right => { m with right := n }
  | .bottom => { m with bottom := n }

def isSet (m : Margins) : Bool :=
  m.left != -1 || m.top != -1 || m.right != -1 || m.bottom != -1

end Margins

/-- What becomes of a property. -/
inductive Treatment where
  | skip
  | now (stmts : List Stmt)
  | later (s : Stmt)
  | margin (side : Side) (n : Int)
  | set
  deriving Repr, DecidableEq

/-- Whether the current page or entry of a class can be chosen only when all of them exist. -/
def hasCurrentIndex (plan : Plan) (className : String) : Bool :=
  plan.classes.derivesFromAny className ["QComboBox", "QStackedWidget", "QTabWidget", "QToolBox"]

/-- The orientation of a line becomes its shape; a shadow given before is kept. -/
def lineStmts (name : String) (p : Property) (hasShadow : Bool) : List Stmt :=
  let shape := if p.enum? = some "Qt::Vertical" then "QFrame::VLine" else "QFrame::HLine"
  .call name "setFrameShape" [.code shape] ::
    (if hasShadow then [] else [.call name "setFrameShadow" [.code "QFrame::Sunken"]])

/-- What becomes of a property of an object; `hasShadow` tells whether its shadow was set before. -/
def treatment (plan : Plan) (target : Target) (hasShadow : Bool) (p : Property) : Treatment :=
  let var := target.name
  let number := Expr.int (p.number?.getD 0)
  let derives := plan.classes.derives target.className
  match p.name, p.value with
  | "geometry", .rect _ _ width height =>
    if target.inForm then .set else .now [.call var "resize" [.int width, .int height]]
  | "buttonGroupId", _ => .skip
  | "currentRow", _ =>
    if derives "QListWidget" then .later (.call var "setCurrentRow" [number]) else .set
  | "currentIndex", _ =>
    if hasCurrentIndex plan target.className then .later (.call var "setCurrentIndex" [number])
    else .set
  | "tabSpacing", _ =>
    if derives "QToolBox" then .later (.call var "layout()->setSpacing" [number]) else .set
  | "database", .stringList _ => .skip
  | "frameworkCode", .bool _ => .skip
  | "orientation", _ => if derives "Line" then .now (lineStmts var p hasShadow) else .set
  | "margin", _ => if target.isLayout then .skip else .set
  | "spacing", _ => if target.isLayout then .skip else .set
  | name, .number n => match Side.ofProperty? name with
    | some side => .margin side n
    | none => .set
  | _, _ => .set

/-! ## Values -/

/-- A call of the constructor of a type. -/
def construct (type : String) (args : List String) : Expr :=
  .code (type ++ "(" ++ String.intercalate ", " args ++ ")")

def constructInts (type : String) (args : List Int) : Expr :=
  construct type (args.map Number.intText)

def constructReals (type : String) (args : List Number.Binary) : Expr :=
  construct type (args.map Number.general)

/-- Whether the property is set by its setter. -/
def usesSetter (plan : Plan) (p : Property) : Bool :=
  match p.stdset with
  | some v => v != 0
  | none => plan.usesSetters

/-- The expression a property is set to; nothing is set if it is void. -/
def valueExpr (plan : Plan) (target : Target) (p : Property) : Build Expr := do
  match p.value with
  | .none => return .code ""
  | .bool text => return .code text
  | .color c => return colorExpr c
  | .cstring text =>
    if p.name = "buddy" ∧ plan.classes.derives target.className "QLabel" then
      modify fun b => { b with buddies := b.buddies ++ [(target.name, text)] }
      return .code ""
    else if usesSetter plan p then return .literal innerDepth text
    else return .wrap "QByteArray" (.literal innerDepth text)
  | .cursor shape =>
    return .wrap "QCursor" (.wrap "static_cast<Qt::CursorShape>" (.int shape))
  | .cursorShape name => return construct "QCursor" ["Qt::" ++ name]
  | .enum name =>
    return .code (if Text.contains "::" name then name else target.className ++ "::" ++ name)
  | .font f => return .ref (← fontName f)
  | .icon i => return .ref (← iconName plan i)
  | .pixmap q => pixmapExpr plan p.name (.pixmap q)
  | .palette palette => return .ref (← paletteName plan palette)
  | .point x y => return constructInts "QPoint" [x, y]
  | .rect x y width height => return constructInts "QRect" [x, y, width, height]
  | .set text => return .code text
  | .locale language country =>
    return construct "QLocale" ["QLocale::" ++ language, "QLocale::" ++ country]
  | .sizePolicy policy =>
    let name ← sizePolicyName policy
    emit (.modify name "setHeightForWidth"
      [.invoke target.name "sizePolicy().hasHeightForWidth" []])
    return .ref name
  | .size width height => return constructInts "QSize" [width, height]
  | .string s =>
    if p.name = "objectName" ∧ s.text = target.name then return .code ""
    else return shownText (some s) ""
  | .stringList l =>
    return if l.translatable then .translatedList l.texts l.comment else .plainList l.texts
  | .number n => return .int n
  | .real v => return real v
  | .date year month day => return constructInts "QDate" [year, month, day]
  | .time hour minute second => return constructInts "QTime" [hour, minute, second]
  | .dateTime year month day hour minute second =>
    return .code ("QDateTime(QDate(" ++
      String.intercalate ", " ([year, month, day].map Number.intText) ++ "), QTime(" ++
      String.intercalate ", " ([hour, minute, second].map Number.intText) ++ "))")
  | .pointF x y => return constructReals "QPointF" [x, y]
  | .rectF x y width height => return constructReals "QRectF" [x, y, width, height]
  | .sizeF width height => return constructReals "QSizeF" [width, height]
  | .longLong n => return constructInts "Q_INT64_C" [n]
  | .char code => return constructInts "QChar" [code]
  | .url text => return .wrap "QUrl" (.utf8 innerDepth text)
  | .uint n => return .code (Number.intText n ++ "u")
  | .ulongLong n => return constructInts "Q_UINT64_C" [n]
  | .brush b => return .ref (← brushName plan b)

/-- The function in which a property is set. -/
def propertySection (p : Property) : Section :=
  match p.value with
  | .string s => textSection (some s) ""
  | .stringList l => if l.translatable then .retranslate else .setup
  | _ => .setup

/-- The symbol that switches off what a property is for. -/
def switchOf? (property : String) : Option String :=
  match property with
  | "toolTip" => some "QT_NO_TOOLTIP"
  | "whatsThis" => some "QT_NO_WHATSTHIS"
  | "statusTip" => some "QT_NO_STATUSTIP"
  | "accessibleName" | "accessibleDescription" => some "QT_NO_ACCESSIBILITY"
  | _ => none

/-- Puts statements under a symbol that switches them off. -/
def guarded (symbol : Option String) (stmts : List Stmt) : List Stmt :=
  match symbol with
  | some symbol => [.ifNotDefined symbol] ++ stmts ++ [.endIf]
  | none => stmts

/-- The call that sets a property.  A cursor set by its name belongs to the viewport. -/
def setterStmt (plan : Plan) (target : Target) (p : Property) (e : Expr) : Stmt :=
  let path := match p.value, p.stdset with
    | .cursorShape _, some 0 => "viewport()->"
    | _, _ => ""
  if usesSetter plan p then .call target.name (path ++ "set" ++ Text.upperFirst p.name) [e]
  else .call target.name (path ++ "setProperty")
    [.code ("\"" ++ p.name ++ "\""), .wrap "QVariant" e]

/-- Sets a property by a call. -/
def setProperty (plan : Plan) (target : Target) (p : Property) : Build Unit := do
  let e ← valueExpr plan target p
  if e.isVoid then return
  let sect := propertySection p
  emitIn sect (guarded (switchOf? p.name) [setterStmt plan target p e])
  if target.name = plan.mainForm ∧ sect = .retranslate then
    modify fun b => { b with retranslatesForm := true }

/-! ## Lists of properties -/

/-- What is wrong with a property that shows nothing. -/
def defect? (p : Property) : Option Topic :=
  match p.value with
  | .icon i => if i.isBlank then some (.invalidIcon p.name) else none
  | .pixmap q => if q.text.isEmpty then some (.invalidPixmap p.name) else none
  | _ => none

/-- What is remembered from one property of an object to the next. -/
structure Progress where
  margins : Margins := {}
  hasShadow : Bool := false
  deriving Repr, DecidableEq

/-- Deals with one property of an object. -/
def writeProperty (plan : Plan) (target : Target) (r : Progress) (p : Property) :
    Build Progress := do
  match defect? p with
  | some topic =>
    note plan topic
    return r
  | none =>
    match treatment plan target r.hasShadow p with
    | .skip => return r
    | .now stmts =>
      emitAll stmts
      return r
    | .later s =>
      delay s
      return r
    | .margin side n => return { r with margins := r.margins.set n side }
    | .set =>
      setProperty plan target p
      return { r with hasShadow := r.hasShadow || p.name == "frameShadow" }

/-- Names an object and sets its properties. -/
def writeProperties (plan : Plan) (target : Target) (ps : List Property) : Build Unit := do
  emit (if target.inForm then .setObjectName target.name else .nameOnce target.name)
  let r ← ps.foldlM (writeProperty plan target) {}
  if r.margins.isSet then
    emit (.call target.name "setContentsMargins"
      [.int r.margins.left, .int r.margins.top, .int r.margins.right, .int r.margins.bottom])

end FormCompiler.Setup
