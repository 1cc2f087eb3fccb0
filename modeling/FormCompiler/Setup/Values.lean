import FormCompiler.Setup.Builder

/-!
# Variables for values

Fonts, icons, size policies and brushes of one color are declared once and shared by all properties
that are equal.  Palettes, gradients and other brushes get a variable for each use.
-/

namespace FormCompiler.Setup

open Code Number

/-- A number in six digits. -/
def real (v : Binary) : Expr := .code (general v)

/-! ## Size policies -/

def policyName (text : String) : Expr := .code ("QSizePolicy::" ++ text)

def policyNumber (n : Int) : Expr := .wrap "static_cast<QSizePolicy::Policy>" (.int n)

/-- Both directions of a size policy, by number or else by name. -/
def policyInit (p : SizePolicy) : Init :=
  match p.horizontal, p.vertical, p.horizontalName, p.verticalName with
  | some h, some v, _, _ => .args [policyNumber h, policyNumber v]
  | _, _, some h, some v => .args [policyName h, policyName v]
  | _, _, _, _ => .default

def policyStmts (name : String) (p : SizePolicy) : List Stmt := [
  .declare "QSizePolicy" name (policyInit p),
  .modify name "setHorizontalStretch" [.int (p.horizontalStretch.getD 0)],
  .modify name "setVerticalStretch" [.int (p.verticalStretch.getD 0)]]

/-- The variable of a size policy. -/
def sizePolicyName (p : SizePolicy) : Build String := do
  match (← get).sizePolicies.lookup p with
  | some name => return name
  | none =>
    let name ← freshName "sizePolicy"
    modify fun b => { b with sizePolicies := b.sizePolicies ++ [(p, name)] }
    emitAll (policyStmts name p)
    return name

/-! ## Fonts -/

/-- The setter of a flag that a font may have. -/
def flagStmts (name method : String) (flag : Option Bool) : List Stmt :=
  match flag with
  | some b => [.modify name method [.code (if b then "true" else "false")]]
  | none => []

/-- The setter of a size that counts only if it is positive. -/
def sizeStmts (name method : String) (size : Option Int) : List Stmt :=
  match size with
  | some n => if 0 < n then [.modify name method [.int n]] else []
  | none => []

def fontStmts (name : String) (f : Font) : List Stmt :=
  [.declare "QFont" name .default] ++
    (match f.family with
      | some family =>
        if family.isEmpty then [] else [.modify name "setFamily" [.utf8 innerDepth family]]
      | none => []) ++
    sizeStmts name "setPointSize" f.pointSize ++
    flagStmts name "setBold" f.bold ++
    flagStmts name "setItalic" f.italic ++
    flagStmts name "setUnderline" f.underline ++
    sizeStmts name "setWeight" f.weight ++
    flagStmts name "setStrikeOut" f.strikeOut ++
    flagStmts name "setKerning" f.kerning ++
    (match f.antialiasing with
      | some b =>
        [.modify name "setStyleStrategy"
          [.code (if b then "QFont::PreferDefault" else "QFont::NoAntialias")]]
      | none => []) ++
    (match f.styleStrategy with
      | some strategy => [.modify name "setStyleStrategy" [.code ("QFont::" ++ strategy)]]
      | none => [])

/-- The variable of a font. -/
def fontName (f : Font) : Build String := do
  match (← get).fonts.lookup f with
  | some name => return name
  | none =>
    let name ← freshName "font"
    modify fun b => { b with fonts := b.fonts ++ [(f, name)] }
    emitAll (fontStmts name f)
    return name

/-! ## Pictures -/

/-- A picture of a type, given by the name of an embedded image or by a file. -/
def pictureExpr (plan : Plan) (type text : String) : Expr :=
  if text.isEmpty then .code (type ++ "()")
  else match plan.images.reverse.lookup text with
    | some extension =>
      if plan.options.extractImages then .resourceImage (text ++ "." ++ extension)
      else .storedImage text
    | none =>
      let function :=
        if plan.pixmapFunction.isEmpty then "QString::fromUtf8" else plan.pixmapFunction
      .wrap type (.wrap function (.literal innerDepth text))

/-- The files of an icon. -/
def iconFiles (i : Icon) : List IconFile :=
  i.states.filterMap fun s =>
    (Icon.stateNames.lookup s.1).map fun m => ⟨s.2.text, m.1, m.2⟩

/-- The statements for an icon; `declared` tells whether the variable for theme names exists. -/
def iconStmts (plan : Plan) (declared : Bool) (name : String) (i : Icon) : List Stmt :=
  let theme := i.themeName
  if i.states.isEmpty then
    if theme.isEmpty then [.declare "const QIcon" name (.value (pictureExpr plan "QIcon" i.text))]
    else [.declare "QIcon" name (.args [.wrap "QIcon::fromTheme" (.utf8 0 theme)])]
  else if theme.isEmpty then
    .declare "QIcon" name .default ::
      (iconFiles i).map fun f => .modify name "addFile" (f.args bodyDepth)
  else [
    .declare "QIcon" name .default,
    if declared then .assign themeVariable (.utf8 0 theme)
    else .declare "QString" themeVariable (.value (.utf8 0 theme)),
    .chooseIcon name (iconFiles i)]

/-- The variable of an icon. -/
def iconName (plan : Plan) (i : Icon) : Build String := do
  match (← get).icons.lookup i with
  | some name => return name
  | none =>
    let name ← freshName "icon"
    modify fun b => { b with icons := b.icons ++ [(i, name)] }
    emitAll (iconStmts plan (← get).themeDeclared name i)
    if i.hasFallback then modify fun b => { b with themeDeclared := true }
    return name

/-- The picture of a property, as a pixmap or an icon without a variable. -/
def pixmapExpr (plan : Plan) (property : String) (p : Picture) : Build Expr := do
  match p with
  | .icon i => return pictureExpr plan "QIcon" i.text
  | .pixmap q => return pictureExpr plan "QPixmap" q.text
  | .none =>
    note plan (.unknownIconFormat property)
    return .code "QIcon()"

/-- The picture of a property; icons have variables. -/
def iconExpr (plan : Plan) (property : String) (p : Picture) : Build Expr := do
  match p with
  | .icon i => return .ref (← iconName plan i)
  | p => pixmapExpr plan property p

/-! ## Colors, brushes and palettes -/

def colorText (c : Color) : String :=
  let channels := [intText c.red, intText c.green, intText c.blue] ++
    (match c.alpha with
      | some a => [intText a]
      | none => [])
  "QColor(" ++ String.intercalate ", " channels ++ ")"

def colorExpr (c : Color) : Expr := .code (colorText c)

/-- The lowest byte of a channel. -/
def channelByte (v : Int) : Nat := (v % 256).toNat

/-- The four bytes of a color; without an alpha channel it is zero. -/
def colorKey (c : Color) : Nat :=
  ((channelByte c.red * 256 + channelByte c.green) * 256 + channelByte c.blue) * 256 +
    channelByte (c.alpha.getD 0)

/-- The declaration of a gradient of a known type. -/
def gradientInit (name : String) (g : Gradient) : List Stmt :=
  match g.type with
  | some "LinearGradient" =>
    [.declare "QLinearGradient" name
      (.args [real g.start.1, real g.start.2, real g.stop.1, real g.stop.2])]
  | some "RadialGradient" =>
    [.declare "QRadialGradient" name
      (.args [real g.center.1, real g.center.2, real g.radius, real g.focus.1, real g.focus.2])]
  | some "ConicalGradient" =>
    [.declare "QConicalGradient" name (.args [real g.center.1, real g.center.2, real g.angle])]
  | _ => []

def gradientStmts (name : String) (g : Gradient) : List Stmt :=
  gradientInit name g ++
    [.modify name "setSpread" [.code ("QGradient::" ++ g.spread)]] ++
    (match g.coordinateMode with
      | some mode => [.modify name "setCoordinateMode" [.code ("QGradient::" ++ mode)]]
      | none => []) ++
    g.stops.map fun s => .modify name "setColorAt" [real s.position, colorExpr s.color]

/-- A gradient without anything in it. -/
def emptyGradient : Gradient := Gradient.ofNode (.empty .gradient)

/-- Declares a brush. -/
def writeBrush (plan : Plan) (b : Brush) (name : String) : Build Unit := do
  let style := b.styleName
  if style = "LinearGradientPattern" ∨ style = "RadialGradientPattern" ∨
      style = "ConicalGradientPattern" then
    let gradient := match b.fill with
      | .gradient g => g
      | _ => emptyGradient
    let gradientName ← freshName "gradient"
    emitAll (gradientStmts gradientName gradient)
    emit (.declare "QBrush" name (.args [.ref gradientName]))
  else if style = "TexturePattern" then
    let texture ← match b.fill with
      | .texture property p => iconExpr plan property p
      | _ => pure (.code "QIcon()")
    emit (.declare "QBrush" name (.value (.wrap "QBrush" texture)))
  else
    let color := match b.fill with
      | .color c => c
      | _ => Color.black
    emit (.declare "QBrush" name (.args [colorExpr color]))
    emit (.modify name "setStyle" [.code ("Qt::" ++ style)])

/-- The variable of a brush.  Solid brushes are shared by the bytes of their color; a solid brush
without a color is kept under zero. -/
def brushName (plan : Plan) (b : Brush) : Build String := do
  let key? := match b.fill with
    | .color c => if b.isSolid then some (colorKey c) else none
    | _ => none
  let brushes := (← get).brushes
  match key?.bind (brushes.lookup ·) with
  | some name => return name
  | none =>
    let name ← freshName "brush"
    writeBrush plan b name
    if b.isSolid then
      modify fun s => { s with brushes := (key?.getD 0, name) :: s.brushes }
    return name

/-- Sets the colors of one state of a palette. -/
def writeColorGroup (plan : Plan) (palette group : String) (g : ColorGroup) : Build Unit := do
  let group := Expr.code ("QPalette::" ++ group)
  emitAll (g.colors.zipIdx.map fun (c, i) =>
    .modify palette "setColor"
      [group, .wrap "static_cast<QPalette::ColorRole>" (.int i), colorExpr c])
  g.roles.forM fun r => do
    match r.role with
    | none => pure ()
    | some role =>
      let brush ← brushName plan r.brush
      emit (.modify palette "setBrush" [group, .code ("QPalette::" ++ role), .ref brush])

/-- The variable of a palette. -/
def paletteName (plan : Plan) (p : Palette) : Build String := do
  let name ← freshName "palette"
  emit (.declare "QPalette" name .default)
  p.active.forM (writeColorGroup plan name "Active")
  p.inactive.forM (writeColorGroup plan name "Inactive")
  p.disabled.forM (writeColorGroup plan name "Disabled")
  return name

end FormCompiler.Setup
