import FormCompiler.Setup.Layout

/-!
# Widgets

A widget is created when the walk enters it, with its items, its button group and its properties.
What it contains follows; then it is handed to the widget that encloses it, and its children are put
in their order.
-/

namespace FormCompiler.Setup

open Code Document Naming

/-- The icon of an item or a page as an argument, if there is one. -/
def iconArgs (plan : Plan) (icon : Option Property) : Build (List Expr) := do
  match icon with
  | some p => return [← iconExpr plan p.name p.picture]
  | none => return []

/-! ## Items of combo boxes -/

/-- An item of a combo box. -/
structure ComboItem where
  text : Option Phrase
  icon : Option Property
  deriving Repr, DecidableEq

namespace ComboItem

def ofNode (n : Node) : ComboItem :=
  let ps := n.properties
  ⟨Property.phrase? ps "text", Property.find? ps "icon"⟩

def isTranslated (i : ComboItem) : Bool := Setup.isTranslated i.text ""

end ComboItem

/-- Goes over the items as long as one call can insert them all: up to one that has an icon or,
after the first, one whose text is translated unlike that of the item before it.  If there is none,
the answer is whether the texts are translated, and the texts. -/
def gatherTexts (index : Nat) (translated : Bool) (texts : List Expr) :
    List ComboItem → Option (Bool × List Expr)
  | [] => some (translated, texts)
  | i :: rest =>
    if i.icon.isSome || (0 < index && translated != i.isTranslated) then none
    else gatherTexts (index + 1) i.isTranslated (texts ++ [shownText i.text ""]) rest

/-- Inserts all texts by one call. -/
def insertItems (name : String) (translated : Bool) (texts : List Expr) : Build Unit :=
  if translated then emitRetranslate [.call name "clear" [], .insertItems name texts]
  else emit (.insertItems name texts)

/-- Adds one item; a translated text is set later. -/
def addItem (plan : Plan) (name : String) (index : Nat) (i : ComboItem) : Build Unit := do
  let icon ← iconArgs plan i.icon
  if i.isTranslated then
    emit (.call name "addItem" (icon ++ [.emptyText]))
    emitRetranslate [.call name "setItemText" [.int index, translatedText i.text ""]]
  else
    emit (.call name "addItem" (icon ++ [plainText i.text ""]))

/-- Fills a combo box. -/
def fillComboBox (plan : Plan) (name : String) (items : List ComboItem) : Build Unit := do
  if items.isEmpty then return
  match gatherTexts 0 false [] items with
  | some (translated, texts) => insertItems name translated texts
  | none =>
    items.zipIdx.forM fun (i, index) => addItem plan name index i
    emitRetranslate [.blank]

/-! ## Button groups -/

/-- A group without properties, declared under a name. -/
def bareGroup (declared : String) : Node :=
  (Node.empty .buttonGroup).setAttribute "name" (.string declared)

/-- Puts a button into its group.  A group is created with its first button; one that the form does
not declare is a local variable. -/
def joinButtonGroup (plan : Plan) (c : Context) (name : String) (button : Node) : Build Unit := do
  match Property.find? button.containerAttributes "buttonGroup" with
  | none => return
  | some p =>
    let declared := (p.string?.map Phrase.text).getD ""
    let found := (← table).group? declared
    if found.isNone then note plan (.createdButtonGroup declared)
    let group := (found.map Group.node).getD (bareGroup declared)
    let groupName ← withSession (Session.nameOfGroup group)
    if !(← get).buttonGroups.contains groupName then
      modify fun b => { b with buttonGroups := groupName :: b.buttonGroups }
      let args := [Expr.ref plan.mainForm]
      emit (if found.isSome then .create groupName "QButtonGroup" args
        else .createLocal groupName "QButtonGroup" args)
      writeProperties plan (c.target groupName "QButtonGroup" false) group.properties
    emit (.call groupName "addButton" [.ref name])

/-! ## Menus -/

/-- Takes the action of a menu, if the form declares one for it. -/
def takeMenuAction (name : String) : Build Unit := do
  let action := name ++ "Action"
  if (← table).actionIsMenu? action = some true then
    emit (.assign action (.invoke name "menuAction" []))

/-! ## Containers -/

/-- The area of a tool bar; older forms give it as a number. -/
def toolBarArea (attrs : List Property) : List Expr :=
  match (Property.find? attrs "toolBarArea").map Property.value with
  | some (.number n) => [.wrap "static_cast<Qt::ToolBarArea>" (.int n)]
  | some (.enum area) => [.code (if area.startsWith "Qt::" then area else "Qt::" ++ area)]
  | _ => []

def dockWidgetArea (attrs : List Property) : List Expr :=
  match Property.find? attrs "dockWidgetArea" with
  | some p => [.wrap "static_cast<Qt::DockWidgetArea>" (.int (p.number?.getD 0))]
  | none => []

/-- Hands a widget to a main window. -/
def mainWindowStmts (plan : Plan) (parent name className : String) (attrs : List Property) :
    List Stmt :=
  let derives := plan.classes.derives className
  if derives "QMenuBar" then [.call parent "setMenuBar" [.ref name]]
  else if derives "QToolBar" then
    .call parent "addToolBar" (toolBarArea attrs ++ [.ref name]) ::
      (if (Property.find? attrs "toolBarBreak").bind Property.bool? = some "true" then
        [.call parent "insertToolBarBreak" [.ref name]]
      else [])
  else if derives "QDockWidget" then
    [.call parent "addDockWidget" (dockWidgetArea attrs ++ [.ref name])]
  else if derives "QStatusBar" then [.call parent "setStatusBar" [.ref name]]
  else [.call parent "setCentralWidget" [.ref name]]

/-- Adds a page to a wizard, under its number if it has one.  Of several numbers the first
counts. -/
def wizardStmt (parent name : String) (attrs : List Property) : Stmt :=
  let id := ((attrs.find? (·.name == "pageId")).bind Property.string?).map Phrase.text |>.getD ""
  if id.isEmpty then .call parent "addPage" [.ref name]
  else .call parent "setPage" [.code id, .ref name]

/-- The title of a page that has none. -/
def pageTitle : String := "Page"

/-- Sets a text that a container shows for one of its pages. -/
def setPageText (parent name method : String) (phrase : Option Phrase) (fallback : String) :
    Build Unit :=
  emitIn (textSection phrase fallback)
    [.call parent method [.invoke parent "indexOf" [name], shownText phrase fallback]]

/-- Sets a text of a page if it is given. -/
def setPageTextNamed (parent name method : String) (attrs : List Property) (attr : String) :
    Build Unit :=
  match Property.phrase? attrs attr with
  | some phrase => setPageText parent name method (some phrase) ""
  | none => pure ()

/-- Adds a page to a tool box. -/
def addToToolBox (plan : Plan) (parent name : String) (attrs : List Property) : Build Unit := do
  let icon ← iconArgs plan (Property.find? attrs "icon")
  let label := Property.phrase? attrs "label"
  emit (.call parent "addItem" ([.ref name] ++ icon ++ [plainText label pageTitle]))
  setPageText parent name "setItemText" label pageTitle
  setPageTextNamed parent name "setItemToolTip" attrs "toolTip"

/-- Adds a page to a tab widget. -/
def addToTabWidget (plan : Plan) (parent name : String) (attrs : List Property) : Build Unit := do
  let icon ← iconArgs plan (Property.find? attrs "icon")
  emit (.call parent "addTab" ([.ref name] ++ icon ++ [.emptyText]))
  setPageText parent name "setTabText" (Property.phrase? attrs "title") pageTitle
  setPageTextNamed parent name "setTabToolTip" attrs "toolTip"
  setPageTextNamed parent name "setTabWhatsThis" attrs "whatsThis"

/-- Hands a widget to the container that encloses it. -/
def addToContainer (plan : Plan) (parent parentClass name : String) (attrs : List Property) :
    Build Unit :=
  let derives := plan.classes.derives parentClass
  match plan.classes.addPageMethod? parentClass with
  | some method => emit (.call parent method [.ref name])
  | none =>
    if derives "QStackedWidget" || derives "QToolBar" || derives "QSplitter" then
      emit (.call parent "addWidget" [.ref name])
    else if derives "QDockWidget" || derives "QScrollArea" then
      emit (.call parent "setWidget" [.ref name])
    else if derives "QMdiArea" then emit (.call parent "addSubWindow" [.ref name])
    else if derives "QWizard" then emit (wizardStmt parent name attrs)
    else if derives "QToolBox" then addToToolBox plan parent name attrs
    else if derives "QTabWidget" then addToTabWidget plan parent name attrs
    else pure ()

/-- Hands a finished widget to the widget that encloses it. -/
def addToParent (plan : Plan) (c : Context) (name : String) (n : Node) : Build Unit := do
  let attrs := n.containerAttributes
  if plan.classes.derives c.widgetClass "QMainWindow" then
    emitAll (mainWindowStmts plan c.widgetName name (n.stringAttribute "class") attrs)
  addToContainer plan c.widgetName c.widgetClass name attrs

/-! ## Widgets -/

/-- Whether a widget serves only to hold a layout, which then gets no margins. -/
def holdsBareLayout (plan : Plan) (c : Context) (n : Node) : Bool :=
  n.stringAttribute "class" == "QWidget" && (n.attribute? "native").isNone && c.widget.isSome &&
    c.widgetClass != "QMainWindow" && !plan.classes.isDeclaredContainer c.widgetClass &&
    !plan.classes.isContainer c.widgetClass

/-- Creates a widget. -/
def enterWidget (plan : Plan) (c : Context) (visit : Visit) : Build Context := do
  let n := visit.node
  modify fun b => { b with marginType := if c.widget.isSome then .child else .topLevel }
  let className := n.stringAttribute "class"
  let name ← nameAt plan visit
  modify fun b => { b with widgets := name :: b.widgets }
  if c.widget.isSome then
    emit (.create name (Classes.Custom.realClass className)
      (if plan.classes.isContainer c.widgetClass then [] else [.ref c.widgetName]))
  if plan.classes.derives className "QComboBox" then
    fillComboBox plan name ((n.children "item").map ComboItem.ofNode)
  if plan.classes.isButton className then joinButtonGroup plan c name n
  writeProperties plan (c.target name className false) n.properties
  if plan.classes.derives className "QMenu" && !c.widgetName.isEmpty then takeMenuAction name
  let bareLayout :=
    if holdsBareLayout plan c n then (n.firstOfKind? .layout).map (· :: visit.path) else none
  return { widget := some ⟨name, className⟩, layout := none, group := c.group, bareLayout }

/-- Raises the children of a widget in the order that it gives. -/
def raiseChildren (plan : Plan) (n : Node) : Build Unit :=
  (n.strings "zorder").forM fun child => do
    if !(← get).widgets.contains child then note plan (.invalidOrder child)
    else if !child.isEmpty then emit (.call child "raise" [])

/-- Finishes a widget. -/
def leaveWidget (plan : Plan) (c : Context) (name : String) (n : Node) : Build Unit := do
  addToParent plan c name n
  raiseChildren plan n

/-! ## Actions -/

/-- Creates a group of actions. -/
def enterActionGroup (plan : Plan) (c : Context) (visit : Visit) : Build Context := do
  let name ← nameAt plan visit
  emit (.create name "QActionGroup" [.ref (c.actionOwner plan)])
  writeProperties plan (c.target name "QActionGroup" false) visit.node.properties
  return { c with group := some name }

/-- Creates an action; that of a menu belongs to the menu. -/
def writeAction (plan : Plan) (c : Context) (visit : Visit) : Build Unit := do
  if (visit.node.attribute? "menu").isSome then return
  let name ← nameAt plan visit
  emit (.create name "QAction" [.ref (c.actionOwner plan)])
  writeProperties plan (c.target name "QAction" false) visit.node.properties

/-- Places an action in a widget, once all actions exist. -/
def placeAction (plan : Plan) (c : Context) (n : Node) : Build Unit := do
  let name := n.stringAttribute "name"
  let t ← table
  match c.widget with
  | none => return
  | some widget =>
    if name.isEmpty || t.isActionGroup name then return
    let widgetClass := t.widgetClass? name
    if name = "separator" then delayAction (.call widget.name "addSeparator" [])
    else match widgetClass with
      | some className =>
        if plan.classes.isMenu className then
          delayAction (.call widget.name "addAction" [.invoke name "menuAction" []])
        else delayAction (.call widget.name "addAction" [.ref name])
      | none =>
        if (t.actionIsMenu? name).isNone then note plan (.undeclaredAction name)
        else delayAction (.call widget.name "addAction" [.ref name])

/-! ## The walk -/

/-- Sets up the objects of a form. -/
def walker (plan : Plan) : Walker Builder Context where
  enter c visit := match visit.node.kind with
    | .ui | .layoutItem => pure (some c)
    | .widget => some <$> enterWidget plan c visit
    | .layout => some <$> enterLayout plan c visit
    | .actionGroup => some <$> enterActionGroup plan c visit
    | .spacer => do writeSpacer plan visit; return none
    | .action => do writeAction plan c visit; return none
    | .actionRef => do placeAction plan c visit.node; return none
    | _ => pure none
  leave c inner visit := match visit.node.kind with
    | .widget => leaveWidget plan c inner.widgetName visit.node
    | .layout => emitAll (leaveLayout ((inner.layout.map Frame.name).getD "") visit.node)
    | .layoutItem => leaveItem plan c visit
    | _ => pure ()

end FormCompiler.Setup
