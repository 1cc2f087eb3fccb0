import FormCompiler.Proofs.Code.Mentions
import FormCompiler.Proofs.Setup.Building

/-!
# The parts of the setup

The functions that deal with a property, a combo box, a button, a widget, a container, an action, a
layout or an item of it are taken apart here, each of them once.  An equation says of which steps
the function is made (`fillComboBox_eq`, `joinButtonGroup_eq`, `enterWidget_eq`, `enterLayout_run`),
or a list of cases what it can do (`writeProperty_deals`, `addToContainer_takes`,
`placeAction_places`, `leaveItem_installs`).  Whatever else is proved of one of these functions is
proved of its steps.
-/

namespace FormCompiler.Setup

open Code Document Naming

theorem emitAll_nil : emitAll [] = pure () := by
  funext b
  simp only [emitAll, modify_run, List.append_nil, pure_run]

theorem emitRetranslate_nil : emitRetranslate [] = pure () := by
  funext b
  simp only [emitRetranslate, modify_run, List.append_nil, pure_run]

/-- An `if` that only guards the first of two steps. -/
theorem when_bind {β : Type} (c : Prop) [Decidable c] (m : Build Unit) (k : Build β) :
    (if c then m >>= fun _ => k else k) = (if c then m else pure ()) >>= fun _ => k := by
  split <;> rfl

theorem when_run {β : Type} (c : Prop) [Decidable c] (m : Build Unit) (k : Build β) (b : Builder) :
    (if c then m >>= fun _ => k else k) b = k (if c then (m b).2 else b) := by
  split <;> rfl

variable (plan : Plan)

/-! ## Properties -/

/-- The statement that names an object after its variable; one from outside may have a name. -/
def Target.title (target : Target) : Stmt :=
  if target.inForm then .setObjectName target.name else .nameOnce target.name

/-- What is done to an object once it has its title. -/
def setAll (target : Target) (ps : List Property) : Build Unit := do
  let r ← ps.foldlM (writeProperty plan target) {}
  if r.margins.isSet then
    emit (.call target.name "setContentsMargins"
      [.int r.margins.left, .int r.margins.top, .int r.margins.right, .int r.margins.bottom])

theorem writeProperties_eq (target : Target) (ps : List Property) :
    writeProperties plan target ps = (do emit target.title; setAll plan target ps) :=
  rfl

/-- What can be done about a property of an object, and what is remembered of it. -/
inductive Deals (target : Target) (r : Progress) (p : Property) :
    Build Unit → Progress → Prop where
  | complain {topic : Topic} (hd : defect? p = some topic) : Deals target r p (note plan topic) r
  | skip (ht : treatment plan target r.hasShadow p = .skip) : Deals target r p (pure ()) r
  | now {l : List Stmt} (ht : treatment plan target r.hasShadow p = .now l) :
      Deals target r p (emitAll l) r
  | later {s : Stmt} (ht : treatment plan target r.hasShadow p = .later s) :
      Deals target r p (delay s) r
  | margin {side : Side} {n : Int} (ht : treatment plan target r.hasShadow p = .margin side n) :
      Deals target r p (pure ()) { r with margins := r.margins.set n side }
  | set (hd : defect? p = none) (ht : treatment plan target r.hasShadow p = .set) :
      Deals target r p (setProperty plan target p)
        { r with hasShadow := r.hasShadow || p.name == "frameShadow" }

theorem writeProperty_deals (target : Target) (r : Progress) (p : Property) :
    ∃ m r', writeProperty plan target r p = (do m; return r') ∧ Deals plan target r p m r' := by
  unfold writeProperty
  cases hd : defect? p with
  | some topic => exact ⟨_, _, rfl, .complain hd⟩
  | none =>
    cases ht : treatment plan target r.hasShadow p with
    | skip => exact ⟨_, _, rfl, .skip ht⟩
    | now l => exact ⟨_, _, rfl, .now ht⟩
    | later s => exact ⟨_, _, rfl, .later ht⟩
    | margin side n => exact ⟨_, _, rfl, .margin ht⟩
    | set => exact ⟨_, _, rfl, .set hd ht⟩

/-! ## Combo boxes -/

/-- Whether the items can be inserted by one call: they have no icons, and all or none of their
texts are translated. -/
def areUniform (items : List ComboItem) : Bool :=
  items.all (·.icon.isNone) &&
    (items.all ComboItem.isTranslated || items.all fun i => !i.isTranslated)

/-- What inserts all items. -/
def insertion (name : String) (items : List ComboItem) : Stmt :=
  .insertItems name (items.map fun i => shownText i.text "")

/-- What adds an item, given its icon as an argument; a translated text is left out. -/
def itemStmt (name : String) (i : ComboItem) (icon : List Expr) : Stmt :=
  .call name "addItem" (icon ++ [if i.isTranslated then .emptyText else plainText i.text ""])

/-- What sets the text of an item with a number, if it is translated. -/
def renewal (name : String) (i : ComboItem × Nat) : List Stmt :=
  if i.1.isTranslated then [.call name "setItemText" [.int i.2, translatedText i.1.text ""]] else []

/-- After the first item, all others must be translated as it is. -/
theorem gatherTexts_rest (index : Nat) (translated : Bool) (texts : List Expr)
    (items : List ComboItem) :
    gatherTexts (index + 1) translated texts items =
      if items.all (fun i => i.icon.isNone && i.isTranslated == translated) then
        some (translated, texts ++ items.map fun i => shownText i.text "")
      else none := by
  induction items generalizing index texts with
  | nil => simp [gatherTexts]
  | cons i items ih =>
    cases hicon : i.icon with
    | some icon => simp [gatherTexts, hicon]
    | none =>
      by_cases htranslated : i.isTranslated = translated
      · simp [gatherTexts, hicon, htranslated, ih]
      · simp [gatherTexts, hicon, htranslated, Ne.symm htranslated]

theorem areUniform_cons (i : ComboItem) (items : List ComboItem) :
    areUniform (i :: items) = (i.icon.isNone &&
      items.all fun j => j.icon.isNone && j.isTranslated == i.isTranslated) := by
  rw [Bool.eq_iff_iff]
  cases htranslated : i.isTranslated <;>
    simp [areUniform, htranslated, forall_and, and_assoc]

/-- The scan tells the items that can be inserted by one call. -/
theorem gatherTexts_eq {items : List ComboItem} (hne : items.isEmpty = false) :
    gatherTexts 0 false [] items =
      if areUniform items then
        some (items.all ComboItem.isTranslated, items.map fun i => shownText i.text "")
      else none := by
  cases items with
  | nil => cases hne
  | cons i items =>
    cases hicon : i.icon with
    | some icon => simp [gatherTexts, areUniform, hicon]
    | none =>
      have hfirst : gatherTexts 0 false [] (i :: items) =
          gatherTexts 1 i.isTranslated [shownText i.text ""] items := by
        simp [gatherTexts, hicon]
      rw [hfirst, gatherTexts_rest, areUniform_cons, hicon]
      simp only [Option.isNone_none, Bool.true_and]
      split
      · rename_i hrest
        -- All are translated if the first one is.
        have hflag : (i :: items).all ComboItem.isTranslated = i.isTranslated := by
          cases htranslated : i.isTranslated with
          | false => simp [htranslated]
          | true => simp_all
        rw [hflag]
        rfl
      · rfl

/-- A step in which a combo box is filled: the icon that is needed, the code that gets it as an
argument, and the code that sets texts whenever the language changes. -/
structure Filling where
  icon : Option Property := none
  code : List Expr → List Stmt := fun _ => []
  texts : List Stmt := []

/-- The step that adds an item with a number. -/
def itemFilling (name : String) (i : ComboItem × Nat) : Filling :=
  ⟨i.1.icon, fun icon => [itemStmt name i.1 icon], renewal name i⟩

def Filling.run (f : Filling) : Build Unit := do
  let icon ← iconArgs plan f.icon
  emitAll (f.code icon)
  emitRetranslate f.texts

/-- The steps in which a combo box is filled. -/
def fillings (name : String) (items : List ComboItem) : List Filling :=
  if items.isEmpty then []
  else if areUniform items then
    if items.all ComboItem.isTranslated then
      [{ texts := [.call name "clear" [], insertion name items] }]
    else [{ code := fun _ => [insertion name items] }]
  else items.zipIdx.map (itemFilling name) ++ [{ texts := [.blank] }]

theorem run_code (s : Stmt) : Filling.run plan { code := fun _ => [s] } = emit s := by
  simp only [Filling.run, emitRetranslate_nil]
  rfl

theorem run_texts (l : List Stmt) : Filling.run plan { texts := l } = emitRetranslate l := by
  simp only [Filling.run, emitAll_nil]
  rfl

theorem addItem_eq (name : String) (i : ComboItem × Nat) :
    addItem plan name i.2 i.1 = (itemFilling name i).run plan := by
  cases htranslated : i.1.isTranslated with
  | true =>
    simp only [addItem, itemFilling, Filling.run, itemStmt, renewal, htranslated, if_true]
    rfl
  | false =>
    simp only [addItem, itemFilling, Filling.run, itemStmt, renewal, htranslated,
      Bool.false_eq_true, if_false, emitRetranslate_nil]
    rfl

theorem fillComboBox_eq (name : String) (items : List ComboItem) :
    fillComboBox plan name items = (fillings name items).forM (Filling.run plan) := by
  unfold fillComboBox fillings
  cases hne : items.isEmpty with
  | true => rfl
  | false =>
    rw [gatherTexts_eq hne]
    by_cases huniform : areUniform items = true
    · cases items.all ComboItem.isTranslated with
      | true => simp [huniform, insertItems, run_texts, insertion]
      | false => simp [huniform, insertItems, run_code, insertion]
    · simp [huniform, addItem_eq, List.forM_append, List.forM_map, run_texts]

/-- What a step can be in which a combo box is filled with items. -/
inductive Filling.Fits (name : String) (items : List ComboItem) : Filling → Prop where
  | insert (h : ∀ i ∈ items, i.isTranslated = false) :
      Fits name items { code := fun _ => [insertion name items] }
  | renew (h : ∀ i ∈ items, i.isTranslated = true) :
      Fits name items { texts := [.call name "clear" [], insertion name items] }
  | add (i : ComboItem × Nat) : Fits name items (itemFilling name i)
  | gap : Fits name items { texts := [.blank] }

theorem fits_of_mem {name : String} {items : List ComboItem} {f : Filling}
    (hf : f ∈ fillings name items) : f.Fits name items := by
  unfold fillings at hf
  split at hf
  · cases hf
  · split at hf
    · rename_i huniform
      split at hf
      · rename_i htranslated
        rw [List.mem_singleton.mp hf]
        exact .renew (List.all_eq_true.mp htranslated)
      · rename_i hplain
        rw [areUniform, Bool.and_eq_true, Bool.or_eq_true] at huniform
        rw [List.mem_singleton.mp hf]
        exact .insert (by simpa using List.all_eq_true.mp (huniform.2.resolve_left hplain))
    · rcases List.mem_append.mp hf with hf | hf
      · obtain ⟨i, -, rfl⟩ := List.mem_map.mp hf
        exact .add i
      · rw [List.mem_singleton.mp hf]
        exact .gap

/-- A step refers to the combo box and to its icon only. -/
theorem Filling.Fits.calls {name : String} {items : List ComboItem} {f : Filling}
    (hf : f.Fits name items) {known : List String} {icon : List Expr} (hname : name ∈ known)
    (hicon : ∀ x ∈ icon.flatMap Expr.uses, x ∈ known) : Calls known (f.code icon) := by
  cases hf with
  | insert h =>
    exact .cons rfl (by simpa [insertion, Stmt.uses, List.flatMap_map] using hname) .nil
  | renew h => exact .nil
  | add i =>
    have htext : (if i.1.isTranslated then .emptyText else plainText i.1.text "").uses = [] := by
      split
      · rfl
      · exact plainText_uses ..
    refine .cons rfl (List.forall_mem_cons.mpr ⟨hname, fun x hx => hicon x ?_⟩) .nil
    simpa [htext] using hx
  | gap => exact .nil

/-! ## Button groups -/

/-- The node of the group declared under a name, or one without properties. -/
def groupNodeIn (t : Table) (d : String) : Node := ((t.group? d).map Group.node).getD (bareGroup d)

/-- What creates a group; one that is not declared is a local variable. -/
def createGroup (t : Table) (d x : String) : Stmt :=
  if (t.group? d).isSome then .create x "QButtonGroup" [.ref plan.mainForm]
  else .createLocal x "QButtonGroup" [.ref plan.mainForm]

/-- Notes that a group is not declared. -/
def announce (t : Table) (d : String) : Build Unit :=
  if (t.group? d).isNone then note plan (.createdButtonGroup d) else pure ()

/-- Names a group, creates it unless it exists, and gives it a button. -/
def enrol (c : Context) (name : String) (group : Node) (create : String → Stmt) : Build Unit := do
  let groupName ← withSession (Session.nameOfGroup group)
  if !(← get).buttonGroups.contains groupName then
    modify fun b => { b with buttonGroups := groupName :: b.buttonGroups }
    emit (create groupName)
    writeProperties plan (c.target groupName "QButtonGroup" false) group.properties
  emit (.call groupName "addButton" [.ref name])

theorem joinButtonGroup_eq (c : Context) (name : String) (button : Node) :
    joinButtonGroup plan c name button = (groupOf? button).forM (fun d => do
      let t ← table
      announce plan t d
      enrol plan c name (groupNodeIn t d) (createGroup plan t d)) := by
  unfold joinButtonGroup groupOf?
  cases Property.find? button.containerAttributes "buttonGroup" with
  | none => rfl
  | some p => exact congrArg (table >>= ·) (funext fun t => when_bind _ _ _)

theorem joinButtonGroup_none {button : Node} (hd : groupOf? button = none) (c : Context)
    (name : String) : joinButtonGroup plan c name button = pure () := by
  rw [joinButtonGroup_eq, hd]
  rfl

theorem joinButtonGroup_run {button : Node} {d : String} (hd : groupOf? button = some d)
    (c : Context) (name : String) (b : Builder) :
    let b' := (announce plan b.session.table d b).2
    joinButtonGroup plan c name button b = enrol plan c name (groupNodeIn b'.session.table d)
      (createGroup plan b'.session.table d) b' := by
  have htable : (announce plan b.session.table d b).2.session.table = b.session.table := by
    unfold announce
    split <;> rfl
  dsimp only
  rw [joinButtonGroup_eq, hd, htable]
  rfl

theorem createGroup_assigns (t : Table) (d x : String) :
    (createGroup plan t d x).assigns = [x] := by
  unfold createGroup
  split <;> rfl

theorem createGroup_uses (t : Table) (d x : String) :
    (createGroup plan t d x).uses = [plan.mainForm] := by
  unfold createGroup
  split <;> rfl

theorem enrol_run (c : Context) (name : String) (group : Node) (create : String → Stmt)
    (b : Builder) :
    let r := b.session.table.nameOfGroup group
    let s : Session := ⟨r.2.1, b.session.notices ++ r.2.2⟩
    (enrol plan c name group create b).2 = (emit (.call r.1 "addButton" [.ref name])
      (if b.buttonGroups.contains r.1 = true then { b with session := s }
      else (writeProperties plan (c.target r.1 "QButtonGroup" false) group.properties
        { b with session := s, setup := b.setup ++ [create r.1],
                 buttonGroups := r.1 :: b.buttonGroups }).2)).2 := by
  intro r s
  have hname : withSession (Session.nameOfGroup group) b = (r.1, { b with session := s }) := rfl
  simp only [enrol, bind_run, hname]
  cases hc : b.buttonGroups.contains r.1 with
  | true =>
    rw [if_pos rfl, if_neg (by simpa [get_run] using hc)]
    rfl
  | false =>
    rw [if_neg Bool.false_ne_true, if_pos (by simpa [get_run] using hc)]
    rfl

/-! ## Widgets -/

/-- What creates a widget; the form itself exists. -/
def widgetStmts (c : Context) (name : String) (n : Node) : List Stmt :=
  if c.widget.isSome then
    [.create name (Classes.Custom.realClass (n.stringAttribute "class"))
      (if plan.classes.isContainer c.widgetClass then [] else [.ref c.widgetName])]
  else []

/-- Creates a widget, lists it, and says where a layout in it stands. -/
def createWidget (c : Context) (name : String) (n : Node) : Build Unit := do
  emitAll (widgetStmts plan c name n)
  modify fun b => { b with
    marginType := if c.widget.isSome then .child else .topLevel
    widgets := name :: b.widgets }

/-- Fills a widget if it is a combo box, and puts it into its group if it is a button. -/
def equip (c : Context) (name : String) (n : Node) : Build Unit := do
  if plan.classes.derives (n.stringAttribute "class") "QComboBox" then
    fillComboBox plan name ((n.children "item").map ComboItem.ofNode)
  if plan.classes.isButton (n.stringAttribute "class") then joinButtonGroup plan c name n

/-- Sets the properties of a widget, and takes its action if it is a menu. -/
def adorn (c : Context) (name : String) (n : Node) : Build Unit := do
  writeProperties plan (c.target name (n.stringAttribute "class") false) n.properties
  if plan.classes.derives (n.stringAttribute "class") "QMenu" && !c.widgetName.isEmpty then
    takeMenuAction name

theorem equip_run (c : Context) (name : String) (n : Node) (b : Builder) :
    let b' := if plan.classes.derives (n.stringAttribute "class") "QComboBox" = true then
      (fillComboBox plan name ((n.children "item").map ComboItem.ofNode) b).2 else b
    (equip plan c name n b).2 = if plan.classes.isButton (n.stringAttribute "class") = true then
      (joinButtonGroup plan c name n b').2 else b' := by
  simp only [equip, when_bind, bind_run]
  split <;> split <;> rfl

theorem adorn_run (c : Context) (name : String) (n : Node) (b : Builder) :
    let b' := (writeProperties plan (c.target name (n.stringAttribute "class") false)
      n.properties b).2
    (adorn plan c name n b).2 =
      if (plan.classes.derives (n.stringAttribute "class") "QMenu" && !c.widgetName.isEmpty) = true
      then (takeMenuAction name b').2 else b' := by
  simp only [adorn, bind_run]
  split <;> rfl

/-- What a widget hands down to what it contains. -/
def innerContext (c : Context) (v : Visit) (name : String) : Context where
  widget := some ⟨name, v.node.stringAttribute "class"⟩
  layout := none
  group := c.group
  bareLayout :=
    if holdsBareLayout plan c v.node then (v.node.firstOfKind? .layout).map (· :: v.path) else none

theorem enterWidget_eq (c : Context) (v : Visit) :
    enterWidget plan c v = (do
      let name ← nameAt plan v
      createWidget plan c name v.node
      equip plan c name v.node
      adorn plan c name v.node
      return innerContext plan c v name) := by
  funext b
  simp only [enterWidget, createWidget, widgetStmts, equip, adorn, when_bind, bind_run, pure_run]
  cases c.widget with
  | none =>
    simp only [Option.isSome_none, Bool.false_eq_true, if_false, emitAll_nil]
    rfl
  | some w => rfl

theorem enterWidget_run (c : Context) {v : Visit} {b : Builder} {name : String}
    (hname : nameAt plan v b = (name, b)) :
    let created := (createWidget plan c name v.node b).2
    let equipped := (equip plan c name v.node created).2
    enterWidget plan c v b =
      (innerContext plan c v name, (adorn plan c name v.node equipped).2) := by
  simp only [enterWidget_eq, bind_run, hname, pure_run]

/-! ## Containers -/

/-- A call that passes an object to another one, and nothing else that has a name. -/
def Passes (receiver name : String) (s : Stmt) : Prop :=
  ∃ method first, s = .call receiver method (first ++ [.ref name]) ∧
    first.flatMap Expr.uses = [] ∧ first.flatMap Expr.mentions = []

section Passing

variable {receiver name : String} {s : Stmt} {l : List Stmt}

theorem passes_alone (receiver name method : String) :
    Passes receiver name (.call receiver method [.ref name]) :=
  ⟨method, [], rfl, rfl, rfl⟩

theorem Passes.calls (h : ∀ s ∈ l, Passes receiver name s) : Calls [receiver, name] l := by
  intro s hs
  obtain ⟨method, first, rfl, huses, -⟩ := h s hs
  exact ⟨rfl, by simp [Stmt.uses, huses, Expr.uses]⟩

theorem Passes.mentions (h : ∀ s ∈ l, Passes receiver name s) : mentionsOf l = [] := by
  refine List.flatMap_eq_nil_iff.mpr fun s hs => ?_
  obtain ⟨method, first, rfl, -, hmentions⟩ := h s hs
  simp [hmentions]

end Passing

/-- A main window takes each widget by calls to which the widget is passed. -/
theorem mainWindowStmts_passes (parent name className : String) (attrs : List Property) :
    ∀ s ∈ mainWindowStmts plan parent name className attrs, Passes parent name s := by
  have htool :
      Passes parent name (.call parent "addToolBar" (toolBarArea attrs ++ [.ref name])) := by
    refine ⟨_, _, rfl, ?_, ?_⟩ <;> unfold toolBarArea <;> split <;> rfl
  have hdock :
      Passes parent name (.call parent "addDockWidget" (dockWidgetArea attrs ++ [.ref name])) := by
    refine ⟨_, _, rfl, ?_, ?_⟩ <;> unfold dockWidgetArea <;> split <;> rfl
  unfold mainWindowStmts
  dsimp only
  split
  · simpa using passes_alone parent name _
  · split
    · refine List.forall_mem_cons.mpr ⟨htool, ?_⟩
      split
      · simpa using passes_alone parent name _
      · simp
    · split
      · simpa using hdock
      · split <;> simpa using passes_alone parent name _

/-- The statement by which a container takes a page, without what it shows for the page. -/
def pageStmts (plan : Plan) (parent parentClass name : String) (attrs : List Property) :
    List Stmt :=
  let derives := plan.classes.derives parentClass
  match plan.classes.addPageMethod? parentClass with
  | some method => [.call parent method [.ref name]]
  | none =>
    if derives "QStackedWidget" || derives "QToolBar" || derives "QSplitter" then
      [.call parent "addWidget" [.ref name]]
    else if derives "QDockWidget" || derives "QScrollArea" then
      [.call parent "setWidget" [.ref name]]
    else if derives "QMdiArea" then [.call parent "addSubWindow" [.ref name]]
    else if derives "QWizard" then [wizardStmt parent name attrs]
    else if derives "QToolBox" then [.call parent "addItem" [.ref name]]
    else if derives "QTabWidget" then [.call parent "addTab" [.ref name]]
    else []

/-- Whether widgets of a class take what they contain by some other way than as pages with icons. -/
def takesPlainly (plan : Plan) (className : String) : Bool :=
  (plan.classes.addPageMethod? className).isSome ||
    plan.classes.derivesFromAny className ["QStackedWidget", "QToolBar", "QSplitter",
      "QDockWidget", "QScrollArea", "QMdiArea", "QWizard"]

/-- What a container can do with a widget, and the statement by which it takes the widget. -/
inductive Takes (parent parentClass name : String) (attrs : List Property) :
    Build Unit → List Stmt → Prop where
  | pass {s : Stmt} (hs : Passes parent name s) (hplain : takesPlainly plan parentClass = true) :
      Takes parent parentClass name attrs (emit s) [s]
  | toolBox (hplain : takesPlainly plan parentClass = false)
      (hclass : plan.classes.derives parentClass "QToolBox" = true) :
      Takes parent parentClass name attrs (addToToolBox plan parent name attrs)
        [.call parent "addItem" [.ref name]]
  | tabWidget (hplain : takesPlainly plan parentClass = false)
      (hno : plan.classes.derives parentClass "QToolBox" = false)
      (hclass : plan.classes.derives parentClass "QTabWidget" = true) :
      Takes parent parentClass name attrs (addToTabWidget plan parent name attrs)
        [.call parent "addTab" [.ref name]]
  | leave (hplain : takesPlainly plan parentClass = false)
      (hno : plan.classes.derives parentClass "QToolBox" = false)
      (hno' : plan.classes.derives parentClass "QTabWidget" = false) :
      Takes parent parentClass name attrs (pure ()) []

theorem Takes.passes {plan : Plan} {parent parentClass name : String} {attrs : List Property}
    {m : Build Unit} {l : List Stmt} (h : Takes plan parent parentClass name attrs m l) :
    ∀ s ∈ l, Passes parent name s := by
  cases h with
  | pass hs => simpa using hs
  | toolBox | tabWidget => simpa using passes_alone parent name _
  | leave => simp

theorem addToContainer_takes (parent parentClass name : String) (attrs : List Property) :
    ∃ m l, addToContainer plan parent parentClass name attrs = m ∧
      pageStmts plan parent parentClass name attrs = l ∧
        Takes plan parent parentClass name attrs m l := by
  refine ⟨_, _, rfl, rfl, ?_⟩
  unfold addToContainer pageStmts
  cases hmethod : plan.classes.addPageMethod? parentClass with
  | some method => exact .pass (passes_alone ..) (by simp [takesPlainly, hmethod])
  | none =>
    have hplain : takesPlainly plan parentClass =
        (((plan.classes.derives parentClass "QStackedWidget" ||
          plan.classes.derives parentClass "QToolBar") ||
          plan.classes.derives parentClass "QSplitter") ||
          ((plan.classes.derives parentClass "QDockWidget" ||
            plan.classes.derives parentClass "QScrollArea") ||
            (plan.classes.derives parentClass "QMdiArea" ||
              plan.classes.derives parentClass "QWizard"))) := by
      simp [takesPlainly, hmethod, Classes.Custom.derivesFromAny, Bool.or_assoc]
    have hwizard : Passes parent name (wizardStmt parent name attrs) := by
      unfold wizardStmt
      dsimp only
      split
      · exact passes_alone ..
      · exact ⟨"setPage", [.code _], rfl, rfl, rfl⟩
    dsimp only
    split
    · next h => exact .pass (passes_alone ..) (by rw [hplain, h, Bool.true_or])
    · split
      · next h => exact .pass (passes_alone ..) (by simp [hplain, h])
      · split
        · next h => exact .pass (passes_alone ..) (by simp [hplain, h])
        · split
          · next h => exact .pass hwizard (by simp [hplain, h])
          · next hadd hset hsub hpage =>
            have hno : takesPlainly plan parentClass = false := by
              simp only [hplain, hadd, hset, hsub, hpage, Bool.or_false]
            split
            · next hbox => exact .toolBox hno hbox
            · next hbox =>
              have hbox := Bool.eq_false_iff.mpr hbox
              split
              · next htab => exact .tabWidget hno hbox htab
              · next htab => exact .leave hno hbox (Bool.eq_false_iff.mpr htab)

/-! ## Actions -/

/-- What can become of an action that is to be placed under a name. -/
inductive Placing (t : Table) (c : Context) (x : String) : Build Unit → Prop where
  | outside (hw : c.widget = none) : Placing t c x (pure ())
  | pass (h : x = "" ∨ t.isActionGroup x = true) : Placing t c x (pure ())
  | separator {w : Frame} (hw : c.widget = some w) (hx : x = "separator") :
      Placing t c x (delayAction (.call w.name "addSeparator" []))
  | action {w : Frame} {e : Expr} (hw : c.widget = some w) (hx : x ≠ "separator")
      (he : e = .ref x ∨ e = .invoke x "menuAction" [])
      (hknown : (t.widgetClass? x).isSome = true ∨ (t.actionIsMenu? x).isSome = true) :
      Placing t c x (delayAction (.call w.name "addAction" [e]))
  | undeclared (hx : t.actionIsMenu? x = none) : Placing t c x (note plan (.undeclaredAction x))

theorem placeAction_places (c : Context) (n : Node) :
    ∃ next : Table → Build Unit, placeAction plan c n = table >>= next ∧
      ∀ t, Placing plan t c (n.stringAttribute "name") (next t) := by
  refine ⟨_, rfl, fun t => ?_⟩
  dsimp only
  cases hw : c.widget with
  | none => exact .outside hw
  | some w =>
    dsimp only
    split
    · rename_i hpass
      exact .pass (by simpa [String.isEmpty_iff] using hpass)
    · split
      · rename_i hx
        exact .separator hw hx
      · rename_i hx
        cases hclass : t.widgetClass? (n.stringAttribute "name") with
        | some className =>
          have hknown : (t.widgetClass? (n.stringAttribute "name")).isSome = true := by
            rw [hclass]
            rfl
          dsimp only
          split
          · exact .action hw hx (.inr rfl) (.inl hknown)
          · exact .action hw hx (.inl rfl) (.inl hknown)
        | none =>
          dsimp only
          split
          · rename_i hno
            exact .undeclared (Option.isNone_iff_eq_none.mp hno)
          · rename_i hyes
            exact .action hw hx (.inl rfl)
              (.inr (Option.isSome_iff_ne_none.mpr fun hno => hyes (by rw [hno]; rfl)))

theorem placeAction_run (c : Context) (n : Node) (b : Builder) :
    ∃ m, placeAction plan c n b = m b ∧
      Placing plan b.session.table c (n.stringAttribute "name") m := by
  obtain ⟨next, hnext, hplaces⟩ := placeAction_places plan c n
  exact ⟨next b.session.table, congrFun hnext b, hplaces b.session.table⟩

/-- What is placed under a name has an object. -/
theorem entry_of_known {t : Table} (ht : t.Distinct) {x : String}
    (h : (t.widgetClass? x).isSome = true ∨ (t.actionIsMenu? x).isSome = true) :
    ∃ e ∈ t.entries, e.name = x := by
  rcases h with h | h
  · obtain ⟨className, hclass⟩ := Option.isSome_iff_exists.mp h
    obtain ⟨e, he, hname, -⟩ := ht.widgetClass_iff.mp hclass
    exact ⟨e, he, hname⟩
  · obtain ⟨isMenu, haction⟩ := Option.isSome_iff_exists.mp h
    obtain ⟨e, he, hname, -⟩ := ht.actionIsMenu_iff.mp haction
    exact ⟨e, he, hname⟩

/-! ## Layouts and their items -/

theorem enterLayout_run (c : Context) (v : Visit) (b : Builder) :
    let ps := v.node.properties
    let className := v.node.stringAttribute "class"
    let name := (nameAt plan v b).1
    let place := if (Property.find? ps "margin").isSome then b.marginType else .unset
    enterLayout plan c v b =
      ({ c with layout := some ⟨name, className⟩ },
        (writeProperties plan (c.target name className true)
          (ps ++ if c.bareLayout = some v.path then missingMargins ps else [])
          { (nameAt plan v b).2 with
            setup := b.setup ++ [.create name className
                (if c.layout.isSome then [] else [.ref (c.ownerName plan)])] ++
              layoutDistances plan ps place c.layout.isSome name,
            marginType := .subLayout }).2) := by
  simp only [enterLayout, bind_run, get_run, modify_run, pure_run]
  rfl

theorem payload_of_noun {item : Node} {noun : String} (h : itemNoun? item = some noun) :
    ∃ tag n, item.payload? = some (.node tag n) ∧ n.kind.isObject = true ∧ n.kind ≠ .action := by
  unfold itemNoun? at h
  split at h
  · rename_i n hn
    obtain ⟨f, hf, hfn⟩ := Option.bind_eq_some_iff.mp hn
    cases f with
    | value tag s => cases hfn
    | node tag m =>
      obtain rfl := Option.some.inj hfn
      refine ⟨tag, m, hf, ?_⟩
      split at h
      · rw [show m.kind = .widget from ‹_›]
        exact ⟨rfl, by decide⟩
      · rw [show m.kind = .layout from ‹_›]
        exact ⟨rfl, by decide⟩
      · rw [show m.kind = .spacer from ‹_›]
        exact ⟨rfl, by decide⟩
      · cases h
  · cases h

/-- What can follow an item: nothing, or the call that puts its object into the layout. -/
inductive Installing (c : Context) (v : Visit) : Build Unit → Prop where
  | idle (h : c.layout = none ∨ itemNoun? v.node = none) : Installing c v (pure ())
  | install {layout : Frame} {noun tag : String} {n : Node} (hl : c.layout = some layout)
      (hn : itemNoun? v.node = some noun) (hpayload : v.node.payload? = some (.node tag n))
      (hobject : n.kind.isObject = true) (haction : n.kind ≠ .action) :
      Installing c v (nameAt plan ⟨0 :: v.path, n⟩ >>= fun name =>
        emitAll [.blank,
          .call layout.name ((itemPlacement layout.className name v.node).1 ++ noun)
            (itemPlacement layout.className name v.node).2, .blank])

theorem leaveItem_installs (c : Context) {v : Visit} (hk : v.node.kind = .layoutItem) :
    Installing plan c v (leaveItem plan c v) := by
  unfold leaveItem
  cases hl : c.layout with
  | none => exact .idle (.inl hl)
  | some layout =>
    cases hn : itemNoun? v.node with
    | none => exact .idle (.inr hn)
    | some noun =>
      obtain ⟨tag, n, hpayload, hobject, haction⟩ := payload_of_noun hn
      obtain ⟨o, ho⟩ := Option.isSome_iff_exists.mp ((Node.object_isSome n).trans hobject)
      have hname : nameAt plan v = nameAt plan ⟨0 :: v.path, n⟩ := by
        rw [nameAt, nameAt, nameOfVisit_item _ hk hpayload ho]
      dsimp only
      rw [hname]
      exact .install hl hn hpayload hobject haction

end FormCompiler.Setup
