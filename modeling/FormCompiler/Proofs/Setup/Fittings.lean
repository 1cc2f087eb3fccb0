import FormCompiler.Proofs.Setup.Links
import FormCompiler.Proofs.Setup.Skeleton

/-!
# What belongs to widgets

Items of combo boxes, button groups and the actions of menus: none of their code handles an object
of the form.  Button groups are created, but their names are never those of objects.  A finished
widget is handed to the one that encloses it, to a main window or a container by a method of its own
(`handoverTo`).  The links at the end of the setup function pass objects to objects only to place
actions and to give labels their buddies, and never to a layout (`joins_link`).
-/

namespace FormCompiler.Setup

open Code Document Naming

/-! ## Handing over -/

/-- The statements that hand a finished widget to a widget that encloses it. -/
def handoverTo (plan : Plan) (parent : Frame) (name : String) (n : Node) : List Stmt :=
  (if plan.classes.derives parent.className "QMainWindow" then
    mainWindowStmts plan parent.name name (n.stringAttribute "class") n.containerAttributes
  else []) ++ pageStmts plan parent.name parent.className name n.containerAttributes

theorem handoverTo_passes {plan : Plan} {parent : Frame} {name : String} {n : Node} :
    ∀ s ∈ handoverTo plan parent name n, Passes parent.name name s := by
  intro s hs
  rcases List.mem_append.mp hs with hs | hs
  · split at hs
    · exact mainWindowStmts_passes _ _ _ _ _ s hs
    · cases hs
  · obtain ⟨m, l, -, hl, htakes⟩ := addToContainer_takes plan parent.name parent.className name
      n.containerAttributes
    exact htakes.passes s (hl ▸ hs)

namespace Job

/-! ## Names of objects -/

/-- The objects of the form have names, and no two of a table's objects the same. -/
structure Named (job : Job) : Prop where
  distinct : job.table.Distinct
  known : ∀ v ∈ job.form.visits, v.node.kind.isObject = true →
    ∃ e, job.table.entry? ⟨job.plan.document, v.path⟩ = some e
  nameless : job.plan.classes.find? "" = none

variable {job : Job} {α : Type} {view : job.View α} {c : Context} {b b' b'' : Builder} {v : Visit}

namespace Named

variable (hj : job.Named)

include hj

theorem isObject_name (hv : v ∈ job.form.visits) (hk : v.node.kind.isObject = true) :
    job.isObject (job.name v) = true := by
  obtain ⟨e, he⟩ := hj.known v hv hk
  rw [isObject, List.any_eq_true]
  exact ⟨e, (Table.entry_mem he).1, by rw [name, Header.nameIn_of_entry he, beq_self_eq_true]⟩

theorem nameAt_of_entries (hb : b.session.table.entries = job.table.entries)
    (hv : v ∈ job.form.visits) (hk : v.node.kind.isObject = true) :
    nameAt job.plan v b = (job.name v, b) := by
  obtain ⟨e, he⟩ := hj.known v hv hk
  obtain ⟨o, ho⟩ := Option.isSome_iff_exists.mp ((Node.object_isSome v.node).trans hk)
  have hentry : b.session.table.entry? ⟨job.plan.document, v.path⟩ = some e := by
    rw [Table.entry?, hb]
    exact he
  rw [nameAt_entry job.plan ho hentry, name, Header.nameIn_of_entry he]

theorem nameAt (hb : view.Sound b) (hv : v ∈ job.form.visits) (hk : v.node.kind.isObject = true) :
    nameAt job.plan v b = (job.name v, b) :=
  hj.nameAt_of_entries hb.entries hv hk

theorem eq_of_name {w : Visit} (hv : v ∈ job.form.visits) (hk : v.node.kind.isObject = true)
    (hw : w ∈ job.form.visits) (hk' : w.node.kind.isObject = true)
    (h : job.name v = job.name w) : v = w := by
  obtain ⟨e, he⟩ := hj.known v hv hk
  obtain ⟨e', he'⟩ := hj.known w hw hk'
  exact Node.eq_of_path hv hw (Header.nameIn_injective hj.distinct he he' h)

theorem isLayout_other (hv : v ∈ job.form.visits) (hk : v.node.kind.isObject = true)
    (hne : v.node.kind ≠ .layout) : job.isLayout (job.name v) = false := by
  rw [isLayout, List.any_eq_false]
  intro w hw h
  rw [Bool.and_eq_true, beq_iff_eq, beq_iff_eq] at h
  obtain rfl := hj.eq_of_name hw (by rw [h.1]; rfl) hv hk h.2
  exact hne h.1

theorem isLayout_of_other {x : String} (hx : job.isObject x = false) : job.isLayout x = false := by
  rw [isLayout, List.any_eq_false]
  intro w hw h
  rw [Bool.and_eq_true, beq_iff_eq, beq_iff_eq] at h
  have hobject := hj.isObject_name hw (by rw [h.1]; rfl)
  rw [h.2, hx] at hobject
  cases hobject

end Named

theorem isLayout_name (hv : v ∈ job.form.visits) (hk : v.node.kind = .layout) :
    job.isLayout (job.name v) = true := by
  rw [isLayout, List.any_eq_true]
  exact ⟨v, hv, by simp [hk]⟩

/-! ## Items of combo boxes -/

theorem adds_iconArgs (hb : view.Sound b) (icon : Option Property) :
    let r := iconArgs job.plan icon b
    view.Adds [] b r.2 ∧ ∀ x ∈ r.1.flatMap Expr.uses, job.isObject x = false := by
  obtain ⟨s1, hargs⟩ := adds_detail (detail_iconArgs icon) hb
  exact ⟨s1, List.forall_mem_flatMap.mpr fun e he => (hargs e he).2⟩

/-- What fills a combo box handles no object if its icon is none. -/
theorem handles_filling {name : String} {items : List ComboItem} {f : Filling}
    (hf : f.Fits name items) {icon : List Expr}
    (hicon : ∀ x ∈ icon.flatMap Expr.uses, job.isObject x = false) :
    ∀ s ∈ f.code icon, job.handles s = false := by
  cases hf with
  | insert => exact List.forall_mem_singleton.mpr rfl
  | add i =>
    refine List.forall_mem_singleton.mpr (handles_call fun x hx => hicon x ?_)
    rw [List.flatMap_append] at hx
    exact (List.mem_append.mp hx).resolve_right (by split <;> simp)
  | renew | gap => exact fun s hs => by cases hs

theorem adds_filling (hb : view.Sound b) {name : String} {items : List ComboItem} {f : Filling}
    (hf : f.Fits name items) : view.Adds [] b (f.run job.plan b).2 := by
  obtain ⟨s1, hicon⟩ := adds_iconArgs hb f.icon
  have s2 := s1.andThen (adds_idle s1.sound (handles_filling hf hicon))
  exact s2.andThen (adds_emitRetranslate s2.sound _)

theorem adds_fillComboBox (hb : view.Sound b) (name : String) (items : List ComboItem) :
    view.Adds [] b (fillComboBox job.plan name items b).2 := by
  rw [fillComboBox_eq]
  exact adds_forM _ _ (fun f hf b hb => adds_filling hb (fits_of_mem hf)) hb

/-! ## Button groups -/

/-- A button group has a name that no object has. -/
theorem adds_nameOfGroup (hb : view.Sound b) (group : Node) :
    let r := b.session.table.nameOfGroup group
    view.Adds [] b { b with session := ⟨r.2.1, b.session.notices ++ r.2.2⟩ } ∧
      job.isObject r.1 = false := by
  intro r
  obtain ⟨hdistinct, -, g, hg, hname⟩ := Table.nameOfGroup_spec b.session.table group hb.distinct
  have hentries := Table.nameOfGroup_entries b.session.table group
  refine ⟨⟨{ hb with distinct := hdistinct, entries := hentries.trans hb.entries },
    by rw [List.append_nil]⟩, isObject_false.mpr fun e he => ?_⟩
  rw [← hb.entries, ← hentries] at he
  rw [show r.1 = g.name from hname.symm]
  exact hdistinct.entry_ne_group he (Table.group_mem hg).1

theorem adds_enrol (hb : view.Sound b) (name : String) (group : Node) {create : String → Stmt}
    (hcreate : ∀ x, job.isObject x = false → job.handles (create x) = false) :
    view.Adds [] b (enrol job.plan c name group create b).2 := by
  obtain ⟨s1, hname⟩ := adds_nameOfGroup hb group
  have hcall := handles_receiver hname "addButton" [.ref name]
  rw [enrol_run]
  split
  · exact s1.andThen (adds_emit s1.sound hcall)
  · have s2 := s1.andThen (adds_emit s1.sound (hcreate _ hname))
    have s3 : view.Adds [] _ { (emit (create _) _).2 with
        buttonGroups := (b.session.table.nameOfGroup group).1 :: b.buttonGroups } :=
      adds_nothing s2.sound rfl rfl rfl rfl rfl rfl
    have s4 := (s2.andThen s3).andThen (adds_writeProperties s3.sound
      (c.target (b.session.table.nameOfGroup group).1 "QButtonGroup" false) group.properties)
    exact s4.andThen (adds_emit s4.sound hcall)

theorem handles_createGroup (t : Table) (d : String) {x : String} (hx : job.isObject x = false) :
    job.handles (createGroup job.plan t d x) = false := by
  unfold createGroup
  split <;> exact hx

theorem adds_announce (hb : view.Sound b) (t : Table) (d : String) :
    view.Adds [] b (announce job.plan t d b).2 := by
  simp only [announce, ite_run, pure_run]
  exact View.Adds.ite _ (fun _ => adds_note hb _) fun _ => .refl hb

theorem adds_joinButtonGroup (hb : view.Sound b) (name : String) (button : Node) :
    view.Adds [] b (joinButtonGroup job.plan c name button b).2 := by
  cases hd : groupOf? button with
  | none =>
    rw [joinButtonGroup_none job.plan hd]
    exact .refl hb
  | some d =>
    have s1 := adds_announce hb b.session.table d
    rw [joinButtonGroup_run job.plan hd]
    exact s1.andThen (adds_enrol s1.sound name _ fun _ => handles_createGroup _ d)

theorem adds_createWidget (hb : view.Sound b) {name : String} (hname : job.isLayout name = false)
    (n : Node) :
    view.Adds (widgetStmts job.plan c name n) b (createWidget job.plan c name n b).2 := by
  have s1 := adds_emitAll hb (widgetStmts job.plan c name n)
  refine s1.followed (adds_aside s1.sound rfl rfl (fun _ => .inl) (fun x hx => ?_) (fun _ => .inl)
    fun _ => .inl)
  rcases List.mem_cons.mp hx with rfl | hx
  · exact .inr hname
  · exact .inl hx

theorem adds_equip (hb : view.Sound b) (name : String) (n : Node) :
    view.Adds [] b (equip job.plan c name n b).2 := by
  have s1 := View.Adds.when
    (job.plan.classes.derives (n.stringAttribute "class") "QComboBox" = true)
    (fun _ => adds_fillComboBox hb name ((n.children "item").map ComboItem.ofNode))
    fun _ => .refl hb
  rw [equip_run]
  exact s1.andThen (View.Adds.when _ (fun _ => adds_joinButtonGroup s1.sound name n)
    fun _ => .refl s1.sound)

theorem adds_takeMenuAction (hb : view.Sound b) (name : String) :
    view.Adds [] b (takeMenuAction name b).2 := by
  simp only [takeMenuAction, bind_run, ite_run, pure_run]
  exact View.Adds.ite _ (fun _ => adds_emit hb rfl) fun _ => .refl hb

/-! ## Containers -/

theorem passed_cons_others (name : String) {args : List Expr}
    (h : ∀ x ∈ args.flatMap Expr.uses, job.isObject x = false) :
    job.passed (.ref name :: args) = job.passed [.ref name] := by
  have hrest : job.passed args = [] := by
    refine List.filter_eq_nil_iff.mpr fun x hx => ?_
    obtain ⟨e, he, href⟩ := List.mem_filterMap.mp hx
    obtain rfl := Expr.reference?_eq_some_iff.mp href
    rw [h x (List.mem_flatMap.mpr ⟨_, he, List.mem_singleton.mpr rfl⟩)]
    exact Bool.false_ne_true
  change List.filter _ (name :: args.filterMap Expr.reference?) = List.filter _ [name]
  rw [List.filter_cons, List.filter_cons, show List.filter _ (args.filterMap _) = [] from hrest,
    List.filter_nil]

section Containers

variable {parent : String} (hparent : job.isLayout parent = false)

include hparent

theorem adds_takePage (hb : view.Sound b) (name method : String) (icon : Option Property)
    {text : Expr} (htext : text.uses = []) :
    let r := iconArgs job.plan icon b
    view.Adds [.call parent method [.ref name]] b
      (emit (.call parent method ([.ref name] ++ r.1 ++ [text])) r.2).2 := by
  obtain ⟨s1, hicon⟩ := adds_iconArgs hb icon
  have hblur : view.look (.call parent method
      ([.ref name] ++ (iconArgs job.plan icon b).1 ++ [text])) =
        view.look (.call parent method [.ref name]) := by
    refine view.blur _ _ _ _ hparent (passed_cons_others name fun x hx => hicon x ?_)
    simpa [htext] using hx
  refine s1.andThen ((adds_emitAll s1.sound [_]).congr ?_)
  rw [List.filterMap_cons, List.filterMap_cons, hblur]

theorem adds_addToToolBox (hb : view.Sound b) (name : String) (attrs : List Property) :
    view.Adds [.call parent "addItem" [.ref name]] b
      (addToToolBox job.plan parent name attrs b).2 := by
  have s1 := adds_takePage hparent hb name "addItem" (Property.find? attrs "icon")
    (plainText_uses (Property.phrase? attrs "label") pageTitle)
  exact s1.followed (adds_detail (detail_toolBoxTexts job.plan parent name attrs _) s1.sound).1

theorem adds_addToTabWidget (hb : view.Sound b) (name : String) (attrs : List Property) :
    view.Adds [.call parent "addTab" [.ref name]] b
      (addToTabWidget job.plan parent name attrs b).2 := by
  have s1 := adds_takePage hparent hb name "addTab" (Property.find? attrs "icon")
    (show Expr.emptyText.uses = [] from rfl)
  exact s1.followed (adds_detail (detail_tabTexts job.plan parent name attrs _) s1.sound).1

theorem adds_addToContainer (hb : view.Sound b) (parentClass name : String)
    (attrs : List Property) :
    view.Adds (pageStmts job.plan parent parentClass name attrs) b
      (addToContainer job.plan parent parentClass name attrs b).2 := by
  obtain ⟨m, l, hm, hl, htakes⟩ := addToContainer_takes job.plan parent parentClass name attrs
  rw [hm, hl]
  cases htakes with
  | pass => exact adds_emitAll hb _
  | toolBox => exact adds_addToToolBox hparent hb name attrs
  | tabWidget => exact adds_addToTabWidget hparent hb name attrs
  | leave => exact .refl hb

end Containers

theorem adds_addToParent (hj : job.Named) (hb : view.Sound b)
    (hc : ∀ fr, c.widget = some fr → job.isLayout fr.name = false) (name : String) (n : Node) :
    view.Adds (c.widget.toList.flatMap (handoverTo job.plan · name n)) b
      (addToParent job.plan c name n b).2 := by
  cases hw : c.widget with
  | none =>
    rw [addToParent_outside hj.nameless hw]
    exact .refl hb
  | some fr =>
    have hname : c.widgetName = fr.name := by rw [Context.widgetName, hw]; rfl
    have hclass : c.widgetClass = fr.className := by rw [Context.widgetClass, hw]; rfl
    rw [Option.toList_some, List.flatMap_singleton, handoverTo]
    simp only [addToParent, ite_run, bind_run, hname, hclass]
    split
    · have s1 := adds_emitAll hb (mainWindowStmts job.plan fr.name name
        (n.stringAttribute "class") n.containerAttributes)
      exact s1.trans (adds_addToContainer (hc fr hw) s1.sound _ _ _)
    · exact adds_addToContainer (hc fr hw) hb _ _ _

/-! ## Links -/

theorem adds_buddyStmts {isWidget : String → Bool} (hb : view.Sound b)
    (hwidget : ∀ x, isWidget x = true → job.isLayout x = false) (pairs : List (String × String)) :
    let r := pairs.filterMapM (buddyStmt? job.plan isWidget) b
    view.Adds [] b r.2 ∧ ∀ s ∈ r.1, job.Links s := by
  induction pairs generalizing b with
  | nil => exact ⟨.refl hb, fun s hs => by cases hs⟩
  | cons pair pairs ih =>
    obtain ⟨label, buddy⟩ := pair
    have hone : view.Adds [] b (buddyStmt? job.plan isWidget (label, buddy) b).2 ∧
        ∀ s ∈ (buddyStmt? job.plan isWidget (label, buddy) b).1.toList, job.Links s := by
      cases hfind : [label, buddy].find? (!isWidget ·) with
      | some invalid =>
        simp only [buddyStmt?, hfind]
        exact ⟨adds_note hb _, fun s hs => by cases hs⟩
      | none =>
        simp only [buddyStmt?, hfind]
        have hlabel := List.find?_eq_none.mp hfind label (by simp)
        refine ⟨.refl hb, fun s hs => ?_⟩
        rw [show s = _ from List.mem_singleton.mp hs]
        exact ⟨label, "setBuddy", _, rfl, by simp, hwidget label (by simpa using hlabel)⟩
    obtain ⟨s2, hrest⟩ := ih hone.1.sound
    rw [Header.filterMapM_run]
    refine ⟨hone.1.andThen s2, fun s hs => ?_⟩
    exact (List.mem_append.mp hs).elim (hone.2 s) (hrest s)

/-- A piece of the setup that for a view only links objects. -/
def View.Joins (view : job.View α) (b b' : Builder) : Prop :=
  ∃ l, (∀ s ∈ l, view.look s = none ∨ job.Links s) ∧ view.Adds l b b'

theorem View.Joins.trans (h : view.Joins b b') (h' : view.Joins b' b'') : view.Joins b b'' := by
  obtain ⟨l, hl, s1⟩ := h
  obtain ⟨l', hl', s2⟩ := h'
  exact ⟨l ++ l', fun s hs => (List.mem_append.mp hs).elim (hl s) (hl' s), s1.trans s2⟩

theorem View.Joins.sound (h : view.Joins b b') : view.Sound b' := by
  obtain ⟨_, _, s1⟩ := h
  exact s1.sound

theorem View.Adds.joins (h : view.Adds [] b b') : view.Joins b b' := ⟨[], by simp, h⟩

theorem joins_writeBuddies (hb : view.Sound b) : view.Joins b (writeBuddies job.plan b).2 := by
  have hwidget : ∀ x, b.widgets.contains x = true → job.isLayout x = false :=
    fun x hx => hb.widgets x (List.contains_iff_mem.mp hx)
  obtain ⟨s1, hlinks⟩ := adds_buddyStmts hb hwidget b.buddies
  rw [writeBuddies_run]
  split
  · refine s1.joins.trans ⟨_, fun s hs => ?_, adds_emitAll s1.sound _⟩
    simp only [guarded, List.mem_append, List.mem_singleton] at hs
    rcases hs with (rfl | hs) | rfl
    · exact .inl (view.idle _ rfl)
    · exact .inr (hlinks s hs)
    · exact .inl (view.idle _ rfl)
  · exact s1.joins

theorem adds_writeTabStops (hb : view.Sound b) (names : List String) :
    view.Adds [] b (writeTabStops job.plan names b).2 := by
  have s1 := adds_forM (names.filter (!b.widgets.contains ·))
    (fun name => note job.plan (.invalidTabStop name)) (fun name _ b hb => adds_note hb _) hb
  refine s1.andThen (adds_idle s1.sound fun s hs => ?_)
  obtain ⟨step, _, rfl⟩ := List.mem_map.mp hs
  rfl

theorem joins_link (hb : view.Sound b) (f : Form) : view.Joins b (link job.plan f b).2 := by
  have s1 := joins_writeBuddies hb
  have s2 := adds_writeTabStops s1.sound
    (((f.node.child? "tabstops").map (·.strings "tabstop")).getD [])
  rw [link_run]
  refine (s1.trans s2.joins).trans ⟨_, ?_, adds_emitAll s2.sound _⟩
  rw [forall_closing (fun s => view.look s = none ∨ job.Links s) _ _ _ (.inl (view.idle _ rfl))
    fun _ => .inl (view.idle _ rfl)]
  refine ⟨s2.sound.actions, fun s hs => ?_, fun s hs => .inl (s2.sound.delayed s hs)⟩
  obtain ⟨n, sender, receiver, -, -, rfl⟩ := mem_connectionStmts hs
  exact .inl (view.idle _ rfl)

end Job

end FormCompiler.Setup
