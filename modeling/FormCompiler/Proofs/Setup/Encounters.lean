import FormCompiler.Proofs.Setup.Layouts

/-!
# How widgets are met

Statements are quiet if they are routine or handle objects of the form (`Job.Quiet`).  The setup of
a form is a run in which quiet pieces alternate with what belongs to widgets alone: the items of
combo boxes and the groups of buttons (`equip`).  The widgets are met in the order of the walk
(`equips_walk`).  Of the links that follow, those of buddies and the tab order are routine
(`routine_writeBuddies`, `routine_writeTabStops`).
-/

namespace FormCompiler.Setup

open Code Document Naming
open Node (walkFields fieldsVisits)

namespace Job

/-- A statement is routine, or it creates an object of the form or passes one to another. -/
def Quiet (job : Job) (s : Stmt) : Prop := s.isRoutine = true ∨ job.handles s = true

/-- The widgets of a list are met in its order, and otherwise only quiet code is written. -/
inductive Equips (job : Job) : List Visit → Builder → Builder → Prop where
  | quiet {b b' : Builder} (h : Appends job.Quiet b b') : Equips job [] b b'
  | widget {v : Visit} {b : Builder} (c : Context) (hv : v ∈ job.form.visits)
      (hk : v.node.kind = .widget) (hb : job.unseen.Sound b) :
      Equips job [v] b (equip job.plan c (job.name v) v.node b).2
  | trans {l l' : List Visit} {b b' b'' : Builder} (h : Equips job l b b')
      (h' : Equips job l' b' b'') : Equips job (l ++ l') b b''

variable {job : Job} {c inner : Context} {b b' b'' : Builder} {v : Visit} {l : List Visit}
  {n : Node} {path : List Nat}

theorem quietly {α : Type} {m : Build α} (h : Routine m) : AppendsOnly job.Quiet m :=
  h.mono fun _ => .inl

namespace Equips

theorem andThen (h : Appends job.Quiet b b') (h' : job.Equips l b' b'') : job.Equips l b b'' :=
  .trans (.quiet h) h'

theorem followed (h : job.Equips l b b') (h' : Appends job.Quiet b' b'') : job.Equips l b b'' := by
  have hboth := h.trans (.quiet h')
  rwa [List.append_nil] at hboth

end Equips

/-! ## Objects -/

section Objects

variable (hj : job.Named) (hb : job.unseen.Sound b) (hv : v ∈ job.form.visits)

include hj hb hv

omit hb in
theorem quiet_create (hobject : v.node.kind.isObject = true) (className : String)
    (args : List Expr) : job.Quiet (.create (job.name v) className args) :=
  .inr (hj.isObject_name hv hobject)

theorem quiet_enterLayout (hk : v.node.kind = .layout) :
    Appends job.Quiet b (enterLayout job.plan c v b).2 := by
  have hobject : v.node.kind.isObject = true := by rw [hk]; rfl
  have hdistances (m : MarginType) : ∀ s ∈ layoutDistances job.plan v.node.properties m
      c.layout.isSome (job.name v), job.Quiet s := by
    exact fun s hs => .inl ((tunes_layoutDistances _ _ _ _ _).inert s hs).2.1
  have hcreate : ∀ s ∈ [Stmt.create (job.name v) (v.node.stringAttribute "class")
      (if c.layout.isSome then [] else [.ref (c.ownerName job.plan)])], job.Quiet s := by
    simpa using quiet_create hj hv hobject _ _
  simp only [enterLayout_run, hj.nameAt hb hv hobject]
  refine .trans ?_ (quietly (detail_writeProperties _ _).routine _)
  exact { Appends.refl b with setup := .trans (.append hcreate) (.append (hdistances _)) }

theorem quiet_enterActionGroup (hk : v.node.kind = .actionGroup) :
    Appends job.Quiet b (enterActionGroup job.plan c v b).2 := by
  have hobject : v.node.kind.isObject = true := by rw [hk]; rfl
  simp only [enterActionGroup, bind_run, pure_run, hj.nameAt hb hv hobject]
  exact (AppendsOnly.emit (quiet_create hj hv hobject _ _) b).trans
    (quietly (detail_writeProperties _ _).routine _)

theorem quiet_writeAction (hk : v.node.kind = .action) :
    Appends job.Quiet b (writeAction job.plan c v b).2 := by
  have hobject : v.node.kind.isObject = true := by rw [hk]; rfl
  simp only [writeAction, ite_run, pure_run, bind_run, hj.nameAt hb hv hobject]
  split
  · exact .refl b
  · exact (AppendsOnly.emit (quiet_create hj hv hobject _ _) b).trans
      (quietly (detail_writeProperties _ _).routine _)

theorem quiet_writeSpacer (hk : v.node.kind = .spacer) :
    Appends job.Quiet b (writeSpacer job.plan v b).2 := by
  have hobject : v.node.kind.isObject = true := by rw [hk]; rfl
  simp only [writeSpacer, bind_run, hj.nameAt hb hv hobject]
  exact AppendsOnly.emit (quiet_create hj hv hobject _ _) b

theorem equips_enterWidget (hk : v.node.kind = .widget) :
    job.Equips [v] b (enterWidget job.plan c v b).2 := by
  have hobject : v.node.kind.isObject = true := by rw [hk]; rfl
  let b1 := (createWidget job.plan c (job.name v) v.node b).2
  let b2 := (equip job.plan c (job.name v) v.node b1).2
  have hb1 : job.unseen.Sound b1 :=
    (adds_createWidget hb (hj.isLayout_other hv hobject (by rw [hk]; decide)) v.node).sound
  have hcreate : ∀ s ∈ widgetStmts job.plan c (job.name v) v.node, job.Quiet s := by
    unfold widgetStmts
    split
    · exact List.forall_mem_singleton.mpr (quiet_create hj hv hobject _ _)
    · exact fun s hs => by cases hs
  have q1 : Appends job.Quiet b b1 :=
    (AppendsOnly.emitAll hcreate b).trans { Appends.refl _ with }
  have hmenu : AppendsOnly job.Quiet (takeMenuAction (job.name v)) :=
    .bind .table fun _ => .ite _ (.emit (.inl rfl)) (.pure _)
  have q3 : AppendsOnly job.Quiet (adorn job.plan c (job.name v) v.node) :=
    .bind (quietly (detail_writeProperties _ _).routine) fun _ => .ite _ hmenu (.pure _)
  rw [enterWidget_run job.plan c (hj.nameAt hb hv hobject)]
  exact (Equips.andThen q1 (.widget c hv hk hb1)).followed (q3 b2)

end Objects

theorem routine_placeAction (c : Context) (n : Node) : Routine (placeAction job.plan c n) := by
  obtain ⟨next, hnext, hplaces⟩ := placeAction_places job.plan c n
  rw [hnext]
  refine .bind .table fun t => ?_
  have hplacing := hplaces t
  generalize next t = m at hplacing ⊢
  cases hplacing with
  | outside | pass => exact .pure _
  | separator | action => exact .delayAction rfl
  | undeclared => exact .note _ _

/-! ## Containers -/

theorem quiet_pass {receiver x : String} {args : List Expr}
    (hreceiver : job.isObject receiver = true) (hx : job.isObject x = true)
    (hmem : .ref x ∈ args) (method : String) : job.Quiet (.call receiver method args) := by
  right
  rw [handles, hreceiver, Bool.true_and, List.any_eq_true]
  exact ⟨.ref x, hmem, hx⟩

theorem quiet_passes {receiver name : String} {s : Stmt} (hs : Passes receiver name s)
    (hreceiver : job.isObject receiver = true) (hname : job.isObject name = true) :
    job.Quiet s := by
  obtain ⟨method, first, rfl, -⟩ := hs
  exact quiet_pass hreceiver hname (by simp) method

section Containers

variable {parent name : String} (hparent : job.isObject parent = true)
  (hname : job.isObject name = true)

include hparent hname

theorem quiet_addToToolBox (attrs : List Property) :
    AppendsOnly job.Quiet (addToToolBox job.plan parent name attrs) := by
  refine .bind (quietly (detail_iconArgs _).routine) fun icon => .bind (.emit ?_) fun _ => ?_
  · exact quiet_pass hparent hname (by simp) _
  · exact quietly (detail_toolBoxTexts job.plan parent name attrs _).routine

omit hparent hname in
theorem quiet_addToTabWidget (attrs : List Property) :
    AppendsOnly job.Quiet (addToTabWidget job.plan parent name attrs) := by
  refine .bind (quietly (detail_iconArgs _).routine) fun icon => .bind (.emit (.inl ?_)) fun _ => ?_
  · exact isRoutine_call _ (by simp [isFilling])
  · exact quietly (detail_tabTexts job.plan parent name attrs _).routine

theorem quiet_addToContainer (parentClass : String) (attrs : List Property) :
    AppendsOnly job.Quiet (addToContainer job.plan parent parentClass name attrs) := by
  obtain ⟨m, l, hm, -, htakes⟩ := addToContainer_takes job.plan parent parentClass name attrs
  rw [hm]
  cases htakes with
  | pass hs => exact .emit (quiet_passes hs hparent hname)
  | toolBox => exact quiet_addToToolBox hparent hname attrs
  | tabWidget => exact quiet_addToTabWidget attrs
  | leave => exact .pure _

end Containers

theorem Named.isObject_of_isLayout (hj : job.Named) {x : String} (hx : job.isLayout x = true) :
    job.isObject x = true := by
  cases hobject : job.isObject x with
  | true => rfl
  | false =>
    rw [hj.isLayout_of_other hobject] at hx
    cases hx

theorem Encloses.framed (hc : job.Encloses c path) (hn : job.form.node.nodeAt? path = some n)
    (hj : job.Named) : ∀ fr, c.widget = some fr → job.isObject fr.name = true := by
  intro fr hfr
  rw [hc.widget] at hfr
  obtain ⟨u, hu, rfl⟩ := Option.map_eq_some_iff.mp hfr
  obtain ⟨hmem, hk⟩ := Node.enclosing_mem hn hu
  exact hj.isObject_name hmem (by rw [hk]; rfl)

/-! ## The walk -/

/-- A visit meets a widget. -/
def isWidget (v : Visit) : Bool := v.node.kind == .widget

theorem mem_widgets : v ∈ l.filter isWidget ↔ v ∈ l ∧ v.node.kind = .widget := by
  rw [List.mem_filter, isWidget, beq_iff_eq]

section Steps

variable (hj : job.Named) (hb : job.unseen.Sound b) (hc : job.Encloses c v.path)
  (hv : v ∈ job.form.visits)

include hj hb hv

theorem equips_enter :
    job.Equips ([v].filter isWidget) b ((walker job.plan).enter c v b).2 := by
  have hother : v.node.kind ≠ .widget → [v].filter isWidget = [] := by
    intro hk
    simp [isWidget, hk]
  cases hk : v.node.kind with
  | widget =>
    rw [List.filter_cons_of_pos (by simp [isWidget, hk]), List.filter_nil]
    simp only [walker, hk, map_run]
    exact equips_enterWidget hj hb hv hk
  | layout =>
    rw [hother (by simp [hk])]
    simp only [walker, hk, map_run]
    exact .quiet (quiet_enterLayout hj hb hv hk)
  | actionGroup =>
    rw [hother (by simp [hk])]
    simp only [walker, hk, map_run]
    exact .quiet (quiet_enterActionGroup hj hb hv hk)
  | spacer =>
    rw [hother (by simp [hk])]
    simp only [walker, hk, bind_run, pure_run]
    exact .quiet (quiet_writeSpacer hj hb hv hk)
  | action =>
    rw [hother (by simp [hk])]
    simp only [walker, hk, bind_run, pure_run]
    exact .quiet (quiet_writeAction hj hb hv hk)
  | actionRef =>
    rw [hother (by simp [hk])]
    simp only [walker, hk, bind_run, pure_run]
    exact .quiet (quietly (routine_placeAction c v.node) b)
  | _ =>
    rw [hother (by simp [hk])]
    simp only [walker, hk, pure_run]
    exact .quiet (.refl b)

include hc

theorem quiet_leaveItem (hk : v.node.kind = .layoutItem) :
    Appends job.Quiet b (leaveItem job.plan c v b).2 := by
  have hinstalls := leaveItem_installs job.plan c hk
  generalize leaveItem job.plan c v = m at hinstalls ⊢
  cases hinstalls with
  | idle => exact .refl b
  | @install layout noun tag n hl hn hpayload hobject =>
    have hw := item_mem hv (item_of_payload hpayload)
    have hlayout := hj.isObject_of_isLayout (hc.holds ((Node.mem_visits _ _).mp hv) layout hl)
    rw [bind_run, hj.nameAt hb hw hobject]
    refine AppendsOnly.emitAll ?_ b
    simp only [List.forall_mem_cons]
    exact ⟨.inl rfl, quiet_pass hlayout (hj.isObject_name hw hobject) (itemPlacement_ref ..) _,
      .inl rfl, by simp⟩

omit hb in
theorem quiet_leaveWidget (hk : v.node.kind = .widget) (b : Builder) :
    Appends job.Quiet b (leaveWidget job.plan c (job.name v) v.node b).2 := by
  have hparent : Appends job.Quiet b (addToParent job.plan c (job.name v) v.node b).2 := by
    cases hw : c.widget with
    | none =>
      rw [addToParent_outside hj.nameless hw]
      exact .refl b
    | some fr =>
      have hname : c.widgetName = fr.name := by rw [Context.widgetName, hw]; rfl
      have hframe : job.isObject c.widgetName = true :=
        hname ▸ hc.framed ((Node.mem_visits _ _).mp hv) hj fr hw
      have hobject := hj.isObject_name hv (by rw [hk]; rfl)
      refine AppendsOnly.when _ (.emitAll fun s hs => ?_)
        (quiet_addToContainer hframe hobject _ _) b
      exact quiet_passes (mainWindowStmts_passes _ _ _ _ _ s hs) hframe hobject
  exact hparent.trans (quietly (detail_raiseChildren _).routine _)

theorem quiet_leave (hinner : v.node.kind = .widget → inner.widgetName = job.name v) :
    Appends job.Quiet b ((walker job.plan).leave c inner v b).2 := by
  cases hk : v.node.kind with
  | widget =>
    simp only [walker, hk, hinner hk]
    exact quiet_leaveWidget hj hc hv hk b
  | layout =>
    simp only [walker, hk]
    exact quietly (.emitAll fun s hs => ((tunes_leaveLayout _ _).inert s hs).2.1) b
  | layoutItem =>
    simp only [walker, hk]
    exact quiet_leaveItem hj hb hc hv hk
  | _ =>
    simp only [walker, hk]
    exact .refl b

end Steps

/-- Wherever a node stands in the form, a walk meets its widgets in their order. -/
def Equipped (job : Job) (n : Node) : Prop :=
  ∀ path c b, job.unseen.Sound b → job.Encloses c path → job.form.node.nodeAt? path = some n →
    job.Equips ((n.visits path).filter isWidget) b (n.walk (walker job.plan) c path b).2

theorem equips_fields (hj : job.Named) (hb : job.unseen.Sound b)
    (hc : ∀ j, job.Encloses c (j :: path)) (fs : List Field)
    (hfs : ∀ f ∈ fs, ∀ m, f.node? = some m → Node.All Node.WellFormed m ∧ job.Equipped m) (i : Nat)
    (hplace : job.form.node.FieldsAt path i fs) :
    job.Equips ((fieldsVisits path i fs).filter isWidget) b
      (walkFields (walker job.plan) c path i fs b).2 := by
  induction fs generalizing i b with
  | nil => exact .quiet (.refl b)
  | cons f fs ih =>
    have hothers : ∀ g ∈ fs, ∀ m, g.node? = some m → Node.All Node.WellFormed m ∧ job.Equipped m :=
      fun g hg => hfs g (List.mem_cons_of_mem f hg)
    cases f with
    | value tag s => exact ih hb hothers (i + 1) hplace.tail
    | node tag m =>
      obtain ⟨hwell, hequipped⟩ := hfs _ (List.mem_cons_self ..) m rfl
      have hm := hplace.head
      have hsound := (assembled hj m hwell (i :: path) c b hb (hc i) hm).sound
      have hrest := ih hsound hothers (i + 1) hplace.tail
      rw [fieldsVisits, List.filter_append]
      exact (hequipped (i :: path) c b hb (hc i) hm).trans hrest

theorem equipped (hj : job.Named) (n : Node) (hwell : Node.All Node.WellFormed n) :
    job.Equipped n := by
  induction n using Node.induction with
  | h n ih =>
    intro path c b hb hc hn
    have hv : (⟨path, n⟩ : Visit) ∈ job.form.visits :=
      (Node.mem_visits job.form.node ⟨path, n⟩).mpr hn
    obtain ⟨s1, hholds, hinner⟩ := adds_enter (v := ⟨path, n⟩) hj hb hc hv
    have hmet := equips_enter (v := ⟨path, n⟩) (c := c) hj hb hv
    have hvisits := Form.visits_eq ⟨path, n⟩
    dsimp only at hvisits
    rw [hvisits, ← List.singleton_append, List.filter_append]
    cases henter : (walker job.plan).enter c ⟨path, n⟩ b with
    | mk entered b1 =>
      rw [henter] at s1 hholds hinner hmet
      cases entered with
      | none =>
        -- Below a node that is not entered there is no widget.
        have hbarren : (n.descendants path).filter isWidget = [] := by
          refine List.filter_eq_nil_iff.mpr fun v hv hk => ?_
          obtain ⟨hb, -⟩ := (Node.forall_fieldsVisits Node.Barren n.fields path 0).mpr
            (Node.below_barren n hwell hholds.symm) v hv
          rw [show v.node.kind = _ from by simpa [isWidget] using hk] at hb
          cases hb
        rw [Node.walk_outside henter, hbarren, List.append_nil]
        exact hmet
      | some inner =>
        obtain ⟨hbelow, hname⟩ := hinner inner rfl
        have hfields := equips_fields hj s1.sound hbelow n.fields
          (fun f hf m hm => ⟨hwell.below f hf m hm, ih f hf m hm (hwell.below f hf m hm)⟩) 0
          (Node.fieldsAt_all hn)
        have hassembled : ∀ f ∈ n.fields, ∀ m, f.node? = some m → Assembled job.unseen m :=
          fun f hf m hm => assembled hj m (hwell.below f hf m hm)
        have s2 := adds_fields s1.sound hbelow n.fields hassembled 0 (Node.fieldsAt_all hn)
        rw [walk_entered hwell henter]
        exact (hmet.trans hfields).followed (quiet_leave (v := ⟨path, n⟩) hj s2.sound hc hv hname)

/-- The walk over a form meets its widgets in their order. -/
theorem equips_walk (hj : job.Named) (hwell : Node.All Node.WellFormed job.form.node) {s : Session}
    (hs : s.table = job.table) :
    job.Equips (job.form.visits.filter isWidget) { session := s }
      (job.form.node.walk (walker job.plan) {} [] { session := s }).2 :=
  equipped hj job.form.node hwell [] {} { session := s } (hj.sound_start job.unseen hs)
    Encloses.top rfl

/-! ## Links -/

theorem routine_buddyStmt (plan : Plan) (isWidget : String → Bool) (pair : String × String) :
    Routine (buddyStmt? plan isWidget pair) := by
  unfold buddyStmt?
  dsimp only
  split
  · exact .bind (.note _ _) fun _ => .pure _
  · exact .pure _

theorem isRoutine_buddyStmts (plan : Plan) (isWidget : String → Bool)
    (pairs : List (String × String)) (b : Builder) :
    ∀ s ∈ (pairs.filterMapM (buddyStmt? plan isWidget) b).1, s.isRoutine = true := by
  induction pairs generalizing b with
  | nil => exact fun s hs => by cases hs
  | cons pair pairs ih =>
    rw [Header.filterMapM_run]
    refine List.forall_mem_append.mpr ⟨fun s hs => ?_, ih _⟩
    obtain ⟨label, buddy⟩ := pair
    cases hfind : [label, buddy].find? (!isWidget ·) with
    | some invalid =>
      simp only [buddyStmt?, hfind] at hs
      cases hs
    | none =>
      simp only [buddyStmt?, hfind] at hs
      rw [List.mem_singleton.mp hs]
      rfl

theorem routine_writeBuddies (plan : Plan) : Routine (writeBuddies plan) := by
  intro b
  have hpairs := AppendsOnly.filterMapM b.buddies (routine_buddyStmt plan b.widgets.contains) b
  rw [writeBuddies_run]
  split
  · refine hpairs.trans (AppendsOnly.emitAll ?_ _)
    exact forall_mem_guarded _ (fun _ => rfl) rfl (isRoutine_buddyStmts _ _ _ _)
  · exact hpairs

theorem routine_writeTabStops (plan : Plan) (names : List String) :
    Routine (writeTabStops plan names) := by
  refine .bind .get fun b => .bind (.forM _ fun _ => .note _ _) fun _ => .emitAll fun s hs => ?_
  obtain ⟨step, _, rfl⟩ := List.mem_map.mp hs
  rfl

end Job

end FormCompiler.Setup
