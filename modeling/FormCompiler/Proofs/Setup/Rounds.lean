import FormCompiler.Proofs.Setup.Serving

/-!
# A whole form

A walk over a form serves the requests of each node, so setting up a form serves the requests of the
form (`Job.built_stage`).
-/

namespace FormCompiler.Setup

open Code Document Naming
open Node (walkFields fieldsTour)

namespace Job

variable {job : Job} {rs : List Request} {b b' : Builder} {c inner : Context} {v : Visit} {n : Node}
  {path : List Nat} {name : String}

/-! ## What encloses an object -/

/-- What encloses an object has a name. -/
structure Homed (job : Job) (c : Context) : Prop where
  widget : ∀ fr, c.widget = some fr → fr.name ∈ job.objects []
  layout : ∀ fr, c.layout = some fr → fr.name ∈ job.objects []
  group : ∀ x, c.group = some x → x ∈ job.objects []
  main : job.plan.mainForm ∈ job.objects []

namespace Homed

theorem owner (h : job.Homed c) : c.ownerName job.plan ∈ job.objects [] := by
  unfold Context.ownerName
  cases hw : c.widget with
  | none => exact h.main
  | some fr => exact h.widget fr hw

theorem actionOwner (h : job.Homed c) : c.actionOwner job.plan ∈ job.objects [] := by
  unfold Context.actionOwner
  cases hg : c.group with
  | none => exact h.owner
  | some x => exact h.group x hg

end Homed

theorem Encloses.homed (hc : job.Encloses c path) (hj : job.Named)
    (hmain : job.plan.mainForm ∈ job.objects []) (hn : job.form.node.nodeAt? path = some n) :
    job.Homed c := by
  have habove : ∀ u ∈ job.form.node.ancestors path, u.node.kind.isObject = true →
      job.name u ∈ job.objects [] :=
    fun u hu hk => hj.object ((Node.mem_ancestors hn u).mp hu).1 hk
  have hnearest : ∀ {kind u}, job.form.node.enclosing? kind path = some u →
      kind.isObject = true → job.name u ∈ job.objects [] := by
    intro kind u hu hk
    have hkind := List.find?_some hu
    refine habove u (List.mem_of_find?_eq_some hu) ?_
    rw [beq_iff_eq.mp hkind]
    exact hk
  refine ⟨fun fr hfr => ?_, fun fr hfr => ?_, fun x hx => ?_, hmain⟩
  · rw [hc.widget] at hfr
    obtain ⟨u, hu, rfl⟩ := Option.map_eq_some_iff.mp hfr
    exact hnearest hu rfl
  · rw [hc.layout] at hfr
    obtain ⟨u, hu, rfl⟩ := Option.map_eq_some_iff.mp hfr
    obtain ⟨hu, hk⟩ := Option.filter_eq_some_iff.mp hu
    refine habove u (List.mem_of_find?_eq_some hu) ?_
    rw [beq_iff_eq.mp hk]
    rfl
  · rw [hc.group] at hx
    obtain ⟨u, hu, rfl⟩ := Option.map_eq_some_iff.mp hx
    exact hnearest hu rfl

namespace Stage

/-! ## Parents -/

theorem addToParent (h : job.Stage [] rs b) (hj : job.Named) (hc : job.Homed c)
    (hname : name ∈ job.objects []) (n : Node) :
    job.Stage [] (rs ++ pageRequests job.plan c.widgetName c.widgetClass name
      n.containerAttributes) (addToParent job.plan c name n b).2 := by
  cases hw : c.widget with
  | none =>
    have hclass : c.widgetClass = "" := by rw [Context.widgetClass, hw]; rfl
    have hderives : ∀ base, base ≠ "" → job.plan.classes.derives "" base = false :=
      fun _ => derives_nameless hj.nameless
    rw [addToParent_outside hj.nameless hw]
    exact h.nothing (by simp [pageRequests, hclass, hderives])
  | some fr =>
    have hparent : c.widgetName ∈ job.objects [] := by
      rw [Context.widgetName, hw]
      exact hc.widget fr hw
    have hknown : [c.widgetName, name] ⊆ b.session.table.names := by
      simpa using ⟨h.object hparent, h.object hname⟩
    have hpasses := mainWindowStmts_passes job.plan c.widgetName name (n.stringAttribute "class")
      n.containerAttributes
    have s1 := h.emit (.of_calls ((Passes.calls hpasses).mono hknown) (Passes.isPlain hpasses))
    simp only [Setup.addToParent, ite_run, bind_run]
    split
    · exact s1.addToContainer hparent hname _ _
    · exact h.addToContainer hparent hname _ _

theorem raiseChildren (h : job.Stage [] rs b) (n : Node) :
    job.Stage [] rs (raiseChildren job.plan n b).2 := by
  have hall : job.Stage [] (rs ++ (n.strings "zorder").flatMap fun _ => [])
      (Setup.raiseChildren job.plan n b).2 := by
    refine h.forM _ _ (fun _ => []) fun child _ rs b h => nothing ?_ rfl
    simp only [bind_run, ite_run, pure_run]
    split
    · exact h.note _
    · rename_i hw
      have hchild := h.widgets child (by simpa [get_run] using hw)
      split
      · exact h.emit (.call hchild (by simp))
      · exact h
  rwa [List.flatMap_eq_nil_iff.mpr fun _ _ => rfl, List.append_nil] at hall

/-! ## Objects -/

theorem when {q : List Request} (cond : Prop) [Decidable cond] (h : job.Stage [] rs b)
    (h' : cond → job.Stage [] (rs ++ q) b') :
    job.Stage [] (rs ++ if cond then q else []) (if cond then b' else b) := by
  split
  · exact h' ‹_›
  · exact h.nothing rfl

theorem equip (h : job.Stage [] rs b) (hname : name ∈ job.objects [])
    (hmain : job.plan.mainForm ∈ job.objects []) (n : Node) :
    job.Stage [] (rs ++
      ((if job.plan.classes.derives (n.stringAttribute "class") "QComboBox" then
        ((n.children "item").map ComboItem.ofNode).flatMap (itemRequests name) else []) ++
      if job.plan.classes.isButton (n.stringAttribute "class") then job.joiningRequests n
      else [])) (equip job.plan c name n b).2 := by
  have s1 := h.when (job.plan.classes.derives (n.stringAttribute "class") "QComboBox" = true)
    fun _ => h.fillComboBox hname ((n.children "item").map ComboItem.ofNode)
  rw [equip_run, ← List.append_assoc]
  exact s1.when _ fun _ => s1.joinButtonGroup (c := c) hname hmain n

theorem adorn (h : job.Stage [] rs b) (hname : name ∈ job.objects []) (n : Node) :
    job.Stage [] (rs ++
      propertiesRequests job.plan name (n.stringAttribute "class") false n.properties)
      (adorn job.plan c name n b).2 := by
  have s1 := h.writeProperties (c.target name (n.stringAttribute "class") false) hname n.properties
  rw [adorn_run]
  split
  · exact s1.takeMenuAction hname
  · exact s1

section Objects

variable (h : job.Stage [] rs b) (hj : job.Named) (hc : job.Homed c) (hv : v ∈ job.form.visits)

include h hj hv

theorem nameAt (hk : v.node.kind.isObject = true) : nameAt job.plan v b = (job.name v, b) :=
  hj.nameAt_of_entries h.entries hv hk

theorem writeSpacer (hk : v.node.kind = .spacer) :
    job.Stage [] rs (writeSpacer job.plan v b).2 := by
  have hobject : v.node.kind.isObject = true := by rw [hk]; rfl
  simp only [Setup.writeSpacer, bind_run, h.nameAt hj hv hobject]
  exact h.emit (.create (h.object (hj.object hv hobject)) (by simp [spacerArgs_uses]))

include hc

theorem createAction (hk : v.node.kind.isObject = true) (className : String) :
    job.Stage [] (rs ++ propertiesRequests job.plan (job.name v) className false v.node.properties)
      (Setup.writeProperties job.plan (c.target (job.name v) className false) v.node.properties
        (Setup.emit (.create (job.name v) className [.ref (c.actionOwner job.plan)]) b).2).2 := by
  have hname : job.name v ∈ job.objects [] := hj.object hv hk
  have hcreate : Regards b.session.table.names
      [.create (job.name v) className [.ref (c.actionOwner job.plan)]] :=
    .create (h.object hname) (by simpa [Expr.uses] using h.object hc.actionOwner)
  exact (h.emit hcreate).writeProperties (c.target (job.name v) className false) hname _

theorem enterActionGroup (hk : v.node.kind = .actionGroup) :
    job.Stage [] (rs ++ job.enterRequests v) (enterActionGroup job.plan c v b).2 ∧
      (Setup.enterActionGroup job.plan c v b).1 = { c with group := some (job.name v) } := by
  have hobject : v.node.kind.isObject = true := by rw [hk]; rfl
  simp only [enterRequests, hk, Setup.enterActionGroup, bind_run, pure_run,
    h.nameAt hj hv hobject]
  exact ⟨h.createAction hj hc hv hobject "QActionGroup", trivial⟩

theorem writeAction (hk : v.node.kind = .action) :
    job.Stage [] (rs ++ job.enterRequests v) (writeAction job.plan c v b).2 := by
  have hobject : v.node.kind.isObject = true := by rw [hk]; rfl
  simp only [enterRequests, hk, Setup.writeAction, ite_run, pure_run, bind_run,
    h.nameAt hj hv hobject]
  split
  · exact h.nothing rfl
  · exact h.createAction hj hc hv hobject "QAction"

theorem enterLayout (hk : v.node.kind = .layout) :
    job.Stage [] (rs ++ job.enterRequests v) (enterLayout job.plan c v b).2 ∧
      (Setup.enterLayout job.plan c v b).1 = { c with layout := some (job.frame v) } := by
  have hobject : v.node.kind.isObject = true := by rw [hk]; rfl
  have hname : job.name v ∈ job.objects [] := hj.object hv hobject
  let create : Stmt := .create (job.name v) (v.node.stringAttribute "class")
    (if c.layout.isSome then [] else [.ref (c.ownerName job.plan)])
  have s1 : job.Stage [] rs (Setup.emit create b).2 := by
    refine h.emit (.create (h.object hname) ?_)
    split
    · simp
    · simpa [Expr.uses] using h.object hc.owner
  obtain ⟨l, hl, hsteps⟩ := enterLayout_steps job.plan c (h.nameAt hj hv hobject)
  have s2 := s1.emit (.of_tunes hl (s1.object hname))
  have s3 : job.Stage [] rs
      { (emitAll _ (Setup.emit create b).2).2 with marginType := .subLayout } :=
    s2.change rfl rfl rfl rfl rfl (fun _ => .inl) (fun _ => .inl) fun _ => .inl
  have s4 := s3.writeProperties (c.target (job.name v) (v.node.stringAttribute "class") true) hname
    (v.node.properties ++
      if c.bareLayout = some v.path then missingMargins v.node.properties else [])
  rw [hsteps]
  refine ⟨s4.congr fun r => ?_, rfl⟩
  -- margins that are made up ask for nothing
  have hextra : propertiesRequests job.plan (job.name v) (v.node.stringAttribute "class") true
      (if c.bareLayout = some v.path then missingMargins v.node.properties else []) = [] := by
    refine List.flatMap_eq_nil_iff.mpr fun p hp => ?_
    split at hp
    · obtain ⟨side, -, rfl⟩ := List.mem_map.mp hp
      rw [propertyRequests, valueRequests_none rfl, ite_self]
    · cases hp
  rw [propertiesRequests] at hextra
  simp only [enterRequests, hk, propertiesRequests, Context.target, List.flatMap_append, hextra,
    List.append_nil]

theorem enterWidget (hk : v.node.kind = .widget) :
    job.Stage [] (rs ++ job.enterRequests v) (enterWidget job.plan c v b).2 ∧
      (Setup.enterWidget job.plan c v b).1.widget = some (job.frame v) ∧
      (Setup.enterWidget job.plan c v b).1.layout = none ∧
      (Setup.enterWidget job.plan c v b).1.group = c.group := by
  have hobject : v.node.kind.isObject = true := by rw [hk]; rfl
  have hname : job.name v ∈ job.objects [] := hj.object hv hobject
  have s1 : job.Stage [] rs (emitAll (widgetStmts job.plan c (job.name v) v.node) b).2 := by
    unfold widgetStmts
    cases hw : c.widget with
    | none => exact h.emit fun s hs => by cases hs
    | some fr =>
      have hparent : c.widgetName ∈ job.objects [] := by
        rw [Context.widgetName, hw]
        exact hc.widget fr hw
      refine h.emit (.create (h.object hname) ?_)
      split
      · simp
      · simpa [Expr.uses] using h.object hparent
  have s2 : job.Stage [] rs (createWidget job.plan c (job.name v) v.node b).2 := by
    refine s1.change rfl rfl rfl rfl rfl (fun _ => .inl) (fun x hx => ?_) fun _ => .inl
    exact (List.mem_cons.mp hx).elim (fun hx => .inr (by rw [hx]; exact s1.object hname)) .inl
  have s3 := (s2.equip (c := c) hname hc.main v.node).adorn (c := c) hname v.node
  rw [enterWidget_run job.plan c (h.nameAt hj hv hobject)]
  refine ⟨?_, rfl, rfl, rfl⟩
  simp only [enterRequests, hk]
  rwa [List.append_assoc] at s3

end Objects

theorem placeAction (h : job.Stage [] rs b) (hc : job.Homed c) (n : Node) :
    job.Stage [] rs (placeAction job.plan c n b).2 := by
  obtain ⟨m, hrun, hplacing⟩ := placeAction_run job.plan c n b
  rw [hrun]
  cases hplacing with
  | outside | pass => exact h
  | separator hw => exact h.delayAction (.call (h.object (hc.widget _ hw)) (by simp))
  | action hw hx he hknown =>
    obtain ⟨entry, hentry, hname⟩ := entry_of_known h.tidy.names.distinct hknown
    have hmem : n.stringAttribute "name" ∈ b.session.table.names :=
      hname ▸ List.mem_append_left _ (List.mem_map_of_mem hentry)
    refine h.delayAction (.call (h.object (hc.widget _ hw)) ?_)
    rcases he with rfl | rfl <;> simpa [Expr.uses] using hmem
  | undeclared => exact h.note _

theorem leaveItem (h : job.Stage [] rs b) (hj : job.Named) (hc : job.Homed c)
    (hv : v ∈ job.form.visits) (hk : v.node.kind = .layoutItem) :
    job.Stage [] rs (leaveItem job.plan c v b).2 := by
  have hinstalls := leaveItem_installs job.plan c hk
  generalize Setup.leaveItem job.plan c v = m at hinstalls ⊢
  cases hinstalls with
  | idle => exact h
  | @install layout noun tag n hl hn hpayload hobject =>
    have hw := item_mem hv (item_of_payload hpayload)
    have hitem := h.object (hj.object hw hobject)
    have hcall : Regards b.session.table.names [.call layout.name
        ((itemPlacement layout.className (job.name ⟨0 :: v.path, n⟩) v.node).1 ++ noun)
        (itemPlacement layout.className (job.name ⟨0 :: v.path, n⟩) v.node).2] := by
      refine .call (h.object (hc.layout layout hl)) ?_
      rw [itemPlacement_uses]
      simpa using hitem
    have hblank : Regards b.session.table.names [.blank] := by
      simp [Regards, Stmt.isPlain, Stmt.names, Stmt.assigns, Stmt.uses]
    rw [bind_run, h.nameAt hj hw hobject]
    exact h.emit ((hblank.append hcall).append hblank)

/-! ## Links -/

theorem buddyStmts {known : List String} (h : job.Stage known rs b) (isWidget : String → Bool)
    (hwidget : ∀ x, isWidget x = true → x ∈ job.objects known) (pairs : List (String × String)) :
    job.Stage known rs (pairs.filterMapM (buddyStmt? job.plan isWidget) b).2 ∧
      Regards (job.objects known) (pairs.filterMapM (buddyStmt? job.plan isWidget) b).1 := by
  induction pairs generalizing b with
  | nil => exact ⟨h, fun s hs => by cases hs⟩
  | cons pair pairs ih =>
    obtain ⟨label, buddy⟩ := pair
    have hone : job.Stage known rs (buddyStmt? job.plan isWidget (label, buddy) b).2 ∧
        Regards (job.objects known) (buddyStmt? job.plan isWidget (label, buddy) b).1.toList := by
      cases hfind : [label, buddy].find? (!isWidget ·) with
      | some invalid =>
        simp only [buddyStmt?, hfind]
        exact ⟨h.note _, fun s hs => by cases hs⟩
      | none =>
        simp only [buddyStmt?, hfind]
        have hall := List.find?_eq_none.mp hfind
        have hlabel := hwidget label (by simpa using hall label (by simp))
        have hbuddy := hwidget buddy (by simpa using hall buddy (by simp))
        exact ⟨h, .call hlabel (by simpa [Expr.uses] using hbuddy)⟩
    obtain ⟨s2, hrest⟩ := ih hone.1
    rw [Header.filterMapM_run]
    exact ⟨s2, hone.2.append hrest⟩

theorem writeBuddies {known : List String} (h : job.Stage known rs b)
    (hwidgets : ∀ x ∈ b.widgets, x ∈ job.objects known) :
    job.Stage known rs (writeBuddies job.plan b).2 := by
  obtain ⟨s1, hcalls⟩ := h.buddyStmts b.widgets.contains
    (fun x hx => hwidgets x (List.contains_iff_mem.mp hx)) b.buddies
  rw [writeBuddies_run]
  split
  · exact s1.emit ((hcalls.guard _).mono fun _ => s1.object)
  · exact s1

theorem writeTabStops {known : List String} (h : job.Stage known rs b)
    (hwidgets : ∀ x ∈ b.widgets, x ∈ job.objects known) (names : List String) :
    job.Stage known rs (writeTabStops job.plan names b).2 := by
  have s1 := h.forM (names.filter (!b.widgets.contains ·))
    (fun name => Setup.note job.plan (.invalidTabStop name)) (fun _ => [])
    fun name _ rs b h => (h.note (.invalidTabStop name)).nothing rfl
  rw [List.flatMap_eq_nil_iff.mpr fun _ _ => rfl, List.append_nil] at s1
  refine s1.emit (.mono (fun s hs => ?_) fun _ => s1.object)
  obtain ⟨step, hstep, rfl⟩ := List.mem_map.mp hs
  obtain ⟨hfirst, hsecond⟩ := tabOrder_widgets names step hstep
  refine ⟨rfl, fun x hx => hwidgets x (List.contains_iff_mem.mp ?_)⟩
  have hx : x ∈ [step.1, step.2] := hx
  rcases List.mem_cons.mp hx with rfl | hx
  · exact hfirst
  · rw [List.mem_singleton.mp hx]
    exact hsecond

theorem regards_connectionStmts {t : Table} (ht : t.Distinct) (f : Form) :
    Regards t.names (connectionStmts f t) := by
  have hvariable : ∀ {x y}, variableOf? t x = some y → y ∈ t.names := by
    intro x y hy
    rcases variableOf_known ht hy with ⟨e, he, rfl⟩ | ⟨d, g, hg, rfl⟩
    · exact List.mem_append_left _ (List.mem_map_of_mem he)
    · exact List.mem_append_right _ (List.mem_map_of_mem (Table.group_mem hg).1)
  intro s hs
  obtain ⟨n, sender, receiver, hsender, hreceiver, rfl⟩ := mem_connectionStmts hs
  refine ⟨rfl, ?_⟩
  simpa [Stmt.names, Stmt.assigns, Stmt.uses, Expr.uses] using
    ⟨hvariable hsender, hvariable hreceiver⟩

theorem link (h : job.Stage [] rs b) (hmain : job.plan.mainForm ∈ job.objects []) (f : Form) :
    ∃ known, job.Stage known rs (link job.plan f b).2 := by
  have hwiden : ∀ {known b}, job.Stage known rs b → known ⊆ b.session.table.names →
      job.Stage b.session.table.names rs b ∧
        ∀ x ∈ b.widgets, x ∈ job.objects b.session.table.names := fun h hmore =>
    ⟨h.widen hmore fun _ hx => hx, fun x hx => List.mem_append_left _ (h.widgets x hx)⟩
  obtain ⟨s0, hwidgets⟩ := hwiden h (List.nil_subset _)
  have s1 := s0.writeBuddies hwidgets
  obtain ⟨s1, hwidgets⟩ := hwiden s1 fun x => s1.underway x
  have s2 := s1.writeTabStops hwidgets
    (((f.node.child? "tabstops").map (·.strings "tabstop")).getD [])
  rw [link_run]
  refine ⟨_, s2.emit ((forall_closing _ _ _ _ ?_ ?_).mpr ⟨fun s hs => ?_, ?_, fun s hs => ?_⟩)⟩
  · simp [Stmt.isPlain, Stmt.names, Stmt.assigns, Stmt.uses]
  · intro function
    have hform := s2.object (List.mem_append_right _ hmain)
    simpa [Stmt.isPlain, Stmt.names, Stmt.assigns, Stmt.uses, Expr.uses] using hform
  · exact s2.aside s (List.mem_append_right _ hs)
  · exact regards_connectionStmts s2.tidy.names.distinct f
  · exact s2.aside s (List.mem_append_left _ hs)

theorem start (ht : job.table.Distinct) {s : Session} (hs : s.table = job.table) :
    job.Stage [] [] { session := s } where
  tidy := {
    names := ⟨hs ▸ ht, by simp, by simp, by simp [locals], .nil⟩
    cached := ⟨by simp [Builder.variables], by simp [Builder.variables], by simp⟩
    themed := ⟨by simp [Builder.variables], by simp [locals], by simp⟩
    inked := by simp }
  served := by simp
  entries := congrArg Table.entries hs
  groups := fun d g hg => hs ▸ hg
  bare := fun d g hg => .inl (hs ▸ hg)
  widgets := by simp
  aside := fun s hs => by cases hs
  underway := by simp
  created := by simp

end Stage

/-! ## The walk -/

/-- Wherever a node stands in the form, a walk serves the requests from the node down. -/
def Provided (job : Job) (n : Node) : Prop :=
  ∀ path c rs b, job.Stage [] rs b → job.Encloses c path →
    job.form.node.nodeAt? path = some n →
    job.Stage [] (rs ++ n.tour job.enterRequests job.leaveRequests path)
      (n.walk (walker job.plan) c path b).2

theorem stage_fields (h : job.Stage [] rs b) (hc : ∀ j, job.Encloses c (j :: path))
    (fs : List Field) (hfs : ∀ f ∈ fs, ∀ m, f.node? = some m → job.Provided m) (i : Nat)
    (hplace : job.form.node.FieldsAt path i fs) :
    job.Stage [] (rs ++ fieldsTour job.enterRequests job.leaveRequests path i fs)
      (walkFields (walker job.plan) c path i fs b).2 := by
  induction fs generalizing i rs b with
  | nil => exact h.nothing rfl
  | cons f fs ih =>
    have hhere : job.Stage []
        (rs ++ Node.fieldTour job.enterRequests job.leaveRequests (i :: path) f)
        (Node.walkField (walker job.plan) c (i :: path) f b).2 := by
      cases f with
      | value tag s => exact h.nothing rfl
      | node tag m =>
        exact hfs _ (List.mem_cons_self ..) m rfl (i :: path) c rs b h (hc i) hplace.head
    have hrest := ih hhere (fun g hg => hfs g (List.mem_cons_of_mem _ hg)) (i + 1) hplace.tail
    rw [fieldsTour, ← List.append_assoc]
    exact hrest

theorem leaveRequests_other (hk : v.node.kind ≠ .widget) : job.leaveRequests v = [] :=
  if_neg hk

theorem enterRequests_other (hk : v.node.kind.isObject = false) : job.enterRequests v = [] := by
  cases h : v.node.kind <;> simp only [h, Kind.isObject, Bool.true_eq_false] at hk <;>
    simp only [enterRequests, h]

theorem tour_leaf (hwell : Node.All Node.WellFormed n) (hk : n.kind.holdsObjects = false)
    (path : List Nat) :
    n.tour job.enterRequests job.leaveRequests path = job.enterRequests ⟨path, n⟩ := by
  have hbelow : fieldsTour job.enterRequests job.leaveRequests path 0 n.fields = [] := by
    refine Node.fieldsTour_eq_nil _ _ fun v hv => ?_
    obtain ⟨hholds, hobject, -⟩ := (Node.forall_fieldsVisits Node.Barren n.fields path 0).mpr
      (Node.below_barren n hwell hk) v hv
    refine ⟨enterRequests_other hobject, leaveRequests_other fun h => ?_⟩
    rw [h] at hholds
    cases hholds
  have hpage : job.leaveRequests ⟨path, n⟩ = [] := by
    refine leaveRequests_other fun h => ?_
    rw [show n.kind = _ from h] at hk
    cases hk
  have htour := Node.tour_eq job.enterRequests job.leaveRequests ⟨path, n⟩
  rwa [hbelow, hpage, List.append_nil, List.append_nil] at htour

theorem tour_inner (hk : n.kind ≠ .widget) (path : List Nat) :
    n.tour job.enterRequests job.leaveRequests path = job.enterRequests ⟨path, n⟩ ++
      fieldsTour job.enterRequests job.leaveRequests path 0 n.fields := by
  have htour := Node.tour_eq job.enterRequests job.leaveRequests ⟨path, n⟩
  rwa [leaveRequests_other (v := ⟨path, n⟩) hk, List.append_nil] at htour

/-- Inside a node at a path, a walk serves the requests of all that is below the node. -/
def ProvidedBelow (job : Job) (n : Node) (path : List Nat) : Prop :=
  ∀ ⦃rs b c⦄, job.Stage [] rs b → (∀ j, job.Encloses c (j :: path)) →
    job.Stage [] (rs ++ fieldsTour job.enterRequests job.leaveRequests path 0 n.fields)
      (walkFields (walker job.plan) c path 0 n.fields b).2

section Kinds

variable (h : job.Stage [] rs b) (hj : job.Named) (hc : job.Encloses c path) (hhomed : job.Homed c)
  (hn : job.form.node.nodeAt? path = some n) (hv : ⟨path, n⟩ ∈ job.form.visits)
  (hwell : Node.All Node.WellFormed n) (hbelow : job.ProvidedBelow n path)

include h hj hc hhomed hn hv hwell hbelow

/-- A widget is added to the widget around it when the walk leaves it. -/
theorem provided_widget (hk : n.kind = .widget) :
    job.Stage [] (rs ++ n.tour job.enterRequests job.leaveRequests path)
      (n.walk (walker job.plan) c path b).2 := by
  obtain ⟨s1, hwidget, hlayout, hgroup⟩ := h.enterWidget (v := ⟨path, n⟩) hj hhomed hv hk
  have henter : (walker job.plan).enter c ⟨path, n⟩ b =
      (some (enterWidget job.plan c ⟨path, n⟩ b).1, (enterWidget job.plan c ⟨path, n⟩ b).2) := by
    simp only [walker, hk, map_run]
  have s2 := hbelow s1 fun j => hc.widget_below hn j hk hwidget hlayout hgroup
  have hname : (enterWidget job.plan c ⟨path, n⟩ b).1.widgetName = job.name ⟨path, n⟩ := by
    rw [Context.widgetName, hwidget]
    rfl
  have hpage : job.leaveRequests ⟨path, n⟩ = pageRequests job.plan c.widgetName c.widgetClass
      (job.name ⟨path, n⟩) n.containerAttributes := by
    simp only [leaveRequests, hk, if_true, Context.widgetName, Context.widgetClass, hc.widget]
  have s3 := s2.addToParent hj hhomed (hj.object hv (by rw [hk]; rfl)) n
  have htour := Node.tour_eq job.enterRequests job.leaveRequests ⟨path, n⟩
  rw [walk_entered hwell henter, htour, hpage, ← List.append_assoc, ← List.append_assoc]
  simp only [walker, hk, leaveWidget, bind_run, hname]
  exact s3.raiseChildren n

/-- A layout is stretched and sized when the walk leaves it. -/
theorem provided_layout (hk : n.kind = .layout) :
    job.Stage [] (rs ++ n.tour job.enterRequests job.leaveRequests path)
      (n.walk (walker job.plan) c path b).2 := by
  obtain ⟨s1, hcontext⟩ := h.enterLayout (v := ⟨path, n⟩) hj hhomed hv hk
  have henter : (walker job.plan).enter c ⟨path, n⟩ b =
      (some { c with layout := some (job.frame ⟨path, n⟩) },
        (enterLayout job.plan c ⟨path, n⟩ b).2) := by
    simp only [walker, hk, map_run, hcontext]
  have s2 := hbelow s1 fun j => hc.layout_below hn j hk
  have hname : job.name ⟨path, n⟩ ∈ job.objects [] := hj.object hv (by rw [hk]; rfl)
  rw [walk_entered hwell henter, tour_inner (by simp [hk]), ← List.append_assoc]
  simp only [walker, hk]
  exact s2.emit (.of_tunes (tunes_leaveLayout _ _) (s2.object hname))

theorem provided_actionGroup (hk : n.kind = .actionGroup) :
    job.Stage [] (rs ++ n.tour job.enterRequests job.leaveRequests path)
      (n.walk (walker job.plan) c path b).2 := by
  obtain ⟨s1, hcontext⟩ := h.enterActionGroup (v := ⟨path, n⟩) hj hhomed hv hk
  have henter : (walker job.plan).enter c ⟨path, n⟩ b =
      (some { c with group := some (job.name ⟨path, n⟩) },
        (enterActionGroup job.plan c ⟨path, n⟩ b).2) := by
    simp only [walker, hk, map_run, hcontext]
  have s2 := hbelow s1 fun j => hc.group_below hn j hk
  rw [walk_entered hwell henter, tour_inner (by simp [hk]), ← List.append_assoc]
  simp only [walker, hk]
  exact s2

/-- The form and the item of a layout are walked through as they are, and ask for nothing. -/
theorem provided_through (hk : n.kind = .layoutItem ∨ n.kind = .ui) :
    job.Stage [] (rs ++ n.tour job.enterRequests job.leaveRequests path)
      (n.walk (walker job.plan) c path b).2 := by
  have henter : (walker job.plan).enter c ⟨path, n⟩ b = (some c, b) := by
    rcases hk with hk | hk <;> simp only [walker, hk, pure_run]
  have hobject : n.kind.isObject = false := by
    rcases hk with hk | hk <;> rw [hk] <;> rfl
  have hother : ∀ kind : Kind, kind.isObject = true → n.kind ≠ kind := by
    rintro _ hkind rfl
    rw [hobject] at hkind
    cases hkind
  have s2 := hbelow h fun j =>
    hc.pass hn j (hother .widget rfl) (hother .layout rfl) (hother .actionGroup rfl)
  rw [walk_entered hwell henter, tour_inner (hother .widget rfl), enterRequests_other hobject,
    List.nil_append]
  rcases hk with hk | hk <;> simp only [walker, hk]
  · exact s2.leaveItem (v := ⟨path, n⟩) hj hhomed hv hk
  · exact s2

end Kinds

/-- A node that the walk does not go into. -/
theorem provided_leaf (hwell : Node.All Node.WellFormed n) (hk : n.kind.holdsObjects = false)
    (henter : (walker job.plan).enter c ⟨path, n⟩ b = (none, b'))
    (h : job.Stage [] (rs ++ job.enterRequests ⟨path, n⟩) b') :
    job.Stage [] (rs ++ n.tour job.enterRequests job.leaveRequests path)
      (n.walk (walker job.plan) c path b).2 := by
  rw [Node.walk_outside henter, tour_leaf hwell hk]
  exact h

/-- By induction over the tree, with one case for each kind of node that the walk knows. -/
theorem provided (hj : job.Named) (hmain : job.plan.mainForm ∈ job.objects []) (n : Node)
    (hwell : Node.All Node.WellFormed n) : job.Provided n := by
  induction n using Node.induction with
  | h n ih =>
    intro path c rs b h hc hn
    have hhomed := hc.homed hj hmain hn
    have hv : (⟨path, n⟩ : Visit) ∈ job.form.visits :=
      (Node.mem_visits job.form.node ⟨path, n⟩).mpr hn
    have hbelow : job.ProvidedBelow n path := fun rs' b' inner h' hinner =>
      stage_fields h' hinner n.fields (fun f hf m hm => ih f hf m hm (hwell.below f hf m hm))
        0 (Node.fieldsAt_all hn)
    cases hk : n.kind with
    | widget => exact provided_widget h hj hc hhomed hn hv hwell hbelow hk
    | layout => exact provided_layout h hj hc hhomed hn hv hwell hbelow hk
    | actionGroup => exact provided_actionGroup h hj hc hhomed hn hv hwell hbelow hk
    | layoutItem => exact provided_through h hj hc hhomed hn hv hwell hbelow (.inl hk)
    | ui => exact provided_through h hj hc hhomed hn hv hwell hbelow (.inr hk)
    | spacer =>
      refine provided_leaf hwell (by rw [hk]; rfl) (by simp only [walker, hk]; rfl) ?_
      exact (h.writeSpacer (v := ⟨path, n⟩) hj hv hk).nothing (by simp only [enterRequests, hk])
    | action =>
      exact provided_leaf hwell (by rw [hk]; rfl) (by simp only [walker, hk]; rfl)
        (h.writeAction (v := ⟨path, n⟩) hj hhomed hv hk)
    | actionRef =>
      refine provided_leaf hwell (by rw [hk]; rfl) (by simp only [walker, hk]; rfl) ?_
      exact (h.placeAction hhomed n).nothing (enterRequests_other (by simp [hk, Kind.isObject]))
    | _ =>
      refine provided_leaf hwell (by rw [hk]; rfl) (by simp only [walker, hk]; rfl) ?_
      exact h.nothing (enterRequests_other (by simp [hk, Kind.isObject]))

theorem built_stage (hj : job.Named) (hmain : job.plan.mainForm ∈ job.objects [])
    (hwell : Node.All Node.WellFormed job.form.node) {s : Session} (hs : s.table = job.table) :
    ∃ known, job.Stage known job.requests (built job.plan job.form s) := by
  have s1 := provided hj hmain job.form.node hwell [] {} [] { session := s }
    (.start hj.distinct hs) Encloses.top rfl
  obtain ⟨known, s2⟩ := s1.link hmain job.form
  have hperm := Node.tour_perm job.enterRequests job.leaveRequests job.form.node []
  exact ⟨known, s2.congr fun r => hperm.mem_iff⟩

end Job

end FormCompiler.Setup
