import FormCompiler.Proofs.Setup.Groups

/-!
# What a walk makes of each object

`Job.Made` says what exists once the walk has met an object: its variable and its title, unless it
is an action that stands for a menu, the action of a menu, and the group of a button; and that an
action placed without existing is referred to.  `Job.Walks` adds to this what the code of the
objects met needs.
-/

namespace FormCompiler.Setup

open Code Document Naming

namespace Job

/-- The statement that gives an object its title; the root widget may have been given one before. -/
def titleStmt (job : Job) (v : Visit) : Stmt :=
  if v.path = job.root.path then .nameOnce (job.name v) else .setObjectName (job.name v)

/-- What there is of an object once the walk has met it. -/
structure Made (job : Job) (v : Visit) (b : Builder) : Prop where
  object : v.node.kind.isObject = true →
    (v.node.kind = .action → v.node.attribute? "menu" = none) → job.name v ∈ job.vars b
  titled : v.node.kind.isObject = true → v.node.kind ≠ .spacer →
    (v.node.kind = .action → v.node.attribute? "menu" = none) → job.titleStmt v ∈ b.setup
  menu : job.IsMenu v → job.table.actionIsMenu? (job.name v ++ "Action") = some true →
    job.name v ++ "Action" ∈ job.vars b
  group : ∀ d g, Joins job.plan v d → job.table.group? d = some g → job.Enrolled g (job.name v) b
  placed : v.node.kind = .actionRef → v.node.stringAttribute "name" ≠ "separator" →
    job.LacksMenu (v.node.stringAttribute "name") →
    ∃ s ∈ b.delayedActions, v.node.stringAttribute "name" ∈ s.uses

/-- A piece of the setup that meets some objects. -/
structure Walks (job : Job) (vs : List Visit) (b b' : Builder) : Prop where
  advances : job.Advances (∀ v ∈ vs, job.Paints v) b b'
  made : ∀ v ∈ vs, job.Made v b'

variable {job : Job} {c : Context} {T : Prop} {b b' b'' : Builder} {v : Visit} {vs ws : List Visit}

theorem Made.mono (h : job.Made v b) (hb : job.Advances T b b') : job.Made v b' where
  object ho ha := hb.mem_vars (h.object ho ha)
  menu hm ha := hb.mem_vars (h.menu hm ha)
  titled ho hk ha := hb.setup.subset (h.titled ho hk ha)
  group d g hd hg := (h.group d g hd hg).mono hb.setup
  placed hk hx hm := (h.placed hk hx hm).imp fun _ hs => hs.imp_left (hb.actions ·)

theorem made_idle (ho : v.node.kind.isObject = false) (hr : v.node.kind ≠ .actionRef) :
    job.Made v b := by
  have hkind : v.node.kind ≠ .widget := fun hk => by simp [hk, Kind.isObject] at ho
  have hno : v.node.kind.isObject ≠ true := by simp [ho]
  exact ⟨fun h => absurd h hno, fun h => absurd h hno, fun hm => absurd hm.2.1 hkind,
    fun d g hd => absurd hd.1 hkind, fun hk => absurd hk hr⟩

theorem paints_idle (ho : v.node.kind.isObject = false) : job.Paints v := by
  unfold Paints
  split <;> first | trivial | simp_all [Kind.isObject]

namespace Walks

theorem nil (hb : job.Consistent b) (hs : job.Settled b) : job.Walks [] b b :=
  ⟨(Advances.refl hb hs).congr (by simp), by simp⟩

theorem append (h : job.Walks vs b b') (h' : job.Walks ws b' b'') : job.Walks (vs ++ ws) b b'' where
  advances := (h.advances.trans h'.advances).congr List.forall_mem_append.symm
  made v hv := (List.mem_append.mp hv).elim (fun hv => (h.made v hv).mono h'.advances) (h'.made v)

theorem followed (h : job.Walks vs b b') (h' : job.Writes True b' b'') : job.Walks vs b b'' where
  advances := h.advances.followed h'
  made v hv := (h.made v hv).mono (h'.advances h.advances.settled)

theorem single (h : job.Advances (job.Paints v) b b') (hv : job.Made v b') :
    job.Walks [v] b b' :=
  ⟨h.congr (by simp), by simpa using hv⟩

theorem ite {α : Type} (c : Prop) [Decidable c] {r r' : α × Builder}
    (h : c → job.Walks vs b r.2) (h' : ¬ c → job.Walks vs b r'.2) :
    job.Walks vs b (if c then r else r').2 := by
  split
  · exact h ‹_›
  · exact h' ‹_›

theorem idle (hb : job.Consistent b) (hs : job.Settled b)
    (h : ∀ v ∈ vs, v.node.kind.isObject = false ∧ v.node.kind ≠ .actionRef) : job.Walks vs b b :=
  ⟨(Advances.refl hb hs).congr (iff_of_true trivial fun v hv => paints_idle (h v hv).1),
    fun v hv => made_idle (h v hv).1 (h v hv).2⟩

end Walks

/-! ## Widgets -/

/-- Outside the form there is only the root widget. -/
def Stands (job : Job) (c : Context) (v : Visit) : Prop :=
  match c.widget with
  | none => v = job.root
  | some _ => v.path ≠ job.root.path

theorem TitledIn.title (h : job.TitledIn c v b) (hstands : job.Stands c v) :
    job.titleStmt v ∈ b.setup := by
  have htitle : (c.target (job.name v) "" false).title = job.titleStmt v := by
    cases hw : c.widget with
    | none =>
      have hroot : v = job.root := by simpa [Stands, hw] using hstands
      simp [Target.title, titleStmt, Context.target, hw, hroot]
    | some frame =>
      have hpath : v.path ≠ job.root.path := by simpa [Stands, hw] using hstands
      simp [Target.title, titleStmt, Context.target, hw, hpath]
  exact htitle ▸ h

theorem object_of_widget (hk : v.node.kind = .widget) :
    ∃ o, Object.ofNode? v.node = some o ∧ o.role ≠ .action true :=
  created_object (by rw [hk]; rfl) (by simp [hk])

theorem writes_widgetStmts (hj : job.Valid) (hb : job.Consistent b) (hc : job.Located c b)
    (hv : v ∈ job.visits) (hk : v.node.kind = .widget) (hstands : job.Stands c v) :
    let b' := (emitAll (widgetStmts job.plan c (job.name v) v.node) b).2
    job.Writes True b b' ∧ job.name v ∈ job.vars b' := by
  cases hw : c.widget with
  | none =>
    have hroot : v = job.root := by simpa [Stands, hw] using hstands
    simp only [widgetStmts, hw, Option.isSome_none, Bool.false_eq_true, if_false, emitAll_nil]
    refine ⟨.refl hb, ?_⟩
    rw [hroot, ← hj.mainForm]
    exact mainForm_mem job b
  | some frame =>
    obtain ⟨o, ho, hrole⟩ := object_of_widget hk
    have hparent : c.widgetName ∈ job.vars b := by
      rw [Context.widgetName, hw]
      exact (hc.widget frame hw).1
    simp only [widgetStmts, hw, Option.isSome_some, if_true]
    refine ⟨writes_create hb _ rfl (hj.assignable_object hb hv ho hrole) ?_,
      assigned_emit (by simp [Stmt.assigns])⟩
    simp only [Stmt.uses]
    split
    · simp
    · simpa [Expr.uses] using hparent

theorem writes_createWidget (hj : job.Valid) (hb : job.Consistent b) (hc : job.Located c b)
    (hv : v ∈ job.visits) (hk : v.node.kind = .widget) (hstands : job.Stands c v) :
    let b' := (createWidget job.plan c (job.name v) v.node b).2
    job.Writes True b b' ∧ job.name v ∈ job.vars b' := by
  obtain ⟨s1, hvar⟩ := writes_widgetStmts hj hb hc hv hk hstands
  refine ⟨s1.andThen (writes_aside s1.consistent rfl rfl rfl rfl (fun x hx => ?_) (fun _ => .inl)
    (fun _ => .inl) (fun _ h => h)), hvar⟩
  rcases List.mem_cons.mp hx with rfl | hx
  · exact .inr hvar
  · exact .inl hx

/-- The menus whose action is taken are those below the root widget. -/
theorem isMenu_iff (hc : job.Located c b) (hk : v.node.kind = .widget)
    (hstands : job.Stands c v) :
    (job.plan.classes.derives (v.node.stringAttribute "class") "QMenu" &&
      !c.widgetName.isEmpty) = true ↔ job.IsMenu v := by
  have hbelow : c.widgetName.isEmpty = false ↔ v.path ≠ job.root.path := by
    cases hw : c.widget with
    | none =>
      have hroot : v = job.root := by simpa [Stands, hw] using hstands
      simp [Context.widgetName, hw, hroot]
    | some frame =>
      have hne : v.path ≠ job.root.path := by simpa [Stands, hw] using hstands
      simp [Context.widgetName, hw, hne, (hc.widget frame hw).2]
  rw [Bool.and_eq_true, Bool.not_eq_true', hbelow, IsMenu]
  simp only [hk, true_and]
  exact and_comm

theorem advances_equip (hj : job.Valid) (hb : job.Consistent b) (hs : job.Settled b)
    (hv : v ∈ job.form.visits) (hk : v.node.kind = .widget) (hvar : job.name v ∈ job.vars b) :
    let b' := (equip job.plan c (job.name v) v.node b).2
    job.Advances (∀ d, Joins job.plan v d → ∀ n, groupNode? job.form d = some n →
      Painted job.plan "QButtonGroup" false n.properties) b b' ∧
      ∀ d g, Joins job.plan v d → job.table.group? d = some g →
        job.Enrolled g (job.name v) b' := by
  have s1 : job.Writes True b
      (if job.plan.classes.derives (v.node.stringAttribute "class") "QComboBox" = true then
        (fillComboBox job.plan (job.name v) ((v.node.children "item").map ComboItem.ofNode) b).2
      else b) := by
    split
    · exact writes_fillComboBox hb _ _ hvar
    · exact .refl hb
  have hvar := s1.mem_vars hvar
  have s1 := s1.advances hs
  dsimp only
  rw [equip_run]
  split
  · rename_i hbutton
    obtain ⟨s2, hgroup⟩ :=
      advances_joinButtonGroup (c := c) hj s1.consistent s1.settled hv hk hbutton hvar
    exact ⟨s1.andThen s2, hgroup⟩
  · rename_i hbutton
    have hno : ∀ d, ¬ Joins job.plan v d := fun d hd => hbutton hd.2.1
    exact ⟨s1.congr (iff_of_true trivial fun d hd => absurd hd (hno d)),
      fun d g hd => absurd hd (hno d)⟩

theorem walks_equip (hj : job.Valid) (hb : job.Consistent b) (hs : job.Settled b)
    (hc : job.Located c b) (hv : v ∈ job.visits) (hk : v.node.kind = .widget)
    (hstands : job.Stands c v) (hvar : job.name v ∈ job.vars b) :
    job.Walks [v] b (adorn job.plan c (job.name v) v.node
      (equip job.plan c (job.name v) v.node b).2).2 := by
  have hform := hj.visits v hv
  obtain ⟨s2, hgroup⟩ := advances_equip (c := c) hj hb hs hform hk hvar
  obtain ⟨s3, htitle⟩ := writes_writeProperties s2.consistent
    (c.target (job.name v) (v.node.stringAttribute "class") false) v.node.properties
    (s2.mem_vars hvar)
  have htitle := TitledIn.title htitle hstands
  have hvar6 := s3.mem_vars (s2.mem_vars hvar)
  rw [adorn_run]
  generalize (writeProperties job.plan _ v.node.properties _).2 = b6 at *
  have hpaints : job.Advances (job.Paints v) b b6 := by
    refine (s2.trans (s3.advances s2.settled)).congr ?_
    simp only [Paints, hk]
    exact and_comm
  have hmade : ∀ {b'}, job.Writes True b6 b' →
      (job.IsMenu v → job.table.actionIsMenu? (job.name v ++ "Action") = some true →
        job.name v ++ "Action" ∈ job.vars b') → job.Walks [v] b b' := by
    intro b' s4 hmenu
    refine Walks.single (hpaints.followed s4) ⟨fun _ _ => s4.mem_vars hvar6,
      fun _ _ _ => s4.setup.subset htitle, hmenu,
      fun d g hd hg => (hgroup d g hd hg).mono (s3.setup.trans s4.setup), fun hka => ?_⟩
    rw [hk] at hka
    cases hka
  split
  · rename_i hmenu
    obtain ⟨s4, haction⟩ := writes_takeMenuAction hj s3.consistent hform
      ((isMenu_iff hc hk hstands).mp hmenu) hvar6
    exact hmade s4 fun _ => haction
  · rename_i hmenu
    exact hmade (.refl s3.consistent) fun h => absurd ((isMenu_iff hc hk hstands).mpr h) hmenu

theorem walks_enterWidget (hj : job.Valid) (hb : job.Consistent b) (hs : job.Settled b)
    (hc : job.Located c b) (hv : v ∈ job.visits) (hk : v.node.kind = .widget)
    (hstands : job.Stands c v) :
    let r := enterWidget job.plan c v b
    job.Walks [v] b r.2 ∧ r.1.widget = some ⟨job.name v, v.node.stringAttribute "class"⟩ ∧
      r.1.layout = none ∧ r.1.group = c.group := by
  obtain ⟨o, ho, _⟩ := object_of_widget hk
  obtain ⟨s1, hvar⟩ := writes_createWidget hj hb hc hv hk hstands
  have s1' := s1.advances hs
  have hequip := walks_equip hj s1.consistent s1'.settled (hc.mono s1.setup) hv hk hstands hvar
  dsimp only
  rw [enterWidget_run job.plan c (hj.nameAt_visit hb hv ho)]
  exact ⟨⟨s1'.andThen hequip.advances, hequip.made⟩, rfl, rfl, rfl⟩

theorem derives_nameless {t : Classes.Custom} (ht : t.find? "" = none) {base : String}
    (hbase : base ≠ "") : t.derives "" base = false := by
  have hno : t.base? "" = none := by rw [Classes.Custom.base?, ht]; rfl
  simp [Classes.Custom.derives, Classes.Custom.reaches, hno, hbase.symm]

theorem addToParent_outside {plan : Plan} (hp : plan.classes.find? "" = none)
    (hw : c.widget = none) (name : String) (n : Node) :
    addToParent plan c name n b = ((), b) := by
  have hclass : c.widgetClass = "" := by rw [Context.widgetClass, hw]; rfl
  have hpage : plan.classes.addPageMethod? "" = none := by
    rw [Classes.Custom.addPageMethod?, hp]
    rfl
  have hderives : ∀ base, base ≠ "" → plan.classes.derives "" base = false :=
    fun _ => derives_nameless hp
  simp [addToParent, addToContainer, hclass, hpage, hderives, pure_run]

theorem writes_leaveWidget (hj : job.Valid) (hb : job.Consistent b) (hc : job.Located c b)
    (name : String) (n : Node) (hname : name ∈ job.vars b) :
    job.Writes True b (leaveWidget job.plan c name n b).2 := by
  simp only [leaveWidget, bind_run]
  cases hw : c.widget with
  | none =>
    rw [addToParent_outside hj.nameless hw]
    exact writes_raiseChildren hb n
  | some frame =>
    have s1 := writes_addToParent hb hc hw name n hname
    exact s1.andThen (writes_raiseChildren s1.consistent n)

/-! ## Actions -/

theorem writes_createAction (hj : job.Valid) (hb : job.Consistent b) (hc : job.Located c b)
    (hv : v ∈ job.visits) {o : Object} (ho : Object.ofNode? v.node = some o)
    (hrole : o.role ≠ .action true) (className : String) :
    let create : Stmt := .create (job.name v) className [.ref (c.actionOwner job.plan)]
    let b' := (writeProperties job.plan (c.target (job.name v) className false) v.node.properties
      (emit create b).2).2
    job.Writes (Painted job.plan className false v.node.properties) b b' ∧
      job.name v ∈ job.vars b' ∧ job.TitledIn c v b' := by
  intro create b'
  have s1 := writes_create hb create rfl (hj.assignable_object hb hv ho hrole)
    (by simpa [create, Stmt.uses, Expr.uses] using hc.actionOwner)
  have hvar : job.name v ∈ job.vars (emit create b).2 :=
    assigned_emit (by simp [create, Stmt.assigns])
  obtain ⟨s2, htitle⟩ := writes_writeProperties s1.consistent
    (c.target (job.name v) className false) v.node.properties hvar
  exact ⟨s1.andThen s2, s2.mem_vars hvar, htitle⟩

theorem made_of_var (hk : v.node.kind ≠ .widget) (hr : v.node.kind ≠ .actionRef)
    (h : (v.node.kind = .action → v.node.attribute? "menu" = none) →
      job.name v ∈ job.vars b ∧ (v.node.kind ≠ .spacer → job.titleStmt v ∈ b.setup)) :
    job.Made v b :=
  ⟨fun _ ha => (h ha).1, fun _ hs ha => (h ha).2 hs, fun hm => absurd hm.2.1 hk,
    fun _ _ hd => absurd hd.1 hk, fun h => absurd h hr⟩

theorem walks_enterActionGroup (hj : job.Valid) (hb : job.Consistent b) (hs : job.Settled b)
    (hc : job.Located c b) (hv : v ∈ job.visits) (hk : v.node.kind = .actionGroup)
    (hstands : job.Stands c v) :
    let r := enterActionGroup job.plan c v b
    job.Walks [v] b r.2 ∧ r.1 = { c with group := some (job.name v) } := by
  obtain ⟨o, ho, hrole⟩ := created_object (n := v.node) (by rw [hk]; rfl) (by simp [hk])
  obtain ⟨s1, hvar, htitle⟩ := writes_createAction hj hb hc hv ho hrole "QActionGroup"
  simp only [enterActionGroup, bind_run, hj.nameAt_visit hb hv ho, pure_run]
  refine ⟨Walks.single ((s1.advances hs).congr ?_)
    (made_of_var (by simp [hk]) (by simp [hk]) fun _ => ⟨hvar, fun _ => htitle.title hstands⟩),
    trivial⟩
  simp only [Paints, hk]

theorem walks_writeAction (hj : job.Valid) (hb : job.Consistent b) (hs : job.Settled b)
    (hc : job.Located c b) (hv : v ∈ job.visits) (hk : v.node.kind = .action)
    (hstands : job.Stands c v) :
    job.Walks [v] b (writeAction job.plan c v b).2 := by
  cases hm : v.node.attribute? "menu" with
  | some menu =>
    have hrun : writeAction job.plan c v b = ((), b) := by
      simp only [writeAction, hm]
      rfl
    rw [hrun]
    refine Walks.single ((Advances.refl hb hs).congr (by simp [Paints, hk, hm]))
      (made_of_var (by simp [hk]) (by simp [hk]) fun h => ?_)
    rw [h hk] at hm
    cases hm
  | none =>
    obtain ⟨o, ho, hrole⟩ := created_object (n := v.node) (by rw [hk]; rfl) fun _ => hm
    obtain ⟨s1, hvar, htitle⟩ := writes_createAction hj hb hc hv ho hrole "QAction"
    have hrun : writeAction job.plan c v b = writeProperties job.plan
        (c.target (job.name v) "QAction" false) v.node.properties
        (emit (.create (job.name v) "QAction" [.ref (c.actionOwner job.plan)]) b).2 := by
      simp only [writeAction, hm, Option.isSome_none, Bool.false_eq_true, if_false, bind_run,
        hj.nameAt_visit hb hv ho]
    rw [hrun]
    refine Walks.single ((s1.advances hs).congr (by simp [Paints, hk, hm]))
      (made_of_var (by simp [hk]) (by simp [hk]) fun _ => ⟨hvar, fun _ => htitle.title hstands⟩)

theorem walks_placeAction (hj : job.Valid) (hb : job.Consistent b) (hs : job.Settled b)
    (hc : job.Located c b) {frame : Frame} (hw : c.widget = some frame) (hv : v ∈ job.visits)
    (hk : v.node.kind = .actionRef) :
    job.Walks [v] b (placeAction job.plan c v.node b).2 := by
  let x := v.node.stringAttribute "name"
  have hwidget := (hc.widget frame hw).1
  have hplaces : x ≠ "separator" → job.Places x := fun hx => ⟨hx, v, hj.visits v hv, hk, rfl⟩
  have hdone : ∀ {b'}, job.Writes True b b' → (x ≠ "separator" → job.LacksMenu x →
      ∃ s ∈ b'.delayedActions, x ∈ s.uses) → job.Walks [v] b b' := by
    intro b' s1 hplaced
    have hno : v.node.kind.isObject ≠ true := by simp [hk, Kind.isObject]
    refine Walks.single ((s1.advances hs).congr (by simp [Paints, hk])) ⟨fun ho => absurd ho hno,
      fun ho => absurd ho hno, fun h => ?_, fun _ _ h => ?_, fun _ => hplaced⟩
    · exact absurd h.2.1 (by simp [hk])
    · exact absurd h.1 (by simp [hk])
  obtain ⟨m, hrun, hplacing⟩ := placeAction_run job.plan c v.node b
  rw [hrun]
  cases hplacing with
  | outside hno => cases hw.symm.trans hno
  | pass hpass =>
    refine hdone (.refl hb) fun _ hlacks => ?_
    -- An action that lacks its menu has a name and is no group, so it is not passed over.
    obtain ⟨e, he, hname, hrole⟩ := hj.lacksMenu_entry hlacks
    rcases hpass with hempty | hgroup
    · exact absurd (hname.trans hempty) (hj.filled e he)
    · obtain ⟨e', he', hsame⟩ := List.any_eq_true.mp hgroup
      rw [Bool.and_eq_true, beq_iff_eq, beq_iff_eq] at hsame
      have heq := hj.distinct.eq_of_name he (hb.entries ▸ he') (hname.trans hsame.2.symm)
      rw [heq, hsame.1] at hrole
      cases hrole
  | separator hw' hx =>
    obtain rfl := Option.some.inj (hw.symm.trans hw')
    refine hdone (writes_delayAction hb _ rfl ?_) fun h => absurd hx h
    simpa [Stmt.uses] using .inl hwidget
  | @action w e hw' hx he hknown =>
    obtain rfl := Option.some.inj (hw.symm.trans hw')
    obtain ⟨entry, hentry, hname⟩ := entry_of_known hb.distinct hknown
    have hstmt : (Stmt.call frame.name "addAction" [e]).uses = [frame.name, x] := by
      rcases he with rfl | rfl <;> rfl
    have huses : ∀ y ∈ (Stmt.call frame.name "addAction" [e]).uses,
        y ∈ job.vars b ∨ job.Placeable y := by
      rw [hstmt]
      simpa using ⟨.inl hwidget, .inr ⟨hplaces hx, entry, hb.entries ▸ hentry, hname⟩⟩
    exact hdone (writes_delayAction hb _ rfl huses) fun _ _ => ⟨_,
      List.mem_append_right _ (List.mem_singleton.mpr rfl), by simp [hstmt]⟩
  | undeclared hno =>
    refine hdone (writes_note hb _) fun _ hlacks => ?_
    have hknown : b.session.table.actionIsMenu? x = some true := by
      rw [← hlacks.1, Table.actionIsMenu?, Table.actionIsMenu?, hb.entries]
    cases hknown.symm.trans hno

end Job

end FormCompiler.Setup
