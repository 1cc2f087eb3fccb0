import FormCompiler.Proofs.Setup.Widgets

/-!
# Button groups

A button group is created with its first button, so its code stands before that of every button that
joins it later.  `Job.Settled` remembers that code and what it needs: if the setup function is in
order so far, the properties of the groups created so far can be set.  `Job.Advances` is
`Job.Writes` for pieces that may create groups.
-/

namespace FormCompiler.Setup

open Code Document Naming

namespace Job

/-- The statement that creates a declared group. -/
def groupStmt (job : Job) (g : Group) : Stmt :=
  .create g.name "QButtonGroup" [.ref job.plan.mainForm]

/-- The declared groups in `buttonGroups` have been created, and their code needs nothing more. -/
def Settled (job : Job) (b : Builder) : Prop :=
  ∀ d g, job.table.group? d = some g → g.name ∈ b.buttonGroups →
    job.groupStmt g ∈ b.setup ∧
      (job.Ordered b → Painted job.plan "QButtonGroup" false g.node.properties)

/-- A piece of the setup that may create button groups. -/
structure Advances (job : Job) (T : Prop) (b b' : Builder) : Prop where
  consistent : job.Consistent b'
  settled : job.Settled b'
  ordered : job.Ordered b' ↔ job.Ordered b ∧ T
  setup : b.setup <+: b'.setup
  actions : b.delayedActions ⊆ b'.delayedActions

variable {job : Job} {c : Context} {T T' : Prop} {b b' b'' : Builder} {v : Visit}

theorem Writes.advances (h : job.Writes T b b') (hs : job.Settled b) : job.Advances T b b' := by
  refine ⟨h.consistent, fun d g hg hmem => ?_, h.ordered, h.setup, h.actions⟩
  obtain ⟨hcreated, hpainted⟩ := hs d g hg (h.buttonGroups ▸ hmem)
  exact ⟨h.setup.subset hcreated, fun ho => hpainted (h.ordered.mp ho).1⟩

namespace Advances

theorem refl (hb : job.Consistent b) (hs : job.Settled b) : job.Advances True b b :=
  (Writes.refl hb).advances hs

theorem trans (h : job.Advances T b b') (h' : job.Advances T' b' b'') :
    job.Advances (T ∧ T') b b'' :=
  ⟨h'.consistent, h'.settled, by rw [h'.ordered, h.ordered, and_assoc], h.setup.trans h'.setup,
    fun _ hs => h'.actions (h.actions hs)⟩

theorem congr (h : job.Advances T b b') (ht : T ↔ T') : job.Advances T' b b' :=
  ⟨h.consistent, h.settled, by rw [h.ordered, ht], h.setup, h.actions⟩

theorem andThen (h : job.Advances True b b') (h' : job.Advances T b' b'') :
    job.Advances T b b'' :=
  (h.trans h').congr (by simp)

theorem followed (h : job.Advances T b b') (h' : job.Writes True b' b'') : job.Advances T b b'' :=
  (h.trans (h'.advances h.settled)).congr (by simp)

theorem mem_vars (h : job.Advances T b b') {x : String} (hx : x ∈ job.vars b) : x ∈ job.vars b' :=
  vars_mono h.setup hx

end Advances

/-! ## Creating a group -/

/-- A group of a table that knows more than the one in use. -/
structure Joined (job : Job) (b : Builder) (t : Table) (d : String) (g : Group) : Prop where
  distinct : t.Distinct
  grows : b.session.table.Extends t
  entries : t.entries = b.session.table.entries
  group : t.group? d = some g
  groups : ∀ d' g', t.group? d' = some g' → b.session.table.group? d' = some g' ∨ d' = d
  assignable : ¬ job.Missing g.name

/-- The state once a group is known under its name: it exists, and nothing else changes. -/
theorem Consistent.joined {s : Session} {d : String} {g : Group} (hb : job.Consistent b)
    (h : job.Joined b s.table d g) (l : List Stmt) (names : List String)
    (hl : assigned l ⊆ [g.name]) (hnames : names ⊆ g.name :: b.buttonGroups)
    (hmore : g.name :: b.buttonGroups ⊆ names)
    (hvar : g.name ∈ job.vars { b with setup := b.setup ++ l }) :
    job.Consistent { b with session := s, setup := b.setup ++ l, buttonGroups := names } := by
  have htaken : g.name ∈ s.table.taken :=
    h.distinct.taken _ (List.mem_append_right _ (List.mem_map_of_mem (Table.group_mem h.group).1))
  refine hb.grow (l := l) ?_
  constructor
  case setup => rfl
  case distinct => exact h.distinct
  case table => exact h.grows
  case entries => exact h.entries
  case groups =>
    intro d' g' hg'
    refine (h.groups d' g' hg').imp_right fun hd => ?_
    obtain rfl := Option.some.inj (h.group.symm.trans (hd ▸ hg'))
    exact hmore (List.mem_cons_self ..)
  case buttonGroups => exact fun x hx => hmore (List.mem_cons_of_mem _ hx)
  case names =>
    intro x hx
    rw [List.mem_singleton.mp (hl hx)]
    exact .inl ⟨htaken, h.assignable⟩
  case kept =>
    intro x hx
    rcases mem_kept.mp hx with hx | hx | hx
    · exact .inl (mem_kept.mpr (.inl hx))
    · rcases List.mem_cons.mp (hnames hx) with rfl | hx
      · exact .inr hvar
      · exact .inl (mem_kept.mpr (.inr (.inl hx)))
    · exact .inl (mem_kept.mpr (.inr (.inr hx)))
  case theme => exact .inl
  case delayed => exact fun _ => .inl
  case actions => exact fun _ => .inl

/-! ## Joining a group -/

theorem groupNodeIn_name {t : Table} (ht : t.Distinct) (d : String) :
    (groupNodeIn t d).stringAttribute "name" = d := by
  unfold groupNodeIn
  cases hg : t.group? d with
  | none => rfl
  | some g =>
    obtain ⟨hmem, hd⟩ := Table.group_mem hg
    exact (ht.declared g hmem).trans hd

theorem joined_group (hj : job.Valid) (hb : job.Consistent b) (hv : v ∈ job.form.visits)
    {d : String} (hjoins : Joins job.plan v d) :
    let r := b.session.table.nameOfGroup (groupNodeIn b.session.table d)
    ∃ g, job.Joined b r.2.1 d g ∧ g.name = r.1 := by
  intro r
  have hd := groupNodeIn_name hb.distinct d
  obtain ⟨hdistinct, hgrows, g, hg, hname⟩ :=
    Table.nameOfGroup_spec b.session.table (groupNodeIn b.session.table d) hb.distinct
  rw [hd] at hg
  have hentries := Table.nameOfGroup_entries b.session.table (groupNodeIn b.session.table d)
  refine ⟨g, ⟨hdistinct, hgrows, hentries, hg, fun d' g' hg' => ?_, ?_⟩, hname⟩
  · exact (Table.nameOfGroup_group hg').imp_right fun h => h.1.symm.trans hd
  · exact hj.group_not_missing hv hjoins hdistinct (hb.grows.trans hgrows)
      (hentries.trans hb.entries) hg

theorem painted_created (hb : job.Consistent b) {d : String}
    (hnew : ∀ g, b.session.table.group? d = some g → g.name ∉ b.buttonGroups) :
    Painted job.plan "QButtonGroup" false (groupNodeIn b.session.table d).properties ↔
      ∀ g, job.table.group? d = some g →
        Painted job.plan "QButtonGroup" false g.node.properties := by
  unfold groupNodeIn
  cases hg : b.session.table.group? d with
  | none =>
    refine iff_of_true (fun p hp => absurd hp List.not_mem_nil) fun g hg' => ?_
    rw [hb.grows.groups d g hg'] at hg
    cases hg
  | some g =>
    have hg' := (hb.groups d g hg).resolve_right (hnew g hg)
    rw [hg']
    simp

theorem eq_of_declared {t : Table} {d : String} {g g' : Group} (hb : job.Consistent b)
    (hg : job.Joined b t d g) (hg' : job.table.group? d = some g') : g' = g :=
  Option.some.inj ((hg.grows.groups d g' (hb.grows.groups d g' hg')).symm.trans hg.group)

section Enrolling

variable {d : String} {g : Group} {s : Session} (hb : job.Consistent b) (hs : job.Settled b)
  (hg : job.Joined b s.table d g)

include hb hs hg

theorem advances_known (hmem : g.name ∈ b.buttonGroups) :
    job.Advances (∀ g, job.table.group? d = some g →
      Painted job.plan "QButtonGroup" false g.node.properties) b { b with session := s } := by
  have hconsistent := hb.joined hg [] b.buttonGroups (by simp) (List.subset_cons_self ..)
    (List.cons_subset.mpr ⟨hmem, List.Subset.refl _⟩)
    (by rw [List.append_nil]; exact hb.group_mem hmem)
  rw [List.append_nil] at hconsistent
  refine ⟨hconsistent, hs, ⟨fun ho => ⟨ho, fun g' hg' => ?_⟩, And.left⟩, List.prefix_refl _,
    fun _ h => h⟩
  -- Its properties were set when it was created, before the code that is in order now.
  exact (hs d g' hg' (eq_of_declared hb hg hg' ▸ hmem)).2 ho

theorem advances_created {create : Stmt} (hassigns : create.assigns = [g.name])
    (huses : create.uses = [job.plan.mainForm])
    (hdeclared : job.table.group? d = some g → create = job.groupStmt g) {ps : List Property}
    (hps : Painted job.plan "QButtonGroup" false ps ↔ ∀ g, job.table.group? d = some g →
      Painted job.plan "QButtonGroup" false g.node.properties) :
    let b' := (writeProperties job.plan (c.target g.name "QButtonGroup" false) ps
      { b with session := s, setup := b.setup ++ [create],
               buttonGroups := g.name :: b.buttonGroups }).2
    job.Advances (∀ g, job.table.group? d = some g →
      Painted job.plan "QButtonGroup" false g.node.properties) b b' ∧ create ∈ b'.setup := by
  intro b'
  have hvar : g.name ∈ job.vars { b with setup := b.setup ++ [create] } :=
    assigned_emit (by rw [hassigns]; exact List.mem_singleton.mpr rfl)
  have hconsistent := hb.joined hg [create] (g.name :: b.buttonGroups)
    (by simp [hassigns]) (List.Subset.refl _) (List.Subset.refl _) hvar
  have hordered : job.Ordered
      { b with session := s, setup := b.setup ++ [create],
               buttonGroups := g.name :: b.buttonGroups } ↔ job.Ordered b := by
    refine (DefinitelyAssigned.append_iff [job.plan.mainForm] b.setup [create]).trans
      (and_iff_left (DefinitelyAssigned.of_known fun st hst x hx => ?_))
    rw [List.mem_singleton.mp hst, huses] at hx
    exact List.mem_append_left _ hx
  -- Until its properties are set the new group is not settled, so both steps are taken as one.
  obtain ⟨s1, -⟩ :=
    writes_writeProperties hconsistent (c.target g.name "QButtonGroup" false) ps hvar
  have hcreate := s1.setup.subset (List.mem_append_right b.setup (List.mem_singleton.mpr rfl))
  refine ⟨⟨s1.consistent, fun d' g' hg' hmem => ?_, ?_, ?_, s1.actions⟩, hcreate⟩
  · rw [s1.buttonGroups] at hmem
    rcases List.mem_cons.mp hmem with hname | hmem
    · have hknown := hg.grows.groups d' g' (hb.grows.groups d' g' hg')
      obtain rfl := hg.distinct.group_name hknown hg.group hname
      obtain rfl := Option.some.inj (hknown.symm.trans hg.group)
      exact ⟨hdeclared hg' ▸ hcreate, fun ho => hps.mp (s1.ordered.mp ho).2 g' hg'⟩
    · obtain ⟨hcreated, hpainted⟩ := hs d' g' hg' hmem
      refine ⟨s1.setup.subset (List.mem_append_left _ hcreated), fun ho => ?_⟩
      exact hpainted (hordered.mp (s1.ordered.mp ho).1)
  · rw [s1.ordered, hordered, ← hps]
    exact Iff.rfl
  · exact (List.prefix_append _ _).trans s1.setup

end Enrolling

/-- A declared group exists and has a button. -/
structure Enrolled (job : Job) (g : Group) (name : String) (b : Builder) : Prop where
  created : job.groupStmt g ∈ b.setup
  added : .call g.name "addButton" [.ref name] ∈ b.setup

theorem Enrolled.mono {g : Group} {name : String} (h : job.Enrolled g name b)
    (hb : b.setup <+: b'.setup) : job.Enrolled g name b' :=
  ⟨hb.subset h.created, hb.subset h.added⟩

theorem Enrolled.mem_vars {g : Group} {name : String} (h : job.Enrolled g name b) :
    g.name ∈ job.vars b :=
  List.mem_append_right _ (List.mem_flatMap.mpr ⟨_, h.created, List.mem_singleton.mpr rfl⟩)

theorem advances_enrol (hj : job.Valid) (hb : job.Consistent b) (hs : job.Settled b)
    (hv : v ∈ job.form.visits) {d : String} (hjoins : Joins job.plan v d) (create : String → Stmt)
    (hassigns : ∀ x, (create x).assigns = [x]) (huses : ∀ x, (create x).uses = [job.plan.mainForm])
    (hdeclared : ∀ g, job.table.group? d = some g → create g.name = job.groupStmt g)
    {name : String} (hname : name ∈ job.vars b) :
    let b' := (enrol job.plan c name (groupNodeIn b.session.table d) create b).2
    job.Advances (∀ g, job.table.group? d = some g →
      Painted job.plan "QButtonGroup" false g.node.properties) b b' ∧
      ∀ g, job.table.group? d = some g → job.Enrolled g name b' := by
  obtain ⟨g, hg, hgname⟩ := joined_group hj hb hv hjoins
  have hadd : ∀ {T : Prop} {b' : Builder}, job.Advances T b b' → g.name ∈ job.vars b' →
      (∀ g', job.table.group? d = some g' → job.groupStmt g' ∈ b'.setup) →
      job.Advances T b (emit (.call g.name "addButton" [.ref name]) b').2 ∧
        ∀ g', job.table.group? d = some g' →
          job.Enrolled g' name (emit (.call g.name "addButton" [.ref name]) b').2 := by
    intro T b' s1 hvar hcreated
    have s2 := writes_call s1.consistent (.call g.name "addButton" [.ref name]) rfl
      (by simpa [Stmt.uses, Expr.uses] using ⟨hvar, s1.mem_vars hname⟩)
    refine ⟨s1.followed s2, fun g' hg' => ⟨s2.setup.subset (hcreated g' hg'), ?_⟩⟩
    rw [eq_of_declared hb hg hg']
    exact List.mem_append_right _ (List.mem_singleton.mpr rfl)
  dsimp only
  rw [enrol_run, ← hgname]
  split
  · rename_i hmem
    have hmem := List.contains_iff_mem.mp hmem
    exact hadd (advances_known (s := ⟨_, _⟩) hb hs hg hmem) (hb.group_mem hmem)
      fun g' hg' => (hs d g' hg' (eq_of_declared hb hg hg' ▸ hmem)).1
  · rename_i hnew
    have hnew : ∀ g', b.session.table.group? d = some g' → g'.name ∉ b.buttonGroups := by
      intro g' hg' hmem
      obtain rfl := Option.some.inj ((hg.grows.groups d g' hg').symm.trans hg.group)
      exact hnew (List.contains_iff_mem.mpr hmem)
    obtain ⟨s1, hcreate⟩ := advances_created (c := c) (s := ⟨_, _⟩) hb hs hg (hassigns g.name)
      (huses g.name) (hdeclared g) (painted_created hb hnew)
    refine hadd s1 ?_ fun g' hg' => ?_
    · exact List.mem_append_right _ (List.mem_flatMap.mpr
        ⟨_, hcreate, hassigns g.name ▸ List.mem_singleton.mpr rfl⟩)
    · obtain rfl := eq_of_declared hb hg hg'
      exact hdeclared g' hg' ▸ hcreate

theorem writes_announce (hb : job.Consistent b) (t : Table) (d : String) :
    job.Writes True b (announce job.plan t d b).2 := by
  simp only [announce, ite_run, pure_run]
  exact Writes.ite _ (fun _ => writes_note hb _) fun _ => .refl hb

theorem advances_joinButtonGroup (hj : job.Valid) (hb : job.Consistent b) (hs : job.Settled b)
    (hv : v ∈ job.form.visits) (hk : v.node.kind = .widget)
    (hbutton : job.plan.classes.isButton (v.node.stringAttribute "class") = true)
    {name : String} (hname : name ∈ job.vars b) :
    let b' := (joinButtonGroup job.plan c name v.node b).2
    job.Advances (∀ d, Joins job.plan v d → ∀ n, groupNode? job.form d = some n →
      Painted job.plan "QButtonGroup" false n.properties) b b' ∧
      ∀ d g, Joins job.plan v d → job.table.group? d = some g → job.Enrolled g name b' := by
  cases hd : groupOf? v.node with
  | none =>
    rw [joinButtonGroup_none job.plan hd]
    have hno : ∀ d, ¬ Joins job.plan v d := by
      rintro d ⟨_, _, h⟩
      rw [hd] at h
      cases h
    exact ⟨(Advances.refl hb hs).congr (iff_of_true trivial fun d h => absurd h (hno d)),
      fun d g h => absurd h (hno d)⟩
  | some d =>
    have hjoins : Joins job.plan v d := ⟨hk, hbutton, hd⟩
    have honly : ∀ {d'}, Joins job.plan v d' → d' = d :=
      fun h => Option.some.inj (h.2.2.symm.trans hd)
    have hpaint : (∀ g, job.table.group? d = some g →
        Painted job.plan "QButtonGroup" false g.node.properties) ↔
        ∀ d, Joins job.plan v d → ∀ n, groupNode? job.form d = some n →
          Painted job.plan "QButtonGroup" false n.properties := by
      refine ⟨fun h d' hd' n hn => ?_, fun h g hg => h d hjoins g.node (hj.nodes d g hg)⟩
      obtain rfl := honly hd'
      obtain ⟨g, hg, rfl⟩ := hj.group_of_node hn
      exact h g hg
    have s1 := writes_announce hb b.session.table d
    have hdeclared : ∀ g, job.table.group? d = some g → createGroup job.plan
        (announce job.plan b.session.table d b).2.session.table d g.name = job.groupStmt g := by
      intro g hg
      rw [createGroup, s1.consistent.grows.groups d g hg]
      rfl
    obtain ⟨s2, henrolled⟩ := advances_enrol (c := c) hj s1.consistent (s1.advances hs).settled hv
      hjoins _ (createGroup_assigns job.plan _ d) (createGroup_uses job.plan _ d) hdeclared
      (s1.mem_vars hname)
    dsimp only
    rw [joinButtonGroup_run job.plan hd]
    exact ⟨((s1.advances hs).andThen s2).congr hpaint,
      fun d' g' hd' hg' => henrolled g' (honly hd' ▸ hg')⟩

end Job

end FormCompiler.Setup
