import FormCompiler.Proofs.Setup.Visits

/-!
# Objects are created before they are used

For each kind of object: what its code refers to exists where it is met, given that what encloses it
does, and its own variable exists afterwards.
-/

namespace FormCompiler.Setup

open Code Document Naming

namespace Job

/-- What encloses an object exists. -/
structure Located (job : Job) (c : Context) (b : Builder) : Prop where
  widget : ∀ frame, c.widget = some frame → frame.name ∈ job.vars b ∧ frame.name ≠ ""
  layout : ∀ frame, c.layout = some frame → frame.name ∈ job.vars b
  group : ∀ name, c.group = some name → name ∈ job.vars b

variable {job : Job} {c : Context} {b b' : Builder} {v : Visit}

namespace Located

theorem mono (h : job.Located c b) (hb : b.setup <+: b'.setup) : job.Located c b' :=
  ⟨fun fr hfr => (h.widget fr hfr).imp_left (vars_mono hb),
    fun fr hfr => vars_mono hb (h.layout fr hfr), fun g hg => vars_mono hb (h.group g hg)⟩

theorem owner (h : job.Located c b) : c.ownerName job.plan ∈ job.vars b := by
  unfold Context.ownerName
  cases hw : c.widget with
  | none => exact mainForm_mem job b
  | some frame => exact (h.widget frame hw).1

theorem actionOwner (h : job.Located c b) : c.actionOwner job.plan ∈ job.vars b := by
  unfold Context.actionOwner
  cases hg : c.group with
  | none => exact h.owner
  | some name => exact h.group name hg

end Located

/-! ## Layouts -/

theorem tunes_distanceStmts (form : LayoutDefault) (d : Distance) (name : String)
    (value : Option Int) (usual : Int) (ignoresDefault : Bool) :
    Tunes name (distanceStmts form d name value usual ignoresDefault) := by
  have hset (n : Int) : Tunes name [d.setTo name n] := by
    cases d <;> simp [Tunes, Stmt.Tunes, Distance.setTo, Expr.int, isFilling]
  have hfallback : Tunes name (if ignoresDefault then [] else defaultStmts form d name) := by
    unfold defaultStmts
    split
    · simp [Tunes]
    · split
      · cases d <;> simp [Tunes, Stmt.Tunes, Distance.setBy, isFilling]
      · exact hset _
      · simp [Tunes]
  unfold distanceStmts
  cases value with
  | none => exact hfallback
  | some n =>
    dsimp only
    split
    · exact hfallback
    · split
      · exact forall_mem_guarded _ (fun _ => trivial) trivial (hset n)
      · exact hset n

theorem tunes_layoutDistances (plan : Plan) (ps : List Property) (m : MarginType) (isItem : Bool)
    (name : String) : Tunes name (layoutDistances plan ps m isItem name) :=
  List.forall_mem_append.mpr ⟨tunes_distanceStmts _ _ _ _ _ _, tunes_distanceStmts _ _ _ _ _ _⟩

theorem painted_missingMargins (plan : Plan) (className : String) (isLayout : Bool)
    (ps : List Property) (c : Prop) [Decidable c] :
    Painted plan className isLayout (ps ++ if c then missingMargins ps else []) ↔
      Painted plan className isLayout ps := by
  have hextra : ∀ p ∈ (if c then missingMargins ps else []), p.value.brushes = [] := by
    intro p hp
    split at hp
    · obtain ⟨side, _, rfl⟩ := List.mem_map.mp hp
      rfl
    · cases hp
  refine ⟨fun h p hp => h p (List.mem_append_left _ hp), fun h p hp => ?_⟩
  rcases List.mem_append.mp hp with hp | hp
  · exact h p hp
  · simp [hextra p hp]

/-- An object has the title that belongs to its place: only the one outside all others may have had
a name before. -/
def TitledIn (job : Job) (c : Context) (v : Visit) (b : Builder) : Prop :=
  (c.target (job.name v) "" false).title ∈ b.setup

/-- A layout is created and tuned, and then it gets its properties and the margins that it lacks. -/
theorem enterLayout_steps (plan : Plan) (c : Context) {v : Visit} {b : Builder} {name : String}
    (hname : nameAt plan v b = (name, b)) :
    ∃ l, Tunes name l ∧ enterLayout plan c v b =
      ({ c with layout := some ⟨name, v.node.stringAttribute "class"⟩ },
        (writeProperties plan (c.target name (v.node.stringAttribute "class") true)
          (v.node.properties ++
            if c.bareLayout = some v.path then missingMargins v.node.properties else [])
          { (emitAll l (emit (.create name (v.node.stringAttribute "class")
              (if c.layout.isSome then [] else [.ref (c.ownerName plan)])) b).2).2 with
            marginType := .subLayout }).2) := by
  let place := if (Property.find? v.node.properties "margin").isSome then b.marginType else .unset
  refine ⟨_, tunes_layoutDistances plan v.node.properties place c.layout.isSome name, ?_⟩
  simp only [enterLayout_run, hname]
  rfl

theorem writes_enterLayout (hj : job.Valid) (hb : job.Consistent b) (hc : job.Located c b)
    (hv : v ∈ job.visits) (hk : v.node.kind = .layout) :
    job.Writes (job.Paints v) b (enterLayout job.plan c v b).2 ∧
      (enterLayout job.plan c v b).1 =
        { c with layout := some ⟨job.name v, v.node.stringAttribute "class"⟩ } ∧
      job.name v ∈ job.vars (enterLayout job.plan c v b).2 ∧
      job.TitledIn c v (enterLayout job.plan c v b).2 := by
  obtain ⟨o, ho, hrole⟩ := created_object (n := v.node) (by rw [hk]; rfl) (by simp [hk])
  have hrun := hj.nameAt_visit hb hv ho
  have hname := hj.assignable_object hb hv ho hrole
  let create : Stmt := .create (job.name v) (v.node.stringAttribute "class")
    (if c.layout.isSome then [] else [.ref (c.ownerName job.plan)])
  have s1 : job.Writes True b (emit create b).2 := by
    refine writes_create hb create rfl hname ?_
    simp only [create, Stmt.uses]
    split
    · simp
    · simpa [Expr.uses] using hc.owner
  have hvar : job.name v ∈ job.vars (emit create b).2 :=
    assigned_emit (by simp [create, Stmt.assigns])
  obtain ⟨l, hl, hsteps⟩ := enterLayout_steps job.plan c hrun
  have s2 := writes_calls s1.consistent (hl.calls hvar)
  have s3 : job.Writes True _ { (emitAll _ (emit create b).2).2 with marginType := .subLayout } :=
    writes_nothing s2.consistent rfl rfl rfl rfl rfl rfl rfl
  have hvar3 := s3.mem_vars (s2.mem_vars hvar)
  obtain ⟨s4, htitle⟩ := writes_writeProperties s3.consistent
    (c.target (job.name v) (v.node.stringAttribute "class") true)
    (v.node.properties ++
      if c.bareLayout = some v.path then missingMargins v.node.properties else []) hvar3
  rw [hsteps]
  refine ⟨?_, rfl, s4.mem_vars hvar3, htitle⟩
  refine (((s1.andThen s2).andThen s3).andThen s4).congr ?_
  simp only [Paints, hk]
  exact painted_missingMargins ..

theorem tunes_leaveLayout (name : String) (n : Node) : Tunes name (leaveLayout name n) := by
  have hmethods : ∀ m ∈ listSetters, isFilling m.2 [] = false ∧ m.2 ≠ "setItemText" := by decide
  intro s hs
  obtain ⟨m, hm, hs⟩ := List.mem_flatMap.mp hs
  simp only [listStmts] at hs
  split at hs
  · cases hs
  · obtain ⟨⟨value, i⟩, _, hs⟩ := List.mem_filterMap.mp hs
    dsimp only at hs
    split at hs
    · cases hs
    · obtain rfl := Option.some.inj hs
      obtain ⟨hfill, hne⟩ := hmethods m hm
      simpa [Stmt.Tunes, Expr.int, isFilling, isNumbered, hne] using hfill

/-! ## Items and spacers -/

theorem itemPlacement_uses (layoutClass itemName : String) (item : Node) :
    (itemPlacement layoutClass itemName item).2.flatMap Expr.uses = [itemName] := by
  unfold itemPlacement
  split
  · dsimp only
    split <;> simp [Expr.uses]
  · split
    · simp [Expr.uses]
    · dsimp only
      split <;> simp [Expr.uses]

theorem writes_leaveItem (hj : job.Valid) (hb : job.Consistent b) (hc : job.Located c b)
    (hk : v.node.kind = .layoutItem)
    (hitem : ∀ tag n, v.node.payload? = some (.node tag n) → n.kind.isObject = true →
      n.kind ≠ .action →
      (⟨0 :: v.path, n⟩ : Visit) ∈ job.visits ∧ job.name ⟨0 :: v.path, n⟩ ∈ job.vars b) :
    job.Writes True b (leaveItem job.plan c v b).2 := by
  have hinstalls := leaveItem_installs job.plan c hk
  generalize leaveItem job.plan c v = m at hinstalls ⊢
  cases hinstalls with
  | idle => exact .refl hb
  | @install layout noun tag n hl hn hpayload hobject haction =>
    obtain ⟨hvisit, hvar⟩ := hitem tag n hpayload hobject haction
    obtain ⟨o, ho⟩ := Option.isSome_iff_exists.mp ((Node.object_isSome n).trans hobject)
    rw [bind_run, hj.nameAt_visit hb hvisit ho]
    refine writes_calls hb ?_
    refine Calls.cons rfl (by simp [Stmt.uses]) (Calls.cons rfl ?_
      (Calls.cons rfl (by simp [Stmt.uses]) Calls.nil))
    rw [Stmt.uses, itemPlacement_uses]
    simpa using ⟨hc.layout layout hl, hvar⟩

theorem spacerArgs_uses (ps : List Property) : (spacerArgs ps).flatMap Expr.uses = [] := by
  unfold spacerArgs
  rw [List.flatMap_append]
  refine List.append_eq_nil_iff.mpr ⟨?_, ?_⟩
  · split <;> rfl
  · split <;> rfl

theorem writes_writeSpacer (hj : job.Valid) (hb : job.Consistent b) (hv : v ∈ job.visits)
    (hk : v.node.kind = .spacer) :
    job.Writes True b (writeSpacer job.plan v b).2 ∧
      job.name v ∈ job.vars (writeSpacer job.plan v b).2 := by
  obtain ⟨o, ho, hrole⟩ := created_object (n := v.node) (by rw [hk]; rfl) (by simp [hk])
  simp only [writeSpacer, bind_run, hj.nameAt_visit hb hv ho]
  refine ⟨writes_create hb _ rfl (hj.assignable_object hb hv ho hrole) ?_,
    assigned_emit (by simp [Stmt.assigns])⟩
  simp [Stmt.uses, spacerArgs_uses]

end Job

end FormCompiler.Setup
