import FormCompiler.Proofs.Setup.Assembly
import FormCompiler.Proofs.Setup.Parents

/-!
# How layouts are met

The code of a layout depends on more than its node: on what encloses it, and on where the builder
says that it stands, which is what the last widget or layout before it has left there.  `Job.Met`
says that of a layout and the code that is written for it; it holds of every layout of a form
(`met_each`).
-/

namespace FormCompiler.Setup

open Code Document Naming
open Node (walkFields fieldsVisits)

variable {plan : Plan} {c inner : Context} {v : Visit} {b b' : Builder}

/-! ## Steps -/

theorem admitted_distances (hb : Admitted plan b) (name className : String) (c : Context)
    (ps : List Property) (place m : MarginType) :
    Admitted plan { b with
      setup := b.setup ++
        [.create name className (if c.layout.isSome then [] else [.ref (c.ownerName plan)])] ++
        layoutDistances plan ps place c.layout.isSome name,
      marginType := m } := by
  refine { hb with setup := (hb.setup.followed ?_).followed ?_ }
  · split <;> simp
  · exact admits_tunes (Job.tunes_layoutDistances _ _ _ _ _)

/-- The statement that names an object comes before those that set its properties. -/
theorem writeProperties_names {plan : Plan} {b : Builder} (hb : Admitted plan b)
    (name className : String) (isLayout : Bool) (ps : List Property) :
    b.setup ++ [.setObjectName name] <+:
      (writeProperties plan ⟨name, className, true, isLayout⟩ ps b).2.setup := by
  have hrest : Piece plan false (setAll plan ⟨name, className, true, isLayout⟩ ps) Anything :=
    (detail_setAll _ ps).piece
  have hemit : Piece plan false (emit (.setObjectName name)) Anything :=
    .emit (by simp [Stmt.setObjectName])
  rw [writeProperties_eq]
  exact hrest.grows (hemit.admitted hb).1

namespace Job

variable {job : Job} {n : Node} {path : List Nat}

/-! ## What is left for the next layout -/

/-- Where the next layout is taken to stand after a node, if it was taken to stand at `m`. -/
def placeAfter (job : Job) (m : MarginType) (v : Visit) : MarginType :=
  match v.node.kind with
  | .widget => if (job.form.node.enclosing? .widget v.path).isSome then .child else .topLevel
  | .layout => .subLayout
  | _ => m

/-- Nodes with where a layout is taken to stand when they are met. -/
def placed (job : Job) (m : MarginType) : List Visit → List (Visit × MarginType)
  | [] => []
  | v :: l => (v, m) :: job.placed (job.placeAfter m v) l

theorem placed_append (m : MarginType) (l l' : List Visit) :
    job.placed m (l ++ l') = job.placed m l ++ job.placed (l.foldl job.placeAfter m) l' := by
  induction l generalizing m with
  | nil => rfl
  | cons v l ih => rw [List.cons_append, placed, placed, ih, List.foldl_cons, List.cons_append]

theorem placed_others (job : Job) (m : MarginType) {l : List Visit}
    (h : ∀ v ∈ l, v.node.kind ≠ .widget ∧ v.node.kind ≠ .layout) :
    l.foldl job.placeAfter m = m ∧ ∀ p ∈ job.placed m l, p.1.node.kind ≠ .layout := by
  induction l with
  | nil => exact ⟨rfl, fun p hp => by cases hp⟩
  | cons v l ih =>
    obtain ⟨hw, hl⟩ := h v (List.mem_cons_self ..)
    have hsame : job.placeAfter m v = m := by
      cases hk : v.node.kind <;> first | exact absurd hk hw | exact absurd hk hl | skip
      all_goals simp only [placeAfter, hk]
    obtain ⟨hleft, hrest⟩ := ih fun u hu => h u (List.mem_cons_of_mem v hu)
    rw [List.foldl_cons, placed, hsame]
    refine ⟨hleft, fun p hp => ?_⟩
    rcases List.mem_cons.mp hp with rfl | hp
    · exact hl
    · exact hrest p hp

/-- Nothing but the names of objects is kept in view. -/
def unseen (job : Job) : job.View Unit := ⟨fun _ => none, fun _ _ => rfl, fun _ _ _ _ _ _ => rfl⟩

section Steps

variable (hj : job.Named) (hb : job.unseen.Sound b) (hadm : Admitted job.plan b)
  (hc : job.Encloses c v.path) (hv : v ∈ job.form.visits)

include hj hb hadm hc hv

theorem enter_place :
    ((walker job.plan).enter c v b).2.marginType = job.placeAfter b.marginType v := by
  cases hk : v.node.kind with
  | widget =>
    have hwithin : c.widget.isSome = (job.form.node.enclosing? .widget v.path).isSome := by
      rw [hc.widget]
      exact Option.isSome_map
    have hname := hj.nameAt hb hv (by rw [hk]; rfl)
    have hcreated := ((piece_createWidget c (job.name v) v.node).admitted hadm).1
    have hequip : Piece job.plan false (equip job.plan c (job.name v) v.node) Anything :=
      piece_equip ..
    have hequipped := (hequip.admitted hcreated).1
    simp only [walker, hk, map_run, enterWidget_run job.plan c hname, placeAfter, ← hwithin]
    exact ((piece_adorn c (job.name v) v.node).steady hequipped).trans
      (hequip.steady hcreated)
  | layout =>
    have hname := hj.nameAt hb hv (by rw [hk]; rfl)
    simp only [walker, hk, map_run, enterLayout_run, hname, placeAfter]
    exact (piece_writeProperties _ _).steady (admitted_distances hadm ..)
  | actionGroup =>
    simp only [walker, hk, map_run, placeAfter]
    exact (piece_enterActionGroup c v).steady hadm
  | spacer =>
    simp only [walker, hk, bind_run, pure_run, placeAfter]
    exact (piece_writeSpacer v).steady hadm
  | action =>
    simp only [walker, hk, bind_run, pure_run, placeAfter]
    exact (piece_writeAction c v).steady hadm
  | actionRef =>
    simp only [walker, hk, bind_run, pure_run, placeAfter]
    exact (piece_placeAction c v.node).steady hadm
  | _ => simp only [walker, hk, pure_run, placeAfter]

end Steps

/-! ## The walk -/

/-- A layout was met where `m` says that it stands, and the code that was written for it is part of
the code. -/
def Met (job : Job) (v : Visit) (m : MarginType) (setup : List Stmt) : Prop :=
  ∃ c b, job.Encloses c v.path ∧ Admitted job.plan b ∧
    nameAt job.plan v b = (job.name v, b) ∧ b.marginType = m ∧
    (enterLayout job.plan c v b).2.setup <+: setup

/-- Wherever a node stands in the form, its layouts are met as the nodes before them say. -/
def Meets (job : Job) (n : Node) : Prop :=
  ∀ path c b, job.unseen.Sound b → Admitted job.plan b → job.Encloses c path →
    job.form.node.nodeAt? path = some n →
    let b' := (n.walk (walker job.plan) c path b).2
    b'.marginType = (n.visits path).foldl job.placeAfter b.marginType ∧
      ∀ p ∈ job.placed b.marginType (n.visits path), p.1.node.kind = .layout →
        job.Met p.1 p.2 b'.setup

theorem Met.mono {m : MarginType} {setup setup' : List Stmt} (h : job.Met v m setup)
    (hfirst : setup <+: setup') : job.Met v m setup' := by
  obtain ⟨c, b, hc, hadm, hname, hm, hcode⟩ := h
  exact ⟨c, b, hc, hadm, hname, hm, hcode.trans hfirst⟩

theorem meets_fields (hj : job.Named) (hb : job.unseen.Sound b) (hadm : Admitted job.plan b)
    (hc : ∀ j, job.Encloses c (j :: path)) (fs : List Field)
    (hfs : ∀ f ∈ fs, ∀ m, f.node? = some m → Node.All Node.WellFormed m ∧ job.Meets m) (i : Nat)
    (hplace : job.form.node.FieldsAt path i fs) :
    let b' := (walkFields (walker job.plan) c path i fs b).2
    b'.marginType = (fieldsVisits path i fs).foldl job.placeAfter b.marginType ∧
      ∀ p ∈ job.placed b.marginType (fieldsVisits path i fs), p.1.node.kind = .layout →
        job.Met p.1 p.2 b'.setup := by
  induction fs generalizing i b with
  | nil => exact ⟨rfl, fun p hp => by cases hp⟩
  | cons f fs ih =>
    have hothers : ∀ g ∈ fs, ∀ m, g.node? = some m → Node.All Node.WellFormed m ∧ job.Meets m :=
      fun g hg => hfs g (List.mem_cons_of_mem f hg)
    cases f with
    | value tag s => exact ih hb hadm hothers (i + 1) hplace.tail
    | node tag m =>
      obtain ⟨hwell, hmeets⟩ := hfs _ (List.mem_cons_self ..) m rfl
      have hm := hplace.head
      obtain ⟨hleft, hmet⟩ := hmeets (i :: path) c b hb hadm (hc i) hm
      have hsound := (assembled hj m hwell (i :: path) c b hb (hc i) hm).sound
      have hadm' := ((piece_walk m c (i :: path)).admitted hadm).1
      obtain ⟨hleft', hmet'⟩ := ih hsound hadm' hothers (i + 1) hplace.tail
      have hgrows := (piece_walkFields fs c path (i + 1)).grows hadm'
      rw [hleft] at hleft' hmet'
      simp only [fieldsVisits, List.foldl_append, placed_append, Node.fieldVisits]
      refine ⟨hleft', fun p hp hk => ?_⟩
      rcases List.mem_append.mp hp with hp | hp
      · exact (hmet p hp hk).mono hgrows
      · exact hmet' p hp hk

/-- By induction over the tree, like the assembly. -/
theorem meets (hj : job.Named) (n : Node) (hwell : Node.All Node.WellFormed n) : job.Meets n := by
  induction n using Node.induction with
  | h n ih =>
    intro path c b hb hadm hc hn
    have hv : (⟨path, n⟩ : Visit) ∈ job.form.visits :=
      (Node.mem_visits job.form.node ⟨path, n⟩).mpr hn
    obtain ⟨s1, hholds, hinner⟩ := adds_enter (v := ⟨path, n⟩) hj hb hc hv
    have hleft := enter_place (v := ⟨path, n⟩) hj hb hadm hc hv
    have hadm1 := ((piece_enter c ⟨path, n⟩).admitted hadm).1
    have hvisits := Form.visits_eq ⟨path, n⟩
    dsimp only at hvisits
    rw [hvisits, List.foldl_cons, placed]
    cases henter : (walker job.plan).enter c ⟨path, n⟩ b with
    | mk entered b1 =>
      rw [henter] at s1 hholds hinner hleft hadm1
      cases entered with
      | none =>
        -- Below a node that is not entered there is no widget and no layout.
        have hbarren : ∀ v ∈ n.descendants path,
            v.node.kind ≠ .widget ∧ v.node.kind ≠ .layout := by
          intro v hv
          obtain ⟨hb, -⟩ := (Node.forall_fieldsVisits Node.Barren n.fields path 0).mpr
            (Node.below_barren n hwell hholds.symm) v hv
          refine ⟨fun h => ?_, fun h => ?_⟩ <;> rw [h] at hb <;> cases hb
        obtain ⟨hsame, hnone⟩ := job.placed_others
          (job.placeAfter b.marginType ⟨path, n⟩) hbarren
        rw [Node.walk_outside henter, hsame]
        refine ⟨hleft, fun p hp hk => ?_⟩
        rcases List.mem_cons.mp hp with rfl | hp
        · rw [show n.kind = _ from hk] at hholds
          cases hholds
        · exact absurd hk (hnone p hp)
      | some inner =>
        obtain ⟨hleft2, hmet⟩ := meets_fields hj s1.sound hadm1 (hinner inner rfl).1 n.fields
          (fun f hf m hm => ⟨hwell.below f hf m hm, ih f hf m hm (hwell.below f hf m hm)⟩) 0
          (Node.fieldsAt_all hn)
        have hfields : Piece job.plan true (walkFields (walker job.plan) inner path 0 n.fields) _ :=
          piece_walkFields n.fields inner path 0
        have hadm2 := (hfields.admitted hadm1).1
        have hleave : Piece job.plan false ((walker job.plan).leave c inner ⟨path, n⟩) Anything :=
          piece_leave c inner ⟨path, n⟩
        have hgrows := hleave.grows hadm2
        rw [hleft] at hleft2 hmet
        rw [walk_entered hwell henter]
        refine ⟨(hleave.steady hadm2).trans hleft2, fun p hp hk => ?_⟩
        rcases List.mem_cons.mp hp with rfl | hp
        · refine ⟨c, b, hc, hadm, hj.nameAt hb hv (by rw [hk]; rfl), rfl, ?_⟩
          have hcode : (enterLayout job.plan c ⟨path, n⟩ b).2 = b1 := by
            have h := congrArg Prod.snd henter
            simpa only [walker, show n.kind = _ from hk, map_run] using h
          rw [hcode]
          exact (hfields.grows hadm1).trans hgrows
        · exact (hmet p hp hk).mono hgrows

/-- Every layout of a form is met where the nodes before it say. -/
theorem met_each (hj : job.Named) (hwell : Node.All Node.WellFormed job.form.node) {s : Session}
    (hs : s.table = job.table) {l r : List Visit} (hvisits : job.form.visits = l ++ v :: r)
    (hk : v.node.kind = .layout) :
    job.Met v (l.foldl job.placeAfter .topLevel) (built job.plan job.form s).setup := by
  have hadm := admitted_start job.plan s
  obtain ⟨-, hmet⟩ := meets hj job.form.node hwell [] {} { session := s }
    (hj.sound_start job.unseen hs) hadm Encloses.top rfl
  have hlink := (piece_link job.form).grows ((piece_walk job.form.node {} []).admitted hadm).1
  refine (hmet (v, l.foldl job.placeAfter .topLevel) ?_ hk).mono hlink
  rw [← Form.visits, hvisits, placed_append]
  exact List.mem_append_right _ (List.mem_cons_self ..)

/-- A layout is created without a parent if and only if it is an item of another. -/
theorem holder_isSome {x className : String} {args : List Expr} (hk : v.node.kind = .layout)
    (h : job.creation v = [.create x className args]) :
    (job.holder? v.path).isSome = args.isEmpty := by
  simp only [creation, creationIn, hk, List.cons.injEq, Stmt.create.injEq, and_true] at h
  rw [← h.2.2, contextAt, Option.isSome_map]
  cases (job.holder? v.path).isSome <;> rfl

/-- A layout that was met is created, its distances are set, and then it gets its name. -/
theorem Met.code {m : MarginType} {setup : List Stmt} (h : job.Met v m setup)
    (hk : v.node.kind = .layout)
    (hwithin : (job.form.node.enclosing? .widget v.path).isSome = true) :
    let ps := v.node.properties
    let place := if (Property.find? ps "margin").isSome then m else .unset
    ∃ before after, setup = before ++ job.creation v ++
      layoutDistances job.plan ps place (job.holder? v.path).isSome (job.name v) ++
        .setObjectName (job.name v) :: after := by
  intro ps place
  obtain ⟨c, b, hc, hadm, hname, rfl, hcode⟩ := h
  have hinForm : c.widget.isSome = true := by
    rw [hc.widget]
    exact Option.isSome_map.trans hwithin
  have hitem : c.layout.isSome = (job.holder? v.path).isSome := by
    rw [hc.layout]
    exact Option.isSome_map
  simp only [enterLayout_run, hname, Context.target, hinForm] at hcode
  obtain ⟨after, hafter⟩ := (writeProperties_names (admitted_distances hadm ..) ..).trans hcode
  refine ⟨b.setup, after, ?_⟩
  rw [← hafter, ← hitem, hc.creation]
  simp only [creationIn, hk, List.append_assoc, List.singleton_append, place, ps]

section Form

variable (hk : job.form.node.kind = .ui) (hw : Node.All Node.WellFormed job.form.node)

include hk hw

theorem layout_holder (hv : v ∈ job.form.visits) (hlayout : v.node.kind = .layout) :
    ∃ i, ∃ u ∈ job.form.visits, v.path = i :: u.path ∧
      (u.node.kind = .widget ∨ u.node.kind = .layoutItem) ∧
      (job.holder? v.path).isSome = (u.node.kind == .layoutItem) := by
  obtain ⟨i, u, hu, hpath, hcases⟩ := layout_creation hk hw hv hlayout
  refine ⟨i, u, hu, hpath, ?_⟩
  rcases hcases with ⟨hkind, hcreation⟩ | ⟨hkind, hcreation⟩
  · exact ⟨.inl hkind, by rw [holder_isSome hlayout hcreation, hkind]; rfl⟩
  · exact ⟨.inr hkind, by rw [holder_isSome hlayout hcreation, hkind]; rfl⟩

/-- The code of a layout in a form, up to its name. -/
theorem layout_code (hj : job.Named) (hroot : job.form.rootVisit? = some job.root) {s : Session}
    (hs : s.table = job.table) {l r : List Visit} (hvisits : job.form.visits = l ++ v :: r)
    (hlayout : v.node.kind = .layout) :
    let setup := (built job.plan job.form s).setup
    let ps := v.node.properties
    let place := if (Property.find? ps "margin").isSome then l.foldl job.placeAfter .topLevel
      else .unset
    ∃ create before after, creationsOf (job.name v) setup = [create] ∧
      setup = before ++ create ::
        layoutDistances job.plan ps place (job.holder? v.path).isSome (job.name v) ++
          .setObjectName (job.name v) :: after := by
  intro setup ps place
  have hv : v ∈ job.form.visits := by rw [hvisits]; simp
  obtain ⟨u, hu⟩ := enclosing_widget hk hw hroot hv (by rw [hlayout]; rfl)
    (path_ne_root hk hw hroot hv (by simp [hlayout]))
  obtain ⟨before, after, hcode⟩ :=
    (met_each hj hw hs hvisits hlayout).code hlayout (by rw [hu]; rfl)
  obtain ⟨create, hcreation⟩ : ∃ create, job.creation v = [create] := by
    simp only [creation, creationIn, hlayout]
    exact ⟨_, rfl⟩
  have honce := created_once (built_outline hj hw hs).1 hj hk hw hroot hv hcreation
  rw [hcreation, List.append_assoc before, List.singleton_append] at hcode
  exact ⟨create, before, after, honce, hcode⟩

end Form

end Job

end FormCompiler.Setup
