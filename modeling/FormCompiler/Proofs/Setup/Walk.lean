import FormCompiler.Proofs.Setup.Steps

/-!
# Everything is made in the walk

The step lemmas put together by induction over the tree: a walk from any node below the root widget
meets every object below it (`walkable`), and so does the walk over a whole form (`walks_form`).
-/

namespace FormCompiler.Setup

open Code Document Naming
open Node (walkFields fieldsVisits)

namespace Job

/-- Wherever a node stands below the root widget, a walk makes all that is in it. -/
def Walkable (job : Job) (n : Node) : Prop :=
  ∀ path c b frame, job.Consistent b → job.Settled b → job.Located c b → c.widget = some frame →
    (∀ v ∈ n.visits path, v ∈ job.visits ∧ v.path ≠ job.root.path) →
    job.Walks (n.visits path) b (n.walk (walker job.plan) c path b).2

variable {job : Job} {c inner : Context} {frame : Frame} {b b' : Builder} {v : Visit}

/-! ## Fields -/

theorem walks_fields (hs : job.Settled b) (hb : job.Consistent b) (hc : job.Located c b)
    (hw : c.widget = some frame) (fs : List Field)
    (hfs : ∀ f ∈ fs, ∀ m, f.node? = some m → job.Walkable m) (path : List Nat) (i : Nat)
    (hv : ∀ v ∈ fieldsVisits path i fs, v ∈ job.visits ∧ v.path ≠ job.root.path) :
    job.Walks (fieldsVisits path i fs) b (walkFields (walker job.plan) c path i fs b).2 := by
  induction fs generalizing i b with
  | nil => exact Walks.nil hb hs
  | cons f fs ih =>
    have hhere : job.Walks (Node.fieldVisits (i :: path) f) b
        (Node.walkField (walker job.plan) c (i :: path) f b).2 := by
      cases f with
      | value tag s => exact Walks.nil hb hs
      | node tag n =>
        refine hfs _ (List.mem_cons_self ..) n rfl (i :: path) c b frame hb hs hc hw fun v hm => ?_
        exact hv v (List.mem_append_left _ hm)
    refine hhere.append (ih hhere.advances.settled hhere.advances.consistent
      (hc.mono hhere.advances.setup) (fun g hg => hfs g (List.mem_cons_of_mem _ hg)) (i + 1) ?_)
    exact fun v hm => hv v (List.mem_append_right _ hm)

/-- A node that is entered and what is below it. -/
theorem walks_inside (h : job.Walks [v] b b') (hinner : job.Located inner b')
    (hw : inner.widget = some frame)
    (hfields : ∀ f ∈ v.node.fields, ∀ m, f.node? = some m → job.Walkable m)
    (hbelow : ∀ w ∈ v.node.descendants v.path, w ∈ job.visits ∧ w.path ≠ job.root.path) :
    job.Walks (v.node.visits v.path) b
      (walkFields (walker job.plan) inner v.path 0 v.node.fields b').2 := by
  rw [Form.visits_eq]
  exact h.append (walks_fields h.advances.settled h.advances.consistent hinner hw v.node.fields
    hfields v.path 0 hbelow)

/-- A node that is not entered; what is below it has nothing to do with objects. -/
theorem walks_outside (hwell : Node.All Node.WellFormed v.node)
    (hholds : v.node.kind.holdsObjects = false) (h : job.Walks [v] b b') :
    job.Walks (v.node.visits v.path) b b' := by
  rw [Form.visits_eq]
  refine h.append (Walks.idle h.advances.consistent h.advances.settled ?_)
  have hbarren := (Node.forall_fieldsVisits Node.Barren v.node.fields v.path 0).mpr
    (Node.below_barren v.node hwell hholds)
  exact fun w hw => (hbarren w hw).2

/-! ## Nodes -/

theorem walks_widget (hj : job.Valid) (hb : job.Consistent b) (hs : job.Settled b)
    (hc : job.Located c b) (hv : v ∈ job.visits) (hk : v.node.kind = .widget)
    (hstands : job.Stands c v) (hwell : Node.All Node.WellFormed v.node)
    (hfields : ∀ f ∈ v.node.fields, ∀ m, f.node? = some m → job.Walkable m)
    (hbelow : ∀ w ∈ v.node.descendants v.path, w ∈ job.visits ∧ w.path ≠ job.root.path) :
    job.Walks (v.node.visits v.path) b (v.node.walk (walker job.plan) c v.path b).2 := by
  obtain ⟨s1, hwidget, hlayout, hgroup⟩ := walks_enterWidget hj hb hs hc hv hk hstands
  have henter : (walker job.plan).enter c v b =
      (some (enterWidget job.plan c v b).1, (enterWidget job.plan c v b).2) := by
    simp only [walker, hk, map_run]
  obtain ⟨o, ho, _⟩ := object_of_widget hk
  have hvar := (s1.made v (List.mem_singleton.mpr rfl)).object (by rw [hk]; rfl) (by simp [hk])
  have hinner : job.Located (enterWidget job.plan c v b).1 (enterWidget job.plan c v b).2 := by
    refine ⟨fun fr hfr => ?_, fun fr hfr => ?_, fun g hg => ?_⟩
    · obtain rfl := Option.some.inj (hwidget.symm.trans hfr)
      exact ⟨hvar, hj.name_ne_empty hv ho⟩
    · rw [hlayout] at hfr
      cases hfr
    · exact (hc.mono s1.advances.setup).group g (hgroup ▸ hg)
  have s2 := walks_inside s1 hinner hwidget hfields hbelow
  rw [walk_entered hwell henter]
  simp only [walker, hk]
  refine s2.followed (writes_leaveWidget hj s2.advances.consistent (hc.mono s2.advances.setup)
    _ _ ?_)
  rw [Context.widgetName, hwidget]
  exact (s2.made v (by rw [Form.visits_eq]; exact List.mem_cons_self ..)).object
    (by rw [hk]; rfl) (by simp [hk])

theorem stands_inside (hw : c.widget = some frame) (hpath : v.path ≠ job.root.path) :
    job.Stands c v := by
  simpa [Stands, hw] using hpath

section Below

variable (hj : job.Valid) (hb : job.Consistent b) (hs : job.Settled b) (hc : job.Located c b)
  (hw : c.widget = some frame) (hwell : Node.All Node.WellFormed v.node)
  (hfields : ∀ f ∈ v.node.fields, ∀ m, f.node? = some m → job.Walkable m)
  (hbelow : ∀ w ∈ v.node.descendants v.path, w ∈ job.visits ∧ w.path ≠ job.root.path)

include hj hb hs hc hw hwell hfields hbelow

theorem walks_item (hk : v.node.kind = .layoutItem) :
    job.Walks (v.node.visits v.path) b (v.node.walk (walker job.plan) c v.path b).2 := by
  have henter : (walker job.plan).enter c v b = (some c, b) := by simp only [walker, hk, pure_run]
  have s1 : job.Walks [v] b b := Walks.idle hb hs (by simp [hk, Kind.isObject])
  have s2 := walks_inside s1 hc hw hfields hbelow
  rw [walk_entered hwell henter]
  simp only [walker, hk]
  refine s2.followed (writes_leaveItem hj s2.advances.consistent (hc.mono s2.advances.setup) hk
    fun tag n hpayload hobject haction => ?_)
  have hmem : (⟨0 :: v.path, n⟩ : Visit) ∈ v.node.descendants v.path := by
    obtain ⟨fs, hfs⟩ := List.head?_eq_some_iff.mp hpayload
    rw [Node.descendants, hfs]
    refine List.mem_append_left _ ?_
    rw [Node.fieldVisits, Form.visits_eq ⟨0 :: v.path, n⟩]
    exact List.mem_cons_self ..
  refine ⟨(hbelow _ hmem).1, (s2.made _ ?_).object hobject fun h => absurd h haction⟩
  rw [Form.visits_eq]
  exact List.mem_cons_of_mem _ hmem

variable (hv : v ∈ job.visits) (hpath : v.path ≠ job.root.path)

include hv hpath

theorem walks_layout (hk : v.node.kind = .layout) :
    job.Walks (v.node.visits v.path) b (v.node.walk (walker job.plan) c v.path b).2 := by
  obtain ⟨s1, hcontext, hvar, htitle⟩ := writes_enterLayout hj hb hc hv hk
  have htitle := htitle.title (stands_inside hw hpath)
  have henter : (walker job.plan).enter c v b =
      (some { c with layout := some ⟨job.name v, v.node.stringAttribute "class"⟩ },
        (enterLayout job.plan c v b).2) := by
    simp only [walker, hk, map_run, hcontext]
  have s1 : job.Walks [v] b (enterLayout job.plan c v b).2 :=
    Walks.single (s1.advances hs)
      (made_of_var (by simp [hk]) (by simp [hk]) fun _ => ⟨hvar, fun _ => htitle⟩)
  have hc1 := hc.mono s1.advances.setup
  have hinner : job.Located { c with layout := some ⟨job.name v, v.node.stringAttribute "class"⟩ }
      (enterLayout job.plan c v b).2 :=
    ⟨hc1.widget, fun fr hfr => Option.some.inj hfr ▸ hvar, hc1.group⟩
  have s2 := walks_inside s1 hinner hw hfields hbelow
  rw [walk_entered hwell henter]
  simp only [walker, hk]
  refine s2.followed (writes_calls s2.advances.consistent ((tunes_leaveLayout _ _).calls ?_))
  exact (s2.made v (by rw [Form.visits_eq]; exact List.mem_cons_self ..)).object
    (by rw [hk]; rfl) (by simp [hk])

theorem walks_actionGroup (hk : v.node.kind = .actionGroup) :
    job.Walks (v.node.visits v.path) b (v.node.walk (walker job.plan) c v.path b).2 := by
  obtain ⟨s1, hcontext⟩ := walks_enterActionGroup hj hb hs hc hv hk
    (stands_inside hw hpath)
  have henter : (walker job.plan).enter c v b =
      (some { c with group := some (job.name v) }, (enterActionGroup job.plan c v b).2) := by
    simp only [walker, hk, map_run, hcontext]
  have hvar := (s1.made v (List.mem_singleton.mpr rfl)).object (by rw [hk]; rfl) (by simp [hk])
  have hc1 := hc.mono s1.advances.setup
  have hinner : job.Located { c with group := some (job.name v) }
      (enterActionGroup job.plan c v b).2 :=
    ⟨hc1.widget, hc1.layout, fun g hg => Option.some.inj hg ▸ hvar⟩
  have s2 := walks_inside s1 hinner hw hfields hbelow
  rw [walk_entered hwell henter]
  simp only [walker, hk]
  exact s2

end Below

/-- By induction over the tree, with one case for each kind of node that the walk knows. -/
theorem walkable (hj : job.Valid) (n : Node) (hwell : Node.All Node.WellFormed n) :
    job.Walkable n := by
  induction n using Node.induction with
  | h n ih =>
    intro path c b frame hb hs hc hw hvisits
    have hfields : ∀ f ∈ n.fields, ∀ m, f.node? = some m → job.Walkable m :=
      fun f hf m hm => ih f hf m hm (hwell.below f hf m hm)
    rw [Form.visits_eq ⟨path, n⟩] at hvisits
    obtain ⟨⟨hv, hpath⟩, hbelow⟩ := List.forall_mem_cons.mp hvisits
    have hleaf : ∀ {b'}, (walker job.plan).enter c ⟨path, n⟩ b = (none, b') →
        n.kind.holdsObjects = false → job.Walks [⟨path, n⟩] b b' →
        job.Walks (n.visits path) b (n.walk (walker job.plan) c path b).2 := by
      intro b' henter hholds h
      rw [Node.walk_outside henter]
      exact walks_outside (v := ⟨path, n⟩) hwell hholds h
    cases hk : n.kind with
    | widget =>
      exact walks_widget hj hb hs hc hv hk (stands_inside hw hpath) hwell hfields hbelow
    | layout => exact walks_layout hj hb hs hc hw hwell hfields hbelow hv hpath hk
    | layoutItem => exact walks_item (v := ⟨path, n⟩) hj hb hs hc hw hwell hfields hbelow hk
    | actionGroup => exact walks_actionGroup hj hb hs hc hw hwell hfields hbelow hv hpath hk
    | spacer =>
      obtain ⟨s1, hvar⟩ := writes_writeSpacer hj hb hv hk
      refine hleaf (by simp only [walker, hk]; rfl) (by rw [hk]; rfl) (Walks.single ?_ ?_)
      · exact (s1.advances hs).congr (by simp [Paints, hk])
      · exact made_of_var (by simp [hk]) (by simp [hk]) fun _ => ⟨hvar, fun hno => absurd hk hno⟩
    | action =>
      exact hleaf (by simp only [walker, hk]; rfl) (by rw [hk]; rfl)
        (walks_writeAction hj hb hs hc hv hk (stands_inside hw hpath))
    | actionRef =>
      exact hleaf (by simp only [walker, hk]; rfl) (by rw [hk]; rfl)
        (walks_placeAction hj hb hs hc hw hv hk)
    | ui =>
      have s1 : job.Walks [⟨path, n⟩] b b := Walks.idle hb hs (by simp [hk, Kind.isObject])
      have henter : (walker job.plan).enter c ⟨path, n⟩ b = (some c, b) := by
        simp only [walker, hk, pure_run]
      rw [walk_entered hwell henter]
      simp only [walker, hk]
      exact walks_inside s1 hc hw hfields hbelow
    | _ =>
      exact hleaf (by simp only [walker, hk]; rfl) (by rw [hk]; rfl)
        (Walks.idle hb hs (by simp [hk, Kind.isObject]))

/-! ## Forms -/

theorem walk_barren (plan : Plan) (path : List Nat) {n : Node} (hn : n.Barren) :
    (n.walk (walker plan) c path b).2 = b := by
  obtain ⟨hholds, hobject, href⟩ := hn
  refine Node.walk_outside ?_
  cases hk : n.kind <;> simp only [hk, Kind.holdsObjects, Kind.isObject, ne_eq, not_true_eq_false,
    reduceCtorEq] at hholds hobject href <;> simp only [walker, hk, pure_run]

theorem walkFields_barren (plan : Plan) (path : List Nat) (i : Nat) (fs : List Field)
    (hfs : ∀ g ∈ fs, ∀ m, g.node? = some m → Node.All Node.Barren m) :
    (walkFields (walker plan) c path i fs b).2 = b := by
  induction fs generalizing i with
  | nil => rfl
  | cons f fs ih =>
    have hhere : (Node.walkField (walker plan) c (i :: path) f b).2 = b := by
      cases f with
      | value tag s => rfl
      | node tag n =>
        exact walk_barren plan (i :: path) (hfs _ (List.mem_cons_self ..) n rfl).here
    have hrest := ih (i + 1) fun g hg => hfs g (List.mem_cons_of_mem _ hg)
    calc (walkFields (walker plan) c path i (f :: fs) b).2
        = (walkFields (walker plan) c path (i + 1) fs
            (Node.walkField (walker plan) c (i :: path) f b).2).2 := rfl
      _ = b := by rw [hhere, hrest]

theorem walks_form (hj : job.Valid) (hk : job.form.node.kind = .ui)
    (hwell : Node.All Node.WellFormed job.form.node)
    (hroot : job.form.rootVisit? = some job.root) (hb : job.Consistent b) (hs : job.Settled b) :
    job.Walks job.visits b (job.form.node.walk (walker job.plan) {} [] b).2 := by
  obtain ⟨before, after, hr⟩ := Form.rooted job.form job.root hk hwell.here hroot
  have hbarren := hr.barren hk hwell
  have hmem : Field.node "widget" job.root.node ∈ job.form.node.fields := by
    rw [hr.fields]
    exact List.mem_append_right _ (List.mem_cons_self ..)
  have hrootwell := hwell.below _ hmem job.root.node rfl
  have s1 : job.Walks (job.root.node.visits job.root.path) b
      (job.root.node.walk (walker job.plan) {} job.root.path b).2 := by
    refine walks_widget hj hb hs ⟨by simp, by simp, by simp⟩ (List.mem_cons_self ..) hj.root rfl
      hrootwell (fun f hf m hm => walkable hj m (hrootwell.below f hf m hm)) fun w hw => ?_
    exact ⟨List.mem_cons_of_mem _ hw, Node.path_of_descendant hw⟩
  rw [Form.visits_eq] at s1
  have henter : (walker job.plan).enter {} ⟨[], job.form.node⟩ b = (some {}, b) := by
    simp only [walker, hk, pure_run]
  have hleave : ∀ b, ((walker job.plan).leave {} {} ⟨[], job.form.node⟩ b).2 = b := by
    intro b
    simp only [walker, hk, pure_run]
  have hfields : (walkFields (walker job.plan) {} [] 0 job.form.node.fields b).2 =
      (job.root.node.walk (walker job.plan) {} job.root.path b).2 := by
    rw [hr.fields, Node.walkFields_append, Nat.zero_add,
      walkFields_barren job.plan [] 0 before fun g hg => hbarren g (List.mem_append_left _ hg)]
    have hafter := walkFields_barren (c := {})
      (b := (job.root.node.walk (walker job.plan) {} job.root.path b).2) job.plan []
      (before.length + 1) after fun g hg => hbarren g (List.mem_append_right _ hg)
    rw [hr.path] at hafter ⊢
    exact hafter
  rw [walk_entered hwell henter, hleave, hfields]
  exact s1

end Job

end FormCompiler.Setup
