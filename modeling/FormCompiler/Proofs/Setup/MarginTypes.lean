import FormCompiler.Proofs.Setup.Layouts

/-!
# Where a layout is taken to stand

The usual margin of a layout depends on where it stands: directly in the root widget, in another
widget, or in an item of another layout.  A layout is taken to stand where the last widget or layout
before it in the form says, and nothing restores what an enclosing one has said when a nested one is
left.  So the place is right exactly if the last widget or layout before says the same as the parent
of the layout (`margin_places`).
-/

namespace FormCompiler.Setup

open Code Document Naming

/-- Where a layout stands that a node holds: in the root widget, in another widget, or in what is no
widget. -/
def placeIn (root u : Visit) : MarginType :=
  if u.node.kind = .widget then if u.path = root.path then .topLevel else .child else .subLayout

/-- Whether a node is a widget or a layout. -/
def isFrame (v : Visit) : Bool := v.node.kind == .widget || v.node.kind == .layout

/-- Two nodes say the same if both or none are widgets, and both or none are the root. -/
theorem placeIn_eq_iff {root u w : Visit} (hroot : ∀ v ∈ [u, w], v.path = root.path →
    v.node.kind = .widget) :
    placeIn root u = placeIn root w ↔ (u.node.kind = .widget ↔ w.node.kind = .widget) ∧
      (u.path = root.path ↔ w.path = root.path) := by
  have hu := hroot u (by simp)
  have hw := hroot w (by simp)
  unfold placeIn
  by_cases hku : u.node.kind = .widget <;> by_cases hkw : w.node.kind = .widget <;>
    by_cases hpu : u.path = root.path <;> by_cases hpw : w.path = root.path <;>
    simp_all

section Root

variable {f : Form} {root v : Visit} (hk : f.node.kind = .ui)
  (hw : Node.All Node.WellFormed f.node) (hroot : f.rootVisit? = some root)

include hk hw hroot

theorem root_before {l r : List Visit} (hvisits : f.visits = l ++ v :: r)
    (hobject : v.node.kind.isObject = true) (hne : v.path ≠ root.path) : root ∈ l := by
  obtain ⟨l₀, r₀, hobjects, hothers⟩ := f.visits_objects root hk hw hroot
  rw [hvisits, List.append_assoc, List.cons_append] at hobjects
  have hother : v ≠ root := fun h => hne (congrArg Visit.path h)
  rcases List.append_eq_append_iff.mp hobjects with ⟨as, hl, has⟩ | ⟨bs, hl, hbs⟩
  · cases as with
    | nil => exact absurd (List.cons.inj has).1 hother
    | cons a as =>
      have hidle := (hothers v (by rw [hl, (List.cons.inj has).1]; simp)).1
      rw [hobject] at hidle
      cases hidle
  · cases bs with
    | nil => exact absurd (List.cons.inj hbs).1.symm hother
    | cons a bs =>
      rw [hl, (List.cons.inj hbs).1]
      exact List.mem_append_right _ (List.mem_cons_self ..)

end Root

namespace Job

variable {job : Job} {v : Visit}

section Root

variable (hk : job.form.node.kind = .ui) (hw : Node.All Node.WellFormed job.form.node)
  (hroot : job.form.rootVisit? = some job.root)

include hk hw hroot

theorem placeAfter_eq (m : MarginType) (hv : v ∈ job.form.visits) :
    job.placeAfter m v = if isFrame v then placeIn job.root v else m := by
  cases hkind : v.node.kind with
  | widget =>
    have hwithin := enclosing_root hk hw hroot hv (by rw [hkind]; rfl)
    simp only [placeAfter, isFrame, placeIn, hkind, hwithin]
    by_cases hpath : v.path = job.root.path <;> simp [hpath]
  | _ => simp [placeAfter, isFrame, placeIn, hkind]

/-- The last widget or layout says where the next layout is taken to stand. -/
theorem foldl_placeAfter (m : MarginType) {l : List Visit} (hl : ∀ v ∈ l, v ∈ job.form.visits) :
    l.foldl job.placeAfter m = ((l.filter isFrame).getLast?.map (placeIn job.root)).getD m := by
  induction l generalizing m with
  | nil => rfl
  | cons v l ih =>
    rw [List.foldl_cons, ih _ fun u hu => hl u (List.mem_cons_of_mem v hu),
      placeAfter_eq hk hw hroot m (hl v (List.mem_cons_self ..)), List.filter_cons]
    split
    · rw [List.getLast?_cons]
      cases (l.filter isFrame).getLast? <;> rfl
    · rfl

end Root

end Job

/-- A layout is taken to stand where the last widget or layout `p` before it says.  That is where it
stands if and only if `p` and its parent `u` are both widgets or both not, and both the root or both
not. -/
theorem margin_places (o : Options) (document : Nat) (f : Form) (root : Visit) (s : Session)
    (hk : f.node.kind = .ui) (hw : Node.All Node.WellFormed f.node)
    (hroot : f.rootVisit? = some root) (hd : s.table.Distinct) :
    let setup := ((Header.declaration o document f root).run s).1.functions.setup
    let job := jobOf o document f root s
    ∀ l v r, f.visits = l ++ v :: r → v.node.kind = .layout →
      let ps := v.node.properties
      ∃ p u i create, (l.filter isFrame).getLast? = some p ∧
        u ∈ f.visits ∧ v.path = i :: u.path ∧
        (u.node.kind = .widget ∨ u.node.kind = .layoutItem) ∧
        Job.creationsOf (job.name v) setup = [create] ∧
        (∃ before after, setup = before ++ create ::
          layoutDistances job.plan ps
            (if (Property.find? ps "margin").isSome then placeIn root p else .unset)
            (u.node.kind == .layoutItem) (job.name v) ++
          .setObjectName (job.name v) :: after) ∧
        (placeIn root p = placeIn root u ↔ (p.node.kind = .widget ↔ u.node.kind = .widget) ∧
          (p.path = root.path ↔ u.path = root.path)) := by
  intro setup job l v r hvisits hlayout ps
  have hj : job.Named := jobOf_named o document hk hw hroot hd
  have hsetup : setup = (built job.plan job.form (Header.naming document f root s).2).setup :=
    (declaration_built o document hk hw hroot hd).1
  have hv : v ∈ f.visits := by rw [hvisits]; simp
  have hbefore : ∀ w ∈ l, w ∈ f.visits := fun w hw => by rw [hvisits]; simp [hw]
  have hne : v.path ≠ root.path := path_ne_root hk hw hroot hv (by simp [hlayout])
  -- The root widget is before the layout, so there is a last widget or layout before it.
  obtain ⟨p, hp⟩ : ∃ p, (l.filter isFrame).getLast? = some p := by
    have hrootl : root ∈ l.filter isFrame :=
      List.mem_filter.mpr ⟨root_before hk hw hroot hvisits (by rw [hlayout]; rfl) hne,
        by simp [isFrame, root_kind hk hw hroot]⟩
    exact Option.isSome_iff_exists.mp (List.getLast?_isSome.mpr (List.ne_nil_of_mem hrootl))
  have hpmem : p ∈ f.visits := hbefore p (List.mem_filter.mp (List.mem_of_getLast? hp)).1
  obtain ⟨create, before, after, honce, hcode⟩ := @Job.layout_code v job hk hw hj hroot
    (Header.naming document f root s).2 rfl l r hvisits hlayout
  obtain ⟨i, u, hu, hpath, hkinds, hitem⟩ := @Job.layout_holder v job hk hw hv hlayout
  rw [← hsetup] at honce
  rw [← hsetup, @Job.foldl_placeAfter job hk hw hroot .topLevel l hbefore, hp, hitem] at hcode
  refine ⟨p, u, i, create, hp, hu, hpath, hkinds, honce, ⟨before, after, hcode⟩,
    placeIn_eq_iff fun w hmem hwpath => ?_⟩
  have hwmem : w ∈ f.visits := by
    simp only [List.mem_cons, List.not_mem_nil, or_false] at hmem
    rcases hmem with rfl | rfl
    · exact hpmem
    · exact hu
  rw [Node.eq_of_path hwmem (root_mem hk hw hroot) hwpath]
  exact root_kind hk hw hroot

/-- A form with a layout whose items are a label and another layout. -/
def crowded : Form :=
  ⟨.mk .ui []
    [.node "widget" (.mk .widget [("class", .string "QWidget"), ("name", .string "Form")]
      [.node "layout" (.mk .layout [("class", .string "QVBoxLayout"), ("name", .string "outer")]
        [.node "item" (.mk .layoutItem []
            [.node "widget" (.mk .widget
              [("class", .string "QLabel"), ("name", .string "label")] [] "")] ""),
          .node "item" (.mk .layoutItem []
            [.node "layout" (.mk .layout
              [("class", .string "QHBoxLayout"), ("name", .string "inner")]
              [.node "property" (.mk .property [("name", .string "margin")]
                [.value "number" (.int .int32 Number.IntType.int32.zero)] "")] "")] "")] "")] "")]
    ""⟩

/-- The inner layout is taken to stand in a widget, because a label comes before it; so its margin
is set on every platform, although it is the usual one of a layout in an item. -/
theorem margin_places_crowded :
    ∃ root l v r p u, crowded.rootVisit? = some root ∧ Node.All Node.WellFormed crowded.node ∧
      crowded.visits = l ++ v :: r ∧ v.node.kind = .layout ∧
      (l.filter isFrame).getLast? = some p ∧ u ∈ crowded.visits ∧ v.path = 0 :: u.path ∧
      let setup := ((Header.declaration {} 0 crowded root).run {}).1.functions.setup
      let job := jobOf {} 0 crowded root {}
      let ps := v.node.properties
      (∃ create before after, setup = before ++ create ::
        layoutDistances job.plan ps
          (if (Property.find? ps "margin").isSome then placeIn root p else .unset)
          (u.node.kind == .layoutItem) (job.name v) ++ .setObjectName (job.name v) :: after) ∧
      (Property.find? ps "margin").isSome = true ∧ job.name v = "inner" ∧
      placeIn root p = .child ∧ placeIn root u = .subLayout ∧
      layoutDistances job.plan ps .child true "inner" =
        [Distance.margin.setTo "inner" 0] ∧
      layoutDistances job.plan ps .subLayout true "inner" =
        guarded (some "Q_OS_DARWIN") [Distance.margin.setTo "inner" 0] := by
  have hw : Node.All Node.WellFormed crowded.node := by decide +kernel
  have hall := margin_places {} 0 crowded _ {} rfl hw rfl Table.distinct_empty
  obtain ⟨p, ⟨path, item⟩, i, create, hp, hu, hpath, -, -, hcode, -⟩ :=
    hall (crowded.visits.take 6) _ (crowded.visits.drop 7) rfl rfl
  obtain ⟨rfl, rfl⟩ := List.cons.inj hpath
  refine ⟨_, _, _, _, p, _, rfl, hw, rfl, rfl, hp, hu, rfl, ⟨create, hcode⟩, ?_⟩
  obtain rfl := Option.some.inj hp
  obtain rfl := Option.some.inj ((Node.mem_visits _ ⟨_, item⟩).mp hu)
  decide +kernel

end FormCompiler.Setup
