import FormCompiler.Proofs.Setup.Chains
import FormCompiler.Proofs.Setup.Creations

/-!
# Parents in the code are parents in the tree

Each object of a form is created once, and its parent in the code is what encloses it in the form
(`Job.Mirrored`).  A widget is created with the nearest enclosing widget, unless that is a container
and takes it later; a layout with the widget it stands in, unless it is an item of another layout;
actions and their groups with the innermost group of actions, or else the nearest widget.  What an
item holds is given to the layout of the item, once and after it was created.  Actions that stand
for a menu are not created at all.
-/

namespace FormCompiler

open Code Document Naming

/-! ## The schema -/

namespace Document

theorem Kind.layout_parents (k : Kind) :
    ∀ spec ∈ k.schema.children, layout ∈ spec.content.kind? → k = widget ∨ k = layoutItem := by
  cases k <;> decide +kernel

theorem Kind.item_parents (k : Kind) :
    ∀ spec ∈ k.schema.children, layoutItem ∈ spec.content.kind? → k = layout := by
  cases k <;> decide +kernel

theorem Kind.item_contents : ∀ spec ∈ layoutItem.schema.children,
    spec.content = .node widget ∨ spec.content = .node layout ∨ spec.content = .node spacer := by
  decide +kernel

namespace Form

variable {f : Form} {v : Visit}

/-- Every node but the form itself stands in another one, as the schema allows it. -/
theorem parent (hw : Node.All Node.WellFormed f.node) (hv : v ∈ f.visits)
    (hne : v.node.kind ≠ f.node.kind) :
    ∃ i, ∃ u ∈ f.visits, v.path = i :: u.path ∧
      ∃ spec ∈ u.node.kind.schema.children, v.node.kind ∈ spec.content.kind? := by
  obtain ⟨path, n⟩ := v
  have hn : f.node.nodeAt? path = some n := (Node.mem_visits f.node ⟨path, n⟩).mp hv
  cases path with
  | nil =>
    obtain rfl := Option.some.inj hn
    exact absurd rfl hne
  | cons i path =>
    obtain ⟨m, hm, hfield⟩ := Node.nodeAt_cons hn
    obtain ⟨g, hg, hgn⟩ := Option.bind_eq_some_iff.mp hfield
    have hmw : m.WellFormed := hw.nodeAt hm
    obtain ⟨spec, hspec, -, hkind⟩ :=
      Node.kind_of_fitting (hmw.fields g (List.mem_of_getElem? hg)) hgn
    exact ⟨i, ⟨path, m⟩, (Node.mem_visits f.node ⟨path, m⟩).mpr hm, rfl, spec, hspec, hkind⟩

theorem visits_distinct (f : Form) : f.visits.Nodup :=
  (List.pairwise_map.mp (Node.visits_nodup f.node [])).imp fun hne h => hne (congrArg Visit.path h)

end Form

end Document

namespace Setup

theorem flatMap_only {α β : Type} {f : α → List β} {l : List α} {a : α} (hl : l.Nodup)
    (ha : a ∈ l) (hothers : ∀ x ∈ l, x ≠ a → f x = []) : l.flatMap f = f a := by
  induction l with
  | nil => cases ha
  | cons x l ih =>
    obtain ⟨hx, hl⟩ := List.nodup_cons.mp hl
    have hnone : ∀ y ∈ l, y ≠ a → f y = [] := fun y hy => hothers y (List.mem_cons_of_mem x hy)
    rw [List.flatMap_cons]
    rcases List.mem_cons.mp ha with rfl | ha
    · have hrest : l.flatMap f = [] := List.flatMap_eq_nil_iff.mpr fun y hy =>
        hnone y hy fun h => hx (h ▸ hy)
      rw [hrest, List.append_nil]
    · rw [hothers x (List.mem_cons_self ..) fun h => hx (h ▸ ha), ih hl ha hnone, List.nil_append]

namespace Job

variable {job : Job} {v w : Visit} {s : Stmt}

/-! ## One statement for each object and item -/

/-- The statements that create an object under a name. -/
def creationsOf (x : String) (setup : List Stmt) : List Stmt :=
  setup.filter (·.constructs? == some x)

/-- Whether a statement gives an object to a layout of the form. -/
def gives (job : Job) (x : String) : Stmt → Bool
  | .call receiver _ args => job.isLayout receiver && args.contains (.ref x)
  | _ => false

theorem builds_of_constructs {x : String} (h : s.constructs? = some x)
    (hx : job.isObject x = true) : job.builds s = true := by
  cases s with
  | create y className args | createLocal y className args =>
    obtain rfl := Option.some.inj h
    exact hx
  | _ => cases h

theorem builds_of_gives {x : String} (h : job.gives x s = true) (hx : job.isObject x = true) :
    job.builds s = true := by
  cases s with
  | call receiver method args =>
    rw [gives, Bool.and_eq_true] at h
    rw [builds, h.1, Bool.true_and, List.any_eq_true]
    exact ⟨_, List.contains_iff_mem.mp h.2, hx⟩
  | _ => cases h

theorem mem_creation (hk : job.form.node.kind = .ui) (hw : Node.All Node.WellFormed job.form.node)
    (hroot : job.form.rootVisit? = some job.root) (hv : v ∈ job.form.visits)
    (h : s ∈ job.creation v) :
    v.node.kind.isObject = true ∧ ∃ className args, s = .create (job.name v) className args := by
  obtain ⟨args, hcreation⟩ := creation_eq hk hw hroot hv
  rw [hcreation] at h
  split at h
  · rename_i hcreated
    rw [isCreated, Bool.and_eq_true, Bool.and_eq_true] at hcreated
    exact ⟨hcreated.1.1, _, args, List.mem_singleton.mp h⟩
  · cases h

theorem item_path (h : item? v = some w) : w.path = 0 :: v.path := by
  obtain ⟨n, -, rfl⟩ := Option.map_eq_some_iff.mp h
  rfl

theorem mem_placement (h : s ∈ job.placement v) :
    ∃ w, item? v = some w ∧ w.node.kind.isObject = true ∧
      ∃ receiver method args, s = .call receiver method args ∧
        ∀ x, Expr.ref x ∈ args → x = job.name w := by
  unfold placement placementIn at h
  split at h
  · split at h
    · rename_i layout noun w _ hnoun hitem
      obtain ⟨tag, n, hpayload, hobject, -⟩ := payload_of_noun hnoun
      obtain rfl := Option.some.inj ((item_of_payload hpayload).symm.trans hitem)
      refine ⟨_, hitem, hobject, _, _, _, List.mem_singleton.mp h, fun x hx => ?_⟩
      have huse : x ∈ (itemPlacement layout.className _ v.node).2.flatMap Expr.uses :=
        List.mem_flatMap.mpr ⟨_, hx, List.mem_singleton.mpr rfl⟩
      rw [itemPlacement_uses] at huse
      exact List.mem_singleton.mp huse
    · cases h
  · cases h

section Once

variable {setup : List Stmt} (hsetup : setup.filter job.builds = job.outline [] job.form.node)

include hsetup

/-- A property that only one node's code has is had by that code only. -/
theorem only_at (p : Stmt → Bool) (hbuilds : ∀ s, p s = true → job.builds s = true)
    (hv : v ∈ job.form.visits)
    (hothers : ∀ u ∈ job.form.visits, u ≠ v → (job.creation u ++ job.placement u).filter p = [])
    (hhere : (job.creation v ++ job.placement v).filter p = [s]) : setup.filter p = [s] := by
  have hsame : setup.filter p = (job.outline [] job.form.node).filter p := by
    rw [← hsetup, List.filter_filter]
    refine List.filter_congr fun s _ => ?_
    cases hp : p s with
    | false => rfl
    | true => rw [hbuilds s hp]; rfl
  -- Up to the order the outline is the code of all nodes, and here only one of them is left.
  have hperm := (Node.tour_perm job.creation job.placement job.form.node []).filter p
  rw [← Form.visits, List.filter_flatMap, flatMap_only job.form.visits_distinct hv hothers,
    hhere] at hperm
  rw [hsame]
  exact List.perm_singleton.mp hperm

variable (hj : job.Named) (hk : job.form.node.kind = .ui)
  (hw : Node.All Node.WellFormed job.form.node) (hroot : job.form.rootVisit? = some job.root)

include hj hk hw hroot

theorem created_once (hv : v ∈ job.form.visits) (hs : job.creation v = [s]) :
    creationsOf (job.name v) setup = [s] := by
  obtain ⟨hobject, className, args, rfl⟩ :=
    mem_creation hk hw hroot hv (hs ▸ List.mem_singleton.mpr rfl)
  have hplacement : ∀ u, (job.placement u).filter (·.constructs? == some (job.name v)) = [] := by
    intro u
    rw [List.filter_eq_nil_iff]
    intro t ht
    obtain ⟨w, -, -, receiver, method, args, rfl, -⟩ := mem_placement ht
    simp [Stmt.constructs?]
  refine only_at hsetup _ (fun t ht => ?_) hv (fun u hu hne => ?_) ?_
  · exact builds_of_constructs (beq_iff_eq.mp ht) (hj.isObject_name hv hobject)
  · rw [List.filter_append, hplacement, List.append_nil, List.filter_eq_nil_iff]
    intro t ht hname
    obtain ⟨hobject', _, _, rfl⟩ := mem_creation hk hw hroot hu ht
    rw [Stmt.constructs?, beq_iff_eq, Option.some.injEq] at hname
    exact hne (hj.eq_of_name hu hobject' hv hobject hname)
  · rw [List.filter_append, hplacement, List.append_nil, hs,
      List.filter_cons_of_pos (by simp [Stmt.constructs?]), List.filter_nil]

theorem given_once (hv : v ∈ job.form.visits) (hitem : item? v = some w)
    (hobject : w.node.kind.isObject = true) (hs : job.placement v = [s])
    (hgives : job.gives (job.name w) s = true) : setup.filter (job.gives (job.name w)) = [s] := by
  have hcreation : ∀ u ∈ job.form.visits,
      (job.creation u).filter (job.gives (job.name w)) = [] := by
    intro u hu
    rw [List.filter_eq_nil_iff]
    intro t ht
    obtain ⟨-, className, args, rfl⟩ := mem_creation hk hw hroot hu ht
    exact Bool.false_ne_true
  refine only_at hsetup _ (fun t ht => ?_) hv (fun u hu hne => ?_) ?_
  · exact builds_of_gives ht (hj.isObject_name (item_mem hv hitem) hobject)
  · rw [List.filter_append, hcreation u hu, List.nil_append, List.filter_eq_nil_iff]
    intro t ht hgives
    obtain ⟨w', hitem', hobject', receiver, method, args, rfl, hargs⟩ := mem_placement ht
    rw [gives, Bool.and_eq_true] at hgives
    have hname := hargs (job.name w) (List.contains_iff_mem.mp hgives.2)
    -- The same object is held by the same item.
    obtain rfl := hj.eq_of_name (item_mem hv hitem) hobject (item_mem hu hitem') hobject' hname
    have hpath : 0 :: u.path = 0 :: v.path := (item_path hitem').symm.trans (item_path hitem)
    exact hne (Node.eq_of_path hu hv (List.cons.inj hpath).2)
  · rw [List.filter_append, hcreation v hv, List.nil_append, hs, List.filter_cons_of_pos hgives,
      List.filter_nil]

end Once

/-! ## Parents -/

/-- The owner of an action: the innermost group of actions around it, or else the nearest widget. -/
def actionOwner? (job : Job) (path : List Nat) : Option Visit :=
  (job.form.node.enclosing? .actionGroup path).or (job.form.node.enclosing? .widget path)

/-- Setup code whose objects have the parents that enclose them in the form. -/
structure Mirrored (job : Job) (setup : List Stmt) : Prop where
  widgets : ∀ v ∈ job.form.visits, v.node.kind = .widget → v.path ≠ job.root.path →
    ∃ u, job.form.node.enclosing? .widget v.path = some u ∧
      creationsOf (job.name v) setup =
        [.create (job.name v) (Classes.Custom.realClass (v.node.stringAttribute "class"))
          (if job.plan.classes.isContainer (u.node.stringAttribute "class") then []
            else [.ref (job.name u)])]
  layouts : ∀ v ∈ job.form.visits, v.node.kind = .layout →
    ∃ i, ∃ u ∈ job.form.visits, v.path = i :: u.path ∧
      (u.node.kind = .widget ∧ creationsOf (job.name v) setup =
          [.create (job.name v) (v.node.stringAttribute "class") [.ref (job.name u)]] ∨
        u.node.kind = .layoutItem ∧ creationsOf (job.name v) setup =
          [.create (job.name v) (v.node.stringAttribute "class") []])
  actions : ∀ v ∈ job.form.visits, v.node.kind = .action → standsForMenu v.node = false →
    ∃ u, job.actionOwner? v.path = some u ∧
      creationsOf (job.name v) setup = [.create (job.name v) "QAction" [.ref (job.name u)]]
  actionGroups : ∀ v ∈ job.form.visits, v.node.kind = .actionGroup →
    ∃ u, job.actionOwner? v.path = some u ∧
      creationsOf (job.name v) setup = [.create (job.name v) "QActionGroup" [.ref (job.name u)]]
  /-- An item that is not empty stands in a layout, to which the object it holds is given. -/
  items : ∀ v ∈ job.form.visits, v.node.kind = .layoutItem → v.node.fields ≠ [] →
    ∃ i, ∃ u ∈ job.form.visits, v.path = i :: u.path ∧ u.node.kind = .layout ∧
      ∃ w, item? v = some w ∧ ∃ create verb noun args,
        creationsOf (job.name w) setup = [create] ∧
        setup.filter (job.gives (job.name w)) = [.call (job.name u) (verb ++ noun) args] ∧
        verb ∈ ["add", "set"] ∧ itemNoun? v.node = some noun ∧
        [create, .call (job.name u) (verb ++ noun) args].Sublist setup

theorem item_held (hwell : v.node.WellFormed) (hitem : v.node.kind = .layoutItem)
    (hfields : v.node.fields ≠ []) :
    ∃ w noun, item? v = some w ∧ itemNoun? v.node = some noun ∧
      w.node.kind.isObject = true ∧ standsForMenu w.node = false := by
  obtain ⟨f, fs, hfs⟩ := List.exists_cons_of_ne_nil hfields
  have hpayload : v.node.payload? = some f := by rw [Node.payload?, hfs]; rfl
  obtain ⟨spec, hspec, hcontent⟩ := hwell.fields f (hfs ▸ List.mem_cons_self ..)
  rw [hitem] at hspec
  have hkinds := Kind.item_contents spec (List.mem_of_find?_eq_some hspec)
  rw [← hcontent] at hkinds
  have hnoun : (itemNoun? v.node).isSome = true := by
    cases f with
    | value tag x => simp [Field.content] at hkinds
    | node tag n =>
      simp only [Field.content, Content.node.injEq] at hkinds
      simp only [itemNoun?, hpayload, Option.bind_some, Field.node?]
      rcases hkinds with h | h | h <;> rw [h] <;> rfl
  obtain ⟨noun, hnoun⟩ := Option.isSome_iff_exists.mp hnoun
  obtain ⟨tag, n, hpayload, hobject, haction⟩ := payload_of_noun hnoun
  exact ⟨_, noun, item_of_payload hpayload, hnoun, hobject, by simp [standsForMenu, haction]⟩

theorem placement_eq {u : Visit} {noun : String} (hitem : v.node.kind = .layoutItem)
    (hholder : job.holder? v.path = some u) (hw : item? v = some w)
    (hnoun : itemNoun? v.node = some noun) :
    let r := itemPlacement (u.node.stringAttribute "class") (job.name w) v.node
    job.placement v = [.call (job.name u) (r.1 ++ noun) r.2] := by
  simp only [placement, placementIn, hitem, contextAt, hholder, hw, hnoun]
  rfl

theorem itemPlacement_verb (layoutClass itemName : String) (item : Node) :
    (itemPlacement layoutClass itemName item).1 ∈ ["add", "set"] := by
  unfold itemPlacement
  split
  · simp
  · split <;> simp

section Layouts

variable (hk : job.form.node.kind = .ui) (hw : Node.All Node.WellFormed job.form.node)

include hk hw

theorem item_holder (hv : v ∈ job.form.visits) (hitem : v.node.kind = .layoutItem) :
    ∃ i, ∃ u ∈ job.form.visits, v.path = i :: u.path ∧ u.node.kind = .layout ∧
      job.holder? v.path = some u := by
  obtain ⟨i, u, hu, hpath, spec, hspec, hkind⟩ := Form.parent hw hv (by simp [hitem, hk])
  rw [hitem] at hkind
  have hparent := u.node.kind.item_parents spec hspec hkind
  refine ⟨i, u, hu, hpath, hparent, ?_⟩
  rw [hpath]
  exact holder_here i ((Node.mem_visits job.form.node u).mp hu) hparent

theorem layout_creation (hv : v ∈ job.form.visits) (hlayout : v.node.kind = .layout) :
    ∃ i, ∃ u ∈ job.form.visits, v.path = i :: u.path ∧
      (u.node.kind = .widget ∧ job.creation v =
          [.create (job.name v) (v.node.stringAttribute "class") [.ref (job.name u)]] ∨
        u.node.kind = .layoutItem ∧ job.creation v =
          [.create (job.name v) (v.node.stringAttribute "class") []]) := by
  obtain ⟨i, u, hu, hpath, spec, hspec, hkind⟩ := Form.parent hw hv (by simp [hlayout, hk])
  rw [hlayout] at hkind
  refine ⟨i, u, hu, hpath, ?_⟩
  have hnode := (Node.mem_visits job.form.node u).mp hu
  rcases u.node.kind.layout_parents spec hspec hkind with hparent | hparent
  · refine .inl ⟨hparent, ?_⟩
    have hcontext := contextAt_widget i hnode hparent
    simp only [creation, creationIn, hlayout, hpath, hcontext]
    rfl
  · refine .inr ⟨hparent, ?_⟩
    -- The item is in a layout, which is then the nearest widget or layout above its content.
    obtain ⟨-, w, -, -, -, hholder⟩ := item_holder hk hw hu hparent
    have hlayouts : (job.contextAt v.path).layout = some (job.frame w) := by
      rw [hpath, contextAt, holder_above i hnode (by simp [hparent]) (by simp [hparent]), hholder]
      rfl
    simp only [creation, creationIn, hlayout, hlayouts]
    rfl

end Layouts

section Form

variable (hk : job.form.node.kind = .ui) (hw : Node.All Node.WellFormed job.form.node)
  (hroot : job.form.rootVisit? = some job.root)

include hk hw hroot

theorem enclosing_widget (hv : v ∈ job.form.visits) (hobject : v.node.kind.isObject = true)
    (hne : v.path ≠ job.root.path) : ∃ u, job.form.node.enclosing? .widget v.path = some u := by
  rw [← Option.isSome_iff_exists, enclosing_root hk hw hroot hv hobject]
  simpa using hne

theorem widget_creation (hv : v ∈ job.form.visits) (hwidget : v.node.kind = .widget)
    (hne : v.path ≠ job.root.path) :
    ∃ u, job.form.node.enclosing? .widget v.path = some u ∧
      job.creation v =
        [.create (job.name v) (Classes.Custom.realClass (v.node.stringAttribute "class"))
          (if job.plan.classes.isContainer (u.node.stringAttribute "class") then []
            else [.ref (job.name u)])] := by
  obtain ⟨u, hu⟩ := enclosing_widget hk hw hroot hv (by rw [hwidget]; rfl) hne
  refine ⟨u, hu, ?_⟩
  simp only [creation, creationIn, hwidget, contextAt, hu]
  rfl

theorem action_owner (hv : v ∈ job.form.visits) (hobject : v.node.kind.isObject = true)
    (hne : v.path ≠ job.root.path) :
    ∃ u, job.actionOwner? v.path = some u ∧
      (job.contextAt v.path).actionOwner job.plan = job.name u := by
  obtain ⟨u, hu⟩ := enclosing_widget hk hw hroot hv hobject hne
  cases hg : job.form.node.enclosing? .actionGroup v.path with
  | some g => exact ⟨g, by rw [actionOwner?, hg]; rfl, by simp only [contextAt, hg]; rfl⟩
  | none => exact ⟨u, by rw [actionOwner?, hg, hu]; rfl, by simp only [contextAt, hg, hu]; rfl⟩

theorem root_ne_item (hv : v ∈ job.form.visits) (hitem : v.node.kind = .layoutItem) (i : Nat) :
    i :: v.path ≠ job.root.path := by
  obtain ⟨before, after, hrooted⟩ := job.form.rooted job.root hk hw.here hroot
  rw [hrooted.path]
  intro h
  have hnode := (Node.mem_visits job.form.node v).mp hv
  rw [(List.cons.inj h).2] at hnode
  rw [← Option.some.inj hnode, hk] at hitem
  cases hitem

/-- Parents in the outline of a form are parents in the form. -/
theorem outline_mirrored (hj : job.Named) {setup : List Stmt}
    (hsetup : setup.filter job.builds = job.outline [] job.form.node) : job.Mirrored setup := by
  have hnot : ∀ v ∈ job.form.visits, v.node.kind ≠ .widget → v.path ≠ job.root.path :=
    fun v hv => path_ne_root hk hw hroot hv
  have honce : ∀ v ∈ job.form.visits, ∀ {s}, job.creation v = [s] →
      creationsOf (job.name v) setup = [s] :=
    fun v hv s hs => created_once hsetup hj hk hw hroot hv hs
  constructor
  case widgets =>
    intro v hv hwidget hne
    obtain ⟨u, hu, hs⟩ := widget_creation hk hw hroot hv hwidget hne
    exact ⟨u, hu, honce v hv hs⟩
  case layouts =>
    intro v hv hlayout
    obtain ⟨i, u, hu, hpath, hs⟩ := layout_creation hk hw hv hlayout
    exact ⟨i, u, hu, hpath, hs.imp (And.imp_right (honce v hv)) (And.imp_right (honce v hv))⟩
  case actions =>
    intro v hv haction hmenu
    have hobject : v.node.kind.isObject = true := by rw [haction]; rfl
    obtain ⟨u, hu, howner⟩ := action_owner hk hw hroot hv hobject (hnot v hv (by simp [haction]))
    refine ⟨u, hu, honce v hv ?_⟩
    have hno : (v.node.attribute? "menu").isSome = false := by
      simpa [standsForMenu, haction] using hmenu
    simp only [creation, creationIn, haction, howner, hno]
    rfl
  case actionGroups =>
    intro v hv hgroup
    have hobject : v.node.kind.isObject = true := by rw [hgroup]; rfl
    obtain ⟨u, hu, howner⟩ := action_owner hk hw hroot hv hobject (hnot v hv (by simp [hgroup]))
    refine ⟨u, hu, honce v hv ?_⟩
    simp only [creation, creationIn, hgroup, howner]
  case items =>
    intro v hv hitem hfields
    have hwell : v.node.WellFormed := hw.nodeAt ((Node.mem_visits job.form.node v).mp hv)
    obtain ⟨i, u, hu, hpath, hlayout, hholder⟩ := item_holder hk hw hv hitem
    obtain ⟨w, noun, hheld, hnoun, hobject, hmenu⟩ := item_held hwell hitem hfields
    have hmem := item_mem hv hheld
    have hne : w.path ≠ job.root.path := item_path hheld ▸ root_ne_item hk hw hroot hv hitem 0
    obtain ⟨params, hcreate⟩ := creation_eq hk hw hroot hmem
    rw [if_pos (by simp [isCreated, hobject, hne, hmenu])] at hcreate
    have hplace := placement_eq hitem hholder hheld hnoun
    refine ⟨i, u, hu, hpath, hlayout, w, hheld, _, _, noun, _, honce w hmem hcreate,
      given_once hsetup hj hk hw hroot hv hheld hobject hplace ?_, itemPlacement_verb _ _ _,
      hnoun, ?_⟩
    · rw [gives, isLayout_name hu hlayout, Bool.true_and]
      exact List.contains_iff_mem.mpr (itemPlacement_ref _ _ _)
    · -- The layout gets the object on the way back, after what is below the item.
      have hsub := Node.before_below job.creation job.placement hv (item_below hheld)
      rw [hcreate, hplace] at hsub
      have houtline : (job.outline [] job.form.node).Sublist setup := hsetup ▸ List.filter_sublist
      exact hsub.trans houtline

end Form

end Job

/-- An object but the root widget that is no menu is created once, of its class. -/
theorem object_created (o : Options) (document : Nat) {f : Form} {root v : Visit} {s : Session}
    (hk : f.node.kind = .ui) (hw : Node.All Node.WellFormed f.node)
    (hroot : f.rootVisit? = some root) (hd : s.table.Distinct)
    (hv : v ∈ Header.objectVisits f root) (hmenu : standsForMenu v.node = false) :
    let name := (jobOf o document f root s).name v
    ∃ args,
      Job.creationsOf name ((Header.declaration o document f root).run s).1.functions.setup =
        [.create name (createdClass v.node) args] := by
  let job := jobOf o document f root s
  have hj : job.Named := jobOf_named o document hk hw hroot hd
  obtain ⟨hsetup, -⟩ := declaration_built o document hk hw hroot hd
  obtain ⟨houtline, -⟩ := Job.built_outline hj hw (s := (Header.naming document f root s).2) rfl
  obtain ⟨hvisit, hobject⟩ := List.mem_filter.mp hv
  obtain ⟨args, hcreation⟩ := @Job.creation_eq job v hk hw hroot hvisit
  have hcreated : job.isCreated v = true := by
    rw [Job.isCreated, hmenu, Bool.not_false, Bool.and_true]
    exact hobject
  rw [if_pos hcreated] at hcreation
  rw [hsetup]
  exact ⟨args, Job.created_once houtline hj hk hw hroot hvisit hcreation⟩

/-- The parents of objects in the setup function of a form are those in the form.  With chains for
what encloses a node the code is the same, and every node leaves the chains as it finds them. -/
theorem parents_mirrored (o : Options) (document : Nat) (f : Form) (root : Visit) (s : Session)
    (hk : f.node.kind = .ui) (hw : Node.All Node.WellFormed f.node)
    (hroot : f.rootVisit? = some root) (hd : s.table.Distinct) :
    let setup := ((Header.declaration o document f root).run s).1.functions.setup
    let job := jobOf o document f root s
    let start : Builder := { session := (Header.naming document f root s).2 }
    (∀ (n : Node) (bare : Option (List Nat)) (path : List Nat) (st : Builder × Chains),
        (n.walk (chained job.plan) bare path st).2.2 = st.2) ∧
      (link job.plan f (f.node.walk (chained job.plan) none [] (start, {})).2.1).2.setup = setup ∧
      job.Mirrored setup := by
  intro setup job start
  have hj : job.Named := jobOf_named o document hk hw hroot hd
  obtain ⟨hsetup, -⟩ := declaration_built o document hk hw hroot hd
  refine ⟨chained_restores job.plan, ?_, ?_⟩
  · rw [chained_form hk hw start]
    exact hsetup.symm
  · obtain ⟨houtline, -⟩ :=
      Job.built_outline hj hw (s := (Header.naming document f root s).2) rfl
    refine Job.outline_mirrored hk hw hroot hj ?_
    rw [show setup = _ from hsetup]
    exact houtline

/-- A form with a page in a container, a layout in an item of another and a group of actions in
another one. -/
def layered : Form :=
  ⟨.mk .ui []
    [.node "widget" (.mk .widget [("class", .string "QWidget"), ("name", .string "Form")]
      [.node "layout" (.mk .layout [("class", .string "QVBoxLayout"), ("name", .string "outer")]
          [.node "item" (.mk .layoutItem []
              [.node "widget" (.mk .widget
                [("class", .string "QStackedWidget"), ("name", .string "stack")]
                [.node "widget" (.mk .widget
                  [("class", .string "QWidget"), ("name", .string "page")] [] "")] "")] ""),
            .node "item" (.mk .layoutItem []
              [.node "layout" (.mk .layout
                [("class", .string "QFormLayout"), ("name", .string "inner")]
                [.node "item" (.mk .layoutItem []
                  [.node "spacer" (.mk .spacer [("name", .string "gap")] [] "")] "")] "")] "")] ""),
        .node "action" (.mk .action [("name", .string "quit")] [] ""),
        .node "actiongroup" (.mk .actionGroup [("name", .string "modes")]
          [.node "actiongroup" (.mk .actionGroup [("name", .string "views")]
            [.node "action" (.mk .action [("name", .string "view")] [] "")] "")] "")] "")] ""⟩

theorem parents_mirrored_layered :
    ∃ root, layered.rootVisit? = some root ∧ Node.All Node.WellFormed layered.node ∧
      let setup := ((Header.declaration {} 0 layered root).run {}).1.functions.setup
      let job := jobOf {} 0 layered root {}
      let start : Builder := { session := (Header.naming 0 layered root {}).2 }
      setup.filter job.builds =
          [.create "outer" "QVBoxLayout" [.ref "Form"],
            .create "stack" "QStackedWidget" [.ref "Form"],
            .create "page" "QWidget" [],
            .call "outer" "addWidget" [.ref "stack"],
            .create "inner" "QFormLayout" [],
            .create "gap" "QSpacerItem"
              [.code "QSizePolicy::Expanding", .code "QSizePolicy::Minimum"],
            .call "inner" "setItem" [.int 0, .code "QFormLayout::LabelRole", .ref "gap"],
            .call "outer" "addLayout" [.ref "inner"],
            .create "quit" "QAction" [.ref "Form"],
            .create "modes" "QActionGroup" [.ref "Form"],
            .create "views" "QActionGroup" [.ref "modes"],
            .create "view" "QAction" [.ref "views"]] ∧
        (∀ (n : Node) (bare : Option (List Nat)) (path : List Nat) (st : Builder × Chains),
          (n.walk (chained job.plan) bare path st).2.2 = st.2) ∧
        (link job.plan layered
          (layered.node.walk (chained job.plan) none [] (start, {})).2.1).2.setup = setup ∧
        job.Mirrored setup := by
  have hw : Node.All Node.WellFormed layered.node := by decide +kernel
  refine ⟨_, rfl, hw, ?_, parents_mirrored {} 0 layered _ {} rfl hw rfl Table.distinct_empty⟩
  decide +kernel

/-- A form with nothing but an action that stands for a menu. -/
def promising : Form :=
  ⟨.mk .ui []
    [.node "widget" (.mk .widget [("class", .string "QWidget"), ("name", .string "Form")]
      [.node "action" (.mk .action [("name", .string "act"), ("menu", .string "m")] [] "")]
      "")] ""⟩

/-- Not every action is created with its owner: one that stands for a menu is not created. -/
theorem menu_action_not_created :
    ∃ root, promising.rootVisit? = some root ∧ Node.All Node.WellFormed promising.node ∧
      let setup := ((Header.declaration {} 0 promising root).run {}).1.functions.setup
      let job := jobOf {} 0 promising root {}
      ¬ ∀ v ∈ promising.visits, v.node.kind = .action →
        ∃ u, job.actionOwner? v.path = some u ∧
          .create (job.name v) "QAction" [.ref (job.name u)] ∈ setup := by
  have hrefuted : ∀ (job : Job) (setup : List Stmt), setup.all (·.constructs?.isNone) = true →
      ¬ ∀ v ∈ promising.visits, v.node.kind = .action →
        ∃ u, job.actionOwner? v.path = some u ∧
          .create (job.name v) "QAction" [.ref (job.name u)] ∈ setup := by
    intro job setup hnone hall
    obtain ⟨u, -, hmem⟩ := hall ⟨[0, 0], _⟩ (.tail _ (.tail _ (.head _))) rfl
    cases List.all_eq_true.mp hnone _ hmem
  exact ⟨_, rfl, by decide +kernel, hrefuted _ _ (by decide +kernel)⟩

end Setup

end FormCompiler
