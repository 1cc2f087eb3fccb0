import FormCompiler.Proofs.Setup.Order
import FormCompiler.Proofs.Setup.Outline

/-!
# The setup function creates the members of the class

The class of a form is declared before its setup function is written, and both passes go over the
form by themselves.  Still they agree (`creations_agree`): the setup function creates the objects
under the names of their members and in their order, each once, and without giving a name to any of
them.  It leaves out the actions that stand for a menu.
-/

namespace FormCompiler

/-- The variable to which a statement assigns a new object. -/
def Code.Stmt.constructs? : Code.Stmt → Option String
  | .create x _ _ | .createLocal x _ _ => some x
  | _ => none

namespace Setup

open Code Document Naming

/-- Whether a node is an action that stands for a menu. -/
def standsForMenu (n : Node) : Bool := n.kind == .action && (n.attribute? "menu").isSome

/-- The class of which the object of a node is created. -/
def createdClass (n : Node) : String :=
  match n.kind with
  | .widget => Classes.Custom.realClass (n.stringAttribute "class")
  | .layout => n.stringAttribute "class"
  | .spacer => "QSpacerItem"
  | .actionGroup => "QActionGroup"
  | .action => "QAction"
  | _ => ""

/-! ## Below the root widget -/

section Root

variable {f : Form} {root v : Visit} (hk : f.node.kind = .ui)
  (hw : Node.All Node.WellFormed f.node) (hroot : f.rootVisit? = some root)

include hk hw hroot

theorem root_mem : root ∈ f.visits := by
  obtain ⟨l, r, hvisits, -⟩ := f.visits_objects root hk hw hroot
  rw [hvisits]
  simp

theorem root_kind : root.node.kind = .widget := by
  obtain ⟨before, after, hrooted⟩ := f.rooted root hk hw.here hroot
  exact hrooted.kind

theorem below_root (hv : v ∈ f.visits) (hobject : v.node.kind.isObject = true) :
    v = root ∨ v ∈ root.node.descendants root.path := by
  obtain ⟨l, r, hvisits, hothers⟩ := f.visits_objects root hk hw hroot
  rw [hvisits, List.append_assoc] at hv
  have hidle : v ∉ l ++ r := fun h => by
    rw [(hothers v h).1] at hobject
    cases hobject
  simp only [List.mem_append, not_or] at hv hidle
  exact List.mem_cons.mp ((hv.resolve_left hidle.1).resolve_right hidle.2)

theorem enclosing_root (hv : v ∈ f.visits) (hobject : v.node.kind.isObject = true) :
    (f.node.enclosing? .widget v.path).isSome = (v.path != root.path) := by
  rcases below_root hk hw hroot hv hobject with rfl | hbelow
  · obtain ⟨before, after, hrooted⟩ := f.rooted v hk hw.here hroot
    have htop : f.node.ancestors v.path = [⟨[], f.node⟩] := by
      rw [hrooted.path]
      rfl
    rw [Node.enclosing?, htop, List.find?_cons_of_neg (by simp [hk])]
    simp
  · have hne := Node.path_of_descendant hbelow
    obtain ⟨j, _, hsuffix⟩ := Node.fieldsVisits_suffix _ _ _ _ hbelow
    have habove : root ∈ f.node.ancestors v.path :=
      (Node.mem_ancestors ((Node.mem_visits _ _).mp hv) root).mpr
        ⟨root_mem hk hw hroot, (List.suffix_cons j _).trans hsuffix, fun h => hne h.symm⟩
    have hsome : (f.node.enclosing? .widget v.path).isSome = true :=
      List.find?_isSome.mpr ⟨root, habove, by simp [root_kind hk hw hroot]⟩
    rw [hsome]
    simpa using hne

theorem path_ne_root (hv : v ∈ f.visits) (hkind : v.node.kind ≠ .widget) :
    v.path ≠ root.path := by
  intro hpath
  rw [Node.eq_of_path hv (root_mem hk hw hroot) hpath] at hkind
  exact hkind (root_kind hk hw hroot)

end Root

/-! ## Names in the order of the form -/

theorem flatMap_chosen {α β : Type} {f : α → List β} (l : List α) (p : α → Bool) (g : α → β)
    (h : ∀ a ∈ l, f a = if p a then [g a] else []) : l.flatMap f = (l.filter p).map g := by
  induction l with
  | nil => rfl
  | cons a l ih =>
    have hrest := ih fun a' ha' => h a' (List.mem_cons_of_mem a ha')
    rw [List.flatMap_cons, hrest, h a (List.mem_cons_self ..), List.filter_cons]
    split <;> rfl

namespace Job

variable {job : Job}

theorem constructs_builds (s : Stmt) :
    s.constructs?.filter job.isObject = if job.builds s then s.constructs? else none := by
  cases s with
  | create x className args | createLocal x className args =>
    rw [Stmt.constructs?, Option.filter_some, builds]
  | _ => simp [Stmt.constructs?]

theorem placement_constructs (v : Visit) : (job.placement v).filterMap Stmt.constructs? = [] := by
  unfold placement placementIn
  split
  · split <;> rfl
  · rfl

/-- Whether the setup function creates the object at a visit. -/
def isCreated (job : Job) (v : Visit) : Bool :=
  v.node.kind.isObject && v.path != job.root.path && !standsForMenu v.node

theorem creation_eq {v : Visit} (hk : job.form.node.kind = .ui)
    (hw : Node.All Node.WellFormed job.form.node)
    (hroot : job.form.rootVisit? = some job.root) (hv : v ∈ job.form.visits) :
    ∃ args, job.creation v =
      if job.isCreated v then [.create (job.name v) (createdClass v.node) args] else [] := by
  cases hobject : v.node.kind.isObject with
  | false =>
    rw [creation_other hobject, isCreated, hobject]
    exact ⟨[], rfl⟩
  | true =>
    have hwidget : (job.contextAt v.path).widget.isSome = (v.path != job.root.path) := by
      rw [contextAt, Option.isSome_map]
      exact enclosing_root hk hw hroot hv hobject
    have hpath : v.node.kind ≠ .widget → (v.path != job.root.path) = true := by
      intro hkind
      simpa using path_ne_root hk hw hroot hv hkind
    rw [isCreated, hobject, Bool.true_and, creation]
    cases h : v.node.kind with
    | widget =>
      simp only [creationIn, createdClass, h, hwidget, standsForMenu]
      cases v.path != job.root.path with
      | false => exact ⟨[], rfl⟩
      | true => exact ⟨_, rfl⟩
    | layout | spacer | actionGroup =>
      rw [hpath (by simp [h])]
      simp only [creationIn, createdClass, h, standsForMenu]
      exact ⟨_, rfl⟩
    | action =>
      rw [hpath (by simp [h])]
      simp only [creationIn, createdClass, h, standsForMenu]
      cases (v.node.attribute? "menu").isSome with
      | false => exact ⟨_, rfl⟩
      | true => exact ⟨[], rfl⟩
    | _ =>
      rw [h] at hobject
      cases hobject

/-- The objects that are created, in the order of the form. -/
theorem constructed_names (hj : job.Named) (hk : job.form.node.kind = .ui)
    (hw : Node.All Node.WellFormed job.form.node)
    (hroot : job.form.rootVisit? = some job.root) {s : Session} (hs : s.table = job.table) :
    ((built job.plan job.form s).setup.filterMap Stmt.constructs?).filter job.isObject =
      ((Header.objectVisits job.form job.root).filter (!standsForMenu ·.node)).map job.name := by
  obtain ⟨houtline, -⟩ := built_outline hj hw hs
  -- The outline has all statements that create something under the name of an object.
  have hbuilt : ((built job.plan job.form s).setup.filterMap Stmt.constructs?).filter job.isObject =
      (job.outline [] job.form.node).filterMap Stmt.constructs? := by
    rw [← houtline, List.filter_filterMap, List.filterMap_filter]
    exact congrArg (List.filterMap · _) (funext constructs_builds)
  -- Nothing is created on the way back, so what is left of the tour is in the order of the form.
  have hlisted : (job.outline [] job.form.node).filterMap Stmt.constructs? =
      job.form.visits.flatMap fun v => (job.creation v).filterMap Stmt.constructs? := by
    rw [outline, Node.tour_filterMap, funext placement_constructs, Node.tour_down]
    rfl
  have hnamed : ∀ v ∈ job.form.visits, (job.creation v).filterMap Stmt.constructs? =
      if job.isCreated v then [job.name v] else [] := by
    intro v hv
    obtain ⟨args, hcreation⟩ := creation_eq hk hw hroot hv
    rw [hcreation]
    split <;> rfl
  rw [hbuilt, hlisted, flatMap_chosen _ _ job.name hnamed, Header.objectVisits, List.filter_filter]
  refine congrArg (List.map job.name) (List.filter_congr fun v _ => ?_)
  rw [isCreated, Bool.and_comm]

end Job

/-! ## The class and its setup function -/

section Declaration

variable (o : Options) (document : Nat) {f : Form} {root : Visit} {s : Session}
  (hk : f.node.kind = .ui) (hw : Node.All Node.WellFormed f.node)
  (hroot : f.rootVisit? = some root) (hd : s.table.Distinct)

include hk hw hroot hd

theorem jobOf_named : (jobOf o document f root s).Named := by
  obtain ⟨object, ho, -⟩ := Job.object_of_widget (root_kind hk hw hroot)
  obtain ⟨hnamed, -⟩ := Header.naming_spec document f root object s ho hd
  refine ⟨hnamed.distinct, fun v hv hobject => ?_, classes_nameless f⟩
  have hmem := List.mem_cons.mpr (below_root hk hw hroot hv hobject)
  exact hnamed.known v hmem ((Node.object_isSome v.node).trans hobject)

theorem declared_functions :
    let plan := (jobOf o document f root s).plan
    let b := built plan f (Header.naming document f root s).2
    ((Header.declaration o document f root).run s).1.functions =
        Header.functionsOf root plan.mainForm b ∧
      ((functions o document f root).run (Header.naming document f root s).2).2 = b.session := by
  obtain ⟨object, ho, -⟩ := Job.object_of_widget (root_kind hk hw hroot)
  obtain ⟨hnamed, -⟩ := Header.naming_spec document f root object s ho hd
  obtain ⟨e, he⟩ := hnamed.known root (List.mem_cons_self ..) (by rw [ho]; rfl)
  obtain ⟨-, hfunctions⟩ := Header.declaration_members o document f root s
  have hrun := Header.functions_named o document f root object ho _ e he
  exact ⟨hfunctions.trans (congrArg Prod.fst hrun), congrArg Prod.snd hrun⟩

theorem declaration_built :
    let b := built (jobOf o document f root s).plan f (Header.naming document f root s).2
    ((Header.declaration o document f root).run s).1.functions.setup = b.setup ∧
      ((functions o document f root).run (Header.naming document f root s).2).2 = b.session :=
  (declared_functions o document hk hw hroot hd).imp_left (congrArg Functions.setup)

theorem declared_members :
    ((Header.declaration o document f root).run s).1.members =
      (Header.objectVisits f root).map
          (Header.memberIn document (Header.namedTable document f root s)) ++
        (Header.declaredGroups f).eraseDups.map fun name =>
          ⟨"QButtonGroup", Header.groupNameIn (Header.namedTable document f root s) name⟩ := by
  obtain ⟨object, ho, -⟩ := Job.object_of_widget (root_kind hk hw hroot)
  obtain ⟨-, hmembers⟩ := Header.naming_spec document f root object s ho hd
  obtain ⟨hdeclared, -⟩ := Header.declaration_members o document f root s
  rw [Header.members_of_form _ _ _ _ hk hw hroot, ← hmembers]
  exact hdeclared

theorem objectNames_distinct :
    ((Header.objectVisits f root).map (jobOf o document f root s).name).Nodup := by
  have hj := jobOf_named o document hk hw hroot hd
  have hpaths : f.visits.Pairwise (·.path ≠ ·.path) :=
    List.pairwise_map.mp (Node.visits_nodup f.node [])
  rw [List.Nodup, List.pairwise_map]
  refine List.Pairwise.imp_of_mem (fun hv hv' hne hsame => hne ?_) (hpaths.filter _)
  obtain ⟨hv, hobject⟩ := List.mem_filter.mp hv
  obtain ⟨hv', hobject'⟩ := List.mem_filter.mp hv'
  rw [Bool.and_eq_true] at hobject hobject'
  exact congrArg Visit.path (hj.eq_of_name hv hobject.1 hv' hobject'.1 hsame)

end Declaration

/-- The setup function creates what the class declares.  The members are those of the objects, in
the order of the form, and then those of the button groups.  Of all variables that are named after
objects, the setup function creates those of the members for objects, in the same order, but for the
actions that stand for a menu.  Each is created once, and no object gets a name by the way.  The
header has the lines of both. -/
theorem creations_agree (o : Options) (document : Nat) (f : Form) (root : Visit) (s : Session)
    (hk : f.node.kind = .ui) (hw : Node.All Node.WellFormed f.node)
    (hroot : f.rootVisit? = some root) (hd : s.table.Distinct) :
    let d := ((Header.declaration o document f root).run s).1
    let t := Header.namedTable document f root s
    let objects := Header.objectVisits f root
    let created := d.functions.setup.filterMap Stmt.constructs?
    d.members = objects.map (Header.memberIn document t) ++
        (Header.declaredGroups f).eraseDups.map
          (fun name => ⟨"QButtonGroup", Header.groupNameIn t name⟩) ∧
      created.filter (t.entries.map Entry.name).contains =
        ((objects.filter (!standsForMenu ·.node)).map (Header.memberIn document t)).map
          Header.Member.name ∧
      (∀ v ∈ objects, standsForMenu v.node = false →
        created.count (Header.memberIn document t v).name = 1) ∧
      ((functions o document f root).run (Header.naming document f root s).2).2.table.entries =
        t.entries ∧
      d.InHeader o document f s := by
  intro d t objects created
  let job := jobOf o document f root s
  have hj : job.Named := jobOf_named o document hk hw hroot hd
  obtain ⟨hsetup, hsession⟩ := declaration_built o document hk hw hroot hd
  obtain ⟨-, hsound⟩ := Job.built_outline hj hw (s := (Header.naming document f root s).2) rfl
  have hobjects : (t.entries.map Entry.name).contains = job.isObject := by
    funext x
    rw [List.contains_map]
    exact congrArg (List.any t.entries) (funext fun e => Bool.beq_comm)
  have hnames : created.filter job.isObject =
      (objects.filter (!standsForMenu ·.node)).map job.name := by
    rw [show created = _ from congrArg (List.filterMap Stmt.constructs?) hsetup]
    exact Job.constructed_names hj hk hw hroot rfl
  refine ⟨declared_members o document hk hw hroot hd, ?_, fun v hv hmenu => ?_, ?_,
    Header.declaration_inHeader o document s hroot⟩
  · rw [hobjects, hnames, List.map_map]
    rfl
  · -- Every variable that is named after an object is in the list above, which repeats none.
    have hname : job.isObject (job.name v) = true := by
      obtain ⟨hv, hobject⟩ := List.mem_filter.mp hv
      rw [Bool.and_eq_true] at hobject
      exact hj.isObject_name hv hobject.1
    have hnodup : ((objects.filter (!standsForMenu ·.node)).map job.name).Nodup :=
      (objectNames_distinct o document hk hw hroot hd).sublist (List.filter_sublist.map job.name)
    have hmem : job.name v ∈ (objects.filter (!standsForMenu ·.node)).map job.name :=
      List.mem_map_of_mem (List.mem_filter.mpr ⟨hv, by simp [hmenu]⟩)
    change created.count (job.name v) = 1
    rw [← List.count_filter hname, hnames, hnodup.count, if_pos hmem]
  · rw [hsession]
    exact hsound.entries

/-- A form with objects of every kind, two of the same name, an action for the menu it has, and a
button group. -/
def furnished : Form :=
  ⟨.mk .ui []
    [.node "widget" (.mk .widget [("class", .string "QMainWindow"), ("name", .string "Window")]
      [.node "widget" (.mk .widget [("class", .string "QWidget"), ("name", .string "area")]
          [.node "layout" (.mk .layout [("class", .string "QHBoxLayout"), ("name", .string "area")]
            [.node "item" (.mk .layoutItem []
                [.node "widget" (.mk .widget [("class", .string "QRadioButton")]
                  [.node "attribute" (.mk .property [("name", .string "buttonGroup")]
                    [.node "string" (.mk .string [] [] "choice")] "")] "")] ""),
              .node "item" (.mk .layoutItem []
                [.node "spacer" (.mk .spacer [("name", .string "gap")] [] "")] "")] "")] ""),
        .node "widget" (.mk .widget [("class", .string "QMenu"), ("name", .string "file")] [] ""),
        .node "action"
          (.mk .action [("name", .string "fileAction"), ("menu", .string "file")] [] ""),
        .node "actiongroup" (.mk .actionGroup [("name", .string "modes")]
          [.node "action" (.mk .action [("name", .string "mode")] [] "")] ""),
        .node "addaction" (.mk .actionRef [("name", .string "file")] [] "")] ""),
      .node "buttongroups" (.mk .buttonGroups []
        [.node "buttongroup" (.mk .buttonGroup [("name", .string "choice")] [] "")] "")] ""⟩

theorem creations_agree_furnished :
    ∃ root, furnished.rootVisit? = some root ∧ Node.All Node.WellFormed furnished.node ∧
      let d := ((Header.declaration {} 0 furnished root).run {}).1
      let t := Header.namedTable 0 furnished root {}
      let objects := Header.objectVisits furnished root
      let created := d.functions.setup.filterMap Stmt.constructs?
      d.members.map Header.Member.name =
          ["area", "area1", "radioButton", "gap", "file", "fileAction", "modes", "mode", "choice"] ∧
        created = ["area", "area1", "radioButton", "choice", "gap", "file", "modes", "mode"] ∧
        d.members = objects.map (Header.memberIn 0 t) ++
          (Header.declaredGroups furnished).eraseDups.map
            (fun name => ⟨"QButtonGroup", Header.groupNameIn t name⟩) ∧
        created.filter (t.entries.map Entry.name).contains =
          ((objects.filter (!standsForMenu ·.node)).map (Header.memberIn 0 t)).map
            Header.Member.name ∧
        (∀ v ∈ objects, standsForMenu v.node = false →
          created.count (Header.memberIn 0 t v).name = 1) ∧
        ((functions {} 0 furnished root).run
          (Header.naming 0 furnished root {}).2).2.table.entries = t.entries ∧
        d.InHeader {} 0 furnished {} := by
  have hw : Node.All Node.WellFormed furnished.node := by decide +kernel
  refine ⟨_, rfl, hw, ?_, ?_, creations_agree {} 0 furnished _ {} rfl hw rfl Table.distinct_empty⟩
  · decide +kernel
  · decide +kernel

end Setup

end FormCompiler
