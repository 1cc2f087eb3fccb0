import FormCompiler.Proofs.Setup.Equipment

/-!
# Buttons and their groups

Buttons that give the same group are added to the same variable, in the order of the walk, and
buttons of different groups to different ones (`buttons_enrolled`).  The variable is created before
that: a member if the form declares the group, else a local variable.  Whether a group has been
created is asked of the names of the groups that were, and whether it is declared of the table, to
which groups are added on the way; `Job.equipment` says what comes of it.
-/

namespace FormCompiler

/-- Whether a statement creates an object for a variable or adds a button to it. -/
def Code.Stmt.tends (x : String) : Code.Stmt → Bool
  | .create y _ _ | .createLocal y _ _ => y == x
  | .call receiver method _ => receiver == x && method == "addButton"
  | _ => false

namespace Setup

open Code Document Naming
open Header (groupNameIn groupNameIn_of_group declaredGroups)

namespace Job

variable {job : Job} {d x : String}

/-- What is done with a group is notable, for no object has its name. -/
theorem isNotable_of_tends (hx : job.isObject x = false) (s : Stmt) (hs : s.tends x = true) :
    job.isNotable s = true := by
  cases s with
  | create y className args | createLocal y className args =>
    simp only [Stmt.tends, beq_iff_eq] at hs
    simp [isNotable, Stmt.isRoutine, handles, hs, hx]
  | call receiver method args =>
    simp only [Stmt.tends, Bool.and_eq_true, beq_iff_eq] at hs
    rw [isNotable, hs.1, handles_receiver hx, hs.2]
    rfl
  | _ => cases hs

theorem filter_tends_items (plan : Plan) (icons : List (Icon × String)) (name : String)
    (items : List ComboItem) : (itemsCode plan icons name items).filter (Stmt.tends x) = [] := by
  refine List.filter_eq_nil_iff.mpr fun s hs => ?_
  rcases mem_itemsCode hs with rfl | ⟨i, -, rfl⟩ <;> simp [insertion, addition, Stmt.tends]

theorem tends_groupCreation (y : String) : (job.groupCreation y d).tends x = (y == x) := by
  unfold groupCreation
  split <;> rfl

theorem filter_tends_enrolment (t : Table) (seen : List String) (name : String) :
    (job.enrolment t seen d name).filter (Stmt.tends x) =
      if groupNameIn t d = x then job.enrolment t seen d name else [] := by
  split
  · rename_i hname
    refine List.filter_eq_self.mpr fun s hs => ?_
    rcases mem_enrolment hs with ⟨-, rfl⟩ | rfl
    · simp [tends_groupCreation, hname]
    · simp [Stmt.tends, hname]
  · rename_i hname
    refine List.filter_eq_nil_iff.mpr fun s hs => ?_
    rcases mem_enrolment hs with ⟨-, rfl⟩ | rfl
    · simp [tends_groupCreation, hname]
    · simp [Stmt.tends, hname]

/-- What puts a button into a group. -/
def admission (job : Job) (x : String) (v : Visit) : Stmt := .call x "addButton" [.ref (job.name v)]

/-- Of the code of widgets, what is done with one group: it is created with the first button that
joins it, unless one has before. -/
theorem filter_tends_equipment {final : Builder} (hx : groupNameIn final.session.table d = x)
    (l : List Visit) (honly : ∀ v ∈ l, ∀ d', job.joined? v = some d' →
      groupNameIn final.session.table d' = x → d' = d) (seen : List String) :
    let buttons := l.filter (job.joined? · == some d)
    (job.equipment final seen l).filter (Stmt.tends x) =
      (if d ∈ seen ∨ buttons = [] then [] else [job.groupCreation x d]) ++
        buttons.map (job.admission x) := by
  induction l generalizing seen with
  | nil => simp [equipment]
  | cons v l ih =>
    have hrest := ih (fun u hu => honly u (List.mem_cons_of_mem v hu))
      (seen ++ (job.joined? v).toList)
    dsimp only at hrest ⊢
    rw [equipment, outfit, List.filter_append, List.filter_append, hrest, filter_tends_items,
      List.nil_append, List.filter_cons]
    cases hjoined : job.joined? v with
    | none => simp
    | some d' =>
      rw [Option.toList_some, List.flatMap_singleton, filter_tends_enrolment]
      by_cases hd : d' = d
      · subst hd
        by_cases hseen : d' ∈ seen <;> simp [enrolment, admission, hx, hseen]
      · have hother : groupNameIn final.session.table d' ≠ x :=
          fun h => hd (honly v (List.mem_cons_self ..) d' hjoined h)
        simp [hother, hd, Ne.symm hd]

theorem filter_joins (l : List Visit) :
    (l.filter isWidget).filter (job.joined? · == some d) = l.filter (Joins job.plan · d) := by
  rw [List.filter_filter]
  refine List.filter_congr fun v _ => ?_
  by_cases hk : v.node.kind = .widget
  · have hiff := @joined_eq_some job v d hk
    by_cases hjoins : Joins job.plan v d <;> simp [isWidget, hk, hiff, hjoins]
  · simp [isWidget, Joins, hk]

/-- Buttons are put into groups that have variables. -/
structure Enrols (job : Job) (var : String → String) (d : Header.Declaration) : Prop where
  /-- Different groups have different variables. -/
  distinct : ∀ v ∈ job.form.visits, ∀ w ∈ job.form.visits, ∀ group group',
    Joins job.plan v group → Joins job.plan w group' → var group = var group' → group = group'
  /-- A group is created once, and then its buttons are added to it in the order of the walk. -/
  tended : ∀ v ∈ job.form.visits, ∀ group, Joins job.plan v group →
    d.functions.setup.filter (Stmt.tends (var group)) =
      (if group ∈ declaredGroups job.form then
        Stmt.create (var group) "QButtonGroup" [.ref job.plan.mainForm]
      else Stmt.createLocal (var group) "QButtonGroup" [.ref job.plan.mainForm]) ::
        (job.form.visits.filter (Joins job.plan · group)).map (job.admission (var group))
  /-- Nothing else but containers among the objects of the form get buttons. -/
  only : ∀ x args, .call x "addButton" args ∈ d.functions.setup → job.isObject x = false →
    ∃ v ∈ job.form.visits, ∃ group, Joins job.plan v group ∧ var group = x
  later : ∀ v ∈ job.form.visits, ∀ group, Joins job.plan v group →
    d.functions.retranslate.filter (Stmt.tends (var group)) = []
  /-- It is a member if it is declared, and else its name is not that of a member. -/
  members : ∀ v ∈ job.form.visits, ∀ group, Joins job.plan v group →
    if group ∈ declaredGroups job.form then ⟨"QButtonGroup", var group⟩ ∈ d.members
    else ∀ m ∈ d.members, m.name ≠ var group

end Job

namespace Job.Furnished

variable {job : Job} {b : Builder} {v : Visit} {group : String}

theorem enrolled_only (h : job.Furnished b) {x : String} {args : List Expr}
    (hs : .call x "addButton" args ∈ b.setup) (hx : job.isObject x = false) :
    ∃ v ∈ job.form.visits, ∃ d, Joins job.plan v d ∧ groupNameIn b.session.table d = x := by
  have hnotable := isNotable_of_tends hx (.call x "addButton" args) (by simp [Stmt.tends])
  have hmem := List.mem_filter.mpr ⟨hs, hnotable⟩
  rw [h.setup] at hmem
  rcases List.mem_append.mp hmem with hmem | hmem
  · obtain ⟨v, hv, hcode | ⟨d, seen, hd, hcode⟩⟩ := mem_equipment hmem
    · rcases mem_itemsCode hcode with hcode | ⟨i, -, hcode⟩
      · cases hcode
      · exact absurd (Stmt.call.inj hcode).2.1 (by decide)
    · obtain ⟨hv, hkind⟩ := mem_widgets.mp hv
      refine ⟨v, hv, d, (joined_eq_some hkind).mp hd, ?_⟩
      rcases mem_enrolment hcode with ⟨-, hcode⟩ | hcode
      · unfold groupCreation at hcode
        split at hcode <;> cases hcode
      · exact (Stmt.call.inj hcode).1.symm
  · obtain ⟨n, sender, receiver, -, -, hargs⟩ := mem_connectionStmts hmem
    cases hargs

section Setup

variable (h : job.Furnished b) (hv : v ∈ job.form.visits) (hjoins : Joins job.plan v group)

include h hv hjoins

theorem tended (hj : job.Valid) :
    b.setup.filter (Stmt.tends (groupNameIn b.session.table group)) =
      (if group ∈ declaredGroups job.form then
        Stmt.create (groupNameIn b.session.table group) "QButtonGroup" [.ref job.plan.mainForm]
      else
        Stmt.createLocal (groupNameIn b.session.table group) "QButtonGroup"
          [.ref job.plan.mainForm]) ::
        (job.form.visits.filter (Joins job.plan · group)).map
          (job.admission (groupNameIn b.session.table group)) := by
  obtain ⟨g, hg⟩ := h.group_of_joins hv hjoins
  have hbuttons : job.form.visits.filter (Joins job.plan · group) ≠ [] :=
    List.ne_nil_of_mem (List.mem_filter.mpr ⟨hv, by simpa using hjoins⟩)
  have honly : ∀ w ∈ job.form.visits.filter isWidget, ∀ d, job.joined? w = some d →
      groupNameIn b.session.table d = groupNameIn b.session.table group → d = group := by
    intro w hw d hjoined hname
    obtain ⟨hw, hkind⟩ := mem_widgets.mp hw
    obtain ⟨g', hg'⟩ := h.group_of_joins hw ((joined_eq_some hkind).mp hjoined)
    exact h.group_injective hg' hg hname
  have hequipment := filter_tends_equipment rfl _ honly []
  dsimp only at hequipment
  rw [filter_joins, if_neg (by simp [hbuttons]), groupCreation] at hequipment
  simp only [hj.group_isSome] at hequipment
  rw [filter_notable (isNotable_of_tends (h.isObject_group hg)), h.filter_equipment fun _ => rfl,
    hequipment]
  rfl

theorem untended {l : List Stmt}
    (hl : l.filter job.isNotable = (job.form.visits.filter isWidget).flatMap job.texts) :
    l.filter (Stmt.tends (groupNameIn b.session.table group)) = [] := by
  obtain ⟨g, hg⟩ := h.group_of_joins hv hjoins
  rw [filter_notable (isNotable_of_tends (h.isObject_group hg)), hl]
  refine List.filter_eq_nil_iff.mpr fun s hs => ?_
  obtain ⟨w, -, hs⟩ := List.mem_flatMap.mp hs
  rcases mem_itemsTexts hs with rfl | rfl | ⟨i, -, rfl⟩ <;> simp [insertion, Stmt.tends]

theorem undeclared_ne (hj : job.Valid) (hundeclared : group ∉ declaredGroups job.form) {d : String}
    (hd : d ∈ declaredGroups job.form) :
    groupNameIn job.table d ≠ groupNameIn b.session.table group := by
  intro hname
  obtain ⟨g, hg⟩ := h.group_of_joins hv hjoins
  obtain ⟨g', hg'⟩ := hj.groups d hd
  rw [← h.groupNameIn_kept hg'] at hname
  exact hundeclared (h.group_injective (h.kept d g' hg') hg hname ▸ hd)

end Setup

end Job.Furnished

/-- All buttons that give the same group are added to one variable, which is created before, and
those that give different groups to different ones.  The header has a line for each of these
statements. -/
theorem buttons_enrolled (o : Options) (document : Nat) (f : Form) (root : Visit)
    (notices : List Notice) (hk : f.node.kind = .ui) (hw : Node.All Node.WellFormed f.node)
    (hroot : f.rootVisit? = some root) :
    let d := ((Header.declaration o document f root).run { notices := notices }).1
    let job := jobOf o document f root { notices := notices }
    d.InHeader o document f { notices := notices } ∧ ∃ var, job.Enrols var d := by
  intro d job
  have hd : ({ notices := notices } : Session).table.Distinct := Table.distinct_empty
  have hvalid : job.Valid := jobOf_valid o document f root notices hk hw hroot
  have hj : job.Named := jobOf_named o document hk hw hroot hd
  let b := built job.plan job.form (Header.naming document f root { notices := notices }).2
  have hsetup : d.functions.setup = b.setup := (declaration_built o document hk hw hroot hd).1
  have htexts : d.functions.retranslate.filter job.isNotable =
      (job.form.visits.filter Job.isWidget).flatMap job.texts :=
    declaration_texts o document hk hw hroot hd
  have hmembers : d.members =
      (Header.objectVisits job.form root).map (Header.memberIn document job.table) ++
        (declaredGroups job.form).eraseDups.map fun name =>
          ⟨"QButtonGroup", groupNameIn job.table name⟩ :=
    declared_members o document hk hw hroot hd
  have h : job.Furnished b := Job.built_furnished hj hw rfl
  refine ⟨Header.declaration_inHeader o document _ hroot, groupNameIn b.session.table,
    ?_, ?_, ?_, ?_, ?_⟩
  case refine_1 =>
    intro v hv w hw' group group' hjoins hjoins' hname
    obtain ⟨g, hg⟩ := h.group_of_joins hv hjoins
    obtain ⟨g', hg'⟩ := h.group_of_joins hw' hjoins'
    exact h.group_injective hg hg' hname
  case refine_2 =>
    intro v hv group hjoins
    rw [hsetup]
    exact h.tended hv hjoins hvalid
  case refine_3 =>
    intro x args hs hx
    exact h.enrolled_only (hsetup ▸ hs) hx
  case refine_4 => exact fun v hv group hjoins => h.untended hv hjoins htexts
  case refine_5 =>
    intro v hv group hjoins
    obtain ⟨g, hg⟩ := h.group_of_joins hv hjoins
    rw [hmembers]
    split
    · rename_i hdeclared
      obtain ⟨g', hg'⟩ := hvalid.groups group hdeclared
      refine List.mem_append_right _ (List.mem_map.mpr ⟨group, by simpa using hdeclared, ?_⟩)
      rw [h.groupNameIn_kept hg']
    · rename_i hundeclared
      intro m hm
      rcases List.mem_append.mp hm with hm | hm
      · obtain ⟨w, hw', rfl⟩ := List.mem_map.mp hm
        obtain ⟨hw', hobject⟩ := List.mem_filter.mp hw'
        have hobject := hj.isObject_name hw' (Bool.and_eq_true_iff.mp hobject).1
        intro hname
        rw [show job.name w = _ from hname, h.isObject_group hg] at hobject
        cases hobject
      · obtain ⟨d', hd', rfl⟩ := List.mem_map.mp hm
        exact h.undeclared_ne hv hjoins hvalid hundeclared (by simpa using hd')

/-- A radio button that gives a group. -/
def choice (name group : String) : Node :=
  .mk .widget [("class", .string "QRadioButton"), ("name", .string name)]
    [.node "attribute" (.mk .property [("name", .string "buttonGroup")]
      [.node "string" (.mk .string [] [] group)] "")] ""

/-- A widget with buttons of two groups; one button is called like its group. -/
def closet : Visit :=
  ⟨[0], .mk .widget [("class", .string "QWidget"), ("name", .string "Form")]
    [.node "widget" (choice "size" "size"), .node "widget" (choice "red" "color"),
      .node "widget" (choice "large" "size")] ""⟩

/-- A form that declares one of the groups. -/
def wardrobe : Form :=
  ⟨.mk .ui []
    [.node "widget" closet.node,
      .node "buttongroups" (.mk .buttonGroups []
        [.node "buttongroup" (.mk .buttonGroup [("name", .string "size")] [] "")] "")] ""⟩

theorem buttons_enrolled_wardrobe :
    wardrobe.rootVisit? = some closet ∧ Node.All Node.WellFormed wardrobe.node ∧
      let d := ((Header.declaration {} 0 wardrobe closet).run {}).1
      ∃ size color, size ≠ color ∧
        d.functions.setup.filter (Stmt.tends size) =
          [.create size "QButtonGroup" [.ref "Form"], .call size "addButton" [.ref "size"],
            .call size "addButton" [.ref "large"]] ∧
        d.functions.setup.filter (Stmt.tends color) =
          [.createLocal color "QButtonGroup" [.ref "Form"],
            .call color "addButton" [.ref "red"]] := by
  have hw : Node.All Node.WellFormed wardrobe.node := by decide +kernel
  obtain ⟨-, var, h⟩ := buttons_enrolled {} 0 wardrobe closet [] rfl hw rfl
  let job := jobOf {} 0 wardrobe closet {}
  have hform : job.plan.mainForm = "Form" := by decide +kernel
  have hadmissions (x : String) (l : List Visit) : l.map (job.admission x) =
      (l.map job.name).map fun name => .call x "addButton" [.ref name] := by
    rw [List.map_map]
    rfl
  have hsizes : (job.form.visits.filter (Joins job.plan · "size")).map job.name =
      ["size", "large"] := by decide +kernel
  have hcolors : (job.form.visits.filter (Joins job.plan · "color")).map job.name = ["red"] := by
    decide +kernel
  have hsize : (⟨[0, 0], choice "size" "size"⟩ : Visit) ∈ job.form.visits :=
    (Node.mem_visits wardrobe.node _).mpr rfl
  have hcolor : (⟨[1, 0], choice "red" "color"⟩ : Visit) ∈ job.form.visits :=
    (Node.mem_visits wardrobe.node _).mpr rfl
  have hjoins : Joins job.plan ⟨[0, 0], choice "size" "size"⟩ "size" := by decide +kernel
  have hjoins' : Joins job.plan ⟨[1, 0], choice "red" "color"⟩ "color" := by decide +kernel
  have htended := h.tended _ hsize "size" hjoins
  have htended' := h.tended _ hcolor "color" hjoins'
  rw [if_pos (by decide), hadmissions, hsizes, hform] at htended
  rw [if_neg (by decide), hadmissions, hcolors, hform] at htended'
  refine ⟨rfl, hw, var "size", var "color", fun hname => ?_, htended, htended'⟩
  exact absurd (h.distinct _ hsize _ hcolor "size" "color" hjoins hjoins' hname) (by decide)

end Setup

end FormCompiler
