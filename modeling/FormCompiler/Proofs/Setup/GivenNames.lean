import FormCompiler.Proofs.Setup.Assembly
import FormCompiler.Proofs.Setup.Parents

/-!
# Names that differ are kept

The variables of fonts, brushes and other values are named by the same table as the objects of a
form, but only after all of them.  So if the names that a form gives are different as identifiers,
its objects and button groups go by these names (`given_names_kept`), even if a font would have been
called `font` otherwise.

`Faithful` is what holds of the table while the objects and groups get their names: a name is taken
by the object or the group to which the form gives it.
-/

namespace FormCompiler

open Document Naming

namespace Header

/-- The name that a form gives to an object, as an identifier. -/
def givenName (v : Visit) : String := normalized (v.node.stringAttribute "name")

/-- The objects and button groups of a form have names, which are different as identifiers. -/
structure WellNamed (f : Form) : Prop where
  objects : ∀ v ∈ f.visits, v.node.kind.isObject = true → v.node.stringAttribute "name" ≠ ""
  groups : ∀ d ∈ declaredGroups f, d ≠ ""
  nodup : ((f.visits.filter (·.node.kind.isObject)).map givenName ++
    (declaredGroups f).map normalized).Nodup

/-- Only the objects and groups of a form have names, and those that the form gives them. -/
structure Faithful (document : Nat) (f : Form) (t : Table) : Prop where
  entries : ∀ e ∈ t.entries, ∃ v ∈ f.visits, v.node.kind.isObject = true ∧
    e.place = ⟨document, v.path⟩ ∧ e.name = givenName v
  groups : ∀ g ∈ t.groups, g.declared ∈ declaredGroups f ∧ g.name = normalized g.declared
  taken : ∀ x ∈ t.taken, x ∈ t.names

section Naming

variable {document : Nat} {f : Form} {t : Table} {v w : Visit} {d d' : String}

namespace WellNamed

variable (h : WellNamed f)

include h

theorem object_eq (hv : v ∈ f.visits) (ho : v.node.kind.isObject = true) (hw : w ∈ f.visits)
    (ho' : w.node.kind.isObject = true) (hname : givenName v = givenName w) : v = w :=
  List.inj_on_of_nodup_map (List.nodup_append.mp h.nodup).1 (List.mem_filter.mpr ⟨hv, ho⟩)
    (List.mem_filter.mpr ⟨hw, ho'⟩) hname

theorem group_eq (hd : d ∈ declaredGroups f) (hd' : d' ∈ declaredGroups f)
    (hname : normalized d = normalized d') : d = d' :=
  List.inj_on_of_nodup_map (List.nodup_append.mp h.nodup).2.1 hd hd' hname

theorem object_ne_group (hv : v ∈ f.visits) (ho : v.node.kind.isObject = true)
    (hd : d ∈ declaredGroups f) : givenName v ≠ normalized d :=
  (List.nodup_append.mp h.nodup).2.2 _ (List.mem_map_of_mem (List.mem_filter.mpr ⟨hv, ho⟩)) _
    (List.mem_map_of_mem hd)

end WellNamed

/-! ## One name -/

theorem unique_given {wanted : String} (className : String) (hwanted : wanted ≠ "")
    (hfree : normalized wanted ∉ t.taken) : (t.unique wanted className).1 = normalized wanted := by
  have hbase : Table.baseName wanted className = normalized wanted :=
    if_pos (by simpa using hwanted)
  rw [Table.unique, hbase]
  exact if_neg (by simpa using hfree)

theorem object_wanted {o : Object} (ho : Object.ofNode? v.node = some o) :
    o.wanted = v.node.stringAttribute "name" := by
  rcases kind_of_object ho with hk | hk | hk | hk | hk <;>
    simp only [Object.ofNode?, hk, Option.some.injEq] at ho <;> rw [← ho]

namespace Faithful

variable (h : Faithful document f t) (hf : WellNamed f)

include h hf

theorem object_free (hv : v ∈ f.visits) (ho : v.node.kind.isObject = true)
    (hnew : t.entry? ⟨document, v.path⟩ = none) : givenName v ∉ t.taken := by
  intro htaken
  rcases List.mem_append.mp (h.taken _ htaken) with hmem | hmem
  · obtain ⟨e, he, hname⟩ := List.mem_map.mp hmem
    obtain ⟨w, hw, ho', hplace, hgiven⟩ := h.entries e he
    rw [← hf.object_eq hw ho' hv ho (hgiven.symm.trans hname), ← hplace] at hnew
    exact absurd (List.find?_eq_none.mp hnew e he) (by simp)
  · obtain ⟨g, hg, hname⟩ := List.mem_map.mp hmem
    obtain ⟨hd, hgiven⟩ := h.groups g hg
    exact hf.object_ne_group hv ho hd (hname.symm.trans hgiven)

theorem group_free (hd : d ∈ declaredGroups f) (hnew : t.group? d = none) :
    normalized d ∉ t.taken := by
  intro htaken
  rcases List.mem_append.mp (h.taken _ htaken) with hmem | hmem
  · obtain ⟨e, he, hname⟩ := List.mem_map.mp hmem
    obtain ⟨w, hw, ho, -, hgiven⟩ := h.entries e he
    exact hf.object_ne_group hw ho hd (hgiven.symm.trans hname)
  · obtain ⟨g, hg, hname⟩ := List.mem_map.mp hmem
    obtain ⟨hd', hgiven⟩ := h.groups g hg
    rw [← hf.group_eq hd' hd (hgiven.symm.trans hname)] at hnew
    exact absurd (List.find?_eq_none.mp hnew g hg) (by simp)

theorem nameOf (hv : v ∈ f.visits) {o : Object} (ho : Object.ofNode? v.node = some o) :
    Faithful document f (t.nameOf ⟨document, v.path⟩ o).2.1 := by
  cases he : t.entry? ⟨document, v.path⟩ with
  | some e =>
    rw [Table.nameOf_known o he]
    exact h
  | none =>
    have hobject : v.node.kind.isObject = true := by
      rw [← Node.object_isSome, ho]
      rfl
    have hname : (t.unique o.wanted o.className).1 = givenName v := by
      rw [object_wanted ho]
      exact unique_given _ (hf.objects v hv hobject) (h.object_free hf hv hobject he)
    rw [Table.nameOf_new o he, hname]
    refine ⟨fun e he => ?_, h.groups, fun x hx => ?_⟩
    · rcases List.mem_cons.mp he with rfl | he
      · exact ⟨v, hv, hobject, rfl, rfl⟩
      · exact h.entries e he
    · rcases List.mem_cons.mp hx with rfl | hx
      · exact List.mem_cons.mpr (.inl hname)
      · exact List.mem_cons_of_mem _ (h.taken x hx)

theorem nameOfGroup {n : Node} (hd : n.stringAttribute "name" ∈ declaredGroups f) :
    Faithful document f (t.nameOfGroup n).2.1 := by
  cases hg : t.group? (n.stringAttribute "name") with
  | some g =>
    rw [Table.nameOfGroup_known hg]
    exact h
  | none =>
    have hname : (t.unique (n.stringAttribute "name") "QButtonGroup").1 =
        normalized (n.stringAttribute "name") :=
      unique_given _ (hf.groups _ hd) (h.group_free hf hd hg)
    rw [Table.nameOfGroup_new hg, hname]
    refine ⟨h.entries, fun g hg => ?_, fun x hx => ?_⟩
    · rcases List.mem_cons.mp hg with rfl | hg
      · exact ⟨hd, rfl⟩
      · exact h.groups g hg
    · rcases List.mem_cons.mp hx with rfl | hx
      · exact List.mem_append_right _ (List.mem_cons.mpr (.inl hname))
      · rcases List.mem_append.mp (h.taken x hx) with hx | hx
        · exact List.mem_append_left _ hx
        · exact List.mem_append_right _ (List.mem_cons_of_mem _ hx)

end Faithful

/-! ## All names -/

theorem faithful_visit {s : Session} (h : Faithful document f s.table) (hf : WellNamed f)
    (hv : v ∈ f.visits) {o : Object} (ho : Object.ofNode? v.node = some o) :
    Faithful document f (Session.nameOfVisit? document v s).2.table := by
  rw [nameOfVisit_object document v o ho]
  exact h.nameOf hf hv ho

theorem faithful_member {s : Session} (h : Faithful document f s.table) (hf : WellNamed f)
    (hv : v ∈ f.visits) : Faithful document f (member? document v s).2.table := by
  have hsome := memberClass_isSome v.node
  cases hclass : memberClass? v.node with
  | none =>
    have hrun : member? document v s = (none, s) := by
      simp only [member?, hclass]
      rfl
    rw [hrun]
    exact h
  | some className =>
    rw [hclass] at hsome
    obtain ⟨o, ho⟩ := Option.isSome_iff_exists.mp hsome.symm
    have hrun : (member? document v s).2 = (Session.nameOfVisit? document v s).2 := by
      simp only [member?, hclass]
      rfl
    rw [hrun]
    exact faithful_visit h hf hv ho

theorem faithful_objects (hf : WellNamed f) (vs : List Visit) (hvs : ∀ v ∈ vs, v ∈ f.visits)
    {s : Session} (h : Faithful document f s.table) :
    Faithful document f (vs.filterMapM (member? document) s).2.table := by
  induction vs generalizing s with
  | nil => exact h
  | cons v vs ih =>
    rw [filterMapM_run]
    exact ih (fun w hw => hvs w (List.mem_cons_of_mem v hw))
      (faithful_member h hf (hvs v (List.mem_cons_self ..)))

theorem faithful_groups (hf : WellNamed f) (ns : List Node)
    (hns : ∀ n ∈ ns, n.stringAttribute "name" ∈ declaredGroups f)
    {s : Session} (h : Faithful document f s.table) :
    Faithful document f (ns.mapM Session.nameOfGroup s).2.table := by
  induction ns generalizing s with
  | nil => exact h
  | cons n ns ih =>
    rw [List.mapM_cons]
    exact ih (fun m hm => hns m (List.mem_cons_of_mem n hm))
      (s := (Session.nameOfGroup n s).2) (h.nameOfGroup hf (hns n (List.mem_cons_self ..)))

/-- Once they have their names, the objects and groups of a form go by those that it gives them. -/
theorem namedTable_given (document : Nat) (hf : WellNamed f) (hk : f.node.kind = .ui)
    (hw : Node.All Node.WellFormed f.node) {root : Visit} (hroot : f.rootVisit? = some root)
    (notices : List Notice) :
    let t := namedTable document f root { notices := notices }
    (∀ v ∈ f.visits, v.node.kind.isObject = true → nameIn document t v = givenName v) ∧
      ∀ d ∈ declaredGroups f, groupNameIn t d = normalized d := by
  intro t
  obtain ⟨object, ho, -⟩ := Setup.Job.object_of_widget (Setup.root_kind hk hw hroot)
  obtain ⟨hnamed, -⟩ := naming_spec document f root object { notices := notices } ho
    Table.distinct_empty
  have hbelow : ∀ v ∈ root :: root.node.descendants root.path, v ∈ f.visits := by
    obtain ⟨l, r, hvisits, -⟩ := f.visits_objects root hk hw hroot
    intro v hv
    rw [hvisits]
    exact List.mem_append_left _ (List.mem_append_right _ hv)
  have hstart : Faithful document f (({ notices := notices } : Session).table) :=
    ⟨by simp, by simp, by simp⟩
  have hobjects := faithful_objects hf (root.node.descendants root.path)
    (fun v hv => hbelow v (List.mem_cons_of_mem _ hv))
    (faithful_visit hstart hf (hbelow root (List.mem_cons_self ..)) ho)
  have hgroups : Faithful document f t :=
    faithful_groups hf (groupNodes f) (fun n hn => List.mem_map_of_mem hn) hobjects
  refine ⟨fun v hv hobject => ?_, fun d hd => ?_⟩
  · obtain ⟨e, he⟩ := hnamed.known v
      (List.mem_cons.mpr (Setup.below_root hk hw hroot hv hobject))
      ((Node.object_isSome v.node).trans hobject)
    obtain ⟨hmem, hplace⟩ := Table.entry_mem he
    obtain ⟨w, hw, -, hplace', hname⟩ := hgroups.entries e hmem
    have hpath : v.path = w.path := congrArg Place.path (hplace.symm.trans hplace')
    rw [nameIn_of_entry he, hname, Node.eq_of_path hv hw hpath]
  · obtain ⟨g, hg⟩ := hnamed.groups d hd
    obtain ⟨hmem, hdeclared⟩ := Table.group_mem hg
    rw [groupNameIn_of_group hg, (hgroups.groups g hmem).2, hdeclared]

end Naming

end Header

namespace Setup

open Code

/-! ## The setup function -/

section Walked

variable {job : Job} (hj : job.Valid) (hk : job.form.node.kind = .ui)
  (hw : Node.All Node.WellFormed job.form.node) (hroot : job.form.rootVisit? = some job.root)
  {s : Session} (hs : s.table = job.table)

include hj hk hw hroot hs

theorem made_built {v : Visit} (hv : v ∈ job.form.visits) (hobject : v.node.kind.isObject = true) :
    (standsForMenu v.node = false → v.node.kind ≠ .spacer →
        job.titleStmt v ∈ (built job.plan job.form s).setup) ∧
      ∀ d g, Joins job.plan v d → job.table.group? d = some g →
        job.Enrolled g (job.name v) (built job.plan job.form s) := by
  have hwalk := Job.walks_form hj hk hw hroot (Job.consistent_start hj hs) (Job.settled_start s)
  obtain ⟨hadmitted, -⟩ := (piece_walk job.form.node {} []).admitted (admitted_start job.plan s)
  have hgrows := (piece_link job.form).grows hadmitted
  have hmade := hwalk.made v (hj.objects v hv (.inl hobject))
  refine ⟨fun hmenu hspacer => hgrows.subset (hmade.titled hobject hspacer fun hk => ?_),
    fun d g hd hg => (hmade.group d g hd hg).mono hgrows⟩
  simpa [standsForMenu, hk] using hmenu

theorem built_extends : job.table.Extends (built job.plan job.form s).session.table := by
  have hwalk := Job.walks_form hj hk hw hroot (Job.consistent_start hj hs) (Job.settled_start s)
  obtain ⟨b', s2, htable, -⟩ := Job.link_spec hwalk.advances.consistent
  have hb : (built job.plan job.form s).session.table = b'.session.table := htable
  rw [hb]
  exact s2.consistent.grows

end Walked

theorem eraseDups_of_nodup (l : List String) (h : l.Nodup) : l.eraseDups = l := by
  induction l with
  | nil => rfl
  | cons a l ih =>
    obtain ⟨hnew, hrest⟩ := List.nodup_cons.mp h
    have hkept : l.filter (fun b => !b == a) = l := by
      refine List.filter_eq_self.mpr fun b hb => ?_
      have hne : b ≠ a := fun hba => hnew (hba ▸ hb)
      simpa using hne
    rw [List.eraseDups_cons, hkept, ih hrest]

section Given

variable (o : Options) (document : Nat) {f : Form} {root v : Visit} (notices : List Notice)
  (hk : f.node.kind = .ui) (hw : Node.All Node.WellFormed f.node)
  (hroot : f.rootVisit? = some root) (hf : Header.WellNamed f)

include hk hw hroot hf

theorem mainForm_given :
    (jobOf o document f root { notices := notices }).plan.mainForm = Header.givenName root := by
  refine (Header.namedTable_given document hf hk hw hroot notices).1 root (root_mem hk hw hroot) ?_
  rw [root_kind hk hw hroot]
  rfl

theorem members_given :
    ((Header.declaration o document f root).run { notices := notices }).1.members =
      (Header.objectVisits f root).map
          (fun v => ⟨(Header.memberClass? v.node).getD "", Header.givenName v⟩) ++
        (Header.declaredGroups f).map (fun name => ⟨"QButtonGroup", normalized name⟩) := by
  obtain ⟨hgiven, hgroup⟩ := Header.namedTable_given document hf hk hw hroot notices
  have hdeclared : (Header.declaredGroups f).Nodup :=
    List.Pairwise.of_map normalized (fun _ _ hne heq => hne (congrArg normalized heq))
      (List.nodup_append.mp hf.nodup).2.1
  refine (declared_members o document hk hw hroot Table.distinct_empty).trans ?_
  rw [eraseDups_of_nodup _ hdeclared]
  congr 1
  · refine List.map_congr_left fun v hv => ?_
    obtain ⟨hv, hobject⟩ := List.mem_filter.mp hv
    rw [Bool.and_eq_true] at hobject
    rw [Header.memberIn, hgiven v hv hobject.1]
  · refine List.map_congr_left fun name hname => ?_
    rw [hgroup name hname]

theorem title_given (hv : v ∈ f.visits) (hobject : v.node.kind.isObject = true)
    (hmenu : standsForMenu v.node = false) (hspacer : v.node.kind ≠ .spacer) :
    (if v.path = root.path then .nameOnce (Header.givenName v)
      else .setObjectName (Header.givenName v)) ∈
      ((Header.declaration o document f root).run { notices := notices }).1.functions.setup := by
  obtain ⟨hgiven, -⟩ := Header.namedTable_given document hf hk hw hroot notices
  have hj := jobOf_valid o document f root notices hk hw hroot
  obtain ⟨hsetup, -⟩ := declaration_built o document (s := { notices := notices }) hk hw hroot
    Table.distinct_empty
  have htitle := (made_built hj hk hw hroot
    (s := (Header.naming document f root { notices := notices }).2) rfl hv hobject).1 hmenu hspacer
  rw [hsetup, ← hgiven v hv hobject]
  exact htitle

theorem creation_given (hv : v ∈ Header.objectVisits f root)
    (hmenu : standsForMenu v.node = false) :
    ∃ args, Job.creationsOf (Header.givenName v)
        ((Header.declaration o document f root).run { notices := notices }).1.functions.setup =
      [.create (Header.givenName v) (createdClass v.node) args] := by
  obtain ⟨hvisit, hobject⟩ := List.mem_filter.mp hv
  obtain ⟨hgiven, -⟩ := Header.namedTable_given document hf hk hw hroot notices
  rw [← hgiven v hvisit (Bool.and_eq_true_iff.mp hobject).1]
  exact object_created o document hk hw hroot Table.distinct_empty hv hmenu

theorem groups_given {name : String} (hv : v ∈ f.visits) (hname : name ∈ Header.declaredGroups f)
    (hjoins : Joins (Plan.ofForm o document f (Header.givenName root)) v name) :
    let d := ((Header.declaration o document f root).run { notices := notices }).1
    let setup := d.functions.setup
    .create (normalized name) "QButtonGroup" [.ref (Header.givenName root)] ∈ setup ∧
      .call (normalized name) "addButton" [.ref (Header.givenName v)] ∈ setup := by
  intro d setup
  obtain ⟨hgiven, hgroup⟩ := Header.namedTable_given document hf hk hw hroot notices
  let job := jobOf o document f root { notices := notices }
  have hj : job.Valid := jobOf_valid o document f root notices hk hw hroot
  obtain ⟨hsetup, -⟩ := declaration_built o document (s := { notices := notices }) hk hw hroot
    Table.distinct_empty
  have hsetup : setup = _ := hsetup
  have hmain : job.plan.mainForm = Header.givenName root :=
    mainForm_given o document notices hk hw hroot hf
  have hobject : v.node.kind.isObject = true := by rw [hjoins.1]; rfl
  obtain ⟨g, hg⟩ := hj.groups name hname
  have hgname : g.name = normalized name :=
    (Header.groupNameIn_of_group hg).symm.trans (hgroup name hname)
  rw [← hmain] at hjoins
  obtain ⟨hcreated, hadded⟩ := (made_built hj hk hw hroot rfl hv hobject).2 name g hjoins hg
  rw [hsetup, ← hgname, ← hmain, ← hgiven v hv hobject]
  exact ⟨hcreated, hadded⟩

end Given

/-- A class and the names that a table has in the end are made of the names that a form gives. -/
structure GivenNamesKept (o : Options) (document : Nat) (f : Form) (root : Visit)
    (d : Header.Declaration) (t : Table) : Prop where
  form : d.functions.form = Header.givenName root
  members : d.members =
    (Header.objectVisits f root).map
        (fun v => ⟨(Header.memberClass? v.node).getD "", Header.givenName v⟩) ++
      (Header.declaredGroups f).map (fun name => ⟨"QButtonGroup", normalized name⟩)
  /-- The root widget exists when it is set up, and may have a title. -/
  rootTitled : .nameOnce (Header.givenName root) ∈ d.functions.setup
  created : ∀ v ∈ Header.objectVisits f root, standsForMenu v.node = false →
    ∃ args, Job.creationsOf (Header.givenName v) d.functions.setup =
      [.create (Header.givenName v) (createdClass v.node) args]
  titled : ∀ v ∈ Header.objectVisits f root, standsForMenu v.node = false →
    v.node.kind ≠ .spacer → .setObjectName (Header.givenName v) ∈ d.functions.setup
  groups : ∀ v ∈ f.visits, ∀ name ∈ Header.declaredGroups f,
    Joins (Plan.ofForm o document f (Header.givenName root)) v name →
    .create (normalized name) "QButtonGroup" [.ref (Header.givenName root)] ∈ d.functions.setup ∧
      .call (normalized name) "addButton" [.ref (Header.givenName v)] ∈ d.functions.setup
  objectNames : ∀ v ∈ f.visits, v.node.kind.isObject = true →
    Header.nameIn document t v = Header.givenName v
  groupNames : ∀ name ∈ Header.declaredGroups f, Header.groupNameIn t name = normalized name

/-- If the names that a form gives to its objects and button groups are different as identifiers,
the class and its setup function use just these, and so does the header. -/
theorem given_names_kept (o : Options) (document : Nat) (f : Form) (root : Visit)
    (notices : List Notice) (hk : f.node.kind = .ui) (hw : Node.All Node.WellFormed f.node)
    (hroot : f.rootVisit? = some root) (hf : Header.WellNamed f) :
    let d := ((Header.declaration o document f root).run { notices := notices }).1
    let s := (Header.naming document f root { notices := notices }).2
    let t := ((functions o document f root).run s).2.table
    GivenNamesKept o document f root d t ∧ d.InHeader o document f { notices := notices } := by
  intro d s t
  have hj := jobOf_valid o document f root notices hk hw hroot
  have hobject : root.node.kind.isObject = true := by rw [root_kind hk hw hroot]; rfl
  obtain ⟨hgiven, hgroup⟩ := Header.namedTable_given document hf hk hw hroot notices
  obtain ⟨-, hsession⟩ := declaration_built o document (s := { notices := notices }) hk hw hroot
    Table.distinct_empty
  have hextends : (jobOf o document f root { notices := notices }).table.Extends t := by
    rw [show t = _ from congrArg Session.table hsession]
    exact built_extends hj hk hw hroot rfl
  refine ⟨?_, Header.declaration_inHeader o document _ hroot⟩
  constructor
  case form =>
    obtain ⟨hfunctions, -⟩ := declared_functions o document (s := { notices := notices }) hk hw
      hroot Table.distinct_empty
    exact (congrArg Functions.form hfunctions).trans
      (hgiven root (root_mem hk hw hroot) hobject)
  case members => exact members_given o document notices hk hw hroot hf
  case rootTitled =>
    have htitle := title_given o document notices hk hw hroot hf (root_mem hk hw hroot) hobject
      (by simp [standsForMenu, root_kind hk hw hroot]) (by simp [root_kind hk hw hroot])
    rw [if_pos rfl] at htitle
    exact htitle
  case created => exact fun v hv => creation_given o document notices hk hw hroot hf hv
  case titled =>
    intro v hv hmenu hspacer
    obtain ⟨hvisit, hbelow⟩ := List.mem_filter.mp hv
    rw [Bool.and_eq_true] at hbelow
    have htitle := title_given o document notices hk hw hroot hf hvisit hbelow.1 hmenu hspacer
    rw [if_neg (by simpa using hbelow.2)] at htitle
    exact htitle
  case groups =>
    exact fun v hv name hname => groups_given o document notices hk hw hroot hf hv hname
  case objectNames =>
    intro v hv hobject
    obtain ⟨e, he⟩ := hj.known v (hj.objects v hv (.inl hobject)) hobject
    rw [← hgiven v hv hobject]
    exact (Header.nameIn_of_entry (hextends.entries _ e he)).trans (Header.nameIn_of_entry he).symm
  case groupNames =>
    intro name hname
    obtain ⟨g, hg⟩ := hj.groups name hname
    rw [← hgroup name hname]
    exact (Header.groupNameIn_of_group (hextends.groups name g hg)).trans
      (Header.groupNameIn_of_group hg).symm

/-- A form whose objects have the names that the variables of fonts, palettes, brushes, icons and
size policies would get, and which uses all of these and a group that it does not declare. -/
def teasing : Form :=
  ⟨.mk .ui []
    [.node "widget" (.mk .widget [("class", .string "QWidget"), ("name", .string "palette")]
      [.node "property" (.mk .property [("name", .string "palette")]
          [.node "palette" (.mk .palette []
            [.node "active" (.mk .colorGroup []
              [.node "colorrole" (.mk .colorRole [("role", .string "Base")]
                [.node "brush" (.mk .brush [("brushstyle", .string "SolidPattern")]
                  [.node "color" (.mk .color [] [] "")] "")] "")] "")] "")] ""),
        .node "property" (.mk .property [("name", .string "windowIcon")]
          [.node "iconset" (.mk .resourceIcon [] [] "a.png")] ""),
        .node "property" (.mk .property [("name", .string "font")]
          [.node "font" (.mk .font [] [.value "family" (.string "Sans")] "")] ""),
        .node "property" (.mk .property [("name", .string "sizePolicy")]
          [.node "sizepolicy" (.mk .sizePolicy
            [("hsizetype", .string "Fixed"), ("vsizetype", .string "Fixed")] [] "")] ""),
        .node "layout" (.mk .layout [("class", .string "QVBoxLayout"), ("name", .string "icon")]
          [.node "item" (.mk .layoutItem []
              [.node "widget" (.mk .widget
                [("class", .string "QRadioButton"), ("name", .string "font")]
                [.node "attribute" (.mk .property [("name", .string "buttonGroup")]
                  [.node "string" (.mk .string [] [] "brush 1")] "")] "")] ""),
            .node "item" (.mk .layoutItem []
              [.node "widget" (.mk .widget
                [("class", .string "QRadioButton"), ("name", .string "brush")]
                [.node "attribute" (.mk .property [("name", .string "buttonGroup")]
                  [.node "string" (.mk .string [] [] "undeclared")] "")] "")] ""),
            .node "item" (.mk .layoutItem []
              [.node "spacer" (.mk .spacer [("name", .string "undeclared")] [] "")] "")] ""),
        .node "action" (.mk .action [("name", .string "sizePolicy")] [] "")] ""),
      .node "buttongroups" (.mk .buttonGroups []
        [.node "buttongroup" (.mk .buttonGroup [("name", .string "brush 1")] [] "")] "")] ""⟩

theorem given_names_kept_teasing :
    ∃ root, teasing.rootVisit? = some root ∧ Node.All Node.WellFormed teasing.node ∧
      Header.WellNamed teasing ∧
      let d := ((Header.declaration {} 0 teasing root).run {}).1
      let s := (Header.naming 0 teasing root {}).2
      let t := ((functions {} 0 teasing root).run s).2.table
      d.members.map Header.Member.name =
          ["icon", "font", "brush", "undeclared", "sizePolicy", "brush_1"] ∧
        d.functions.setup.filterMap Stmt.constructs? =
          ["icon", "font", "brush_1", "brush", "undeclared1", "undeclared", "sizePolicy"] ∧
        GivenNamesKept {} 0 teasing root d t ∧ d.InHeader {} 0 teasing {} := by
  have hw : Node.All Node.WellFormed teasing.node := by decide +kernel
  have hf : Header.WellNamed teasing :=
    ⟨by decide +kernel, by decide +kernel, by decide +kernel⟩
  refine ⟨_, rfl, hw, hf, ?_, ?_, given_names_kept {} 0 teasing _ [] rfl hw rfl hf⟩
  all_goals decide +kernel

end Setup

end FormCompiler
