import FormCompiler.Proofs.Document.Places
import FormCompiler.Proofs.Document.Ways
import FormCompiler.Proofs.Setup.Properties

/-!
# The objects that a walk meets

`Job.Valid` is what holds of a job once everything that its form declares has a name: the root
widget and the objects below it are the objects of the table, and the groups of the table are those
the form declares.  From it follows which names may be assigned: none of those of missing objects.
-/

namespace FormCompiler.Setup

open Code Document Naming
open Header (nameIn groupNameIn groupNodes declaredGroups Tracks)

/-- The setup has nothing to do at the nodes that no walk meets, nor at gradients. -/
theorem walker_keepsOut (plan : Plan) : (walker plan).KeepsOut := by
  intro c v s h
  cases hk : v.node.kind with
  | ui | layoutItem | widget | layout | actionGroup | spacer | action | actionRef =>
    rw [hk] at h
    rcases h with h | h <;> cases h
  | _ =>
    simp only [walker, hk]
    rfl

theorem walk_entered {plan : Plan} {c inner : Context} {path : List Nat} {n : Node}
    {b b' : Builder} (hwell : Node.All Node.WellFormed n)
    (h : (walker plan).enter c ⟨path, n⟩ b = (some inner, b')) :
    (n.walk (walker plan) c path b).2 = ((walker plan).leave c inner ⟨path, n⟩
      (Node.walkFields (walker plan) inner path 0 n.fields b').2).2 :=
  Node.walk_entered hwell (walker_keepsOut plan) h

namespace Job

/-- Everything that the form declares has a name, and nothing else has one. -/
structure Valid (job : Job) : Prop where
  distinct : job.table.Distinct
  root : job.root.node.kind = .widget
  mainForm : job.plan.mainForm = job.name job.root
  known : ∀ v ∈ job.visits, v.node.kind.isObject = true →
    ∃ e, job.table.entry? ⟨job.plan.document, v.path⟩ = some e
  tracks : Tracks job.plan.document job.visits job.table
  filled : ∀ e ∈ job.table.entries, e.name ≠ ""
  groups : ∀ d ∈ declaredGroups job.form, ∃ g, job.table.group? d = some g
  nodes : ∀ d g, job.table.group? d = some g → groupNode? job.form d = some g.node
  visits : ∀ v ∈ job.visits, v ∈ job.form.visits
  objects : ∀ v ∈ job.form.visits, v.node.kind.isObject = true ∨ v.node.kind = .actionRef →
    v ∈ job.visits
  nameless : job.plan.classes.find? "" = none

variable {job : Job} {b : Builder}

theorem created_object {n : Node} (hobject : n.kind.isObject = true)
    (hmenu : n.kind = .action → n.attribute? "menu" = none) :
    ∃ o, Object.ofNode? n = some o ∧ o.role ≠ .action true := by
  obtain ⟨o, ho⟩ := Option.isSome_iff_exists.mp ((Node.object_isSome n).trans hobject)
  refine ⟨o, ho, fun hrole => ?_⟩
  rcases role_of_object ho with ⟨-, h⟩ | ⟨-, h⟩ | ⟨-, h⟩ | ⟨-, h⟩ | ⟨hk, h⟩
  · cases h.symm.trans hrole
  · cases h.symm.trans hrole
  · cases h.symm.trans hrole
  · cases h.symm.trans hrole
  · rw [hmenu hk] at h
    cases h.symm.trans hrole

namespace Valid

variable (hj : job.Valid)

include hj

theorem entry {v : Visit} {o : Object} (hv : v ∈ job.visits)
    (ho : Object.ofNode? v.node = some o) :
    ∃ e ∈ job.table.entries, job.table.entry? ⟨job.plan.document, v.path⟩ = some e ∧
      e.name = job.name v ∧ e.role = o.role := by
  have hobject : v.node.kind.isObject = true := by
    rw [← Node.object_isSome, ho]
    rfl
  obtain ⟨e, he⟩ := hj.known v hv hobject
  obtain ⟨hmem, hplace⟩ := Table.entry_mem he
  obtain ⟨w, hw, o', ho', hplace', hrole⟩ := hj.tracks e hmem
  have hpath : v.path = w.path := congrArg Place.path (hplace.symm.trans hplace')
  obtain rfl := Node.eq_of_path (hj.visits v hv) (hj.visits w hw) hpath
  rw [ho] at ho'
  exact ⟨e, hmem, he, (Header.nameIn_of_entry he).symm, hrole.trans (by rw [Option.some.inj ho'])⟩

theorem visit {e : Entry} (he : e ∈ job.table.entries) :
    ∃ v ∈ job.visits, ∃ o, Object.ofNode? v.node = some o ∧ e.role = o.role ∧
      job.name v = e.name := by
  obtain ⟨v, hv, o, ho, hplace, hrole⟩ := hj.tracks e he
  have hentry := hj.distinct.entry_of_mem he
  rw [hplace] at hentry
  exact ⟨v, hv, o, ho, hrole, Header.nameIn_of_entry hentry⟩

theorem name_ne_empty {v : Visit} {o : Object} (hv : v ∈ job.visits)
    (ho : Object.ofNode? v.node = some o) : job.name v ≠ "" := by
  obtain ⟨e, he, _, hname, _⟩ := hj.entry hv ho
  exact hname ▸ hj.filled e he

theorem entry_taken {e : Entry} (he : e ∈ job.table.entries) : e.name ∈ job.table.taken :=
  hj.distinct.taken _ (List.mem_append_left _ (List.mem_map_of_mem he))

theorem group_taken {d : String} {g : Group} (hg : job.table.group? d = some g) :
    g.name ∈ job.table.taken :=
  hj.distinct.taken _ (List.mem_append_right _ (List.mem_map_of_mem (Table.group_mem hg).1))

theorem group_of_node {d : String} {n : Node} (hn : groupNode? job.form d = some n) :
    ∃ g, job.table.group? d = some g ∧ g.node = n := by
  have hmem : d ∈ declaredGroups job.form :=
    List.mem_map.mpr ⟨n, List.mem_of_find?_eq_some hn, by simpa using List.find?_some hn⟩
  obtain ⟨g, hg⟩ := hj.groups d hmem
  exact ⟨g, hg, Option.some.inj ((hj.nodes d g hg).symm.trans hn)⟩

/-! ## What is missing -/

theorem lacksMenu_entry {x : String} (h : job.LacksMenu x) :
    ∃ e ∈ job.table.entries, e.name = x ∧ e.role = .action true :=
  hj.distinct.actionIsMenu_iff.mp h.1

theorem lacksButton_group {x : String} (h : job.LacksButton x) :
    ∃ d g, job.table.group? d = some g ∧ g.name = x ∧
      ∀ v ∈ job.form.visits, ¬ Joins job.plan v d := by
  obtain ⟨d, hd, hname, hjoins⟩ := h
  obtain ⟨g, hg⟩ := hj.groups d hd
  rw [Header.groupNameIn_of_group hg] at hname
  exact ⟨d, g, hg, hname, hjoins⟩

theorem missing_taken {x : String} (h : job.Missing x) : x ∈ job.table.taken := by
  rcases h with h | h
  · obtain ⟨e, he, rfl, _⟩ := hj.lacksMenu_entry h
    exact hj.entry_taken he
  · obtain ⟨d, g, hg, rfl, _⟩ := hj.lacksButton_group h
    exact hj.group_taken hg

/-- Of the objects of the table only actions that stand for a menu can be missing. -/
theorem object_not_missing {e : Entry} (he : e ∈ job.table.entries)
    (hrole : e.role ≠ .action true) : ¬ job.Missing e.name := by
  rintro (h | h)
  · obtain ⟨e', he', hname, hrole'⟩ := hj.lacksMenu_entry h
    exact hrole (hj.distinct.eq_of_name he' he hname ▸ hrole')
  · obtain ⟨d, g, hg, hname, _⟩ := hj.lacksButton_group h
    exact hj.distinct.entry_ne_group he (Table.group_mem hg).1 hname.symm

/-- The action of a menu of the form is not missing. -/
theorem menu_not_missing {v : Visit} (hv : v ∈ job.form.visits) (hmenu : job.IsMenu v)
    (ha : job.table.actionIsMenu? (job.name v ++ "Action") = some true) :
    ¬ job.Missing (job.name v ++ "Action") := by
  rintro (h | h)
  · exact h.2 v hv hmenu rfl
  · obtain ⟨e, he, hname, _⟩ := hj.distinct.actionIsMenu_iff.mp ha
    obtain ⟨d, g, hg, hname', _⟩ := hj.lacksButton_group h
    exact hj.distinct.entry_ne_group he (Table.group_mem hg).1 (hname.trans hname'.symm)

/-- A button group that a button joins is not missing, under whatever name it goes. -/
theorem group_not_missing {v : Visit} {t : Table} {d : String} {g : Group}
    (hv : v ∈ job.form.visits) (hjoins : Joins job.plan v d) (ht : t.Distinct)
    (hgrows : job.table.Extends t) (hentries : t.entries = job.table.entries)
    (hg : t.group? d = some g) : ¬ job.Missing g.name := by
  rintro (h | h)
  · obtain ⟨e, he, hname, _⟩ := hj.lacksMenu_entry h
    exact ht.entry_ne_group (hentries ▸ he) (Table.group_mem hg).1 hname
  · obtain ⟨d', g', hg', hname, hno⟩ := hj.lacksButton_group h
    rw [ht.group_name (hgrows.groups d' g' hg') hg hname] at hno
    exact hno v hv hjoins

/-! ## Names that may be assigned -/

theorem assignable_object (hb : job.Consistent b) {v : Visit} {o : Object} (hv : v ∈ job.visits)
    (ho : Object.ofNode? v.node = some o) (hrole : o.role ≠ .action true) :
    job.Assignable b (job.name v) := by
  obtain ⟨e, he, _, hname, hrole'⟩ := hj.entry hv ho
  rw [← hname]
  exact ⟨hb.grows.taken _ (hj.entry_taken he), hj.object_not_missing he (hrole' ▸ hrole)⟩

theorem nameAt_visit (hb : job.Consistent b) {v : Visit} {o : Object} (hv : v ∈ job.visits)
    (ho : Object.ofNode? v.node = some o) : nameAt job.plan v b = (job.name v, b) := by
  obtain ⟨e, _, he, _⟩ := hj.entry hv ho
  exact nameAt_object hb v o e ho he

end Valid

end Job

end FormCompiler.Setup
