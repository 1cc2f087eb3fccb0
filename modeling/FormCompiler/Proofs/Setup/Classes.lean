import FormCompiler.Proofs.Setup.Parents

/-!
# Declared classes and created classes

The class in the declaration of a member and the class of which the setup function creates the
object are worked out apart.  They are the same for every object (`classes_agree_iff`), except for
widgets and layouts without a class: their members are declared with a general class, but what is
created has no class at all.
-/

namespace FormCompiler.Setup

open Code Document Naming

/-- A widget or layout that says of which class it is; the class of all other objects is fixed. -/
def Classed (n : Node) : Prop :=
  n.kind = .widget ∨ n.kind = .layout → n.stringAttribute "class" ≠ ""

theorem createdClass_eq_iff {n : Node} (hobject : n.kind.isObject = true) :
    createdClass n = (Header.memberClass? n).getD "" ↔ Classed n := by
  cases h : n.kind with
  | widget | layout =>
    by_cases hempty : n.stringAttribute "class" = ""
    · simp [createdClass, Header.memberClass?, Classed, Classes.Custom.realClass, h, hempty]
    · simp [createdClass, Header.memberClass?, Classed, h, hempty]
  | spacer | actionGroup | action => simp [createdClass, Header.memberClass?, Classed, h]
  | _ =>
    rw [h] at hobject
    cases hobject

/-- Each object but the root widget that the setup function creates has a member, and is created by
one statement.  The class in the declaration of the member is the class in that statement, unless
the object is a widget or a layout without a class: then they differ. -/
theorem classes_agree_iff (o : Options) (document : Nat) (f : Form) (root : Visit) (s : Session)
    (hk : f.node.kind = .ui) (hw : Node.All Node.WellFormed f.node)
    (hroot : f.rootVisit? = some root) (hd : s.table.Distinct) :
    let d := ((Header.declaration o document f root).run s).1
    let t := Header.namedTable document f root s
    ∀ v ∈ Header.objectVisits f root, standsForMenu v.node = false →
      let m := Header.memberIn document t v
      m ∈ d.members ∧
        ∃ className args,
          Job.creationsOf m.name d.functions.setup = [.create m.name className args] ∧
            (className = m.className ↔ Classed v.node) := by
  intro d t v hv hmenu m
  have hmembers := declared_members o document hk hw hroot hd
  obtain ⟨args, hcreation⟩ := object_created o document hk hw hroot hd hv hmenu
  have hobject := (Bool.and_eq_true_iff.mp (List.mem_filter.mp hv).2).1
  refine ⟨?_, createdClass v.node, args, hcreation, createdClass_eq_iff hobject⟩
  rw [show d.members = _ from hmembers]
  exact List.mem_append_left _ (List.mem_map_of_mem hv)

/-- Among the objects of a form that has a line and a widget without a class, the latter is declared
as a widget and created of nothing. -/
theorem classes_agree_iff_clashing :
    ∃ root v, Header.clashing.rootVisit? = some root ∧
      Node.All Node.WellFormed Header.clashing.node ∧
      v ∈ Header.objectVisits Header.clashing root ∧ standsForMenu v.node = false ∧
      let d := ((Header.declaration {} 0 Header.clashing root).run {}).1
      let m := Header.memberIn 0 (Header.namedTable 0 Header.clashing root {}) v
      d.members.map Header.Member.className =
          ["QVBoxLayout", "QFrame", "QWidget", "QActionGroup", "QAction", "QButtonGroup"] ∧
        m = ⟨"QWidget", "x2"⟩ ∧
        Job.creationsOf "x2" d.functions.setup = [.create "x2" "" [.ref "x"]] ∧
        Job.creationsOf "line" d.functions.setup = [.create "line" "QFrame" [.ref "x"]] ∧
        m ∈ d.members ∧
        ∃ className args,
          Job.creationsOf m.name d.functions.setup = [.create m.name className args] ∧
            (className = m.className ↔ Classed v.node) := by
  have hw : Node.All Node.WellFormed Header.clashing.node := by decide +kernel
  let v : Visit := ⟨[1, 0], .mk .widget [("name", .string "x")] [] ""⟩
  have hv : ∀ root : Visit, root.path = [0] → v ∈ Header.objectVisits Header.clashing root :=
    fun root hpath => List.mem_filter.mpr ⟨(Node.mem_visits _ v).mpr rfl, by rw [hpath]; rfl⟩
  refine ⟨_, v, rfl, hw, hv _ rfl, rfl, ?_, ?_, ?_, ?_,
    classes_agree_iff {} 0 Header.clashing _ {} rfl hw rfl Table.distinct_empty v (hv _ rfl) rfl⟩
  all_goals decide +kernel

end FormCompiler.Setup
