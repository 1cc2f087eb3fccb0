import FormCompiler.Proofs.Setup.Equipment
import FormCompiler.Proofs.Setup.GivenNames

/-!
# Connections

The two ends of a connection are looked up by the normal form of the names that the form gives.
Widgets and actions are known by just that, but button groups by the names under which they are
declared.  So a connection of a group whose name is not its own normal form is not made, unless a
button joins a group that goes by the normal form; then it is made to that one
(`connections_made`).
-/

namespace FormCompiler

/-- Whether a statement connects a signal to a slot. -/
def Code.Stmt.isConnection : Code.Stmt → Bool
  | .run function _ => function == "QObject::connect"
  | _ => false

namespace Naming

theorem normalized_normalized (name : String) : normalized (normalized name) = normalized name := by
  have hchar (c : Char) : identifierChar (identifierChar c) = identifierChar c := by
    unfold identifierChar
    split
    · rfl
    · exact ite_self _
  refine String.toList_inj.mp ?_
  simp [normalized, String.toList_map, Function.comp_def, hchar]

end Naming

namespace Setup

open Code Document Naming
open Header (groupNameIn groupNameIn_of_group declaredGroups WellNamed givenName)

/-- The connections of a form, in order. -/
def formConnections (f : Form) : List Node :=
  ((f.node.child? "connections").map (·.children "connection")).getD []

/-- What connects the signal to the slot of a connection. -/
def connecting (n : Node) (sender receiver : String) : Stmt :=
  .run "QObject::connect"
    [.ref sender, .wrap "SIGNAL" (.code (n.string "signal")),
      .ref receiver, .wrap "SLOT" (.code (n.string "slot"))]

theorem connectionStmt_eq_some {t : Table} {n : Node} {x y : String} :
    connectionStmt? t n = some (connecting n x y) ↔
      variableOf? t (n.string "sender") = some x ∧
        variableOf? t (n.string "receiver") = some y := by
  unfold connectionStmt? connecting
  cases variableOf? t (n.string "sender") <;> cases variableOf? t (n.string "receiver") <;> simp

theorem connectionStmt_eq_none {t : Table} {n : Node} :
    connectionStmt? t n = none ↔
      variableOf? t (n.string "sender") = none ∨ variableOf? t (n.string "receiver") = none := by
  unfold connectionStmt?
  cases variableOf? t (n.string "sender") <;> cases variableOf? t (n.string "receiver") <;> simp

namespace Job

variable {job : Job} {v : Visit} {d name x : String}

/-- A form calls a widget, an action or a button group by a name, and it has a variable. -/
inductive Designates (job : Job) : String → String → Prop where
  | object {v : Visit} (hv : v ∈ job.form.visits)
      (hk : v.node.kind = .widget ∨ v.node.kind = .action) :
      Designates job (v.node.stringAttribute "name") (job.name v)
  | group {d : String} (hd : d ∈ declaredGroups job.form) :
      Designates job d (groupNameIn job.table d)

/-- A name is that of a declared group, and nothing goes by its normal form. -/
def Lost (job : Job) (name : String) : Prop :=
  name ∈ declaredGroups job.form ∧ normalized name ≠ name ∧
    ∀ v ∈ job.form.visits, ¬ Joins job.plan v (normalized name)

/-! ## The code of connections -/

theorem Furnished.connections {b : Builder} (h : job.Furnished b) :
    b.setup.filter Stmt.isConnection =
      (formConnections job.form).filterMap (connectionStmt? b.session.table) := by
  have hnotable : ∀ s : Stmt, s.isConnection = true → job.isNotable s = true := by
    intro s hs
    cases s with
    | run function args => simpa [Stmt.isConnection, isNotable, Stmt.isRoutine, handles] using hs
    | _ => cases hs
  have hitems : (job.equipment b [] (job.form.visits.filter isWidget)).filter
      Stmt.isConnection = [] := by
    refine List.filter_eq_nil_iff.mpr fun s hs => ?_
    obtain ⟨v, -, hcode | ⟨d, seen, -, hcode⟩⟩ := mem_equipment hs
    · rcases mem_itemsCode hcode with rfl | ⟨i, -, rfl⟩ <;> exact Bool.false_ne_true
    · rcases mem_enrolment hcode with ⟨-, rfl⟩ | rfl
      · unfold groupCreation
        split <;> exact Bool.false_ne_true
      · exact Bool.false_ne_true
  have hall : (connectionStmts job.form b.session.table).filter Stmt.isConnection =
      connectionStmts job.form b.session.table := by
    refine List.filter_eq_self.mpr fun s hs => ?_
    obtain ⟨n, sender, receiver, -, -, rfl⟩ := mem_connectionStmts hs
    rfl
  rw [filter_notable hnotable, h.setup, List.filter_append, hitems, hall, List.nil_append]
  rfl

/-! ## Looking up names -/

section Lookup

variable {t : Table} (hj : job.Valid) (ht : t.Distinct) (hentries : t.entries = job.table.entries)

include hj ht hentries

theorem found_object (hv : v ∈ job.form.visits)
    (hk : v.node.kind = .widget ∨ v.node.kind = .action) :
    ((t.widgetClass? (job.name v)).isSome || (t.actionIsMenu? (job.name v)).isSome) = true := by
  have hobject : v.node.kind.isObject = true := by rcases hk with hk | hk <;> rw [hk] <;> rfl
  obtain ⟨o, ho⟩ := Option.isSome_iff_exists.mp ((Node.object_isSome v.node).trans hobject)
  obtain ⟨e, he, -, hname, hrole⟩ := hj.entry (hj.objects v hv (.inl hobject)) ho
  rw [← hentries] at he
  rw [Bool.or_eq_true]
  rcases hk with hk | hk
  · simp only [Object.ofNode?, hk] at ho
    obtain rfl := Option.some.inj ho
    exact .inl (Option.isSome_iff_exists.mpr ⟨_, ht.widgetClass_iff.mpr ⟨e, he, hname, hrole⟩⟩)
  · simp only [Object.ofNode?, hk] at ho
    obtain rfl := Option.some.inj ho
    exact .inr (Option.isSome_iff_exists.mpr ⟨_, ht.actionIsMenu_iff.mpr ⟨e, he, hname, hrole⟩⟩)

theorem object_of_found
    (h : ((t.widgetClass? x).isSome || (t.actionIsMenu? x).isSome) = true) :
    ∃ v ∈ job.form.visits, v.node.kind.isObject = true ∧ job.name v = x := by
  obtain ⟨e, he, rfl⟩ : ∃ e ∈ t.entries, e.name = x := by
    rw [Bool.or_eq_true, Option.isSome_iff_exists, Option.isSome_iff_exists] at h
    rcases h with ⟨c, h⟩ | ⟨m, h⟩
    · obtain ⟨e, he, hname, -⟩ := ht.widgetClass_iff.mp h
      exact ⟨e, he, hname⟩
    · obtain ⟨e, he, hname, -⟩ := ht.actionIsMenu_iff.mp h
      exact ⟨e, he, hname⟩
  obtain ⟨v, hv, o, ho, -, hname⟩ := hj.visit (hentries ▸ he)
  exact ⟨v, hj.visits v hv, by rw [← Node.object_isSome, ho]; rfl, hname⟩

variable (hgiven : ∀ v ∈ job.form.visits, v.node.kind.isObject = true → job.name v = givenName v)

include hgiven

theorem variableOf_object (hv : v ∈ job.form.visits)
    (hk : v.node.kind = .widget ∨ v.node.kind = .action) :
    variableOf? t (v.node.stringAttribute "name") = some (job.name v) := by
  have hobject : v.node.kind.isObject = true := by rcases hk with hk | hk <;> rw [hk] <;> rfl
  have hfound := found_object hj ht hentries hv hk
  have hname : normalized (v.node.stringAttribute "name") = job.name v := (hgiven v hv hobject).symm
  simp only [variableOf?, hname]
  rw [if_pos hfound]

theorem variableOf_group (hf : WellNamed job.form) (hd : d ∈ declaredGroups job.form) :
    variableOf? t d = (t.group? (normalized d)).map Group.name := by
  refine if_neg fun h => ?_
  obtain ⟨v, hv, hobject, hname⟩ := object_of_found hj ht hentries h
  exact hf.object_ne_group hv hobject hd ((hgiven v hv hobject).symm.trans hname)

end Lookup

section Resolution

variable {b : Builder} (hj : job.Valid) (h : job.Furnished b) (hf : WellNamed job.form)
  (hgiven : ∀ v ∈ job.form.visits, v.node.kind.isObject = true → job.name v = givenName v)

include hj h hf hgiven

/-- A declared group is found if and only if its name is its own normal form.  If it is not, nothing
is found, or another group. -/
theorem group_resolved (hd : d ∈ declaredGroups job.form) :
    (variableOf? b.session.table d = some (groupNameIn job.table d) ↔ normalized d = d) ∧
      (variableOf? b.session.table d = none ↔ job.Lost d) := by
  obtain ⟨g, hg⟩ := hj.groups d hd
  rw [variableOf_group hj h.sound.distinct h.sound.entries hgiven hf hd, groupNameIn_of_group hg,
    Option.map_eq_none_iff]
  by_cases hnormal : normalized d = d
  · rw [hnormal, h.kept d g hg]
    simp [Lost, hnormal]
  · have hundeclared : ¬ (job.table.group? (normalized d)).isSome = true := fun hsome =>
      hnormal (hf.group_eq (hj.group_isSome.mp hsome) hd (normalized_normalized d))
    refine ⟨iff_of_false (fun hsome => ?_) hnormal, ?_⟩
    · obtain ⟨g', hg', hname⟩ := Option.map_eq_some_iff.mp hsome
      exact hnormal (h.sound.distinct.group_name hg' (h.kept d g hg) hname)
    · have hknown := h.enlisted.known (normalized d)
      rw [or_iff_right hundeclared, mem_joinedGroups] at hknown
      rw [← Option.not_isSome_iff_eq_none, hknown]
      simp [Lost, hd, hnormal]

/-- A name leads to what it designates unless it is that of a group and not its own normal form. -/
theorem Designates.resolved (hname : job.Designates name x) :
    (variableOf? b.session.table name = some x ↔
      (name ∈ declaredGroups job.form → normalized name = name)) ∧
      (variableOf? b.session.table name = none ↔ job.Lost name) := by
  cases hname with
  | object hv hk =>
    rename_i v
    have hobject : v.node.kind.isObject = true := by rcases hk with hk | hk <;> rw [hk] <;> rfl
    have hother : v.node.stringAttribute "name" ∉ declaredGroups job.form :=
      fun hd => hf.object_ne_group hv hobject hd rfl
    rw [variableOf_object hj h.sound.distinct h.sound.entries hgiven hv hk]
    simp [Lost, hother]
  | group hd =>
    obtain ⟨hfound, hlost⟩ := group_resolved hj h hf hgiven hd
    exact ⟨hfound.trans (by simp [hd]), hlost⟩

end Resolution

end Job

/-- Statements are made for the connections of a form, in their order. -/
structure Job.Connected (job : Job) (made : Node → Option Stmt) (setup : List Stmt) : Prop where
  all : setup.filter Stmt.isConnection = (formConnections job.form).filterMap made
  /-- A connection of two objects is made between their variables unless one is a group whose name
  is not its own normal form. -/
  right : ∀ n ∈ formConnections job.form, ∀ x y,
    job.Designates (n.string "sender") x → job.Designates (n.string "receiver") y →
      (made n = some (connecting n x y) ↔ ∀ name ∈ [n.string "sender", n.string "receiver"],
        name ∈ declaredGroups job.form → normalized name = name)
  /-- It is not made at all if nothing else goes by the normal form. -/
  dropped : ∀ n ∈ formConnections job.form, ∀ x y,
    job.Designates (n.string "sender") x → job.Designates (n.string "receiver") y →
      (made n = none ↔ ∃ name ∈ [n.string "sender", n.string "receiver"], job.Lost name)

/-- If the names that a form gives to its objects and button groups are different as identifiers, a
connection between declared objects is made between their variables, by one statement and in the
order of the connections, if and only if each of the two that is a button group has a name that is
its own normal form. -/
theorem connections_made (o : Options) (document : Nat) (f : Form) (root : Visit)
    (notices : List Notice) (hk : f.node.kind = .ui) (hw : Node.All Node.WellFormed f.node)
    (hroot : f.rootVisit? = some root) (hf : WellNamed f) :
    let d := ((Header.declaration o document f root).run { notices := notices }).1
    let job := jobOf o document f root { notices := notices }
    ∃ made, job.Connected made d.functions.setup := by
  intro d job
  have hd : ({ notices := notices } : Session).table.Distinct := Table.distinct_empty
  have hvalid : job.Valid := jobOf_valid o document f root notices hk hw hroot
  have hj : job.Named := jobOf_named o document hk hw hroot hd
  obtain ⟨hgiven, -⟩ := Header.namedTable_given document hf hk hw hroot notices
  let b := built job.plan job.form (Header.naming document f root { notices := notices }).2
  have hsetup : d.functions.setup = b.setup := (declaration_built o document hk hw hroot hd).1
  have hfurnished : job.Furnished b := Job.built_furnished hj hw rfl
  refine ⟨connectionStmt? b.session.table, ⟨?_, fun n _ x y hx hy => ?_, fun n _ x y hx hy => ?_⟩⟩
  · rw [hsetup]
    exact hfurnished.connections
  · have hsender := (hx.resolved hvalid hfurnished hf hgiven).1
    have hreceiver := (hy.resolved hvalid hfurnished hf hgiven).1
    rw [connectionStmt_eq_some, hsender, hreceiver, List.forall_mem_cons, List.forall_mem_singleton]
  · have hsender := (hx.resolved hvalid hfurnished hf hgiven).2
    have hreceiver := (hy.resolved hvalid hfurnished hf hgiven).2
    rw [connectionStmt_eq_none, hsender, hreceiver]
    simp

/-- The connection of a button group to the form. -/
def closes (group : String) : Node :=
  .mk .connection []
    [.value "sender" (.string group), .value "signal" (.string "buttonClicked(int)"),
      .value "receiver" (.string "Form"), .value "slot" (.string "close()")] ""

/-- The root widget of the form below. -/
def panel : Visit :=
  ⟨[0], .mk .widget [("class", .string "QWidget"), ("name", .string "Form")] [] ""⟩

/-- A form that connects two groups; the name of one is not its own normal form. -/
def switchboard : Form :=
  ⟨.mk .ui []
    [.node "widget" panel.node,
      .node "connections" (.mk .connections []
        [.node "connection" (closes "group"), .node "connection" (closes "my group")] ""),
      .node "buttongroups" (.mk .buttonGroups []
        [.node "buttongroup" (.mk .buttonGroup [("name", .string "group")] [] ""),
          .node "buttongroup" (.mk .buttonGroup [("name", .string "my group")] [] "")] "")] ""⟩

/-- The first connection is made and the second is lost. -/
theorem connections_made_switchboard :
    switchboard.rootVisit? = some panel ∧ Node.All Node.WellFormed switchboard.node ∧
      WellNamed switchboard ∧ formConnections switchboard = [closes "group", closes "my group"] ∧
      let d := ((Header.declaration {} 0 switchboard panel).run {}).1
      d.functions.setup.filter Stmt.isConnection =
        [connecting (closes "group") "group" "Form"] := by
  have hw : Node.All Node.WellFormed switchboard.node := by decide +kernel
  have hf : WellNamed switchboard := ⟨by decide +kernel, by decide +kernel, by decide +kernel⟩
  obtain ⟨made, hmade⟩ := connections_made {} 0 switchboard panel [] rfl hw rfl hf
  let job := jobOf {} 0 switchboard panel {}
  have hall : formConnections switchboard = [closes "group", closes "my group"] := rfl
  have hform := @Job.Designates.object job panel (root_mem rfl hw rfl) (.inl rfl)
  have hgroup : job.Designates "group" (groupNameIn job.table "group") := .group (by decide)
  have hother := @Job.Designates.group job "my group" (by decide)
  rw [show panel.node.stringAttribute "name" = "Form" from rfl,
    show job.name panel = "Form" from by decide +kernel] at hform
  rw [show groupNameIn job.table "group" = "group" from by decide +kernel] at hgroup
  have hmem : ∀ n ∈ [closes "group", closes "my group"], n ∈ formConnections job.form :=
    fun _ hn => hn
  have hfirst := (hmade.right (closes "group") (hmem _ (by simp)) _ _ hgroup hform).mpr
    (by decide +kernel)
  have hlost : job.Lost "my group" := ⟨by decide, by decide +kernel, by decide +kernel⟩
  have hsecond := (hmade.dropped (closes "my group") (hmem _ (by simp)) _ _ hother hform).mpr
    ⟨_, List.mem_cons_self .., hlost⟩
  refine ⟨rfl, hw, hf, hall, hmade.all.trans ?_⟩
  change [closes "group", closes "my group"].filterMap made = _
  simp [hfirst, hsecond]

end Setup

end FormCompiler
