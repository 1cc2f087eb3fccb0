import FormCompiler.Proofs.Document.Places
import FormCompiler.Proofs.Naming.Table

/-!
# Symbol tables over whole runs

An operation on a symbol table is one of `Operation`; `perform` carries it out and `after` gives the
session that a sequence of them leaves.  Objects are nodes of documents, given by the document and
the path in it; button groups are known by their declared names (`Subject`).

`Effect` says all that one operation can do.  What a run keeps follows from it: the name once given
for a subject stays (`held_iff`), and a name that was handed out without a subject never becomes the
name of one (`loose_after`).  `after_consistent` puts this together for runs from an empty table,
which is the table of a new session and of one that has been reset.
-/

namespace FormCompiler.Naming

open Document

/-! ## Operations -/

/-- What is kept track of: an object by its place, a button group by its declared name. -/
inductive Subject where
  | object (place : Place)
  | group (declared : String)
  deriving Repr, DecidableEq

/-- What a node stands for; a layout item stands for what it holds. -/
def Subject.ofNode? (document : Nat) (path : List Nat) (n : Node) : Option Subject :=
  match n.kind with
  | .layoutItem => ((n.payload?.bind Field.node?).bind Object.ofNode?).map fun _ =>
      .object ⟨document, 0 :: path⟩
  | .buttonGroup => some (.group (n.stringAttribute "name"))
  | _ => (Object.ofNode? n).map fun _ => .object ⟨document, path⟩

inductive Operation where
  | unique (wanted className : String)
  | find (document : Nat) (path : List Nat)
  | insertPixmap (name : String)
  | addProblem (text : String)
  | hasName (name : String)
  | widgetClass (name : String)
  | actionIsMenu (name : String)
  | isActionGroup (name : String)
  | group (declared : String)
  | containsPixmap (name : String)
  | problems

inductive Answer where
  | done
  | name (name : String)
  | truth (b : Bool)
  | className (c : Option String)
  | isMenu (m : Option Bool)
  | group (n : Option Node)
  | texts (problems : List String)

namespace Operation

variable (documents : Nat → Node)

def perform : Operation → StateM Session Answer
  | unique wanted className => Answer.name <$> Session.unique wanted className
  | find document path => match (documents document).nodeAt? path with
    | none => pure .done
    | some n =>
      (fun x => (x.map Answer.name).getD .done) <$> Session.nameOfVisit? document ⟨path, n⟩
  | insertPixmap name => fun s => (.done, { s with table := s.table.insertPixmap name })
  | addProblem text => fun s => (.done, { s with table := s.table.addProblem text })
  | hasName name => fun s => (.truth (s.table.hasName name), s)
  | widgetClass name => fun s => (.className (s.table.widgetClass? name), s)
  | actionIsMenu name => fun s => (.isMenu (s.table.actionIsMenu? name), s)
  | isActionGroup name => fun s => (.truth (s.table.isActionGroup name), s)
  | group declared => fun s => (.group ((s.table.group? declared).map Group.node), s)
  | containsPixmap name => fun s => (.truth (s.table.containsPixmap name), s)
  | problems => fun s => (.texts s.table.problems, s)

/-- What an operation asks a name for. -/
def subject? : Operation → Option Subject
  | find document path =>
    ((documents document).nodeAt? path).bind (Subject.ofNode? document path)
  | _ => none

/-- The button group that an operation asks a name for. -/
def groupNode? : Operation → Option Node
  | find document path => ((documents document).nodeAt? path).filter (·.kind == .buttonGroup)
  | _ => none

/-- Whether an operation hands out a name for no subject. -/
def isUnique : Operation → Bool
  | unique _ _ => true
  | _ => false

theorem subject_of_group {op : Operation} {n : Node} (h : op.groupNode? documents = some n) :
    op.subject? documents = some (.group (n.stringAttribute "name")) := by
  cases op with
  | find document path =>
    obtain ⟨hnode, hkind⟩ := Option.filter_eq_some_iff.mp h
    rw [subject?, hnode, Option.bind_some, Subject.ofNode?, beq_iff_eq.mp hkind]
  | _ => cases h

end Operation

/-- The name that a table keeps for a subject. -/
def Table.held? (t : Table) : Subject → Option String
  | .object place => (t.entry? place).map Entry.name
  | .group declared => (t.group? declared).map Group.name

/-! ## One operation -/

/-- The ways in which an operation can go: it hands out a name for no subject, it names an object or
a button group, or it does nothing that concerns names. -/
inductive Effect (documents : Nat → Node) (op : Operation) (s : Session) :
    Answer → Session → Prop where
  | loose (wanted className : String) (notices : List Notice)
      (hop : op = .unique wanted className) :
      Effect documents op s (.name (s.table.unique wanted className).1)
        ⟨(s.table.unique wanted className).2.1, notices⟩
  | object (p : Place) (n : Node) (o : Object) (hop : op.subject? documents = some (.object p))
      (hnode : (documents p.document).nodeAt? p.path = some n) (ho : Object.ofNode? n = some o) :
      Effect documents op s (.name (s.table.nameOf p o).1)
        ⟨(s.table.nameOf p o).2.1, s.notices ++ (s.table.nameOf p o).2.2⟩
  | group (n : Node) (hop : op.groupNode? documents = some n) :
      Effect documents op s (.name (s.table.nameOfGroup n).1)
        ⟨(s.table.nameOfGroup n).2.1, s.notices ++ (s.table.nameOfGroup n).2.2⟩
  | other (answer : Answer) (s' : Session) (hop : op.subject? documents = none)
      (hunique : op.isUnique = false) (htaken : s'.table.taken = s.table.taken)
      (hentries : s'.table.entries = s.table.entries)
      (hgroups : s'.table.groups = s.table.groups) : Effect documents op s answer s'

section Steps

variable {documents : Nat → Node} {op : Operation} {s s' : Session} {answer : Answer}

theorem effect_item {document : Nat} {path : List Nat} {n : Node} (hk : n.kind = .layoutItem)
    (hn : (documents document).nodeAt? path = some n) :
    Effect documents (.find document path) s
      (((Session.nameOfVisit? document ⟨path, n⟩ s).1.map Answer.name).getD .done)
      (Session.nameOfVisit? document ⟨path, n⟩ s).2 := by
  have hsubject : (Operation.find document path).subject? documents =
      ((n.payload?.bind Field.node?).bind Object.ofNode?).map fun _ =>
        .object ⟨document, 0 :: path⟩ := by
    rw [Operation.subject?, hn, Option.bind_some, Subject.ofNode?, hk]
  cases hp : n.payload? with
  | none =>
    simp only [Session.nameOfVisit?, hk, hp]
    exact .other _ s (by rw [hsubject, hp]; rfl) rfl rfl rfl rfl
  | some f =>
    cases f with
    | value tag v =>
      simp only [Session.nameOfVisit?, hk, hp]
      exact .other _ s (by rw [hsubject, hp]; rfl) rfl rfl rfl rfl
    | node tag m =>
      rw [hp, Option.bind_some, Field.node?, Option.bind_some] at hsubject
      cases ho : Object.ofNode? m with
      | none =>
        simp only [Session.nameOfVisit?, hk, hp, ho]
        exact .other _ s (by rw [hsubject, ho]; rfl) rfl rfl rfl rfl
      | some o =>
        have hm : (documents document).nodeAt? (0 :: path) = some m := by
          rw [Node.nodeAt?, hn, Option.bind_some, ← List.head?_eq_getElem?]
          exact congrArg (Option.bind · Field.node?) hp
        rw [nameOfVisit_item document hk hp ho, nameOfVisit_object document _ o ho]
        exact .object ⟨document, 0 :: path⟩ m o (by rw [hsubject, ho]; rfl) hm ho

theorem effect_find {document : Nat} {path : List Nat} {n : Node}
    (hn : (documents document).nodeAt? path = some n) :
    Effect documents (.find document path) s
      (((Session.nameOfVisit? document ⟨path, n⟩ s).1.map Answer.name).getD .done)
      (Session.nameOfVisit? document ⟨path, n⟩ s).2 := by
  by_cases hitem : n.kind = .layoutItem
  · exact effect_item hitem hn
  by_cases hgroup : n.kind = .buttonGroup
  · have hop : (Operation.find document path).groupNode? documents = some n := by
      rw [Operation.groupNode?, hn, Option.filter_some, hgroup]
      rfl
    simp only [Session.nameOfVisit?, hgroup]
    exact .group n hop
  have hsubject : (Operation.find document path).subject? documents =
      (Object.ofNode? n).map fun _ => .object ⟨document, path⟩ := by
    rw [Operation.subject?, hn, Option.bind_some]
    unfold Subject.ofNode?
    split
    · contradiction
    · contradiction
    · rfl
  cases ho : Object.ofNode? n with
  | none =>
    have hrun : Session.nameOfVisit? document ⟨path, n⟩ s = (none, s) := by
      simp only [Session.nameOfVisit?, ho]
      cases hk : n.kind <;> first | contradiction | rfl
    rw [hrun]
    exact .other _ s (by rw [hsubject, ho]; rfl) rfl rfl rfl rfl
  | some o =>
    rw [nameOfVisit_object document ⟨path, n⟩ o ho]
    exact .object ⟨document, path⟩ n o (by rw [hsubject, ho]; rfl) hn ho

theorem perform_effect (documents : Nat → Node) (op : Operation) (s : Session) :
    Effect documents op s (op.perform documents s).1 (op.perform documents s).2 := by
  cases op with
  | unique wanted className => exact .loose wanted className _ rfl
  | find document path =>
    cases hn : (documents document).nodeAt? path with
    | none =>
      simp only [Operation.perform, hn]
      exact .other .done s (by rw [Operation.subject?, hn, Option.bind_none]) rfl rfl rfl rfl
    | some n =>
      simp only [Operation.perform, hn]
      exact effect_find hn
  | insertPixmap name =>
    have hsame : (s.table.insertPixmap name).taken = s.table.taken ∧
        (s.table.insertPixmap name).entries = s.table.entries ∧
        (s.table.insertPixmap name).groups = s.table.groups := by
      unfold Table.insertPixmap
      split <;> exact ⟨rfl, rfl, rfl⟩
    exact .other _ _ rfl rfl hsame.1 hsame.2.1 hsame.2.2
  | _ => exact .other _ _ rfl rfl rfl rfl rfl

/-! ## What one operation keeps -/

theorem Effect.later (h : Effect documents op s answer s') (hd : s.table.Distinct) :
    s.table.Later s'.table := by
  cases h with
  | loose wanted className notices hop => exact Table.unique_later hd wanted className
  | object p n o hop hnode ho => exact Table.nameOf_later hd p o
  | group n hop => exact Table.nameOfGroup_later hd n
  | other answer s' hop hunique htaken hentries hgroups =>
    have hnames : s'.table.names = s.table.names := by
      rw [Table.names, Table.names, hentries, hgroups]
    refine ⟨⟨fun x hx => htaken ▸ hx, fun p e he => ?_, fun d g hg => ?_⟩,
      ⟨hnames ▸ hd.nodup, ?_, hentries ▸ hd.places, hgroups ▸ hd.declared⟩,
      fun x _ hx => hnames ▸ hx⟩
    · rw [Table.entry?, hentries]
      exact he
    · rw [Table.group?, hgroups]
      exact hg
    · rw [hnames, htaken]
      exact hd.taken

/-- Asking for a subject answers with the name that is kept for it from then on. -/
theorem Effect.held (h : Effect documents op s answer s') (hd : s.table.Distinct) {a : Subject}
    (ha : op.subject? documents = some a) :
    ∃ x, answer = .name x ∧ s'.table.held? a = some x := by
  cases h with
  | loose wanted className notices hop =>
    rw [hop] at ha
    cases ha
  | object p n o hop hnode ho =>
    obtain rfl := Option.some.inj (hop.symm.trans ha)
    obtain ⟨-, -, e, he, hname⟩ := Table.nameOf_spec s.table p o hd
    exact ⟨_, rfl, by rw [Table.held?, he, Option.map_some, hname]⟩
  | group n hop =>
    obtain rfl := Option.some.inj ((Operation.subject_of_group documents hop).symm.trans ha)
    obtain ⟨-, -, g, hg, hname⟩ := Table.nameOfGroup_spec s.table n hd
    exact ⟨_, rfl, by rw [Table.held?, hg, Option.map_some, hname]⟩
  | other answer s' hop hunique htaken hentries hgroups =>
    rw [hop] at ha
    cases ha

/-- Only asking for a subject gives it a name. -/
theorem Effect.new (h : Effect documents op s answer s') (a : Subject) :
    s'.table.held? a = s.table.held? a ∨ op.subject? documents = some a := by
  cases h with
  | loose wanted className notices hop => exact .inl (by cases a <;> rfl)
  | object p n o hop hnode ho =>
    cases he : s.table.entry? p with
    | some e =>
      rw [Table.nameOf_known o he]
      exact .inl rfl
    | none =>
      rw [Table.nameOf_new o he]
      by_cases hap : a = .object p
      · exact .inr (hap ▸ hop)
      left
      cases a with
      | object q =>
        have hpq : (p == q) = false := by
          rw [beq_eq_false_iff_ne]
          rintro rfl
          exact hap rfl
        simp only [Table.held?, Table.entry?, List.find?_cons, hpq]
      | group d => rfl
  | group n hop =>
    cases hg : s.table.group? (n.stringAttribute "name") with
    | some g =>
      rw [Table.nameOfGroup_known hg]
      exact .inl rfl
    | none =>
      rw [Table.nameOfGroup_new hg]
      by_cases han : a = .group (n.stringAttribute "name")
      · exact .inr (han ▸ Operation.subject_of_group documents hop)
      left
      cases a with
      | object q => rfl
      | group d =>
        have hnd : (n.stringAttribute "name" == d) = false := by
          rw [beq_eq_false_iff_ne]
          rintro rfl
          exact han rfl
        simp only [Table.held?, Table.group?, List.find?_cons, hnd]
  | other answer s' hop hunique htaken hentries hgroups =>
    left
    cases a with
    | object p => rw [Table.held?, Table.held?, Table.entry?, Table.entry?, hentries]
    | group d => rw [Table.held?, Table.held?, Table.group?, Table.group?, hgroups]

/-- A subject that has a name is not named again. -/
theorem Effect.again (h : Effect documents op s answer s') {a : Subject} {x : String}
    (ha : op.subject? documents = some a) (hx : s.table.held? a = some x) :
    answer = .name x ∧ s' = s := by
  cases h with
  | loose wanted className notices hop =>
    rw [hop] at ha
    cases ha
  | object p n o hop hnode ho =>
    obtain rfl := Option.some.inj (hop.symm.trans ha)
    obtain ⟨e, he, rfl⟩ := Option.map_eq_some_iff.mp hx
    rw [Table.nameOf_known o he, List.append_nil]
    exact ⟨rfl, rfl⟩
  | group n hop =>
    obtain rfl := Option.some.inj ((Operation.subject_of_group documents hop).symm.trans ha)
    obtain ⟨g, hg, rfl⟩ := Option.map_eq_some_iff.mp hx
    rw [Table.nameOfGroup_known hg, List.append_nil]
    exact ⟨rfl, rfl⟩
  | other answer s' hop hunique htaken hentries hgroups =>
    rw [hop] at ha
    cases ha

theorem Effect.loose_fresh (h : Effect documents op s answer s') (hd : s.table.Distinct)
    (hop : op.isUnique = true) :
    ∃ x, answer = .name x ∧ x ∉ s.table.taken ∧ x ∈ s'.table.taken ∧ x ∉ s'.table.names := by
  cases h with
  | loose wanted className notices hop =>
    have hfresh := Table.unique_fresh s.table wanted className
    exact ⟨_, rfl, hfresh, List.mem_cons_self .., fun hx => hfresh (hd.taken _ hx)⟩
  | object p n o hsubject hnode ho =>
    cases op <;> cases hop
    cases hsubject
  | group n hgroup =>
    cases op <;> cases hop
    cases hgroup
  | other answer s' hsubject hunique htaken hentries hgroups =>
    rw [hop] at hunique
    cases hunique

theorem Effect.held_fresh (h : Effect documents op s answer s') {a : Subject}
    (ha : op.subject? documents = some a) (hnone : s.table.held? a = none) :
    ∃ x, answer = .name x ∧ x ∉ s.table.taken := by
  cases h with
  | loose wanted className notices hop => exact ⟨_, rfl, Table.unique_fresh s.table _ _⟩
  | object p n o hop hnode ho =>
    obtain rfl := Option.some.inj (hop.symm.trans ha)
    rw [Table.nameOf_new o (Option.map_eq_none_iff.mp hnone)]
    exact ⟨_, rfl, Table.unique_fresh s.table _ _⟩
  | group n hop =>
    obtain rfl := Option.some.inj ((Operation.subject_of_group documents hop).symm.trans ha)
    rw [Table.nameOfGroup_new (Option.map_eq_none_iff.mp hnone)]
    exact ⟨_, rfl, Table.unique_fresh s.table _ _⟩
  | other answer s' hop hunique htaken hentries hgroups =>
    rw [hop] at ha
    cases ha

/-- The node kept for a group is the first that was asked for under its name. -/
theorem Effect.groupNode (h : Effect documents op s answer s') (d : String) :
    (s'.table.group? d).map Group.node = ((s.table.group? d).map Group.node).or
      ((op.groupNode? documents).filter (·.stringAttribute "name" == d)) := by
  have hnone : op.subject? documents = none → op.groupNode? documents = none := by
    intro hop
    cases hg : op.groupNode? documents with
    | none => rfl
    | some n =>
      rw [Operation.subject_of_group documents hg] at hop
      cases hop
  cases h with
  | loose wanted className notices hop =>
    rw [hop, show (Operation.unique wanted className).groupNode? documents = none from rfl,
      Option.filter_none, Option.or_none]
    rfl
  | object p n o hop hnode ho =>
    have hg : op.groupNode? documents = none := by
      cases hg : op.groupNode? documents with
      | none => rfl
      | some n =>
        rw [Operation.subject_of_group documents hg] at hop
        cases hop
    rw [hg, Option.filter_none, Option.or_none, Table.group?, Table.nameOf_groups, Table.group?]
  | group n hop =>
    rw [hop]
    cases hg : s.table.group? (n.stringAttribute "name") with
    | some g =>
      rw [Table.nameOfGroup_known hg]
      by_cases hnd : n.stringAttribute "name" = d
      · rw [← hnd, hg]
        rfl
      · rw [Option.filter_some, if_neg (by simpa using hnd), Option.or_none]
    | none =>
      rw [Table.nameOfGroup_new hg]
      by_cases hnd : n.stringAttribute "name" = d
      · subst hnd
        rw [hg, Option.filter_some, if_pos (beq_self_eq_true _), Table.group?,
          List.find?_cons_of_pos (by simp)]
        rfl
      · rw [Option.filter_some, if_neg (by simpa using hnd), Option.or_none, Table.group?,
          List.find?_cons_of_neg (by simpa using hnd)]
        rfl
  | other answer s' hop hunique htaken hentries hgroups =>
    rw [hnone hop, Option.filter_none, Option.or_none, Table.group?, hgroups, Table.group?]

/-- The roles in a table are those of the nodes at the places. -/
def Documented (documents : Nat → Node) (t : Table) : Prop :=
  ∀ e ∈ t.entries, ∃ n o, (documents e.place.document).nodeAt? e.place.path = some n ∧
    Object.ofNode? n = some o ∧ e.role = o.role

theorem Effect.documented (h : Effect documents op s answer s')
    (hdoc : Documented documents s.table) : Documented documents s'.table := by
  cases h with
  | loose wanted className notices hop => exact hdoc
  | object p n o hop hnode ho =>
    intro e he
    rcases Table.nameOf_entries s.table p o with hsame | hnew
    · rw [hsame] at he
      exact hdoc e he
    · rw [hnew] at he
      rcases List.mem_cons.mp he with rfl | he
      · exact ⟨n, o, hnode, ho, rfl⟩
      · exact hdoc e he
  | group n hop =>
    intro e he
    rw [Table.nameOfGroup_entries] at he
    exact hdoc e he
  | other answer s' hop hunique htaken hentries hgroups =>
    intro e he
    rw [hentries] at he
    exact hdoc e he

end Steps

/-! ## Runs -/

/-- The session after some operations. -/
def after (documents : Nat → Node) (s : Session) : List Operation → Session
  | [] => s
  | op :: ops => after documents (op.perform documents s).2 ops

/-- Among some operations, one asked for a subject and was answered with a name. -/
def Held (documents : Nat → Node) (s : Session) (ops : List Operation) (a : Subject)
    (x : String) : Prop :=
  ∃ before op rest, ops = before ++ op :: rest ∧ op.subject? documents = some a ∧
    (op.perform documents (after documents s before)).1 = .name x

/-- Among some operations, one asked for a name for no subject and was answered with it. -/
def Loose (documents : Nat → Node) (s : Session) (ops : List Operation) (x : String) : Prop :=
  ∃ before op rest, ops = before ++ op :: rest ∧ op.isUnique = true ∧
    (op.perform documents (after documents s before)).1 = .name x

section Runs

variable {documents : Nat → Node} {s : Session}

theorem after_append (s : Session) (before rest : List Operation) :
    after documents s (before ++ rest) = after documents (after documents s before) rest := by
  induction before generalizing s with
  | nil => rfl
  | cons op before ih => exact ih (op.perform documents s).2

theorem after_split (s : Session) (before : List Operation) (op : Operation)
    (rest : List Operation) :
    after documents s (before ++ op :: rest) =
      after documents (op.perform documents (after documents s before)).2 rest := by
  rw [after_append]
  rfl

theorem later_after (hd : s.table.Distinct) (ops : List Operation) :
    s.table.Later (after documents s ops).table := by
  induction ops generalizing s with
  | nil => exact .refl hd
  | cons op ops ih =>
    have hstep := (perform_effect documents op s).later hd
    exact hstep.trans (ih hstep.distinct)

theorem documented_after (hdoc : Documented documents s.table) (ops : List Operation) :
    Documented documents (after documents s ops).table := by
  induction ops generalizing s with
  | nil => exact hdoc
  | cons op ops ih => exact ih ((perform_effect documents op s).documented hdoc)

theorem groupNode_after (s : Session) (ops : List Operation) (d : String) :
    ((after documents s ops).table.group? d).map Group.node =
      ((s.table.group? d).map Group.node).or
        ((ops.filterMap (Operation.groupNode? documents)).find?
          (·.stringAttribute "name" == d)) := by
  induction ops generalizing s with
  | nil => rw [List.filterMap_nil, List.find?_nil, Option.or_none, after]
  | cons op ops ih =>
    rw [after, ih, (perform_effect documents op s).groupNode, Option.or_assoc]
    congr 1
    cases hg : op.groupNode? documents with
    | none => rw [List.filterMap_cons_none hg, Option.filter_none, Option.none_or]
    | some n =>
      rw [List.filterMap_cons_some hg, List.find?_cons, Option.filter_some]
      cases n.stringAttribute "name" == d with
      | true => rfl
      | false => rfl

theorem held_extends {t t' : Table} (h : t.Extends t') {a : Subject} {x : String}
    (hx : t.held? a = some x) : t'.held? a = some x := by
  cases a with
  | object p =>
    obtain ⟨e, he, hname⟩ := Option.map_eq_some_iff.mp hx
    rw [Table.held?, h.entries p e he, Option.map_some, hname]
  | group d =>
    obtain ⟨g, hg, hname⟩ := Option.map_eq_some_iff.mp hx
    rw [Table.held?, h.groups d g hg, Option.map_some, hname]

theorem held_names {t : Table} {a : Subject} {x : String} (hx : t.held? a = some x) :
    x ∈ t.names := by
  cases a with
  | object p =>
    obtain ⟨e, he, rfl⟩ := Option.map_eq_some_iff.mp hx
    exact List.mem_append_left _ (List.mem_map_of_mem (Table.entry_mem he).1)
  | group d =>
    obtain ⟨g, hg, rfl⟩ := Option.map_eq_some_iff.mp hx
    exact List.mem_append_right _ (List.mem_map_of_mem (Table.group_mem hg).1)

theorem held_injective {t : Table} (hd : t.Distinct) {a b : Subject} {x : String}
    (ha : t.held? a = some x) (hb : t.held? b = some x) : a = b := by
  cases a with
  | object p =>
    obtain ⟨e, he, rfl⟩ := Option.map_eq_some_iff.mp ha
    cases b with
    | object q =>
      obtain ⟨e', he', hname⟩ := Option.map_eq_some_iff.mp hb
      rw [hd.entry_name he he' hname.symm]
    | group d =>
      obtain ⟨g, hg, hname⟩ := Option.map_eq_some_iff.mp hb
      exact absurd hname.symm (hd.entry_ne_group (Table.entry_mem he).1 (Table.group_mem hg).1)
  | group d =>
    obtain ⟨g, hg, rfl⟩ := Option.map_eq_some_iff.mp ha
    cases b with
    | object q =>
      obtain ⟨e, he, hname⟩ := Option.map_eq_some_iff.mp hb
      exact absurd hname (hd.entry_ne_group (Table.entry_mem he).1 (Table.group_mem hg).1)
    | group d' =>
      obtain ⟨g', hg', hname⟩ := Option.map_eq_some_iff.mp hb
      rw [hd.group_name hg hg' hname.symm]

/-- A table keeps a name for a subject exactly if a request for the subject was answered with it. -/
theorem held_iff (hd : s.table.Distinct) (ops : List Operation) {a : Subject}
    (hnew : s.table.held? a = none) (x : String) :
    Held documents s ops a x ↔ (after documents s ops).table.held? a = some x := by
  constructor
  · rintro ⟨before, op, rest, rfl, ha, hanswer⟩
    have hbefore : (after documents s before).table.Distinct := (later_after hd before).distinct
    have heffect := perform_effect documents op (after documents s before)
    obtain ⟨y, hy, hheld⟩ := heffect.held hbefore ha
    obtain rfl := Answer.name.inj (hanswer.symm.trans hy)
    rw [after_split]
    exact held_extends (later_after (heffect.later hbefore).distinct rest).grows hheld
  · intro hx
    induction ops generalizing s with
    | nil =>
      rw [after, hnew] at hx
      cases hx
    | cons op ops ih =>
      have heffect := perform_effect documents op s
      have hlater := heffect.later hd
      by_cases ha : op.subject? documents = some a
      · obtain ⟨y, hy, hheld⟩ := heffect.held hd ha
        have hkept : (after documents s (op :: ops)).table.held? a = some y :=
          held_extends (later_after hlater.distinct ops).grows hheld
        obtain rfl := Option.some.inj (hkept.symm.trans hx)
        exact ⟨[], op, ops, rfl, ha, hy⟩
      · have hsame := (heffect.new a).resolve_right ha
        obtain ⟨before, op', rest, rfl, ha', hanswer⟩ := ih hlater.distinct (hsame.trans hnew) hx
        exact ⟨op :: before, op', rest, rfl, ha', hanswer⟩

/-- A name handed out for no subject does not become the name of one. -/
theorem loose_after (hd : s.table.Distinct) {ops : List Operation} {x : String}
    (h : Loose documents s ops x) : x ∉ (after documents s ops).table.names := by
  obtain ⟨before, op, rest, rfl, hop, hanswer⟩ := h
  have hbefore : (after documents s before).table.Distinct := (later_after hd before).distinct
  have heffect := perform_effect documents op (after documents s before)
  obtain ⟨y, hy, -, htaken, hnames⟩ := heffect.loose_fresh hbefore hop
  obtain rfl := Answer.name.inj (hanswer.symm.trans hy)
  rw [after_split]
  intro hx
  exact hnames ((later_after (heffect.later hbefore).distinct rest).names x htaken hx)

/-! ## Lookups by name -/

theorem widget_role_iff (n : Node) (c : String) :
    (∃ o, Object.ofNode? n = some o ∧ o.role = .widget c) ↔
      n.kind = .widget ∧ n.stringAttribute "class" = c := by
  cases hk : n.kind <;> simp [Object.ofNode?, hk]

theorem action_role_iff (n : Node) (m : Bool) :
    (∃ o, Object.ofNode? n = some o ∧ o.role = .action m) ↔
      n.kind = .action ∧ (n.attribute? "menu").isSome = m := by
  cases hk : n.kind <;> simp [Object.ofNode?, hk]

theorem actionGroup_role_iff (n : Node) :
    (∃ o, Object.ofNode? n = some o ∧ o.role = .actionGroup) ↔ n.kind = .actionGroup := by
  cases hk : n.kind <;> simp [Object.ofNode?, hk]

theorem entry_role_iff {t : Table} (hd : t.Distinct) (hdoc : Documented documents t) (role : Role)
    (x : String) :
    (∃ e ∈ t.entries, e.name = x ∧ e.role = role) ↔
      ∃ p n o, (documents p.document).nodeAt? p.path = some n ∧ Object.ofNode? n = some o ∧
        o.role = role ∧ t.held? (.object p) = some x := by
  constructor
  · rintro ⟨e, he, rfl, rfl⟩
    obtain ⟨n, o, hnode, ho, hrole⟩ := hdoc e he
    exact ⟨e.place, n, o, hnode, ho, hrole.symm, by
      rw [Table.held?, hd.entry_of_mem he, Option.map_some]⟩
  · rintro ⟨p, n, o, hnode, ho, rfl, hx⟩
    obtain ⟨e, he, rfl⟩ := Option.map_eq_some_iff.mp hx
    obtain ⟨hmem, rfl⟩ := Table.entry_mem he
    obtain ⟨n', o', hnode', ho', hrole⟩ := hdoc e hmem
    obtain rfl := Option.some.inj (hnode'.symm.trans hnode)
    obtain rfl := Option.some.inj (ho'.symm.trans ho)
    exact ⟨e, hmem, rfl, hrole⟩

theorem isActionGroup_iff (t : Table) (x : String) :
    t.isActionGroup x = true ↔ ∃ e ∈ t.entries, e.name = x ∧ e.role = .actionGroup := by
  simp only [Table.isActionGroup, List.any_eq_true, Bool.and_eq_true, beq_iff_eq, and_comm]

end Runs

/-! ## The invariant of runs -/

/-- An operation gets a name that nothing has had: it asks for no subject, or for one that was not
asked for before. -/
def Allocates (documents : Nat → Node) (s : Session) (before : List Operation)
    (op : Operation) : Prop :=
  op.isUnique = true ∨
    ∃ a, op.subject? documents = some a ∧ ∀ x, ¬ Held documents s before a x

/-- What a symbol table answers during and after some operations on it. -/
structure Consistent (documents : Nat → Node) (s : Session) (ops : List Operation) : Prop where
  /-- A name that is handed out was not taken before, and is taken ever after. -/
  allocated : ∀ before op rest, ops = before ++ op :: rest → Allocates documents s before op →
    ∃ x, (op.perform documents (after documents s before)).1 = .name x ∧
      (after documents s before).table.hasName x = false ∧
      ∀ between later, rest = between ++ later →
        (after documents s (before ++ op :: between)).table.hasName x = true
  /-- Different subjects hold different names. -/
  distinct : ∀ a b x, Held documents s ops a x → Held documents s ops b x → a = b
  /-- No subject holds a name that was handed out for no subject. -/
  loose : ∀ a x, Held documents s ops a x → ¬ Loose documents s ops x
  /-- Asking again for a subject gives the same name and changes nothing. -/
  again : ∀ before op rest, ops = before ++ op :: rest → ∀ a x, op.subject? documents = some a →
    Held documents s before a x →
    op.perform documents (after documents s before) = (.name x, after documents s before)
  widgets : ∀ x c, (after documents s ops).table.widgetClass? x = some c ↔
    ∃ p n, (documents p.document).nodeAt? p.path = some n ∧ n.kind = .widget ∧
      n.stringAttribute "class" = c ∧ Held documents s ops (.object p) x
  actions : ∀ x m, (after documents s ops).table.actionIsMenu? x = some m ↔
    ∃ p n, (documents p.document).nodeAt? p.path = some n ∧ n.kind = .action ∧
      (n.attribute? "menu").isSome = m ∧ Held documents s ops (.object p) x
  actionGroups : ∀ x, (after documents s ops).table.isActionGroup x = true ↔
    ∃ p n, (documents p.document).nodeAt? p.path = some n ∧ n.kind = .actionGroup ∧
      Held documents s ops (.object p) x
  /-- The group kept for a declared name is the first that was asked for under it. -/
  groups : ∀ d, ((after documents s ops).table.group? d).map Group.node =
    (ops.filterMap (Operation.groupNode? documents)).find? (·.stringAttribute "name" == d)

section Empty

variable (documents : Nat → Node) (notices : List Notice)

theorem held_empty (a : Subject) : Table.held? {} a = none := by
  cases a <;> rfl

theorem held_after (ops : List Operation) (a : Subject) (x : String) :
    Held documents ⟨{}, notices⟩ ops a x ↔
      (after documents ⟨{}, notices⟩ ops).table.held? a = some x :=
  held_iff Table.distinct_empty ops (held_empty a) x

theorem distinct_after (ops : List Operation) :
    (after documents ⟨{}, notices⟩ ops).table.Distinct :=
  (later_after Table.distinct_empty ops).distinct

theorem allocated_after (before : List Operation) (op : Operation)
    (h : Allocates documents ⟨{}, notices⟩ before op) :
    ∃ x, (op.perform documents (after documents ⟨{}, notices⟩ before)).1 = .name x ∧
      x ∉ (after documents ⟨{}, notices⟩ before).table.taken ∧
      x ∈ (op.perform documents (after documents ⟨{}, notices⟩ before)).2.table.taken := by
  have hd := distinct_after documents notices before
  have heffect := perform_effect documents op (after documents ⟨{}, notices⟩ before)
  rcases h with hop | ⟨a, ha, hnone⟩
  · obtain ⟨x, hx, hfresh, htaken, -⟩ := heffect.loose_fresh hd hop
    exact ⟨x, hx, hfresh, htaken⟩
  · have hheld : (after documents ⟨{}, notices⟩ before).table.held? a = none := by
      rw [Option.eq_none_iff_forall_ne_some]
      exact fun x hx => hnone x ((held_after documents notices before a x).mpr hx)
    obtain ⟨x, hx, hfresh⟩ := heffect.held_fresh ha hheld
    obtain ⟨y, hy, hkept⟩ := heffect.held hd ha
    obtain rfl := Answer.name.inj (hx.symm.trans hy)
    exact ⟨x, hx, hfresh, (heffect.later hd).distinct.taken x (held_names hkept)⟩

theorem role_after (ops : List Operation) (role : Role) (x : String) :
    (∃ e ∈ (after documents ⟨{}, notices⟩ ops).table.entries, e.name = x ∧ e.role = role) ↔
      ∃ p n, (documents p.document).nodeAt? p.path = some n ∧
        (∃ o, Object.ofNode? n = some o ∧ o.role = role) ∧
        Held documents ⟨{}, notices⟩ ops (.object p) x := by
  have hdoc : Documented documents (after documents ⟨{}, notices⟩ ops).table :=
    documented_after (fun e he => absurd he List.not_mem_nil) ops
  rw [entry_role_iff (distinct_after documents notices ops) hdoc]
  simp only [held_after]
  constructor
  · rintro ⟨p, n, o, hnode, ho, hrole, hx⟩
    exact ⟨p, n, hnode, ⟨o, ho, hrole⟩, hx⟩
  · rintro ⟨p, n, hnode, ⟨o, ho, hrole⟩, hx⟩
    exact ⟨p, n, o, hnode, ho, hrole, hx⟩

/-- Every run from an empty table is consistent, whatever nodes and names it is about. -/
theorem after_consistent (ops : List Operation) : Consistent documents ⟨{}, notices⟩ ops where
  allocated := by
    rintro before op rest rfl h
    obtain ⟨x, hx, hfresh, htaken⟩ := allocated_after documents notices before op h
    refine ⟨x, hx, by simpa [Table.hasName] using hfresh, ?_⟩
    intro between later _
    have hd := (perform_effect documents op _).later (distinct_after documents notices before)
    rw [after_split, Table.hasName, List.contains_iff_mem]
    exact (later_after hd.distinct between).grows.taken x htaken
  distinct := by
    intro a b x ha hb
    rw [held_after] at ha hb
    exact held_injective (distinct_after documents notices ops) ha hb
  loose := by
    intro a x ha hloose
    rw [held_after] at ha
    exact loose_after Table.distinct_empty hloose (held_names ha)
  again := by
    rintro before op rest rfl a x ha hx
    rw [held_after] at hx
    obtain ⟨hanswer, hsame⟩ := (perform_effect documents op _).again ha hx
    exact Prod.ext hanswer hsame
  widgets := by
    intro x c
    rw [(distinct_after documents notices ops).widgetClass_iff, role_after]
    simp only [widget_role_iff, and_assoc]
  actions := by
    intro x m
    rw [(distinct_after documents notices ops).actionIsMenu_iff, role_after]
    simp only [action_role_iff, and_assoc]
  actionGroups := by
    intro x
    rw [isActionGroup_iff, role_after]
    simp only [actionGroup_role_iff]
  groups := fun d => groupNode_after ⟨{}, notices⟩ ops d

end Empty

end FormCompiler.Naming
