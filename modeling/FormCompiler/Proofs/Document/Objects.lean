import FormCompiler.Naming.Table
import FormCompiler.Proofs.Document.Shape

/-!
# Where the objects of a form stand

Widgets, layouts, spacers, actions and groups of actions are the objects of a form.  The schema
allows them only inside a few kinds of nodes, and a form has one root widget, below which all other
objects are found (`visits_objects`).
-/

namespace FormCompiler.Document

open Naming (Object)

/-! ## Kinds -/

namespace Kind

/-- The kinds of nodes that can have objects below them. -/
def holdsObjects : Kind → Bool
  | ui | widget | layout | layoutItem | actionGroup => true
  | _ => false

/-- The kinds of nodes that are objects. -/
def isObject : Kind → Bool
  | widget | layout | spacer | actionGroup | action => true
  | _ => false

end Kind

/-- The kind of the nodes that a child is, if it is not a scalar. -/
def Content.kind? : Content → Option Kind
  | scalar _ => none
  | node k => some k

namespace Kind

/-- Nothing below a node has to do with objects, unless its kind can hold some. -/
theorem children_barren (k : Kind) (h : k.holdsObjects = false) :
    ∀ spec ∈ k.schema.children, ∀ k' ∈ spec.content.kind?,
      k'.holdsObjects = false ∧ k'.isObject = false ∧ k' ≠ .actionRef := by
  revert h
  cases k <;> decide +kernel

theorem children_ui : ∀ spec ∈ ui.schema.children, spec.tag ≠ "widget" → ∀ k' ∈ spec.content.kind?,
    k'.holdsObjects = false ∧ k'.isObject = false ∧ k' ≠ .actionRef := by
  decide +kernel

theorem children_not_ui (k : Kind) : ∀ spec ∈ k.schema.children, ui ∉ spec.content.kind? := by
  cases k <;> decide +kernel

theorem child_widget : ui.child? "widget" = some ⟨"widget", .node .widget, false, "widget"⟩ := by
  decide +kernel

end Kind

namespace Node

theorem object_isSome (n : Node) : (Object.ofNode? n).isSome = n.kind.isObject := by
  obtain ⟨k, as, fs, t⟩ := n
  cases k <;> rfl

/-- A node that neither is an object nor can hold one, nor places an action. -/
def Barren (n : Node) : Prop :=
  n.kind.holdsObjects = false ∧ n.kind.isObject = false ∧ n.kind ≠ .actionRef

theorem kind_of_fitting {k : Kind} {f : Field} {n : Node} (h : Fitting k f)
    (hn : f.node? = some n) :
    ∃ spec ∈ k.schema.children, spec.tag = f.tag ∧ n.kind ∈ spec.content.kind? := by
  obtain ⟨spec, hspec, hcontent⟩ := h
  cases f with
  | value tag v => cases hn
  | node tag m =>
    obtain rfl := Option.some.inj hn
    refine ⟨spec, List.mem_of_find?_eq_some hspec, Kind.child_tag hspec, ?_⟩
    rw [← hcontent]
    rfl

theorem not_ui_below {n : Node} (hw : All WellFormed n) :
    ∀ f ∈ n.fields, ∀ m, f.node? = some m → All (·.kind ≠ .ui) m := by
  induction n using Node.induction with
  | h n ih =>
    intro f hf m hm
    obtain ⟨spec, hspec, _, hkind⟩ := kind_of_fitting (hw.here.fields f hf) hm
    refine all_of (fun hui => ?_) (ih f hf m hm (hw.below f hf m hm))
    rw [hui] at hkind
    exact Kind.children_not_ui n.kind spec hspec hkind

theorem below_barren (n : Node) (hw : All WellFormed n) (hk : n.kind.holdsObjects = false) :
    ∀ f ∈ n.fields, ∀ m, f.node? = some m → All Barren m := by
  induction n using Node.induction with
  | h n ih =>
    intro f hf m hm
    obtain ⟨spec, hspec, _, hkind⟩ := kind_of_fitting (hw.here.fields f hf) hm
    have hb := n.kind.children_barren hk spec hspec m.kind hkind
    exact all_of hb (ih f hf m hm (hw.below f hf m hm) hb.1)

theorem all_barren (n : Node) (hw : All WellFormed n) (hb : n.Barren) : All Barren n :=
  all_of hb (below_barren n hw hb.1)

end Node

/-! ## The root widget -/

namespace Form

open Node

/-- The root widget is the only field of a form that has to do with objects. -/
structure Rooted (f : Form) (root : Visit) (before after : List Field) : Prop where
  fields : f.node.fields = before ++ .node "widget" root.node :: after
  path : root.path = [before.length]
  kind : root.node.kind = .widget
  others : ∀ g ∈ before ++ after, g.tag ≠ "widget"

theorem field_of_widget {g : Field} {m : Node} (hfit : Fitting .ui g) (hm : g.node? = some m)
    (hk : m.kind = .widget) : g = .node "widget" m := by
  have htag : g.tag = "widget" := by
    obtain ⟨spec, hspec, hst, hsk⟩ := kind_of_fitting hfit hm
    apply Classical.byContradiction
    intro hne
    have hb := Kind.children_ui spec hspec (hst ▸ hne) m.kind hsk
    rw [hk] at hb
    cases hb.1
  cases g with
  | value tag v => cases hm
  | node tag n =>
    obtain rfl := Option.some.inj hm
    rw [← htag]
    rfl

theorem widget_once {before after : List Field} {m : Node}
    (hpair : (before ++ .node "widget" m :: after).Pairwise (Precedes .ui)) :
    ∀ g ∈ before ++ after, g.tag ≠ "widget" := by
  have hone : ∀ g g' : Field, Precedes .ui g g' → g.tag = "widget" → g'.tag ≠ "widget" := by
    intro g g' h h1 h2
    rcases h with h | ⟨_, h⟩
    · rw [h1, h2] at h
      exact Nat.lt_irrefl _ h
    · rw [h1, Kind.child_widget] at h
      cases h
  obtain ⟨_, h2, h3⟩ := List.pairwise_append.mp hpair
  intro g hg ht
  rcases List.mem_append.mp hg with hg | hg
  · exact hone g _ (h3 g hg _ (List.mem_cons_self ..)) ht rfl
  · exact hone _ g ((List.pairwise_cons.mp h2).1 g hg) rfl ht

theorem rootWidget_eq {f : Form} {before after : List Field} {m : Node}
    (hfields : f.node.fields = before ++ .node "widget" m :: after)
    (hothers : ∀ g ∈ before ++ after, g.tag ≠ "widget") : f.rootWidget? = some m := by
  have hnone : ∀ l : List Field, (∀ g ∈ l, g.tag ≠ "widget") →
      l.filter (·.tag == "widget") = [] :=
    fun l hl => List.filter_eq_nil_iff.mpr fun g hg => by simpa using hl g hg
  have hwith : f.node.fieldsWith "widget" = [.node "widget" m] := by
    rw [fieldsWith, hfields, List.filter_append, List.filter_cons,
      hnone _ (fun g hg => hothers g (List.mem_append_left _ hg)),
      hnone _ (fun g hg => hothers g (List.mem_append_right _ hg))]
    rfl
  rw [rootWidget?, child?, children, hwith]
  rfl

theorem rooted (f : Form) (root : Visit) (hk : f.node.kind = .ui) (hw : f.node.WellFormed)
    (hroot : f.rootVisit? = some root) : ∃ before after, f.Rooted root before after := by
  obtain ⟨i, hi, hrest⟩ := Option.bind_eq_some_iff.mp hroot
  obtain ⟨w, hwidget, hvisit⟩ := Option.bind_eq_some_iff.mp hrest
  obtain rfl := Option.some.inj hvisit
  obtain ⟨hlt, hkind, _⟩ := List.findIdx?_eq_some_iff_getElem.mp hi
  generalize hg : f.node.fields[i] = g at hkind
  obtain ⟨m, hm, hmk⟩ := Option.map_eq_some_iff.mp (beq_iff_eq.mp hkind)
  have hfit := hw.fields g (hg ▸ List.getElem_mem hlt)
  rw [hk] at hfit
  obtain rfl := field_of_widget hfit hm hmk
  have hsplit : f.node.fields =
      f.node.fields.take i ++ .node "widget" m :: f.node.fields.drop (i + 1) := by
    rw [← hg, ← List.drop_eq_getElem_cons hlt, List.take_append_drop]
  have hpair := hw.fieldsInOrder
  rw [hsplit, hk] at hpair
  have hothers := widget_once hpair
  -- The field found by its kind is the one found by its tag.
  obtain rfl := Option.some.inj (hwidget.symm.trans (rootWidget_eq hsplit hothers))
  exact ⟨_, _, hsplit, by simp [List.length_take, Nat.min_eq_left (Nat.le_of_lt hlt)], hmk, hothers⟩

theorem fieldsVisits_append (fs gs : List Field) (p : List Nat) (i : Nat) :
    fieldsVisits p i (fs ++ gs) = fieldsVisits p i fs ++ fieldsVisits p (i + fs.length) gs := by
  induction fs generalizing i with
  | nil => simp [fieldsVisits]
  | cons f fs ih =>
    rw [List.cons_append, fieldsVisits, fieldsVisits, ih, List.append_assoc, List.length_cons]
    congr 3
    omega

theorem visits_eq (v : Visit) : v.node.visits v.path = v :: v.node.descendants v.path := by
  obtain ⟨p, k, as, fs, t⟩ := v
  rfl

theorem Rooted.barren {f : Form} {root : Visit} {before after : List Field}
    (hr : f.Rooted root before after) (hk : f.node.kind = .ui) (hw : All WellFormed f.node) :
    ∀ g ∈ before ++ after, ∀ m, g.node? = some m → All Barren m := by
  intro g hg m hm
  have hmem : g ∈ f.node.fields := by
    rw [hr.fields]
    rcases List.mem_append.mp hg with h | h
    · exact List.mem_append_left _ h
    · exact List.mem_append_right _ (List.mem_cons_of_mem _ h)
  have hfit := hw.here.fields g hmem
  rw [hk] at hfit
  obtain ⟨spec, hspec, hst, hsk⟩ := kind_of_fitting hfit hm
  have hne : spec.tag ≠ "widget" := hst ▸ hr.others g hg
  exact all_barren m (hw.below g hmem m hm) (Kind.children_ui spec hspec hne m.kind hsk)

theorem visits_objects (f : Form) (root : Visit) (hk : f.node.kind = .ui)
    (hw : All WellFormed f.node) (hroot : f.rootVisit? = some root) :
    ∃ l r, f.visits = l ++ (root :: root.node.descendants root.path) ++ r ∧
      ∀ v ∈ l ++ r, v.node.kind.isObject = false ∧ v.node.kind ≠ .actionRef := by
  obtain ⟨before, after, hr⟩ := rooted f root hk hw.here hroot
  have hbarren : ∀ i, ∀ gs : List Field, (∀ g ∈ gs, g ∈ before ++ after) →
      ∀ v ∈ fieldsVisits [] i gs, v.node.Barren := by
    intro i gs hgs
    rw [forall_fieldsVisits]
    exact fun g hg => hr.barren hk hw g (hgs g hg)
  refine ⟨⟨[], f.node⟩ :: fieldsVisits [] 0 before,
    fieldsVisits [] (before.length + 1) after, ?_, ?_⟩
  · have htop : f.visits = ⟨[], f.node⟩ :: fieldsVisits [] 0 f.node.fields :=
      visits_eq ⟨[], f.node⟩
    rw [htop, hr.fields, fieldsVisits_append, Nat.zero_add, fieldsVisits, fieldVisits, ← hr.path,
      visits_eq]
    simp
  · intro v hv
    rw [List.cons_append] at hv
    rcases List.mem_cons.mp hv with rfl | hv
    · rw [hk]
      exact ⟨rfl, by decide⟩
    · rcases List.mem_append.mp hv with hv | hv
      · exact (hbarren 0 before (fun g hg => List.mem_append_left _ hg) v hv).2
      · exact (hbarren _ after (fun g hg => List.mem_append_right _ hg) v hv).2

end Form

end FormCompiler.Document
