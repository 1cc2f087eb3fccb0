import FormCompiler.Proofs.Document.StartTags
import FormCompiler.Proofs.Document.Ways

/-!
# What walks record

A walk that goes everywhere records all nodes that it can meet, in the order of their start tags in
the written form.  A walk that stays out of some kinds records the same without what is below such
nodes, and a walk for leaves records the leaves among them (`Form.Traced`).
-/

namespace FormCompiler.Document

open Node (fieldsVisits nearest nearestIn meet)

/-! ## Recorders -/

/-- What a walk of a tree records: the nodes that it notes, unless they are below one that is closed
to it. -/
def reached (n : Node) (noted closed : Visit → Bool) (v : Visit) : Bool :=
  noted v && !(n.ancestors v.path).any closed

section Recorders

variable {w : Walker (List Visit) Unit}

theorem meet_all {kept : Visit → Bool} {vs : List Visit}
    (h : ∀ v ∈ vs, ∀ l : List Visit, (meet w () v l).2 = l ++ (v.node.visits v.path).filter kept)
    (l : List Visit) :
    (forM vs (meet w ()) l).2 = l ++ vs.flatMap fun v => (v.node.visits v.path).filter kept := by
  induction vs generalizing l with
  | nil => exact (List.append_nil l).symm
  | cons v vs ih =>
    have hrest := ih (fun u hu => h u (List.mem_cons_of_mem v hu)) (meet w () v l).2
    rw [List.flatMap_cons, ← List.append_assoc, ← h v (List.mem_cons_self ..) l]
    exact hrest

variable {noted closed : Visit → Bool} (n : Node)
  (henter : ∀ v, v.node.kind.isVisited = true → ∀ l, w.enter () v l =
    (if closed v then none else some (), l ++ [v].filter noted))
  (hleave : ∀ v l, w.leave () () v l = ((), l))
  (hnoted : ∀ v, noted v = true → v.node.kind.isVisited = true)
  (hclosed : ∀ v, closed v = true → v.node.kind.isVisited = true)

omit henter hleave hnoted hclosed in
/-- Nothing below a node that is closed is reached. -/
theorem reached_closed {m : Node} {p : List Nat} (h : n.nodeAt? p = some m)
    (hm : closed ⟨p, m⟩ = true) :
    (fieldsVisits p 0 m.fields).filter (reached n noted closed) = [] := by
  rw [List.filter_eq_nil_iff]
  intro v hv hreached
  obtain ⟨j, x, hx, hv⟩ := (Node.mem_fieldsVisits m.fields p 0 v).mp hv
  obtain ⟨q, hpath, hnode⟩ := (Node.mem_visits_iff x _ v).mp hv
  have hat : n.nodeAt? v.path = some v.node := by
    rw [hpath, Node.nodeAt_append, Nat.zero_add, Node.nodeAt?, h, Option.bind_some, hx]
    exact hnode
  have habove : (⟨p, m⟩ : Visit) ∈ n.ancestors v.path := by
    refine (Node.mem_ancestors hat _).mpr ⟨(Node.mem_visits n _).mpr h, ?_⟩
    rw [hpath]
    exact ⟨(List.suffix_cons _ p).trans (List.suffix_append q _),
      Ne.symm (Node.ne_of_suffix (List.suffix_append q _))⟩
  have hany : (n.ancestors v.path).any closed = true := List.any_eq_true.mpr ⟨_, habove, hm⟩
  rw [reached, hany, Bool.not_true, Bool.and_false] at hreached
  cases hreached

include henter hleave hnoted hclosed

/-- By induction over the tree: wherever a node stands, a walk over what is nearest from it down
records what is reached from there. -/
theorem meet_nearest {m : Node} (hw : m.All Node.WellFormed) {p : List Nat}
    (h : n.nodeAt? p = some m) (hopen : (n.ancestors p).any closed = false) (tag : String) :
    ∀ v ∈ nearestIn p (.node tag m), ∀ l,
      (meet w () v l).2 = l ++ (v.node.visits v.path).filter (reached n noted closed) := by
  induction m using Node.induction generalizing p tag with
  | h m ih =>
    have hbelow : closed ⟨p, m⟩ = false → ∀ v ∈ nearest p 0 m.fields, ∀ l,
        (meet w () v l).2 = l ++ (v.node.visits v.path).filter (reached n noted closed) := by
      intro hm v hv
      rw [Node.nearest_eq] at hv
      obtain ⟨⟨f, j⟩, hf, hv⟩ := List.mem_flatMap.mp hv
      have hf := List.mem_zipIdx_iff_getElem?.mp hf
      cases f with
      | value tag v => cases hv
      | node tag x =>
        have hmem := List.mem_of_getElem? hf
        refine ih _ hmem x rfl (hw.below _ hmem x rfl) ?_ ?_ tag v hv
        · rw [Node.nodeAt?, h, Option.bind_some, hf]
          rfl
        · rw [Node.ancestors_cons j h, List.any_cons, hm, hopen]
          rfl
    intro v hv l
    cases hk : m.kind.isVisited with
    | false =>
      rw [Node.nearestIn_hidden hk] at hv
      exact hbelow (Bool.eq_false_iff.mpr fun hm => by cases hk.symm.trans (hclosed _ hm)) v hv l
    | true =>
      rw [Node.nearestIn_visited hk] at hv
      obtain rfl := List.mem_singleton.mp hv
      have hvisits : m.visits p = ⟨p, m⟩ :: fieldsVisits p 0 m.fields :=
        Form.visits_eq ⟨p, m⟩
      have hhere : [(⟨p, m⟩ : Visit)].filter (reached n noted closed) =
          [(⟨p, m⟩ : Visit)].filter noted := by
        refine List.filter_congr fun v hv => ?_
        rw [List.mem_singleton.mp hv, reached, hopen, Bool.not_false, Bool.and_true]
      have henter := henter ⟨p, m⟩ hk l
      rw [meet, hvisits, ← List.singleton_append, List.filter_append, hhere, ← List.append_assoc]
      cases hm : closed ⟨p, m⟩ with
      | true =>
        rw [hm] at henter
        rw [reached_closed n h hm, List.append_nil]
        exact Node.walk_outside henter
      | false =>
        have hkeep : ∀ v, reached n noted closed v = true → v.node.kind.isVisited = true :=
          fun v hv => hnoted v (Bool.and_eq_true_iff.mp hv).1
        rw [hm] at henter
        rw [Node.walk_reached henter, hleave, Node.reach_eq hw hk, meet_all (hbelow hm),
          Node.filter_fieldsVisits hkeep]

theorem walk_records (hw : n.All Node.WellFormed) (hk : n.kind.isVisited = true) :
    (n.walk w () [] []).2 = (n.visits []).filter (reached n noted closed) := by
  refine (meet_nearest n henter hleave hnoted hclosed hw (p := []) rfl rfl "" ⟨[], n⟩ ?_ []).trans
    (List.nil_append _)
  rw [Node.nearestIn_visited hk]
  exact List.mem_singleton.mpr rfl

end Recorders

/-! ## Traces -/

/-- A node that a walk can meet and of a kind that it stays out of. -/
def Closed (pruned : Kind → Bool) (v : Visit) : Bool :=
  v.node.kind.isVisited && pruned v.node.kind

theorem not_closed (n : Node) (p : List Nat) :
    (n.ancestors p).any (Closed fun _ => false) = false := by
  rw [List.any_eq_false]
  intro u _
  simp [Closed]

section Traces

variable {n : Node} (hw : n.All Node.WellFormed) (hk : n.kind.isVisited = true)

include hw hk

theorem trace_pruned (pruned : Kind → Bool) :
    n.trace pruned = (n.visits []).filter (reached n (·.node.kind.isVisited) (Closed pruned)) := by
  refine walk_records n (fun v hv l => ?_) (fun _ _ => rfl) (fun v hv => hv)
    (fun v hv => (Bool.and_eq_true_iff.mp hv).1) hw hk
  have hnoted : [v].filter (·.node.kind.isVisited) = [v] := List.filter_eq_self.mpr (by simpa)
  rw [Closed, hv, Bool.true_and, hnoted]
  rfl

theorem trace_everywhere :
    n.trace (fun _ => false) = (n.visits []).filter (·.node.kind.isVisited) := by
  rw [trace_pruned hw hk]
  refine List.filter_congr fun v _ => ?_
  rw [reached, not_closed, Bool.not_false, Bool.and_true]

theorem leafTrace_eq : n.leafTrace = (n.visits []).filter (·.node.kind.isLeaf) := by
  have hrecords : n.leafTrace = (n.visits []).filter
      (reached n (·.node.kind.isLeaf) (Closed fun _ => false)) := by
    refine walk_records n (fun v _ l => ?_) (fun _ _ => rfl)
      (fun v hv => (v.node.kind.ways_leaf hv).1) (fun v hv => (Bool.and_eq_true_iff.mp hv).1) hw hk
    rw [Closed, Bool.and_false]
    cases hv : v.node.kind.isLeaf with
    | true =>
      simp only [leafRecorder, hv, List.filter_cons, List.filter_nil, ↓reduceIte]
      rfl
    | false =>
      simp only [leafRecorder, hv, List.filter_cons, List.filter_nil, Bool.false_eq_true,
        ↓reduceIte, List.append_nil]
      rfl
  rw [hrecords]
  refine List.filter_congr fun v _ => ?_
  rw [reached, not_closed, Bool.not_false, Bool.and_true]

/-- One node stands somewhere below another. -/
def Visit.Below (v u : Visit) : Prop := u.path <:+ v.path ∧ u.path ≠ v.path

instance (v u : Visit) : Decidable (v.Below u) := inferInstanceAs (Decidable (_ ∧ _))

/-- A node is reached unless it is below one that the walk records and stays out of. -/
theorem reached_iff (pruned : Kind → Bool) {v : Visit} (hv : v ∈ n.visits [])
    (hvisited : v.node.kind.isVisited = true) :
    reached n (·.node.kind.isVisited) (Closed pruned) v =
      decide (∀ u ∈ n.trace fun _ => false, pruned u.node.kind = true → ¬ v.Below u) := by
  have hat := (Node.mem_visits n v).mp hv
  rw [Bool.eq_iff_iff, decide_eq_true_eq, reached, hvisited, Bool.true_and, Bool.not_eq_true',
    List.any_eq_false, trace_everywhere hw hk]
  constructor
  · intro h u hu hpruned hbelow
    obtain ⟨hmem, hmet⟩ := List.mem_filter.mp hu
    exact h u ((Node.mem_ancestors hat u).mpr ⟨hmem, hbelow⟩) (by
      rw [Closed, hmet, hpruned, Bool.and_self])
  · intro h u hu hclosed
    obtain ⟨hmem, hbelow⟩ := (Node.mem_ancestors hat u).mp hu
    obtain ⟨hmet, hpruned⟩ := (Bool.and_eq_true_iff).mp hclosed
    exact h u (List.mem_filter.mpr ⟨hmem, hmet⟩) hpruned hbelow

end Traces

namespace Form

/-- The nodes that a walk of the whole form records. -/
def fullTrace (f : Form) : List Visit := f.node.trace fun _ => false

/-- What walks of a form record. -/
structure Traced (f : Form) : Prop where
  /-- The full trace has the nodes that a walk can meet, and no others. -/
  complete : ∀ v, v ∈ f.fullTrace ↔
    f.node.nodeAt? v.path = some v.node ∧ v.node.kind.isVisited = true
  once : (f.fullTrace.map Visit.path).Nodup
  /-- Each of these nodes has its start tag in the written form, at its offset. -/
  written : ∀ v ∈ f.fullTrace, ∃ stop rest, (stop = ['>'] ∨ stop = ['/', '>']) ∧
    f.toText.toList.drop (f.startOffset v) = f.startTag v ++ stop ++ rest
  inOrder : f.fullTrace.Pairwise fun u v => f.startOffset u < f.startOffset v
  /-- Staying out of some kinds takes away what is below them, and nothing else. -/
  pruned : ∀ kinds, f.node.trace kinds = f.fullTrace.filter fun v =>
    decide (∀ u ∈ f.fullTrace, kinds u.node.kind = true → ¬ v.Below u)
  leaves : f.node.leafTrace = f.fullTrace.filter (·.node.kind.isLeaf)

section Form

variable {f : Form} (hk : f.node.kind = .ui) (hw : f.node.All Node.WellFormed)

include hk hw

theorem fullTrace_eq : f.fullTrace = f.visits.filter (·.node.kind.isVisited) :=
  trace_everywhere hw (by rw [hk]; rfl)

theorem fullTrace_inOrder : f.fullTrace.Pairwise fun u v => f.startOffset u < f.startOffset v := by
  have horder : f.visits.Pairwise f.node.Opened := Node.visits_inOrder (p := []) rfl
  rw [fullTrace_eq hk hw]
  refine (horder.sublist List.filter_sublist).imp_of_mem fun {u v} hu hv h => ?_
  exact startOffset_lt (List.mem_filter.mp hu).1 (List.mem_filter.mp hv).1 h

theorem trace_filter (kinds : Kind → Bool) :
    f.node.trace kinds = f.fullTrace.filter fun v =>
      decide (∀ u ∈ f.fullTrace, kinds u.node.kind = true → ¬ v.Below u) := by
  have hvisited : f.node.kind.isVisited = true := by rw [hk]; rfl
  rw [trace_pruned hw hvisited, fullTrace_eq hk hw, List.filter_filter]
  refine List.filter_congr fun v hv => ?_
  cases hmet : v.node.kind.isVisited with
  | false => rw [reached, hmet, Bool.false_and, Bool.and_false]
  | true =>
    rw [Bool.and_true, reached_iff hw hvisited kinds hv hmet, ← fullTrace_eq hk hw, fullTrace]

theorem leafTrace_filter : f.node.leafTrace = f.fullTrace.filter (·.node.kind.isLeaf) := by
  rw [leafTrace_eq hw (by rw [hk]; rfl), fullTrace_eq hk hw, List.filter_filter]
  refine List.filter_congr fun v _ => ?_
  cases hleaf : v.node.kind.isLeaf with
  | false => rfl
  | true => rw [(v.node.kind.ways_leaf hleaf).1, Bool.and_self]

end Form

/-- Walks record the nodes of a form in the order in which it is written. -/
theorem walks_traced (f : Form) (hk : f.node.kind = .ui) (hw : f.node.All Node.WellFormed) :
    f.Traced where
  complete := by
    intro v
    rw [fullTrace_eq hk hw, List.mem_filter, visits, Node.mem_visits]
  once := by
    rw [fullTrace_eq hk hw]
    exact (Node.visits_nodup f.node []).sublist (List.filter_sublist.map _)
  written := by
    intro v hv
    rw [fullTrace_eq hk hw, List.mem_filter] at hv
    exact startTag_written hv.1
  inOrder := fullTrace_inOrder hk hw
  pruned := trace_filter hk hw
  leaves := leafTrace_filter hk hw

/-- A form with a text and a gradient in a widget, in a layout, and with an image, which is a leaf
with data below it.  The stop of the gradient is passed through. -/
def nested : Form :=
  ⟨.mk .ui []
    [.node "widget" (.mk .widget [("class", .string "QWidget"), ("name", .string "Form")]
      [.node "layout" (.mk .layout [("class", .string "QVBoxLayout")]
        [.node "item" (.mk .layoutItem []
          [.node "widget" (.mk .widget [("class", .string "QLabel")]
            [.node "property" (.mk .property [("name", .string "text")]
                [.node "string" (.mk .string [] [] "a")] ""),
              .node "property" (.mk .property [("name", .string "paper")]
                [.node "brush" (.mk .brush []
                  [.node "gradient" (.mk .gradient []
                    [.node "gradientstop" (.mk .gradientStop []
                      [.node "color" (.mk .color [] [] "")] "")] "")] "")] "")] "")] "")] "")] ""),
      .node "images" (.mk .images []
        [.node "image" (.mk .image [("name", .string "i")]
          [.node "data" (.mk .imageData [("format", .string "XPM.GZ")] [] "00")] "")] "")] ""⟩

theorem walks_traced_nested :
    nested.node.All Node.WellFormed ∧
      nested.fullTrace.map (·.node.kind) =
        [.ui, .widget, .layout, .layoutItem, .widget, .property, .string, .property, .brush,
          .gradient, .color, .images, .image] ∧
      (nested.node.trace (· == .brush)).map (·.node.kind) =
        [.ui, .widget, .layout, .layoutItem, .widget, .property, .string, .property, .brush,
          .images, .image] ∧
      nested.node.leafTrace.map (·.node.kind) = [.string, .color, .image] ∧ nested.Traced := by
  have hw : nested.node.All Node.WellFormed := by decide +kernel
  refine ⟨hw, ?_, ?_, ?_, walks_traced nested rfl hw⟩ <;> decide +kernel

end Form

end FormCompiler.Document
