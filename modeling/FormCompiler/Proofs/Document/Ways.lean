import FormCompiler.Proofs.Document.Objects
import FormCompiler.Proofs.Document.Walk
import Mathlib.Data.List.Nodup

/-!
# The ways of a walk

The ways that are listed for a kind are those that its schema has, in the order of the schema
(`Kind.ways_schema`).  So a walk goes from a well-formed node to the nearest nodes below it that it
can meet, in the order in which they are written (`Node.reach_eq`), and what it does to a state is
given node by node (`Node.walk_entered`).
-/

namespace FormCompiler.Document

/-! ## The schema -/

namespace ChildSpec

/-- Whether a walk can meet a child. -/
def isVisited (spec : ChildSpec) : Bool := spec.content.kind?.any Kind.isVisited

/-- The way to a child that a walk can meet, or else to the first one in it. -/
def way? (spec : ChildSpec) : Option (List String) :=
  match spec.content with
  | .scalar _ => none
  | .node k =>
    if k.isVisited then some [spec.tag]
    else (k.schema.children.find? isVisited).map fun inner => [spec.tag, inner.tag]

theorem way_head {spec : ChildSpec} {way : List String} (h : spec.way? = some way) :
    ∃ rest, way = spec.tag :: rest := by
  unfold way? at h
  split at h
  · cases h
  · split at h
    · exact ⟨[], (Option.some.inj h).symm⟩
    · obtain ⟨inner, -, rfl⟩ := Option.map_eq_some_iff.mp h
      exact ⟨[inner.tag], rfl⟩

end ChildSpec

namespace Kind

/-- The ways of a walk are in the order of the schema, and none is missing. -/
theorem ways_schema (k : Kind) (h : k.isVisited = true) :
    k.ways = k.schema.children.filterMap ChildSpec.way? := by
  revert h
  cases k <;> decide +kernel

/-- A walk passes through at most one child of a node that it does not meet, and what is below the
others is not met either. -/
theorem children_passed (k : Kind) (h : k.isVisited = false) :
    ∀ spec ∈ k.schema.children,
      (spec.isVisited = true → k.schema.children.find? ChildSpec.isVisited = some spec) ∧
      (spec.isVisited = false → ∀ k' ∈ spec.content.kind?, ∀ spec' ∈ k'.schema.children,
        spec'.content.kind? = none) := by
  revert h
  cases k <;> decide +kernel

/-- Only the stops of a gradient are passed through to something. -/
theorem children_hidden (k : Kind) (h : k ≠ .gradient) :
    ∀ spec ∈ k.schema.children, ∀ k' ∈ spec.content.kind?, k'.isVisited = false →
      k'.schema.children.find? ChildSpec.isVisited = none := by
  revert h
  cases k <;> decide +kernel

theorem ways_leaf (k : Kind) (h : k.isLeaf = true) : k.isVisited = true ∧ k.ways = [] := by
  revert h
  cases k <;> decide

theorem children_nodup (k : Kind) : (k.schema.children.map ChildSpec.tag).Nodup := by
  cases k <;> decide +kernel

/-- A child is the one that its tag tells. -/
theorem child_eq {k : Kind} {spec spec' : ChildSpec} {tag : String} (h : k.child? tag = some spec)
    (hspec : spec' ∈ k.schema.children) (htag : tag = spec'.tag) : spec = spec' :=
  List.inj_on_of_nodup_map k.children_nodup (List.mem_of_find?_eq_some h) hspec
    ((child_tag h).trans htag)

end Kind

/-! ## Lists in the order of a schema -/

/-- What is gathered from a list place by place is gathered from it in its order, if the list is in
the order of the places. -/
theorem flatMap_ranked {ι α β : Type} (name : ι → String) (tag : α → String) (ranks : List ι)
    (hnodup : (ranks.map name).Nodup) (h : ι → α → List β) (g : α → List β) (l : List α)
    (hsame : ∀ r ∈ ranks, ∀ a ∈ l, name r = tag a → h r a = g a)
    (hothers : ∀ r ∈ ranks, ∀ a ∈ l, name r ≠ tag a → h r a = [])
    (hknown : ∀ a ∈ l, ∃ r ∈ ranks, name r = tag a)
    (hsorted : l.Pairwise fun a b =>
      ranks.findIdx (name · == tag a) ≤ ranks.findIdx (name · == tag b)) :
    ranks.flatMap (fun r => l.flatMap (h r)) = l.flatMap g := by
  induction l with
  | nil => exact List.flatMap_eq_nil_iff.mpr fun r _ => rfl
  | cons a l ih =>
    obtain ⟨hle, hsorted⟩ := List.pairwise_cons.mp hsorted
    have hrest := ih (fun r hr b hb => hsame r hr b (List.mem_cons_of_mem a hb))
      (fun r hr b hb => hothers r hr b (List.mem_cons_of_mem a hb))
      (fun b hb => hknown b (List.mem_cons_of_mem a hb)) hsorted
    obtain ⟨r, hr, hname⟩ := hknown a (List.mem_cons_self ..)
    have ha := hsame r hr a (List.mem_cons_self ..) hname
    obtain ⟨before, after, rfl⟩ := List.append_of_mem hr
    rw [List.map_append, List.map_cons, List.nodup_append] at hnodup
    obtain ⟨-, hafter, hbefore⟩ := hnodup
    have hne : ∀ x ∈ before, name x ≠ tag a := fun x hx =>
      hname ▸ hbefore _ (List.mem_map_of_mem hx) _ (List.mem_cons_self ..)
    have hplace : (before ++ r :: after).findIdx (name · == tag a) = before.length := by
      rw [List.findIdx_append, List.findIdx_eq_length_of_false fun x hx => by simpa using hne x hx,
        if_neg (Nat.lt_irrefl _), List.findIdx_cons, hname]
      simp
    -- nothing in the list belongs to an earlier place
    have hskip : before.flatMap (fun x => l.flatMap (h x)) = [] := by
      refine List.flatMap_eq_nil_iff.mpr fun x hx => List.flatMap_eq_nil_iff.mpr fun b hb => ?_
      refine hothers x (List.mem_append_left _ hx) b (List.mem_cons_of_mem a hb) fun hxb => ?_
      have hlt : before.findIdx (name · == tag b) < before.length :=
        List.findIdx_lt_length_of_exists ⟨x, hx, beq_iff_eq.mpr hxb⟩
      have hb := hle b hb
      rw [hplace, List.findIdx_append, if_pos hlt] at hb
      omega
    have hfirst : ∀ x ∈ before ++ after, (a :: l).flatMap (h x) = l.flatMap (h x) := by
      intro x hx
      have hxa : name x ≠ tag a := by
        rcases List.mem_append.mp hx with hx | hx
        · exact hne x hx
        · intro hxa
          exact (List.nodup_cons.mp hafter).1
            ((hname.trans hxa.symm) ▸ List.mem_map_of_mem hx)
      rw [List.flatMap_cons, hothers x ?_ a (List.mem_cons_self ..) hxa, List.nil_append]
      exact (List.mem_append.mp hx).elim (List.mem_append_left _)
        fun hx => List.mem_append_right _ (List.mem_cons_of_mem r hx)
    rw [List.flatMap_append, List.flatMap_cons, hskip, List.nil_append] at hrest
    rw [List.flatMap_append, List.flatMap_cons, List.flatMap_cons, List.flatMap_cons, ha,
      List.flatMap_congr fun x hx => hfirst x (List.mem_append_left _ hx), hskip,
      List.flatMap_congr fun x hx => hfirst x (List.mem_append_right _ hx), ← hrest,
      List.nil_append, List.append_assoc]

namespace Node

/-! ## Along the ways -/

/-- The nodes at the end of a way that begins with a field. -/
def ends : List String → List Nat → Field → List Visit
  | [], _, _ => []
  | _ :: _, _, .value _ _ => []
  | tag :: way, path, .node t m =>
    if t = tag then
      if way.isEmpty then [⟨path, m⟩]
      else m.fields.zipIdx.flatMap fun f => ends way (f.2 :: path) f.1
    else []

/-- The nodes that a walk meets next after a node. -/
def reach (n : Node) (path : List Nat) : List Visit :=
  n.kind.ways.flatMap fun way => n.fields.zipIdx.flatMap fun f => ends way (f.2 :: path) f.1

theorem ends_other {tag : String} {f : Field} (h : tag ≠ f.tag) (way : List String)
    (path : List Nat) : ends (tag :: way) path f = [] := by
  cases f with
  | value t v => rfl
  | node t m => exact if_neg (Ne.symm h)

theorem all_ends {P : Node → Prop} (way : List String) (path : List Nat) {f : Field}
    (h : ∀ m, f.node? = some m → All P m) : ∀ v ∈ ends way path f, All P v.node := by
  induction way generalizing path f with
  | nil => exact fun v hv => absurd hv List.not_mem_nil
  | cons tag way ih =>
    cases f with
    | value t s => exact fun v hv => absurd hv List.not_mem_nil
    | node t m =>
      intro v hv
      unfold ends at hv
      split at hv
      · split at hv
        · obtain rfl := List.mem_singleton.mp hv
          exact h m rfl
        · obtain ⟨f, hf, hv⟩ := List.mem_flatMap.mp hv
          exact ih _ ((h m rfl).below f.1 (List.fst_mem_of_mem_zipIdx hf)) v hv
      · cases hv

/-- What a walk reaches from a node is below it. -/
theorem all_reach {P : Node → Prop} {n : Node}
    (h : ∀ f ∈ n.fields, ∀ m, f.node? = some m → All P m) (path : List Nat) :
    ∀ v ∈ n.reach path, All P v.node := by
  intro v hv
  obtain ⟨way, -, hv⟩ := List.mem_flatMap.mp hv
  obtain ⟨f, hf, hv⟩ := List.mem_flatMap.mp hv
  exact all_ends way _ (h f.1 (List.fst_mem_of_mem_zipIdx hf)) v hv

/-- Induction over trees along the ways of a walk. -/
theorem reach_induction {P : Node → Prop}
    (h : ∀ n : Node, (∀ path, ∀ v ∈ n.reach path, P v.node) → P n) (n : Node) : P n := by
  refine All.here ?_
  induction n using Node.induction with
  | h n ih => exact all_of (h n fun path v hv => (all_reach ih path v hv).here) ih

section Walks

variable {σ κ : Type} (w : Walker σ κ) (c : κ)

/-- Walks over the node of a visit. -/
def meet (v : Visit) : StateM σ Unit := v.node.walk w c v.path

theorem walkAlong_of_ends {way : List String}
    (h : ∀ path f, walkInto w c path way f = forM (ends way path f) (meet w c)) (path : List Nat)
    (i : Nat) (fs : List Field) :
    walkAlong w c path way i fs =
      forM ((fs.zipIdx i).flatMap fun f => ends way (f.2 :: path) f.1) (meet w c) := by
  induction fs generalizing i with
  | nil => rfl
  | cons f fs ih =>
    rw [List.zipIdx_cons, List.flatMap_cons, List.forM_append, ← ih, ← h]
    rfl

/-- Going on along a way from a field leads to the nodes at its end. -/
theorem walkInto_eq (way : List String) (path : List Nat) (f : Field) :
    walkInto w c path way f = forM (ends way path f) (meet w c) := by
  induction way generalizing path f with
  | nil =>
    cases f with
    | value tag v => rfl
    | node tag m =>
      cases m
      rfl
  | cons tag way ih =>
    cases f with
    | value t v => rfl
    | node t m =>
      obtain ⟨k, as, fs, text⟩ := m
      by_cases ht : t = tag
      · cases way with
        | nil =>
          simp only [walkInto, ends, if_pos ht, List.isEmpty_nil, if_true, List.forM_cons,
            List.forM_nil, bind_pure_unit, meet]
        | cons next way =>
          simp only [walkInto, ends, if_pos ht, List.isEmpty_cons, Bool.false_eq_true, if_false]
          exact walkAlong_of_ends w c ih path 0 fs
      · rw [ends_other (f := .node t _) (Ne.symm ht)]
        cases way <;> simp only [walkInto, if_neg ht] <;> rfl

theorem walkWays_eq (path : List Nat) (fs : List Field) (ways : List (List String)) :
    (ways.forM fun way => walkAlong w c path way 0 fs) =
      forM (ways.flatMap fun way => fs.zipIdx.flatMap fun f => ends way (f.2 :: path) f.1)
        (meet w c) := by
  induction ways with
  | nil => rfl
  | cons way ways ih =>
    rw [List.flatMap_cons, List.forM_append, ← ih, ← walkAlong_of_ends w c (walkInto_eq w c way)]
    rfl

/-- A walk meets a node and then, unless it is kept out, the nodes that it reaches from there. -/
theorem walk_eq (n : Node) (path : List Nat) :
    n.walk w c path = w.enter c ⟨path, n⟩ >>= fun inner? => inner?.elim (pure ()) fun inner =>
      forM (n.reach path) (meet w inner) >>= fun _ => w.leave c inner ⟨path, n⟩ := by
  obtain ⟨k, as, fs, text⟩ := n
  simp only [walk, walkWays_eq]
  congr 1
  funext inner?
  cases inner? <;> rfl

variable {w c} {inner : κ} {path : List Nat} {n : Node} {s s' : σ}

theorem walk_outside (h : w.enter c ⟨path, n⟩ s = (none, s')) : (n.walk w c path s).2 = s' := by
  rw [walk_eq]
  simp only [bind, StateT.bind, h]
  rfl

theorem walk_reached (h : w.enter c ⟨path, n⟩ s = (some inner, s')) :
    (n.walk w c path s).2 =
      (w.leave c inner ⟨path, n⟩ (forM (n.reach path) (meet w inner) s').2).2 := by
  rw [walk_eq]
  simp only [bind, StateT.bind, h]
  rfl

end Walks

/-! ## What is nearest -/

mutual

/-- The nearest nodes among some fields and below them that a walk can meet. -/
def nearest (path : List Nat) (i : Nat) : List Field → List Visit
  | [] => []
  | f :: rest => nearestIn (i :: path) f ++ nearest path (i + 1) rest
termination_by structural fields => fields

def nearestIn (path : List Nat) : Field → List Visit
  | .value _ _ => []
  | .node _ (mk kind attributes fields text) =>
    if kind.isVisited then [⟨path, mk kind attributes fields text⟩] else nearest path 0 fields
termination_by structural f => f

end

theorem nearest_eq (path : List Nat) (i : Nat) (fs : List Field) :
    nearest path i fs = (fs.zipIdx i).flatMap fun f => nearestIn (f.2 :: path) f.1 := by
  induction fs generalizing i with
  | nil => rfl
  | cons f fs ih => rw [nearest, ih, List.zipIdx_cons, List.flatMap_cons]

theorem nearestIn_visited {m : Node} (h : m.kind.isVisited = true) (path : List Nat)
    (tag : String) : nearestIn path (.node tag m) = [⟨path, m⟩] := by
  obtain ⟨k, as, fs, t⟩ := m
  exact if_pos h

theorem nearestIn_hidden {m : Node} (h : m.kind.isVisited = false) (path : List Nat)
    (tag : String) : nearestIn path (.node tag m) = nearest path 0 m.fields := by
  obtain ⟨k, as, fs, t⟩ := m
  exact if_neg (by rw [show k.isVisited = false from h]; exact Bool.false_ne_true)

mutual

/-- All nodes that a walk can meet are found from the nearest ones down. -/
theorem filter_fieldsVisits {keep : Visit → Bool}
    (hkeep : ∀ v, keep v = true → v.node.kind.isVisited = true) (path : List Nat) (i : Nat)
    (fs : List Field) :
    (fieldsVisits path i fs).filter keep =
      (nearest path i fs).flatMap fun v => (v.node.visits v.path).filter keep := by
  match fs with
  | [] => rfl
  | f :: fs =>
    rw [fieldsVisits, nearest, List.filter_append, List.flatMap_append,
      filter_fieldVisits hkeep (i :: path) f, filter_fieldsVisits hkeep path (i + 1) fs]
termination_by structural fs

theorem filter_fieldVisits {keep : Visit → Bool}
    (hkeep : ∀ v, keep v = true → v.node.kind.isVisited = true) (path : List Nat) (f : Field) :
    (fieldVisits path f).filter keep =
      (nearestIn path f).flatMap fun v => (v.node.visits v.path).filter keep := by
  match f with
  | .value tag v => rfl
  | .node tag (mk k as fs t) =>
    cases hk : k.isVisited with
    | true =>
      rw [nearestIn_visited (m := mk k as fs t) hk, List.flatMap_singleton]
      rfl
    | false =>
      have hhere : ¬ keep ⟨path, mk k as fs t⟩ = true := fun h => by
        cases hk.symm.trans (hkeep _ h)
      rw [nearestIn_hidden (m := mk k as fs t) hk, fieldVisits, visits,
        List.filter_cons_of_neg hhere]
      exact filter_fieldsVisits hkeep path 0 fs
termination_by structural f

end

section Schema

variable {n m : Node} {f : Field} {spec : ChildSpec}

/-- A field with the tag of a child holds what the schema says of that child. -/
theorem content_of_tag (hw : n.WellFormed) (hf : f ∈ n.fields)
    (hspec : spec ∈ n.kind.schema.children) (htag : f.tag = spec.tag) :
    f.content = spec.content := by
  obtain ⟨spec', hspec', hcontent⟩ := hw.fields f hf
  rw [hcontent, Kind.child_eq hspec' hspec htag]

/-- In a node that is not met, a walk meets the children of one tag at most, and nothing below the
others. -/
theorem nearestIn_passed (hw : n.All WellFormed) (hk : n.kind.isVisited = false)
    (hf : f ∈ n.fields) (path : List Nat) :
    nearestIn path f = (n.kind.schema.children.find? ChildSpec.isVisited).elim []
      fun inner => ends [inner.tag] path f := by
  obtain ⟨spec, hspec, hcontent⟩ := hw.here.fields f hf
  have hmem := List.mem_of_find?_eq_some hspec
  have htag := Kind.child_tag hspec
  obtain ⟨hmet, hnone⟩ := n.kind.children_passed hk spec hmem
  cases f with
  | value tag v =>
    cases n.kind.schema.children.find? ChildSpec.isVisited <;> rfl
  | node tag m =>
    have hvisited : spec.isVisited = m.kind.isVisited := by
      rw [ChildSpec.isVisited, ← hcontent]
      rfl
    cases hm : m.kind.isVisited with
    | true =>
      rw [hmet (hvisited.trans hm), nearestIn_visited hm]
      simp only [Option.elim_some, ends, List.isEmpty_nil, if_true]
      exact (if_pos htag.symm).symm
    | false =>
      have hempty : nearestIn path (.node tag m) = [] := by
        rw [nearestIn_hidden hm, nearest_eq]
        refine List.flatMap_eq_nil_iff.mpr fun g hg => ?_
        cases hg1 : g.1 with
        | value tag v => rfl
        | node tag' x =>
          obtain ⟨spec', hspec', -, hkind⟩ := kind_of_fitting
            ((hw.below _ hf m rfl).here.fields _ (List.fst_mem_of_mem_zipIdx hg))
            (show g.1.node? = some x by rw [hg1]; rfl)
          rw [hnone (hvisited.trans hm) m.kind (by rw [← hcontent]; rfl) spec' hspec'] at hkind
          cases hkind
      rw [hempty]
      cases hfind : n.kind.schema.children.find? ChildSpec.isVisited with
      | none => rfl
      | some inner =>
        refine (ends_other (fun h => ?_) [] path).symm
        rw [Kind.child_eq hspec (List.mem_of_find?_eq_some hfind) h.symm,
          List.find?_some hfind, hm] at hvisited
        cases hvisited

/-- The way to a child leads to what is nearest in the fields with its tag. -/
theorem ends_way (hw : n.All WellFormed) (hspec : spec ∈ n.kind.schema.children) (hf : f ∈ n.fields)
    (htag : spec.tag = f.tag) (path : List Nat) :
    spec.way?.elim [] (fun way => ends way path f) = nearestIn path f := by
  have hcontent := content_of_tag hw.here hf hspec htag.symm
  cases f with
  | value tag v =>
    have hnone : spec.way? = none := by rw [ChildSpec.way?, ← hcontent]; rfl
    rw [hnone]
    rfl
  | node tag m =>
    obtain rfl : spec.tag = tag := htag
    cases hm : m.kind.isVisited with
    | true =>
      have hway : spec.way? = some [spec.tag] := by
        rw [ChildSpec.way?, ← hcontent]
        exact if_pos hm
      rw [hway, nearestIn_visited hm]
      exact if_pos rfl
    | false =>
      have hway : spec.way? = (m.kind.schema.children.find? ChildSpec.isVisited).map
          fun inner => [spec.tag, inner.tag] := by
        rw [ChildSpec.way?, ← hcontent]
        exact if_neg (by rw [hm]; exact Bool.false_ne_true)
      have hpassed : ∀ g ∈ m.fields.zipIdx, nearestIn (g.2 :: path) g.1 = _ := fun g hg =>
        nearestIn_passed (hw.below _ hf m rfl) hm (List.fst_mem_of_mem_zipIdx hg) (g.2 :: path)
      rw [hway, nearestIn_hidden hm, nearest_eq, List.flatMap_congr hpassed]
      cases m.kind.schema.children.find? ChildSpec.isVisited with
      | none => exact (List.flatMap_eq_nil_iff.mpr fun _ _ => rfl).symm
      | some inner => exact if_pos rfl

/-- From a well-formed node a walk reaches what is nearest below it, in the order in which it is
written. -/
theorem reach_eq (hw : n.All WellFormed) (hk : n.kind.isVisited = true) (path : List Nat) :
    n.reach path = nearest path 0 n.fields := by
  have hways : n.reach path = n.kind.schema.children.flatMap fun spec =>
      n.fields.zipIdx.flatMap fun f => spec.way?.elim [] fun way => ends way (f.2 :: path) f.1 := by
    rw [reach, n.kind.ways_schema hk]
    generalize n.kind.schema.children = specs
    induction specs with
    | nil => rfl
    | cons spec specs ih =>
      rw [List.flatMap_cons, ← ih]
      cases hway : spec.way? with
      | none =>
        have hnone : n.fields.zipIdx.flatMap (fun f => (none : Option (List String)).elim []
            fun way => ends way (f.2 :: path) f.1) = [] :=
          List.flatMap_eq_nil_iff.mpr fun _ _ => rfl
        rw [List.filterMap_cons_none hway, hnone, List.nil_append]
      | some way => rw [List.filterMap_cons_some hway, List.flatMap_cons]; rfl
  have hsorted : n.fields.zipIdx.Pairwise fun f g =>
      n.kind.childRank f.1.tag ≤ n.kind.childRank g.1.tag := by
    have h := hw.here.fieldsInOrder.imp fun {f g} h => rank_of_precedes h
    rw [← List.zipIdx_map_fst 0 n.fields, List.pairwise_map] at h
    exact h
  rw [hways, nearest_eq]
  refine flatMap_ranked ChildSpec.tag (fun f : Field × Nat => f.1.tag) n.kind.schema.children
    n.kind.children_nodup _ _ n.fields.zipIdx (fun spec hspec f hf htag => ?_)
    (fun spec _ f _ htag => ?_) (fun f hf => ?_) hsorted
  · exact ends_way hw hspec (List.fst_mem_of_mem_zipIdx hf) htag (f.2 :: path)
  · cases hway : spec.way? with
    | none => rfl
    | some way =>
      obtain ⟨rest, rfl⟩ := spec.way_head hway
      exact ends_other htag rest (f.2 :: path)
  · obtain ⟨spec, hspec, -⟩ := hw.here.fields f.1 (List.fst_mem_of_mem_zipIdx hf)
    exact ⟨spec, List.mem_of_find?_eq_some hspec, Kind.child_tag hspec⟩

end Schema

end Node

/-! ## Walks by fields -/

section Fields

variable {σ κ : Type} {w : Walker σ κ} {c inner : κ} {path : List Nat} {n : Node} {s s' : σ}

/-- A walker keeps out of the nodes that no walk meets, and out of gradients, the only nodes from
which a way leads through such nodes. -/
def Walker.KeepsOut (w : Walker σ κ) : Prop :=
  ∀ c v s, v.node.kind.isVisited = false ∨ v.node.kind = .gradient → w.enter c v s = (none, s)

namespace Node

def walkField (w : Walker σ κ) (c : κ) (path : List Nat) : Field → StateM σ Unit
  | .value _ _ => pure ()
  | .node _ m => m.walk w c path

/-- Walks over the nodes among some fields, one after another. -/
def walkFields (w : Walker σ κ) (c : κ) (path : List Nat) (i : Nat) : List Field → StateM σ Unit
  | [] => pure ()
  | f :: fs => do
    walkField w c (i :: path) f
    walkFields w c path (i + 1) fs

theorem walkFields_node (tag : String) (m : Node) (fs : List Field) (i : Nat) (s : σ) :
    (walkFields w c path i (.node tag m :: fs) s).2 =
      (walkFields w c path (i + 1) fs (m.walk w c (i :: path) s).2).2 := rfl

theorem walkFields_append (fs gs : List Field) (i : Nat) (s : σ) :
    (walkFields w c path i (fs ++ gs) s).2 =
      (walkFields w c path (i + fs.length) gs (walkFields w c path i fs s).2).2 := by
  induction fs generalizing i s with
  | nil => rfl
  | cons f fs ih =>
    have h := ih (i + 1) (walkField w c (i :: path) f s).2
    rw [Nat.add_assoc, Nat.add_comm 1] at h
    exact h

/-- A walker that keeps out of what is not met can as well go over all fields of a node. -/
theorem walkFields_eq (hw : n.All WellFormed) (hk : n.kind ≠ .gradient) (hout : w.KeepsOut)
    (fs : List Field) (hfs : ∀ f ∈ fs, f ∈ n.fields) (i : Nat) (s : σ) :
    (forM (nearest path i fs) (meet w c) s).2 = (walkFields w c path i fs s).2 := by
  induction fs generalizing i s with
  | nil => rfl
  | cons f fs ih =>
    have hrest := ih (fun g hg => hfs g (List.mem_cons_of_mem f hg)) (i + 1)
    rw [nearest, List.forM_append]
    cases f with
    | value tag v => exact hrest s
    | node tag m =>
      have hmem := hfs _ (List.mem_cons_self ..)
      cases hm : m.kind.isVisited with
      | true =>
        rw [nearestIn_visited hm, List.forM_cons, List.forM_nil, bind_pure_unit]
        exact hrest _
      | false =>
        obtain ⟨spec, hspec, -, hkind⟩ := kind_of_fitting (hw.here.fields _ hmem) rfl
        have hnone := n.kind.children_hidden hk spec hspec m.kind hkind hm
        have hempty : nearestIn (i :: path) (.node tag m) = [] := by
          rw [nearestIn_hidden hm, nearest_eq]
          refine List.flatMap_eq_nil_iff.mpr fun g hg => ?_
          rw [nearestIn_passed (hw.below _ hmem m rfl) hm (List.fst_mem_of_mem_zipIdx hg), hnone]
          rfl
        rw [hempty, walkFields_node, walk_outside (hout c ⟨i :: path, m⟩ s (.inl hm))]
        exact hrest s

theorem walk_entered (hw : n.All WellFormed) (hout : w.KeepsOut)
    (h : w.enter c ⟨path, n⟩ s = (some inner, s')) :
    (n.walk w c path s).2 =
      (w.leave c inner ⟨path, n⟩ (walkFields w inner path 0 n.fields s').2).2 := by
  have hmet : ¬ (n.kind.isVisited = false ∨ n.kind = .gradient) := fun hk => by
    cases h.symm.trans (hout c ⟨path, n⟩ s hk)
  obtain ⟨hk, hgradient⟩ := not_or.mp hmet
  rw [walk_reached h, reach_eq hw (Bool.not_eq_false _ ▸ hk),
    walkFields_eq hw hgradient hout n.fields fun f hf => hf]

end Node

end Fields

end FormCompiler.Document
