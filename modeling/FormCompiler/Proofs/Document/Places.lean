import FormCompiler.Proofs.Document.Shape
import FormCompiler.Proofs.Document.Walk

/-!
# Nodes by their paths

`Node.nodeAt?` follows a path, and a walk meets exactly the nodes that are found this way
(`mem_visits`).  `Node.ancestors` lists what stands above a path, the nearest first.
-/

namespace FormCompiler.Document.Node

/-- The node at a path. -/
def nodeAt? (n : Node) : List Nat → Option Node
  | [] => some n
  | i :: path => (n.nodeAt? path).bind fun m => m.fields[i]?.bind Field.node?

theorem nodeAt_append (n : Node) (q p : List Nat) :
    n.nodeAt? (q ++ p) = (n.nodeAt? p).bind (·.nodeAt? q) := by
  induction q with
  | nil =>
    rw [List.nil_append]
    cases n.nodeAt? p <;> rfl
  | cons i q ih =>
    rw [List.cons_append, nodeAt?, ih]
    cases n.nodeAt? p <;> rfl

theorem nodeAt_cons {n m : Node} {i : Nat} {p : List Nat} (h : n.nodeAt? (i :: p) = some m) :
    ∃ parent, n.nodeAt? p = some parent ∧ parent.fields[i]?.bind Field.node? = some m :=
  Option.bind_eq_some_iff.mp h

/-- Some fields are those of the node at a path from an index on. -/
def FieldsAt (n : Node) (p : List Nat) (i : Nat) (fs : List Field) : Prop :=
  ∀ j m, fs[j]?.bind Field.node? = some m → n.nodeAt? ((i + j) :: p) = some m

theorem fieldsAt_all {n m : Node} {p : List Nat} (h : n.nodeAt? p = some m) :
    n.FieldsAt p 0 m.fields := by
  intro j x hx
  rw [Nat.zero_add, nodeAt?, h]
  exact hx

theorem FieldsAt.head {n m : Node} {p : List Nat} {i : Nat} {tag : String} {fs : List Field}
    (h : n.FieldsAt p i (.node tag m :: fs)) : n.nodeAt? (i :: p) = some m :=
  h 0 m rfl

theorem FieldsAt.tail {n : Node} {p : List Nat} {i : Nat} {f : Field} {fs : List Field}
    (h : n.FieldsAt p i (f :: fs)) : n.FieldsAt p (i + 1) fs := by
  intro j m hm
  rw [Nat.add_right_comm]
  exact h (j + 1) m hm

/-! ## Visits -/

theorem mem_fieldsVisits (fs : List Field) (p : List Nat) (i : Nat) (v : Visit) :
    v ∈ fieldsVisits p i fs ↔
      ∃ j m, fs[j]?.bind Field.node? = some m ∧ v ∈ m.visits ((i + j) :: p) := by
  induction fs generalizing i with
  | nil => simp [fieldsVisits]
  | cons f fs ih =>
    rw [fieldsVisits, List.mem_append, ih]
    constructor
    · rintro (h | ⟨j, m, hm, hv⟩)
      · cases f with
        | value tag s => cases h
        | node tag m => exact ⟨0, m, rfl, h⟩
      · exact ⟨j + 1, m, hm, by rwa [Nat.add_right_comm] at hv⟩
    · rintro ⟨j, m, hm, hv⟩
      cases j with
      | zero =>
        cases f with
        | value tag s => cases hm
        | node tag n =>
          obtain rfl := Option.some.inj hm
          exact .inl hv
      | succ j => exact .inr ⟨j, m, hm, by rwa [Nat.add_right_comm]⟩

/-- The nodes met from a node down are those that the paths from there on lead to. -/
theorem mem_visits_iff (n : Node) (p : List Nat) (v : Visit) :
    v ∈ n.visits p ↔ ∃ q, v.path = q ++ p ∧ n.nodeAt? q = some v.node := by
  induction n using Node.induction generalizing p with
  | h n ih =>
    have hvisits : n.visits p = ⟨p, n⟩ :: fieldsVisits p 0 n.fields := by
      obtain ⟨k, as, fs, t⟩ := n
      rfl
    rw [hvisits, List.mem_cons, mem_fieldsVisits]
    constructor
    · rintro (rfl | ⟨j, m, hm, hv⟩)
      · exact ⟨[], rfl, rfl⟩
      · obtain ⟨f, hf, hfm⟩ := Option.bind_eq_some_iff.mp hm
        obtain ⟨q, hpath, hnode⟩ := (ih f (List.mem_of_getElem? hf) m hfm _).mp hv
        refine ⟨q ++ [j], by simpa using hpath, ?_⟩
        rw [nodeAt_append]
        exact Option.bind_eq_some_iff.mpr ⟨m, hm, hnode⟩
    · rintro ⟨q, hpath, hnode⟩
      -- the way down begins with the last place of the path
      rcases List.eq_nil_or_concat q with rfl | ⟨q, j, rfl⟩
      · left
        obtain ⟨path, node⟩ := v
        rw [Visit.mk.injEq]
        exact ⟨hpath, (Option.some.inj hnode).symm⟩
      · rw [List.concat_eq_append, nodeAt_append] at hnode
        obtain ⟨m, hm, hq⟩ := Option.bind_eq_some_iff.mp hnode
        replace hm : n.fields[j]?.bind Field.node? = some m := hm
        obtain ⟨f, hf, hfm⟩ := Option.bind_eq_some_iff.mp hm
        refine .inr ⟨j, m, hm, (ih f (List.mem_of_getElem? hf) m hfm _).mpr ⟨q, ?_, hq⟩⟩
        rw [hpath, List.concat_eq_append]
        simp

theorem mem_visits (n : Node) (v : Visit) : v ∈ n.visits [] ↔ n.nodeAt? v.path = some v.node := by
  rw [mem_visits_iff]
  constructor
  · rintro ⟨q, hpath, hnode⟩
    rwa [hpath, List.append_nil]
  · intro h
    exact ⟨v.path, (List.append_nil _).symm, h⟩

theorem eq_of_path {n : Node} {v w : Visit} (hv : v ∈ n.visits []) (hw : w ∈ n.visits [])
    (h : v.path = w.path) : v = w := by
  rw [mem_visits] at hv hw
  rw [h, hw] at hv
  rw [Visit.mk.injEq]
  exact ⟨h, (Option.some.inj hv).symm⟩

theorem visits_below {n : Node} {v w : Visit} (hv : v ∈ n.visits [])
    (hw : w ∈ v.node.visits v.path) : w ∈ n.visits [] := by
  obtain ⟨q, hpath, hnode⟩ := (mem_visits_iff v.node v.path w).mp hw
  rw [mem_visits] at hv ⊢
  rw [hpath, nodeAt_append, hv]
  exact hnode

theorem All.nodeAt {P : Node → Prop} {n m : Node} {p : List Nat} (h : All P n)
    (hm : n.nodeAt? p = some m) : P m :=
  h ⟨p, m⟩ ((mem_visits n ⟨p, m⟩).mpr hm)

/-! ## Ancestors -/

/-- The nodes strictly above a path, the nearest first. -/
def ancestors (n : Node) : List Nat → List Visit
  | [] => []
  | _ :: path => ((n.nodeAt? path).map (Visit.mk path)).toList ++ n.ancestors path

/-- The nearest node of a kind strictly above a path. -/
def enclosing? (n : Node) (kind : Kind) (path : List Nat) : Option Visit :=
  (n.ancestors path).find? (·.node.kind == kind)

theorem ancestors_cons {n m : Node} {p : List Nat} (i : Nat) (h : n.nodeAt? p = some m) :
    n.ancestors (i :: p) = ⟨p, m⟩ :: n.ancestors p := by
  rw [ancestors, h]
  rfl

theorem mem_ancestors {n x : Node} {p : List Nat} (h : n.nodeAt? p = some x) (u : Visit) :
    u ∈ n.ancestors p ↔ u ∈ n.visits [] ∧ u.path <:+ p ∧ u.path ≠ p := by
  rw [mem_visits]
  induction p generalizing x with
  | nil => simp [ancestors]
  | cons i p ih =>
    obtain ⟨m, hm, -⟩ := nodeAt_cons h
    rw [ancestors_cons i hm, List.mem_cons, ih hm, List.suffix_cons_iff]
    constructor
    · rintro (rfl | ⟨hu, hsuffix, -⟩)
      · exact ⟨hm, .inr (List.suffix_refl p), by simp⟩
      · refine ⟨hu, .inr hsuffix, fun he => ?_⟩
        have hlength := hsuffix.length_le
        rw [he, List.length_cons] at hlength
        omega
    · rintro ⟨hu, hpath | hsuffix, hne⟩
      · exact absurd hpath hne
      · by_cases hp : u.path = p
        · left
          obtain ⟨path, node⟩ := u
          subst hp
          rw [hm] at hu
          rw [Option.some.inj hu]
        · exact .inr ⟨hu, hsuffix, hp⟩

theorem enclosing_mem {n x : Node} {p : List Nat} {kind : Kind} {u : Visit}
    (h : n.nodeAt? p = some x) (hu : n.enclosing? kind p = some u) :
    u ∈ n.visits [] ∧ u.node.kind = kind :=
  ⟨((mem_ancestors h u).mp (List.mem_of_find?_eq_some hu)).1, by simpa using List.find?_some hu⟩

theorem enclosing_here {n m : Node} {p : List Nat} (i : Nat) (h : n.nodeAt? p = some m) :
    n.enclosing? m.kind (i :: p) = some ⟨p, m⟩ := by
  rw [enclosing?, ancestors_cons i h, List.find?_cons_of_pos (by simp)]

theorem enclosing_above {n m : Node} {p : List Nat} (i : Nat) {kind : Kind}
    (h : n.nodeAt? p = some m) (hk : m.kind ≠ kind) :
    n.enclosing? kind (i :: p) = n.enclosing? kind p := by
  rw [enclosing?, ancestors_cons i h, List.find?_cons_of_neg (by simpa using hk), enclosing?]

end FormCompiler.Document.Node
