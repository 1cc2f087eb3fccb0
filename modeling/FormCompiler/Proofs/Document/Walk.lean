import FormCompiler.Document.Walk

/-!
# Paths to nodes

No two visits of nodes have the same path, so a path tells which object of a form is meant.
-/

namespace FormCompiler.Document.Node

mutual

theorem visits_suffix (n : Node) (p : List Nat) : ∀ v ∈ n.visits p, p <:+ v.path := by
  match n with
  | mk k as fs t =>
    intro v hv
    rcases List.mem_cons.mp hv with rfl | hv
    · exact List.suffix_refl p
    · obtain ⟨j, _, hj⟩ := fieldsVisits_suffix fs p 0 v hv
      exact (List.suffix_cons j p).trans hj
termination_by structural n

theorem fieldsVisits_suffix (fs : List Field) (p : List Nat) (i : Nat) :
    ∀ v ∈ fieldsVisits p i fs, ∃ j, i ≤ j ∧ (j :: p) <:+ v.path := by
  match fs with
  | [] => simp [fieldsVisits]
  | f :: fs =>
    intro v hv
    rcases List.mem_append.mp hv with hv | hv
    · exact ⟨i, Nat.le_refl i, fieldVisits_suffix f (i :: p) v hv⟩
    · obtain ⟨j, hij, hj⟩ := fieldsVisits_suffix fs p (i + 1) v hv
      exact ⟨j, by omega, hj⟩
termination_by structural fs

theorem fieldVisits_suffix (f : Field) (p : List Nat) : ∀ v ∈ fieldVisits p f, p <:+ v.path := by
  match f with
  | .value _ _ => simp [fieldVisits]
  | .node _ n => exact visits_suffix n p
termination_by structural f

end

theorem place_of_suffix {i j : Nat} {p path : List Nat} (hi : (i :: p) <:+ path)
    (hj : (j :: p) <:+ path) : i = j := by
  have h := List.suffix_of_suffix_length_le hi hj (by simp)
  exact (List.cons.inj (h.eq_of_length (by simp))).1

theorem ne_of_suffix {j : Nat} {p path : List Nat} (h : (j :: p) <:+ path) : path ≠ p := by
  intro he
  have hlen := h.length_le
  rw [he, List.length_cons] at hlen
  omega

mutual

theorem visits_nodup (n : Node) (p : List Nat) : ((n.visits p).map Visit.path).Nodup := by
  match n with
  | mk k as fs t =>
    rw [visits, List.map_cons, List.nodup_cons]
    refine ⟨fun hmem => ?_, fieldsVisits_nodup fs p 0⟩
    obtain ⟨v, hv, hpath⟩ := List.mem_map.mp hmem
    obtain ⟨j, _, hj⟩ := fieldsVisits_suffix fs p 0 v hv
    exact ne_of_suffix hj hpath
termination_by structural n

theorem fieldsVisits_nodup (fs : List Field) (p : List Nat) (i : Nat) :
    ((fieldsVisits p i fs).map Visit.path).Nodup := by
  match fs with
  | [] => exact .nil
  | f :: fs =>
    rw [fieldsVisits, List.map_append, List.nodup_append]
    refine ⟨fieldVisits_nodup f (i :: p), fieldsVisits_nodup fs p (i + 1), ?_⟩
    intro a ha b hb hab
    obtain ⟨v, hv, rfl⟩ := List.mem_map.mp ha
    obtain ⟨w, hw, rfl⟩ := List.mem_map.mp hb
    have h1 := fieldVisits_suffix f (i :: p) v hv
    obtain ⟨j, hij, h2⟩ := fieldsVisits_suffix fs p (i + 1) w hw
    rw [hab] at h1
    have hplace := place_of_suffix h1 h2
    omega
termination_by structural fs

theorem fieldVisits_nodup (f : Field) (p : List Nat) :
    ((fieldVisits p f).map Visit.path).Nodup := by
  match f with
  | .value _ _ => exact .nil
  | .node _ n => exact visits_nodup n p
termination_by structural f

end

theorem descendants_nodup (n : Node) (p : List Nat) : ((n.descendants p).map Visit.path).Nodup :=
  fieldsVisits_nodup n.fields p 0

/-- The path to a node is not met again below it. -/
theorem path_of_descendant {n : Node} {p : List Nat} {v : Visit} (h : v ∈ n.descendants p) :
    v.path ≠ p := by
  obtain ⟨j, _, hj⟩ := fieldsVisits_suffix n.fields p 0 v h
  exact ne_of_suffix hj

end FormCompiler.Document.Node
