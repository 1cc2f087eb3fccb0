import FormCompiler.Document.Walk

/-!
# Tours of a tree

A tour lists something for each node before what is below it, and something after.  Up to the order
it is what the visits of a walk give (`tour_perm`); what is listed for a node stands around what is
listed below it (`tour_within`).
-/

namespace FormCompiler.Document.Node

variable {α : Type} (before after : Visit → List α)

mutual

/-- What is listed on the way down to the nodes from a node on, and on the way back. -/
def tour (path : List Nat) : Node → List α
  | mk kind attributes fields text =>
    before ⟨path, mk kind attributes fields text⟩ ++ fieldsTour path 0 fields ++
      after ⟨path, mk kind attributes fields text⟩
termination_by structural n => n

def fieldsTour (path : List Nat) (i : Nat) : List Field → List α
  | [] => []
  | f :: rest => fieldTour (i :: path) f ++ fieldsTour path (i + 1) rest
termination_by structural fields => fields

def fieldTour (path : List Nat) : Field → List α
  | .value _ _ => []
  | .node _ n => tour path n
termination_by structural f => f

end

theorem tour_eq (v : Visit) :
    v.node.tour before after v.path =
      before v ++ fieldsTour before after v.path 0 v.node.fields ++ after v := by
  obtain ⟨p, k, as, fs, t⟩ := v
  rfl

mutual

theorem tour_perm (n : Node) (p : List Nat) :
    (n.tour before after p).Perm ((n.visits p).flatMap fun v => before v ++ after v) := by
  match n with
  | mk k as fs t =>
    rw [tour, visits, List.flatMap_cons, List.append_assoc, List.append_assoc]
    refine List.Perm.append_left _ ?_
    exact List.perm_append_comm.trans ((fieldsTour_perm fs p 0).append_left _)
termination_by structural n

theorem fieldsTour_perm (fs : List Field) (p : List Nat) (i : Nat) :
    (fieldsTour before after p i fs).Perm
      ((fieldsVisits p i fs).flatMap fun v => before v ++ after v) := by
  match fs with
  | [] => exact List.Perm.refl _
  | f :: fs =>
    rw [fieldsTour, fieldsVisits, List.flatMap_append]
    exact (fieldTour_perm f (i :: p)).append (fieldsTour_perm fs p (i + 1))
termination_by structural fs

theorem fieldTour_perm (f : Field) (p : List Nat) :
    (fieldTour before after p f).Perm
      ((fieldVisits p f).flatMap fun v => before v ++ after v) := by
  match f with
  | .value _ _ => exact List.Perm.refl _
  | .node _ n => exact tour_perm n p
termination_by structural f

end

theorem fieldsTour_eq_nil {fs : List Field} {p : List Nat} {i : Nat}
    (h : ∀ v ∈ fieldsVisits p i fs, before v = [] ∧ after v = []) :
    fieldsTour before after p i fs = [] := by
  refine (List.Perm.nil_eq ?_).symm
  have hempty : (fieldsVisits p i fs).flatMap (fun v => before v ++ after v) = [] := by
    rw [List.flatMap_eq_nil_iff]
    intro v hv
    rw [(h v hv).1, (h v hv).2]
    rfl
  exact ((fieldsTour_perm before after fs p i).trans (.of_eq hempty)).symm

mutual

theorem tour_congr {before' after' : Visit → List α} (n : Node) (p : List Nat)
    (h : ∀ v ∈ n.visits p, before v = before' v ∧ after v = after' v) :
    n.tour before after p = n.tour before' after' p := by
  match n with
  | mk k as fs t =>
    obtain ⟨hbefore, hafter⟩ := h ⟨p, mk k as fs t⟩ (List.mem_cons_self ..)
    rw [tour, tour, hbefore, hafter,
      fieldsTour_congr fs p 0 fun v hv => h v (List.mem_cons_of_mem _ hv)]
termination_by structural n

theorem fieldsTour_congr {before' after' : Visit → List α} (fs : List Field) (p : List Nat)
    (i : Nat) (h : ∀ v ∈ fieldsVisits p i fs, before v = before' v ∧ after v = after' v) :
    fieldsTour before after p i fs = fieldsTour before' after' p i fs := by
  match fs with
  | [] => rfl
  | f :: fs =>
    rw [fieldsTour, fieldsTour,
      fieldTour_congr f (i :: p) fun v hv => h v (List.mem_append_left _ hv),
      fieldsTour_congr fs p (i + 1) fun v hv => h v (List.mem_append_right _ hv)]
termination_by structural fs

theorem fieldTour_congr {before' after' : Visit → List α} (f : Field) (p : List Nat)
    (h : ∀ v ∈ fieldVisits p f, before v = before' v ∧ after v = after' v) :
    fieldTour before after p f = fieldTour before' after' p f := by
  match f with
  | .value _ _ => rfl
  | .node _ n => exact tour_congr n p h
termination_by structural f

end

mutual

theorem tour_filterMap {β : Type} (g : α → Option β) (n : Node) (p : List Nat) :
    (n.tour before after p).filterMap g =
      n.tour (fun v => (before v).filterMap g) (fun v => (after v).filterMap g) p := by
  match n with
  | mk k as fs t =>
    rw [tour, tour, List.filterMap_append, List.filterMap_append, fieldsTour_filterMap g fs p 0]
termination_by structural n

theorem fieldsTour_filterMap {β : Type} (g : α → Option β) (fs : List Field) (p : List Nat)
    (i : Nat) :
    (fieldsTour before after p i fs).filterMap g =
      fieldsTour (fun v => (before v).filterMap g) (fun v => (after v).filterMap g) p i fs := by
  match fs with
  | [] => rfl
  | f :: fs =>
    rw [fieldsTour, fieldsTour, List.filterMap_append, fieldTour_filterMap g f (i :: p),
      fieldsTour_filterMap g fs p (i + 1)]
termination_by structural fs

theorem fieldTour_filterMap {β : Type} (g : α → Option β) (f : Field) (p : List Nat) :
    (fieldTour before after p f).filterMap g =
      fieldTour (fun v => (before v).filterMap g) (fun v => (after v).filterMap g) p f := by
  match f with
  | .value _ _ => rfl
  | .node _ n => exact tour_filterMap g n p
termination_by structural f

end

mutual

theorem tour_down (n : Node) (p : List Nat) :
    n.tour before (fun _ => []) p = (n.visits p).flatMap before := by
  match n with
  | mk k as fs t =>
    rw [tour, visits, List.flatMap_cons, List.append_nil, fieldsTour_down fs p 0]
termination_by structural n

theorem fieldsTour_down (fs : List Field) (p : List Nat) (i : Nat) :
    fieldsTour before (fun _ => []) p i fs = (fieldsVisits p i fs).flatMap before := by
  match fs with
  | [] => rfl
  | f :: fs =>
    rw [fieldsTour, fieldsVisits, List.flatMap_append, fieldTour_down f (i :: p),
      fieldsTour_down fs p (i + 1)]
termination_by structural fs

theorem fieldTour_down (f : Field) (p : List Nat) :
    fieldTour before (fun _ => []) p f = (fieldVisits p f).flatMap before := by
  match f with
  | .value _ _ => rfl
  | .node _ n => exact tour_down n p
termination_by structural f

end

mutual

theorem tour_within (n : Node) (p : List Nat) :
    ∀ v ∈ n.visits p, v.node.tour before after v.path <:+: n.tour before after p := by
  match n with
  | mk k as fs t =>
    intro v hv
    rcases List.mem_cons.mp hv with rfl | hv
    · exact List.infix_refl _
    · refine (fieldsTour_within fs p 0 v hv).trans ?_
      exact ⟨_, _, rfl⟩
termination_by structural n

theorem fieldsTour_within (fs : List Field) (p : List Nat) (i : Nat) :
    ∀ v ∈ fieldsVisits p i fs,
      v.node.tour before after v.path <:+: fieldsTour before after p i fs := by
  match fs with
  | [] => simp [fieldsVisits]
  | f :: fs =>
    intro v hv
    rcases List.mem_append.mp hv with hv | hv
    · exact (fieldTour_within f (i :: p) v hv).trans (List.prefix_append _ _).isInfix
    · exact (fieldsTour_within fs p (i + 1) v hv).trans (List.suffix_append _ _).isInfix
termination_by structural fs

theorem fieldTour_within (f : Field) (p : List Nat) :
    ∀ v ∈ fieldVisits p f, v.node.tour before after v.path <:+: fieldTour before after p f := by
  match f with
  | .value _ _ => simp [fieldVisits]
  | .node _ n => exact tour_within n p
termination_by structural f

end

/-- What is listed for a node first stands before what is listed for it last. -/
theorem before_after {n : Node} {p : List Nat} {v : Visit} (hv : v ∈ n.visits p) :
    (before v ++ after v).Sublist (n.tour before after p) := by
  refine List.Sublist.trans ?_ (tour_within before after n p v hv).sublist
  rw [tour_eq]
  exact (List.sublist_append_left _ _).append (List.Sublist.refl _)

/-- What is listed for a node below another stands before what is listed last for that one. -/
theorem before_below {n : Node} {p : List Nat} {v w : Visit} (hv : v ∈ n.visits p)
    (hw : w ∈ v.node.descendants v.path) :
    (before w ++ after v).Sublist (n.tour before after p) := by
  have hinner : (before w).Sublist (fieldsTour before after v.path 0 v.node.fields) := by
    refine List.Sublist.trans ?_ (fieldsTour_within before after _ _ _ w hw).sublist
    rw [tour_eq, List.append_assoc]
    exact List.sublist_append_left _ _
  refine List.Sublist.trans ?_ (tour_within before after n p v hv).sublist
  rw [tour_eq, List.append_assoc]
  exact (hinner.append (List.Sublist.refl _)).trans (List.sublist_append_right _ _)

end FormCompiler.Document.Node
