import FormCompiler.Code.Statement

/-!
# Definite assignment

A list of statements is definitely assigned if no statement refers to a variable before an earlier
one assigns it.  Only variables are looked at, not code that a form spells out.
-/

namespace FormCompiler.Code

/-! ## What statements refer to and assign -/

/-- The variables an expression refers to. -/
def Expr.uses : Expr → List String
  | ref name => [name]
  | wrap _ e => e.uses
  | invoke receiver _ args => receiver :: args
  | _ => []

def Init.uses : Init → List String
  | default => []
  | args l => l.flatMap Expr.uses
  | value e => e.uses

namespace Stmt

/-- The variables a statement refers to. -/
def uses : Stmt → List String
  | create _ _ args | createLocal _ _ args | run _ args => args.flatMap Expr.uses
  | assign _ e => e.uses
  | declare _ _ init => init.uses
  | call name _ args | modify name _ args | insertItems name args =>
    name :: args.flatMap Expr.uses
  | nameOnce name | unused name => [name]
  | chooseIcon name _ => [name, themeVariable]
  | blank | ifNotDefined _ | endIf => []

/-- The variables a statement assigns; a declaration without a value gives the default one. -/
def assigns : Stmt → List String
  | create name _ _ | createLocal name _ _ | assign name _ | declare _ name _ => [name]
  | _ => []

end Stmt

/-- The variables that some statements assign. -/
def assigned (l : List Stmt) : List String := l.flatMap Stmt.assigns

/-- Every variable that a statement refers to is known at the start, or assigned by an earlier
statement. -/
def DefinitelyAssigned (known : List String) : List Stmt → Prop
  | [] => True
  | s :: rest => (∀ x ∈ s.uses, x ∈ known) ∧ DefinitelyAssigned (known ++ s.assigns) rest

/-- Statements that assign nothing and refer to known variables only. -/
def Calls (known : List String) (l : List Stmt) : Prop :=
  ∀ s ∈ l, s.assigns = [] ∧ ∀ x ∈ s.uses, x ∈ known

/-- A variable of type text is declared under a name. -/
def DeclaresText (x : String) (l : List Stmt) : Prop := ∃ init, Stmt.declare "QString" x init ∈ l

instance decideAssigned (known : List String) : (l : List Stmt) →
    Decidable (DefinitelyAssigned known l)
  | [] => isTrue trivial
  | s :: rest =>
    have := decideAssigned (known ++ s.assigns) rest
    inferInstanceAs (Decidable ((∀ x ∈ s.uses, x ∈ known) ∧ _))

/-! ## Expressions and statements in use -/

@[simp] theorem Expr.uses_int (n : Int) : (Expr.int n).uses = [] := rfl

@[simp] theorem Expr.uses_utf8 (depth : Nat) (text : String) : (Expr.utf8 depth text).uses = [] :=
  rfl

@[simp] theorem Expr.uses_emptyText : Expr.emptyText.uses = [] := rfl

@[simp] theorem IconFile.uses_args (f : IconFile) (depth : Nat) :
    (f.args depth).flatMap Expr.uses = [] := rfl

/-! ## Lists of statements -/

@[simp] theorem assigned_nil : assigned [] = [] := rfl

@[simp] theorem assigned_cons (s : Stmt) (l : List Stmt) :
    assigned (s :: l) = s.assigns ++ assigned l := rfl

@[simp] theorem assigned_append (l l' : List Stmt) :
    assigned (l ++ l') = assigned l ++ assigned l' := List.flatMap_append

namespace DefinitelyAssigned

theorem append_iff (known : List String) (l l' : List Stmt) :
    DefinitelyAssigned known (l ++ l') ↔
      DefinitelyAssigned known l ∧ DefinitelyAssigned (known ++ assigned l) l' := by
  induction l generalizing known with
  | nil => simp [DefinitelyAssigned]
  | cons s l ih =>
    rw [List.cons_append, DefinitelyAssigned, DefinitelyAssigned, ih, assigned_cons,
      List.append_assoc, and_assoc]

theorem of_known {known : List String} {l : List Stmt}
    (h : ∀ s ∈ l, ∀ x ∈ s.uses, x ∈ known) : DefinitelyAssigned known l := by
  induction l generalizing known with
  | nil => trivial
  | cons s l ih =>
    refine ⟨h s (List.mem_cons_self ..), ih fun s' hs' x hx => ?_⟩
    exact List.mem_append_left _ (h s' (List.mem_cons_of_mem s hs') x hx)

/-- Where nothing is assigned, everything has to be known at the start. -/
theorem iff_known {known : List String} {l : List Stmt} (hl : ∀ s ∈ l, s.assigns = []) :
    DefinitelyAssigned known l ↔ ∀ s ∈ l, ∀ x ∈ s.uses, x ∈ known := by
  refine ⟨fun h => ?_, of_known⟩
  induction l with
  | nil => simp
  | cons s l ih =>
    obtain ⟨hs, hrest⟩ := h
    rw [hl s (List.mem_cons_self ..), List.append_nil] at hrest
    intro s' hs'
    rcases List.mem_cons.mp hs' with rfl | hs'
    · exact hs
    · exact ih (fun s hs => hl s (List.mem_cons_of_mem _ hs)) hrest s' hs'

theorem of_declared {known : List String} {name : String} {s : Stmt} {l : List Stmt}
    (hs : ∀ x ∈ s.uses, x ∈ known) (hname : name ∈ s.assigns)
    (h : ∀ s' ∈ l, ∀ x ∈ s'.uses, x = name ∨ x ∈ known) : DefinitelyAssigned known (s :: l) := by
  refine ⟨hs, of_known fun s' hs' x hx => ?_⟩
  rcases h s' hs' x hx with rfl | hx
  · exact List.mem_append_right _ hname
  · exact List.mem_append_left _ hx

end DefinitelyAssigned

namespace Calls

variable {known known' : List String} {l l' : List Stmt}

theorem nil : Calls known [] := fun _ h => by cases h

theorem cons {s : Stmt} (hs : s.assigns = []) (huses : ∀ x ∈ s.uses, x ∈ known)
    (h : Calls known l) : Calls known (s :: l) := by
  intro s' hs'
  rcases List.mem_cons.mp hs' with rfl | hs'
  · exact ⟨hs, huses⟩
  · exact h s' hs'

theorem append (h : Calls known l) (h' : Calls known l') : Calls known (l ++ l') := by
  intro s hs
  exact (List.mem_append.mp hs).elim (h s) (h' s)

theorem mono (h : Calls known l) (hk : known ⊆ known') : Calls known' l :=
  fun s hs => (h s hs).imp id fun huses x hx => hk (huses x hx)

end Calls

theorem assigned_of_none {l : List Stmt} (h : ∀ s ∈ l, s.assigns = []) : assigned l = [] :=
  List.flatMap_eq_nil_iff.mpr h

theorem DeclaresText.mono {x : String} {l l' : List Stmt} (hl : l <+: l') (h : DeclaresText x l) :
    DeclaresText x l' := by
  obtain ⟨init, hinit⟩ := h
  exact ⟨init, hl.mem hinit⟩

end FormCompiler.Code
