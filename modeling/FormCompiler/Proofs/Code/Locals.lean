import FormCompiler.Proofs.Code.Assignment

/-!
# Variables that code brings in

The setup function brings in variables for values besides those of objects.  `locals` lists them in
the order of the code; `isPlain` tells the statements that have nothing to do with them, nor with
the name of an icon in the theme.
-/

namespace FormCompiler.Code

def gradientTypes : List String := ["QLinearGradient", "QRadialGradient", "QConicalGradient"]

namespace Stmt

/-- The variables that occur in a statement. -/
def names (s : Stmt) : List String := s.assigns ++ s.uses

/-- The variable that a statement declares. -/
def declares? : Stmt → Option String
  | declare _ x _ => some x
  | _ => none

/-- The variable that a statement brings in.  That of a gradient is brought in where the spread is
set, for a gradient of an unknown type is never declared. -/
def brings? : Stmt → Option String
  | declare type x _ => if gradientTypes.contains type then none else some x
  | modify x method _ => if method == "setSpread" then some x else none
  | _ => none

/-- The variable that a statement modifies. -/
def modifies? : Stmt → Option String
  | modify x _ _ => some x
  | _ => none

/-- The variable that a statement declares as a brush. -/
def paints? : Stmt → Option String
  | declare type x _ => if type == "QBrush" then some x else none
  | _ => none

/-- Whether a statement names a theme icon or looks one up. -/
def isTheme : Stmt → Bool
  | declare _ x _ | assign x _ => x == themeVariable
  | chooseIcon _ _ => true
  | _ => false

def isPlain : Stmt → Bool
  | declare _ _ _ | chooseIcon _ _ => false
  | modify _ method _ => method != "setSpread"
  | assign x _ => x != themeVariable
  | _ => true

theorem mem_names {s : Stmt} {x : String} : x ∈ s.names ↔ x ∈ s.assigns ∨ x ∈ s.uses :=
  List.mem_append

theorem mem_names_of_brings {s : Stmt} {x : String} (h : s.brings? = some x) : x ∈ s.names := by
  cases s with
  | declare type y init =>
    rw [brings?] at h
    split at h
    · cases h
    · rw [← Option.some.inj h]
      exact List.mem_cons_self ..
  | modify y method args =>
    rw [brings?] at h
    split at h
    · rw [← Option.some.inj h]
      exact List.mem_cons_self ..
    · cases h
  | _ => cases h

theorem mem_names_of_modifies {s : Stmt} {x : String} (h : s.modifies? = some x) :
    x ∈ s.names := by
  cases s with
  | modify y method args =>
    rw [← Option.some.inj h]
    exact List.mem_cons_self ..
  | _ => cases h

theorem brings_of_paints {s : Stmt} {x : String} (h : s.paints? = some x) :
    s.brings? = some x := by
  cases s with
  | declare type y init =>
    rw [paints?] at h
    split at h
    · rename_i htype
      rw [← Option.some.inj h, brings?, beq_iff_eq.mp htype]
      rfl
    · cases h
  | _ => cases h

theorem brings_of_plain {s : Stmt} (h : s.isPlain = true) : s.brings? = none := by
  cases s with
  | declare type y init => cases h
  | modify y method args =>
    rw [brings?, if_neg]
    simpa [isPlain] using h
  | _ => rfl

theorem declares_of_plain {s : Stmt} (h : s.isPlain = true) : s.declares? = none := by
  cases s with
  | declare type y init => cases h
  | _ => rfl

theorem isTheme_of_plain {s : Stmt} (h : s.isPlain = true) : s.isTheme = false := by
  cases s with
  | declare type y init => cases h
  | chooseIcon y files => cases h
  | assign y e =>
    rw [isTheme, beq_eq_false_iff_ne]
    simpa [isPlain] using h
  | _ => rfl

end Stmt

def locals (l : List Stmt) : List String := l.filterMap Stmt.brings?

theorem locals_append (l l' : List Stmt) : locals (l ++ l') = locals l ++ locals l' :=
  List.filterMap_append

theorem locals_of_plain {l : List Stmt} (h : ∀ s ∈ l, s.isPlain = true) : locals l = [] :=
  List.filterMap_eq_nil_iff.mpr fun s hs => Stmt.brings_of_plain (h s hs)

theorem names_of_locals {l : List Stmt} {x : String} (h : x ∈ locals l) :
    ∃ s ∈ l, x ∈ s.names := by
  obtain ⟨s, hs, hx⟩ := List.mem_filterMap.mp h
  exact ⟨s, hs, Stmt.mem_names_of_brings hx⟩

theorem names_of_assigned {l : List Stmt} {x : String} (h : x ∈ assigned l) :
    ∃ s ∈ l, x ∈ s.names := by
  obtain ⟨s, hs, hx⟩ := List.mem_flatMap.mp h
  exact ⟨s, hs, List.mem_append_left _ hx⟩

def modified (l : List Stmt) : List String := l.filterMap Stmt.modifies?

theorem modified_append (l l' : List Stmt) : modified (l ++ l') = modified l ++ modified l' :=
  List.filterMap_append

theorem names_of_modified {l : List Stmt} {x : String} (h : x ∈ modified l) :
    ∃ s ∈ l, x ∈ s.names := by
  obtain ⟨s, hs, hx⟩ := List.mem_filterMap.mp h
  exact ⟨s, hs, Stmt.mem_names_of_modifies hx⟩

/-- The variables of brushes. -/
def painted (l : List Stmt) : List String := l.filterMap Stmt.paints?

theorem painted_append (l l' : List Stmt) : painted (l ++ l') = painted l ++ painted l' :=
  List.filterMap_append

theorem locals_of_painted {l : List Stmt} {x : String} (h : x ∈ painted l) : x ∈ locals l := by
  obtain ⟨s, hs, hx⟩ := List.mem_filterMap.mp h
  exact List.mem_filterMap.mpr ⟨s, hs, Stmt.brings_of_paints hx⟩

end FormCompiler.Code
