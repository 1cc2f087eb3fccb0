import FormCompiler.Proofs.Setup.Requests

/-!
# Code that declares variables for values

The variable of a font, an icon or a size policy is declared first and filled then; nothing else
occurs in that code but the variable for theme names.  The code of a gradient is about the gradient
only.
-/

namespace FormCompiler.Setup

open Code

/-- A statement that fills the variable `x`, but not with the spread of a gradient. -/
def Fills (x : String) (s : Stmt) : Prop :=
  ∃ method args, s = .modify x method args ∧ method ≠ "setSpread" ∧ args.flatMap Expr.uses = []

/-- Statements that declare a variable of a shared type and fill it. -/
def DeclaresShared (x : String) (l : List Stmt) : Prop :=
  ∃ type init rest, l = .declare type x init :: rest ∧ type ∈ sharedTypes ∧ init.uses = [] ∧
    ∀ s ∈ rest, Fills x s

variable {x z : String} {l : List Stmt} {s : Stmt}

theorem sharedName_of_plain (h : s.isPlain = true) : sharedName? s = none := by
  cases s with
  | declare type y init => cases h
  | _ => rfl

theorem Fills.names (h : Fills x s) (hz : z ∈ s.names) : z = x := by
  obtain ⟨method, args, rfl, -, hargs⟩ := h
  have huses : z ∈ x :: args.flatMap Expr.uses := hz
  rw [hargs] at huses
  exact List.mem_singleton.mp huses

theorem Fills.brings (h : Fills x s) : s.brings? = none := by
  obtain ⟨method, args, rfl, hmethod, -⟩ := h
  exact if_neg (by simpa using hmethod)

theorem gradientTypes_of_shared : ∀ type ∈ sharedTypes, gradientTypes.contains type = false := by
  decide

namespace DeclaresShared

theorem names (h : DeclaresShared x l) (hs : s ∈ l) (hz : z ∈ s.names) : z = x := by
  obtain ⟨type, init, rest, rfl, -, hinit, hrest⟩ := h
  rcases List.mem_cons.mp hs with rfl | hs
  · have huses : z ∈ [x] ++ init.uses := hz
    rw [hinit] at huses
    exact List.mem_singleton.mp huses
  · exact (hrest s hs).names hz

theorem locals_eq (h : DeclaresShared x l) : locals l = [x] := by
  obtain ⟨type, init, rest, rfl, htype, -, hrest⟩ := h
  have hfirst : (Stmt.declare type x init).brings? = some x := by
    rw [Stmt.brings?, gradientTypes_of_shared type htype]
    rfl
  have hnone : rest.filterMap Stmt.brings? = [] :=
    List.filterMap_eq_nil_iff.mpr fun s hs => (hrest s hs).brings
  rw [locals, List.filterMap_cons_some hfirst, hnone]

theorem first (h : DeclaresShared x l) : ∃ s ∈ l, s.brings? = some x ∧ s.paints? = none := by
  obtain ⟨type, init, rest, rfl, htype, -⟩ := h
  have hbrush : ∀ type ∈ sharedTypes, type ≠ "QBrush" := by decide
  refine ⟨_, List.mem_cons_self .., ?_, if_neg (by simpa using hbrush type htype)⟩
  rw [Stmt.brings?, gradientTypes_of_shared type htype]
  rfl

theorem declares (h : DeclaresShared x l) (hs : s ∈ l) (hz : s.declares? = some z) : z = x := by
  obtain ⟨type, init, rest, rfl, -, -, hrest⟩ := h
  rcases List.mem_cons.mp hs with rfl | hs
  · exact (Option.some.inj hz).symm
  · obtain ⟨method, args, rfl, -⟩ := hrest s hs
    cases hz

theorem shares (h : DeclaresShared x l) (hs : s ∈ l) (hz : sharedName? s = some z) : z = x := by
  obtain ⟨type, init, rest, rfl, htype, -, hrest⟩ := h
  rcases List.mem_cons.mp hs with rfl | hs
  · rw [sharedName?, if_pos (List.contains_iff_mem.mpr htype)] at hz
    exact (Option.some.inj hz).symm
  · obtain ⟨method, args, rfl, -⟩ := hrest s hs
    cases hz

theorem themeless (h : DeclaresShared x l) (hx : x ≠ themeVariable) (hs : s ∈ l) :
    s.isTheme = false := by
  obtain ⟨type, init, rest, rfl, -, -, hrest⟩ := h
  rcases List.mem_cons.mp hs with rfl | hs
  · exact beq_eq_false_iff_ne.mpr hx
  · obtain ⟨method, args, rfl, -⟩ := hrest s hs
    rfl

end DeclaresShared

/-! ## Fonts, icons and size policies -/

theorem policyStmts_shared (x : String) (p : SizePolicy) : DeclaresShared x (policyStmts x p) := by
  refine ⟨_, _, _, rfl, by decide, ?_, ?_⟩
  · unfold policyInit
    split <;> rfl
  · simp only [List.forall_mem_cons]
    exact ⟨⟨_, _, rfl, by decide, by simp⟩, ⟨_, _, rfl, by decide, by simp⟩, by simp⟩

theorem flagStmts_fill (x : String) {method : String} (hmethod : method ≠ "setSpread")
    (flag : Option Bool) : ∀ s ∈ flagStmts x method flag, Fills x s := by
  intro s hs
  cases flag with
  | none => cases hs
  | some b =>
    rw [List.mem_singleton.mp hs]
    exact ⟨_, _, rfl, hmethod, rfl⟩

theorem sizeStmts_fill (x : String) {method : String} (hmethod : method ≠ "setSpread")
    (size : Option Int) : ∀ s ∈ sizeStmts x method size, Fills x s := by
  intro s hs
  cases size with
  | none => cases hs
  | some n =>
    rw [sizeStmts] at hs
    split at hs
    · rw [List.mem_singleton.mp hs]
      exact ⟨_, _, rfl, hmethod, by simp⟩
    · cases hs

theorem fontStmts_shared (x : String) (f : Font) : DeclaresShared x (fontStmts x f) := by
  refine ⟨"QFont", .default, (fontStmts x f).tail, rfl, by decide, rfl, ?_⟩
  simp only [fontStmts, List.append_assoc, List.cons_append, List.nil_append, List.tail_cons,
    List.forall_mem_append]
  refine ⟨?_, sizeStmts_fill x (by decide) _, flagStmts_fill x (by decide) _,
    flagStmts_fill x (by decide) _, flagStmts_fill x (by decide) _, sizeStmts_fill x (by decide) _,
    flagStmts_fill x (by decide) _, flagStmts_fill x (by decide) _, ?_, ?_⟩
  · intro s hs
    split at hs
    · split at hs
      · cases hs
      · rw [List.mem_singleton.mp hs]
        exact ⟨_, _, rfl, by decide, by simp⟩
    · cases hs
  · intro s hs
    split at hs
    · rw [List.mem_singleton.mp hs]
      exact ⟨_, _, rfl, by decide, rfl⟩
    · cases hs
  · intro s hs
    split at hs
    · rw [List.mem_singleton.mp hs]
      exact ⟨_, _, rfl, by decide, rfl⟩
    · cases hs

theorem iconStmts_shared (plan : Plan) (themed : Bool) (x : String) (i : Icon)
    (hi : i.hasFallback = false) : DeclaresShared x (iconStmts plan themed x i) := by
  simp only [Icon.hasFallback, Bool.and_eq_false_iff, Bool.not_eq_false'] at hi
  unfold iconStmts
  by_cases hstates : i.states.isEmpty = true
  · rw [if_pos hstates]
    split
    · exact ⟨_, _, [], rfl, by decide, Job.pictureExpr_uses plan "QIcon" i.text, by simp⟩
    · exact ⟨_, _, [], rfl, by decide, rfl, by simp⟩
  · rw [if_neg hstates, if_pos (hi.resolve_left hstates)]
    refine ⟨_, _, _, rfl, by decide, rfl, fun s hs => ?_⟩
    obtain ⟨f, -, rfl⟩ := List.mem_map.mp hs
    exact ⟨_, _, rfl, by decide, by simp⟩

namespace Shared

variable {plan : Plan} {themed : Bool} {v : Shared}

theorem declaration_shared (plan : Plan) (themed : Bool) (x : String) (hv : v.hasFallback = false) :
    DeclaresShared x (v.declaration plan themed x) := by
  cases v with
  | font f => exact fontStmts_shared x f
  | icon i => exact iconStmts_shared plan themed x i hv
  | sizePolicy p => exact policyStmts_shared x p

theorem declaration_fallback (plan : Plan) (themed : Bool) (x : String)
    (hv : v.hasFallback = true) :
    ∃ i, v = .icon i ∧ i.hasFallback = true ∧ v.declaration plan themed x =
      [.declare "QIcon" x .default,
        if themed then .assign themeVariable (.utf8 0 i.themeName)
        else .declare "QString" themeVariable (.value (.utf8 0 i.themeName)),
        .chooseIcon x (iconFiles i)] := by
  cases v with
  | icon i => exact ⟨i, rfl, hv, Job.iconStmts_fallback plan themed x i hv⟩
  | font f | sizePolicy p => cases hv

theorem declaration_names (hs : s ∈ v.declaration plan themed x) (hz : z ∈ s.names) :
    z = x ∨ z = themeVariable := by
  cases hv : v.hasFallback with
  | false => exact .inl ((declaration_shared plan themed x hv).names hs hz)
  | true =>
    obtain ⟨i, -, -, hdecl⟩ := declaration_fallback plan themed x hv
    rw [hdecl] at hs
    simp only [List.mem_cons, List.not_mem_nil, or_false] at hs
    rcases hs with rfl | rfl | rfl
    · simp_all [Stmt.names, Stmt.assigns, Stmt.uses, Init.uses]
    · cases themed <;> simp_all [Stmt.names, Stmt.assigns, Stmt.uses, Init.uses]
    · simpa [Stmt.names, Stmt.assigns, Stmt.uses] using hz

theorem declaration_locals (v : Shared) (plan : Plan) (themed : Bool) (x : String) :
    locals (v.declaration plan themed x) =
      x :: if v.hasFallback && !themed then [themeVariable] else [] := by
  cases hv : v.hasFallback with
  | false => exact (declaration_shared plan themed x hv).locals_eq
  | true =>
    obtain ⟨i, -, -, hdecl⟩ := declaration_fallback plan themed x hv
    rw [hdecl]
    cases themed <;> rfl

theorem declaration_first (v : Shared) (plan : Plan) (themed : Bool) (x : String) :
    ∃ s ∈ v.declaration plan themed x, s.brings? = some x ∧ s.paints? = none := by
  cases hv : v.hasFallback with
  | false => exact (declaration_shared plan themed x hv).first
  | true =>
    obtain ⟨i, -, -, hdecl⟩ := declaration_fallback plan themed x hv
    rw [hdecl]
    exact ⟨_, List.mem_cons_self .., rfl, rfl⟩

theorem declaration_declares (hs : s ∈ v.declaration plan themed x) (hz : s.declares? = some z) :
    z ∈ locals (v.declaration plan themed x) := by
  rw [declaration_locals]
  cases hv : v.hasFallback with
  | false =>
    rw [(declaration_shared plan themed x hv).declares hs hz]
    exact List.mem_cons_self ..
  | true =>
    obtain ⟨i, -, -, hdecl⟩ := declaration_fallback plan themed x hv
    rw [hdecl] at hs
    simp only [List.mem_cons, List.not_mem_nil, or_false] at hs
    rcases hs with rfl | rfl | rfl
    · rw [← Option.some.inj hz]
      exact List.mem_cons_self ..
    · cases themed with
      | true => cases hz
      | false =>
        rw [← Option.some.inj hz]
        exact List.mem_cons_of_mem _ (List.mem_singleton.mpr rfl)
    · cases hz

theorem declaration_shares (hs : s ∈ v.declaration plan themed x) (hz : sharedName? s = some z) :
    z = x := by
  cases hv : v.hasFallback with
  | false => exact (declaration_shared plan themed x hv).shares hs hz
  | true =>
    obtain ⟨i, -, -, hdecl⟩ := declaration_fallback plan themed x hv
    rw [hdecl] at hs
    simp only [List.mem_cons, List.not_mem_nil, or_false] at hs
    rcases hs with rfl | rfl | rfl
    · exact (Option.some.inj hz).symm
    · cases themed <;> cases hz
    · cases hz

end Shared

/-! ## Gradients -/

theorem gradientStmts_locals (x : String) (g : Gradient) : locals (gradientStmts x g) = [x] := by
  have hinit : locals (gradientInit x g) = [] := by
    unfold gradientInit
    split <;> rfl
  have hstops : locals (g.stops.map fun s =>
      .modify x "setColorAt" [real s.position, colorExpr s.color]) = [] := by
    refine List.filterMap_eq_nil_iff.mpr fun s hs => ?_
    obtain ⟨stop, -, rfl⟩ := List.mem_map.mp hs
    rfl
  rw [gradientStmts, locals_append, locals_append, locals_append, hinit, hstops]
  cases g.coordinateMode <;> rfl

theorem gradientStmts_names {g : Gradient} (hs : s ∈ gradientStmts x g) (hz : z ∈ s.names) :
    z = x := by
  obtain ⟨hassigns, huses⟩ := Job.gradientStmts_concern x g s hs
  exact (Stmt.mem_names.mp hz).elim (hassigns z) (huses z)

theorem gradientStmts_cases {g : Gradient} (hs : s ∈ gradientStmts x g) :
    (∃ type ∈ gradientTypes, ∃ init, s = .declare type x init) ∨
      ∃ method args, s = .modify x method args := by
  rw [gradientStmts] at hs
  simp only [List.mem_append, List.mem_singleton, List.mem_map] at hs
  rcases hs with ((hs | rfl) | hs) | ⟨stop, -, rfl⟩
  · refine .inl ?_
    unfold gradientInit at hs
    split at hs
    · exact ⟨_, by decide, _, List.mem_singleton.mp hs⟩
    · exact ⟨_, by decide, _, List.mem_singleton.mp hs⟩
    · exact ⟨_, by decide, _, List.mem_singleton.mp hs⟩
    · cases hs
  · exact .inr ⟨_, _, rfl⟩
  · split at hs
    · exact .inr ⟨_, _, List.mem_singleton.mp hs⟩
    · cases hs
  · exact .inr ⟨_, _, rfl⟩

theorem gradientStmts_declares {g : Gradient} (hs : s ∈ gradientStmts x g)
    (hz : s.declares? = some z) : z = x := by
  rcases gradientStmts_cases hs with ⟨type, -, init, rfl⟩ | ⟨method, args, rfl⟩
  · exact (Option.some.inj hz).symm
  · cases hz

theorem gradientStmts_themeless {g : Gradient} (hx : x ≠ themeVariable)
    (hs : s ∈ gradientStmts x g) : s.isTheme = false := by
  rcases gradientStmts_cases hs with ⟨type, -, init, rfl⟩ | ⟨method, args, rfl⟩
  · exact beq_eq_false_iff_ne.mpr hx
  · rfl

theorem gradientStmts_shares {g : Gradient} (hs : s ∈ gradientStmts x g) :
    sharedName? s = none := by
  rcases gradientStmts_cases hs with ⟨type, htype, init, rfl⟩ | ⟨method, args, rfl⟩
  · refine if_neg fun hshared => ?_
    have hgradient := gradientTypes_of_shared type (List.contains_iff_mem.mp hshared)
    rw [List.contains_iff_mem.mpr htype] at hgradient
    cases hgradient
  · rfl

end FormCompiler.Setup
