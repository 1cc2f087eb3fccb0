import FormCompiler.Proofs.Setup.Building

/-!
# Variables for values are declared

The variable that stands for a font, an icon, a size policy, a brush or a palette exists once it has
been asked for.  The code is in order unless a gradient of an unknown type is filled.
-/

namespace FormCompiler.Setup

open Code Naming

/-- A statement that concerns one variable at most. -/
def Concerns (name : String) (s : Stmt) : Prop :=
  (∀ x ∈ s.assigns, x = name) ∧ ∀ x ∈ s.uses, x = name

/-- Statements that declare a variable first and concern no other. -/
def Declares (name : String) (l : List Stmt) : Prop :=
  (∃ s rest, l = s :: rest ∧ s.uses = [] ∧ s.assigns = [name]) ∧ ∀ s ∈ l, Concerns name s

theorem Declares.mem_assigned {name : String} {l : List Stmt} (h : Declares name l) {x : String} :
    x ∈ assigned l ↔ x = name := by
  refine ⟨fun hx => ?_, fun hx => ?_⟩
  · obtain ⟨s, hs, hx⟩ := List.mem_flatMap.mp hx
    exact (h.2 s hs).1 x hx
  · obtain ⟨s, rest, rfl, _, hs⟩ := h.1
    rw [assigned_cons, hs, hx]
    exact List.mem_append_left _ (List.mem_singleton.mpr rfl)

theorem Declares.ordered {name : String} {l : List Stmt} (h : Declares name l)
    (known : List String) : DefinitelyAssigned known l := by
  obtain ⟨⟨s, rest, rfl, huses, hs⟩, hall⟩ := h
  refine DefinitelyAssigned.of_declared (by simp [huses]) (hs ▸ List.mem_singleton.mpr rfl) ?_
  exact fun s' hs' x hx => .inl ((hall s' (List.mem_cons_of_mem s hs')).2 x hx)

/-- One builder differs from another at most in a variable that it shares as well. -/
structure Keeps (name : String) (b b' : Builder) : Prop where
  setup : b'.setup = b.setup
  table : b'.session.table = b.session.table
  widgets : b'.widgets = b.widgets
  buttonGroups : b'.buttonGroups = b.buttonGroups
  themeDeclared : b'.themeDeclared = b.themeDeclared
  delayed : b'.delayed = b.delayed
  delayedActions : b'.delayedActions = b.delayedActions
  shared : ∀ x ∈ b'.shared, x ∈ b.shared ∨ x = name

theorem Keeps.kept {name x : String} {b b' : Builder} (h : Keeps name b b') (hx : x ∈ b'.kept) :
    x ∈ b.kept ∨ x = name := by
  rw [mem_kept, h.widgets, h.buttonGroups] at hx
  rw [mem_kept]
  have hshared := h.shared x
  grind

theorem keeps_font (f : Font) (name : String) (b : Builder) :
    Keeps name b { b with fonts := b.fonts ++ [(f, name)] } := by
  refine ⟨rfl, rfl, rfl, rfl, rfl, rfl, rfl, fun x hx => ?_⟩
  grind [mem_shared]

theorem keeps_sizePolicy (p : SizePolicy) (name : String) (b : Builder) :
    Keeps name b { b with sizePolicies := b.sizePolicies ++ [(p, name)] } := by
  refine ⟨rfl, rfl, rfl, rfl, rfl, rfl, rfl, fun x hx => ?_⟩
  grind [mem_shared]

theorem keeps_icon (i : Icon) (name : String) (b : Builder) :
    Keeps name b { b with icons := b.icons ++ [(i, name)] } := by
  refine ⟨rfl, rfl, rfl, rfl, rfl, rfl, rfl, fun x hx => ?_⟩
  grind [mem_shared]

theorem keeps_brush (key : Nat) (name : String) (b : Builder) :
    Keeps name b { b with brushes := (key, name) :: b.brushes } := by
  refine ⟨rfl, rfl, rfl, rfl, rfl, rfl, rfl, fun x hx => ?_⟩
  simp only [mem_shared, List.map_cons, List.mem_cons] at hx ⊢
  grind

theorem mem_of_lookup {α β : Type} [BEq α] [LawfulBEq α] {l : List (α × β)} {a : α} {y : β}
    (h : l.lookup a = some y) : y ∈ l.map Prod.snd := by
  obtain ⟨l1, l2, rfl, _⟩ := List.lookup_eq_some_iff.mp h
  simp

namespace Job

/-- A piece of the setup that gives a variable that exists. -/
def Names (job : Job) (T : Prop) (b : Builder) (r : String × Builder) : Prop :=
  job.Writes T b r.2 ∧ r.1 ∈ job.vars r.2

/-- A piece of the setup that gives an expression of variables that exist. -/
def Yields (job : Job) (T : Prop) (b : Builder) (r : Expr × Builder) : Prop :=
  job.Writes T b r.2 ∧ ∀ x ∈ r.1.uses, x ∈ job.vars r.2

variable {job : Job} {T : Prop} {b b' : Builder}

theorem Names.ref {r : String × Builder} (h : job.Names T b r) :
    job.Yields T b (.ref r.1, r.2) := by
  refine ⟨h.1, fun x hx => ?_⟩
  rw [List.mem_singleton.mp hx]
  exact h.2

theorem yields_plain (hb : job.Consistent b) {e : Expr} (he : e.uses = []) :
    job.Yields True b (e, b) := by
  refine ⟨.refl hb, fun x hx => ?_⟩
  rw [he] at hx
  cases hx

theorem writes_declares (hb : job.Consistent b) {name : String} {l : List Stmt}
    (hl : Declares name l) (hname : job.Assignable b name) :
    job.Writes True b (emitAll l b).2 ∧ name ∈ job.vars (emitAll l b).2 := by
  refine ⟨(writes_emitAll hb l fun x hx => ?_).congr (iff_true_intro (hl.ordered _)), ?_⟩
  · rw [hl.mem_assigned] at hx
    exact .inl (hx ▸ hname)
  · exact assigned_emitAll (hl.mem_assigned.mpr rfl)

theorem writes_keep (hb : job.Consistent b) {name : String} (hname : name ∈ job.vars b)
    (h : Keeps name b b') : job.Writes True b b' := by
  refine writes_aside hb h.setup h.table h.buttonGroups h.themeDeclared (fun x hx => ?_)
    (fun _ hs => .inl (h.delayed ▸ hs)) (fun _ hs => .inl (h.delayedActions ▸ hs))
    (h.delayedActions ▸ fun _ hs => hs)
  rcases h.kept hx with hx | rfl
  · exact .inl hx
  · exact .inr hname

theorem names_shared (hb : job.Consistent b) (base : String) {l : List Stmt}
    (hl : Declares (freshName base b).1 l)
    (hkeep : Keeps (freshName base b).1 (emitAll l (freshName base b).2).2 b') :
    job.Names True b ((freshName base b).1, b') := by
  obtain ⟨s1, hname⟩ := writes_freshName hb base
  obtain ⟨s2, hvar⟩ := writes_declares s1.consistent hl hname
  have s3 := writes_keep s2.consistent hvar hkeep
  exact ⟨(s1.andThen s2).andThen s3, s3.mem_vars hvar⟩

/-! ## Size policies and fonts -/

theorem policyStmts_declare (name : String) (p : SizePolicy) :
    Declares name (policyStmts name p) := by
  have hinit : (policyInit p).uses = [] := by
    unfold policyInit
    split <;> rfl
  refine ⟨⟨_, _, rfl, hinit, rfl⟩, ?_⟩
  simp [policyStmts, Concerns, Stmt.assigns, Stmt.uses, hinit]

theorem sizePolicyName_known {p : SizePolicy} {name : String}
    (hp : b.sizePolicies.lookup p = some name) : sizePolicyName p b = (name, b) := by
  simp only [sizePolicyName, bind_run, get_run, hp]
  rfl

theorem sizePolicyName_new {p : SizePolicy} (hp : b.sizePolicies.lookup p = none) :
    sizePolicyName p b =
      let name := (freshName "sizePolicy" b).1
      let b1 := (emitAll (policyStmts name p) (freshName "sizePolicy" b).2).2
      (name, { b1 with sizePolicies := b1.sizePolicies ++ [(p, name)] }) := by
  simp only [sizePolicyName, bind_run, get_run, hp]
  rfl

theorem names_sizePolicyName (hb : job.Consistent b) (p : SizePolicy) :
    job.Names True b (sizePolicyName p b) := by
  cases hp : b.sizePolicies.lookup p with
  | some name =>
    rw [sizePolicyName_known hp]
    refine ⟨.refl hb, hb.shared_mem (mem_shared.mpr ?_)⟩
    simp [mem_of_lookup hp]
  | none =>
    rw [sizePolicyName_new hp]
    exact names_shared hb "sizePolicy" (policyStmts_declare _ p)
      (keeps_sizePolicy p _ _)

theorem flagStmts_concern (name method : String) (flag : Option Bool) :
    ∀ s ∈ flagStmts name method flag, Concerns name s := by
  unfold flagStmts
  split <;> simp [Concerns, Stmt.assigns, Stmt.uses, Expr.uses]

theorem sizeStmts_concern (name method : String) (size : Option Int) :
    ∀ s ∈ sizeStmts name method size, Concerns name s := by
  unfold sizeStmts
  split
  · split <;> simp [Concerns, Stmt.assigns, Stmt.uses]
  · simp

theorem fontStmts_declare (name : String) (f : Font) : Declares name (fontStmts name f) := by
  refine ⟨⟨_, _, rfl, rfl, rfl⟩, ?_⟩
  have hdeclare : Concerns name (.declare "QFont" name .default) := by
    simp [Concerns, Stmt.assigns, Stmt.uses, Init.uses]
  have hmodify : ∀ method text, Concerns name (.modify name method [.code text]) := by
    simp [Concerns, Stmt.assigns, Stmt.uses, Expr.uses]
  have hfamily : ∀ text, Concerns name (.modify name "setFamily" [.utf8 innerDepth text]) := by
    simp [Concerns, Stmt.assigns, Stmt.uses]
  simp only [fontStmts, List.mem_append, or_imp, forall_and]
  refine ⟨⟨⟨⟨⟨⟨⟨⟨⟨⟨?_, ?_⟩, sizeStmts_concern _ _ _⟩, flagStmts_concern _ _ _⟩,
    flagStmts_concern _ _ _⟩, flagStmts_concern _ _ _⟩, sizeStmts_concern _ _ _⟩,
    flagStmts_concern _ _ _⟩, flagStmts_concern _ _ _⟩,
    ?_⟩, ?_⟩
  · simpa using hdeclare
  · split
    · split
      · simp
      · simpa using hfamily _
    · simp
  · split
    · simpa using hmodify _ _
    · simp
  · split
    · simpa using hmodify _ _
    · simp

theorem fontName_known {f : Font} {name : String} (hf : b.fonts.lookup f = some name) :
    fontName f b = (name, b) := by
  simp only [fontName, bind_run, get_run, hf]
  rfl

theorem fontName_new {f : Font} (hf : b.fonts.lookup f = none) :
    fontName f b =
      let name := (freshName "font" b).1
      let b1 := (emitAll (fontStmts name f) (freshName "font" b).2).2
      (name, { b1 with fonts := b1.fonts ++ [(f, name)] }) := by
  simp only [fontName, bind_run, get_run, hf]
  rfl

theorem names_fontName (hb : job.Consistent b) (f : Font) :
    job.Names True b (fontName f b) := by
  cases hf : b.fonts.lookup f with
  | some name =>
    rw [fontName_known hf]
    refine ⟨.refl hb, hb.shared_mem (mem_shared.mpr ?_)⟩
    simp [mem_of_lookup hf]
  | none =>
    rw [fontName_new hf]
    exact names_shared hb "font" (fontStmts_declare _ f)
      (keeps_font f _ _)

/-! ## Pictures -/

theorem pictureExpr_uses (plan : Plan) (type text : String) :
    (pictureExpr plan type text).uses = [] := by
  unfold pictureExpr
  split
  · rfl
  · split
    · split <;> rfl
    · rfl

theorem iconStmts_declare (plan : Plan) (declared : Bool) (name : String) (i : Icon)
    (hi : i.hasFallback = false) : Declares name (iconStmts plan declared name i) := by
  have hpicture := pictureExpr_uses plan "QIcon" i.text
  simp only [Icon.hasFallback, Bool.and_eq_false_iff, Bool.not_eq_false'] at hi
  unfold iconStmts
  by_cases hstates : i.states.isEmpty = true
  · rw [if_pos hstates]
    split
    · refine ⟨⟨_, _, rfl, hpicture, rfl⟩, ?_⟩
      simp [Concerns, Stmt.assigns, Stmt.uses, Init.uses, hpicture]
    · refine ⟨⟨_, _, rfl, rfl, rfl⟩, ?_⟩
      simp [Concerns, Stmt.assigns, Stmt.uses, Init.uses, Expr.uses]
  · rw [if_neg hstates, if_pos (hi.resolve_left hstates)]
    refine ⟨⟨_, _, rfl, rfl, rfl⟩, ?_⟩
    simp [Concerns, Stmt.assigns, Stmt.uses, Init.uses]

theorem iconStmts_fallback (plan : Plan) (declared : Bool) (name : String) (i : Icon)
    (hi : i.hasFallback = true) : iconStmts plan declared name i =
      [.declare "QIcon" name .default,
        if declared then .assign themeVariable (.utf8 0 i.themeName)
        else .declare "QString" themeVariable (.value (.utf8 0 i.themeName)),
        .chooseIcon name (iconFiles i)] := by
  simp only [Icon.hasFallback, Bool.and_eq_true, Bool.not_eq_true'] at hi
  unfold iconStmts
  rw [if_neg (by simp [hi.1]), if_neg (by simp [hi.2])]

/-- An icon from the theme; the variable for the name of the theme is declared once. -/
theorem writes_themeIcon (hb : job.Consistent b) (name : String) (i : Icon)
    (hname : job.Assignable b name) (hi : i.hasFallback = true) :
    let l := iconStmts job.plan b.themeDeclared name i
    job.Writes True b (emitAll l b).2 ∧ name ∈ job.vars (emitAll l b).2 ∧
      DeclaresText themeVariable (b.setup ++ l) := by
  intro l
  have hl := iconStmts_fallback job.plan b.themeDeclared name i hi
  have htheme : DeclaresText themeVariable (b.setup ++ l) := by
    cases hd : b.themeDeclared with
    | true => exact (hb.theme hd).mono (List.prefix_append _ _)
    | false =>
      refine ⟨.value (.utf8 0 i.themeName), List.mem_append_right _ ?_⟩
      rw [show l = _ from hl, hd]
      simp
  have hassigned : assigned l = [name, themeVariable] := by
    rw [show l = _ from hl]
    cases b.themeDeclared <;> rfl
  have hordered : DefinitelyAssigned (job.vars b) l := by
    rw [show l = _ from hl]
    cases b.themeDeclared <;>
      simp [DefinitelyAssigned, Stmt.uses, Stmt.assigns, Init.uses]
  refine ⟨(writes_emitAll hb l fun x hx => ?_).congr (iff_true_intro hordered), ?_, htheme⟩
  · rw [hassigned] at hx
    rcases List.mem_cons.mp hx with rfl | hx
    · exact .inl hname
    · rw [List.mem_singleton.mp hx]
      exact .inr ⟨rfl, htheme⟩
  · exact assigned_emitAll (by simp [hassigned])

theorem writes_theme (hb : job.Consistent b) (h : DeclaresText themeVariable b.setup) :
    job.Writes True b { b with themeDeclared := true } :=
  ⟨{ hb with theme := fun _ => h }, by rw [and_true]; exact Iff.rfl, List.prefix_refl _,
    fun _ h => h, Table.Extends.refl _, rfl⟩

theorem iconName_known (plan : Plan) {i : Icon} {name : String}
    (hi : b.icons.lookup i = some name) : iconName plan i b = (name, b) := by
  simp only [iconName, bind_run, get_run, hi]
  rfl

theorem iconName_new (plan : Plan) {i : Icon} (hi : b.icons.lookup i = none) :
    iconName plan i b =
      let name := (freshName "icon" b).1
      let b0 := (freshName "icon" b).2
      let b1 := (emitAll (iconStmts plan b0.themeDeclared name i) b0).2
      (name, { b1 with icons := b1.icons ++ [(i, name)],
                       themeDeclared := if i.hasFallback then true else b1.themeDeclared }) := by
  cases hf : i.hasFallback <;>
    simp only [iconName, bind_run, get_run, modify_run, hi, hf, Bool.false_eq_true, if_false,
      if_true] <;> rfl

theorem names_iconName (hb : job.Consistent b) (i : Icon) :
    job.Names True b (iconName job.plan i b) := by
  cases hi : b.icons.lookup i with
  | some name =>
    rw [iconName_known job.plan hi]
    refine ⟨.refl hb, hb.shared_mem (mem_shared.mpr ?_)⟩
    simp [mem_of_lookup hi]
  | none =>
    rw [iconName_new job.plan hi]
    cases hf : i.hasFallback with
    | false =>
      exact names_shared hb "icon" (iconStmts_declare job.plan _ _ i hf)
        (keeps_icon i _ _)
    | true =>
      obtain ⟨s1, hname⟩ := writes_freshName hb "icon"
      obtain ⟨s2, hvar, htheme⟩ := writes_themeIcon s1.consistent _ i hname hf
      have s3 := writes_theme s2.consistent htheme
      have s4 := writes_keep s3.consistent (s3.mem_vars hvar) (keeps_icon i _ _)
      exact ⟨((s1.andThen s2).andThen s3).andThen s4, s4.mem_vars (s3.mem_vars hvar)⟩

theorem yields_pixmapExpr (hb : job.Consistent b) (property : String) (p : Picture) :
    job.Yields True b (pixmapExpr job.plan property p b) := by
  cases p with
  | icon i => exact yields_plain hb (pictureExpr_uses job.plan "QIcon" i.text)
  | pixmap q => exact yields_plain hb (pictureExpr_uses job.plan "QPixmap" q.text)
  | none => exact ⟨writes_note hb _, fun x hx => by cases hx⟩

theorem yields_iconExpr (hb : job.Consistent b) (property : String) (p : Picture) :
    job.Yields True b (iconExpr job.plan property p b) := by
  cases p with
  | icon i => exact (names_iconName hb i).ref
  | pixmap q => exact yields_pixmapExpr hb property (.pixmap q)
  | none => exact yields_pixmapExpr hb property .none

/-! ## Gradients and brushes -/

theorem gradientStmts_concern (name : String) (g : Gradient) :
    ∀ s ∈ gradientStmts name g, Concerns name s := by
  have hinit : ∀ s ∈ gradientInit name g, Concerns name s := by
    unfold gradientInit
    split <;> simp [Concerns, Stmt.assigns, Stmt.uses, Init.uses, real, Expr.uses]
  simp only [gradientStmts, List.mem_append, or_imp, forall_and]
  refine ⟨⟨⟨hinit, ?_⟩, ?_⟩, ?_⟩
  · simp [Concerns, Stmt.assigns, Stmt.uses, Expr.uses]
  · split <;> simp [Concerns, Stmt.assigns, Stmt.uses, Expr.uses]
  · simp [Concerns, Stmt.assigns, Stmt.uses, Expr.uses, real, colorExpr]

theorem gradientStmts_declare (name : String) (g : Gradient) (hg : g.Typed) :
    Declares name (gradientStmts name g) := by
  refine ⟨?_, gradientStmts_concern name g⟩
  rcases hg with hg | hg | hg <;>
    simp only [gradientStmts, gradientInit, hg] <;>
    exact ⟨_, _, rfl, rfl, rfl⟩

theorem gradientStmts_untyped (name : String) (g : Gradient) (hg : ¬ g.Typed) :
    ∃ rest, gradientStmts name g =
      .modify name "setSpread" [.code ("QGradient::" ++ g.spread)] :: rest := by
  have hinit : gradientInit name g = [] := by
    unfold gradientInit
    split
    · exact absurd (.inl ‹_›) hg
    · exact absurd (.inr (.inl ‹_›)) hg
    · exact absurd (.inr (.inr ‹_›)) hg
    · rfl
  simp only [gradientStmts, hinit]
  exact ⟨_, rfl⟩

theorem gradient_ne_theme (b : Builder) : (freshName "gradient" b).1 ≠ themeVariable := by
  have hbase : Table.baseName "gradient" "" = "gradient" := by decide +kernel
  have hname : (freshName "gradient" b).1 = Table.firstFree b.session.table.taken "gradient" :=
    congrArg (Table.firstFree b.session.table.taken) hbase
  intro h
  rcases Table.firstFree_base b.session.table.taken "gradient" with hf | ⟨k, hf⟩
  · rw [hname, hf] at h
    exact absurd h (by decide)
  · rw [hname, hf] at h
    have hlist := congrArg String.toList h
    simp [Table.numbered, themeVariable] at hlist

/-- The gradient that a brush paints with, if it paints with one. -/
def paintedGradient (c : Brush) : Gradient :=
  match c.fill with
  | .gradient g => g
  | _ => emptyGradient

theorem typed_iff {c : Brush} (hc : c.UsesGradient) : c.Typed ↔ (paintedGradient c).Typed := by
  unfold Brush.Typed paintedGradient
  split
  · rename_i g hg
    simp [hc, hg]
  · rename_i hnone
    have hempty : ¬ emptyGradient.Typed := by decide +kernel
    refine ⟨fun h => ?_, fun h => absurd h hempty⟩
    obtain ⟨g, hg, _⟩ := h hc
    exact absurd hg (hnone g)

theorem writes_gradient (hb : job.Consistent b) (g : Gradient) :
    let name := (freshName "gradient" b).1
    let b' := (emitAll (gradientStmts name g) (freshName "gradient" b).2).2
    job.Writes g.Typed b b' ∧ (g.Typed → name ∈ job.vars b') := by
  intro name b'
  obtain ⟨s1, hname⟩ := writes_freshName hb "gradient"
  have hfresh : name ∉ job.vars (freshName "gradient" b).2 :=
    freshName_not_mem hb "gradient" (gradient_ne_theme b)
  have hassign : ∀ x ∈ assigned (gradientStmts name g), x = name := by
    intro x hx
    obtain ⟨s, hs, hx⟩ := List.mem_flatMap.mp hx
    exact (gradientStmts_concern name g s hs).1 x hx
  have s2 := writes_emitAll s1.consistent (gradientStmts name g) fun x hx =>
    .inl ((hassign x hx).symm ▸ hname)
  have hordered : DefinitelyAssigned (job.vars (freshName "gradient" b).2) (gradientStmts name g) ↔
      g.Typed := by
    refine ⟨fun h => ?_, fun h => (gradientStmts_declare name g h).ordered _⟩
    refine Classical.byContradiction fun hg => ?_
    obtain ⟨rest, hrest⟩ := gradientStmts_untyped name g hg
    rw [hrest] at h
    exact hfresh (h.1 name (List.mem_cons_self ..))
  refine ⟨s1.andThen (s2.congr hordered), fun hg => ?_⟩
  exact assigned_emitAll ((gradientStmts_declare name g hg).mem_assigned.mpr rfl)

/-- The picture that a brush paints with. -/
def paintedTexture (plan : Plan) (c : Brush) : Build Expr :=
  match c.fill with
  | .texture property p => iconExpr plan property p
  | _ => pure (.code "QIcon()")

theorem yields_paintedTexture (hb : job.Consistent b) (c : Brush) :
    job.Yields True b (paintedTexture job.plan c b) := by
  cases hfill : c.fill with
  | texture property p =>
    simp only [paintedTexture, hfill]
    exact yields_iconExpr hb property p
  | none | color | gradient =>
    simp only [paintedTexture, hfill]
    exact yields_plain hb rfl

theorem writeBrush_gradient (plan : Plan) {c : Brush} (hc : c.UsesGradient) (name : String) :
    writeBrush plan c name b =
      let n := (freshName "gradient" b).1
      let b1 := (emitAll (gradientStmts n (paintedGradient c)) (freshName "gradient" b).2).2
      emit (.declare "QBrush" name (.args [.ref n])) b1 :=
  congrFun (if_pos hc) b

theorem writeBrush_texture (plan : Plan) {c : Brush} (hc : ¬ c.UsesGradient)
    (htexture : c.styleName = "TexturePattern") (name : String) :
    writeBrush plan c name b =
      let r := paintedTexture plan c b
      emit (.declare "QBrush" name (.value (.wrap "QBrush" r.1))) r.2 := by
  unfold Brush.UsesGradient at hc
  simp only [writeBrush, if_neg hc, if_pos htexture, paintedTexture]
  cases c.fill <;> rfl

theorem writeBrush_color (plan : Plan) {c : Brush} (hc : ¬ c.UsesGradient)
    (htexture : c.styleName ≠ "TexturePattern") (name : String) :
    ∃ color : Color, writeBrush plan c name b =
      emit (.modify name "setStyle" [.code ("Qt::" ++ c.styleName)])
        (emit (.declare "QBrush" name (.args [colorExpr color])) b).2 :=
  ⟨_, congrFun ((if_neg hc).trans (if_neg htexture)) b⟩

theorem names_writeBrush (hb : job.Consistent b) (c : Brush) (name : String)
    (hname : job.Assignable b name) :
    job.Names c.Typed b (name, (writeBrush job.plan c name b).2) := by
  by_cases hgradient : c.UsesGradient
  · obtain ⟨s1, hvar⟩ := writes_gradient hb (paintedGradient c)
    have s2 := writes_emit s1.consistent
      (.declare "QBrush" name (.args [.ref (freshName "gradient" b).1]))
      (by simpa [Stmt.assigns] using hname.mono s1)
    rw [writeBrush_gradient job.plan hgradient]
    refine ⟨(s1.trans s2).congr ?_, assigned_emit (by simp [Stmt.assigns])⟩
    rw [typed_iff hgradient]
    refine ⟨And.left, fun hg => ⟨hg, ?_⟩⟩
    simpa [Stmt.uses, Init.uses, Expr.uses] using hvar hg
  · have htyped : True ↔ c.Typed := ⟨fun _ h => absurd h hgradient, fun _ => trivial⟩
    by_cases htexture : c.styleName = "TexturePattern"
    · obtain ⟨s1, huses⟩ := yields_paintedTexture hb c
      have s2 := writes_create s1.consistent
        (.declare "QBrush" name (.value (.wrap "QBrush" (paintedTexture job.plan c b).1)))
        rfl (hname.mono s1) huses
      rw [writeBrush_texture job.plan hgradient htexture]
      exact ⟨(s1.andThen s2).congr htyped, assigned_emit (by simp [Stmt.assigns])⟩
    · obtain ⟨color, hrun⟩ := writeBrush_color (b := b) job.plan hgradient htexture name
      have s1 := writes_create hb (.declare "QBrush" name (.args [colorExpr color])) rfl hname
        (by simp [Stmt.uses, Init.uses, colorExpr, Expr.uses])
      have hvar : name ∈ job.vars (emit (.declare "QBrush" name (.args [colorExpr color])) b).2 :=
        assigned_emit (by simp [Stmt.assigns])
      have s2 := writes_call s1.consistent
        (.modify name "setStyle" [.code ("Qt::" ++ c.styleName)]) rfl
        (by simpa [Stmt.uses, Expr.uses] using hvar)
      rw [hrun]
      exact ⟨(s1.andThen s2).congr htyped, s2.mem_vars hvar⟩

/-- What a solid brush is shared by. -/
def brushKey? (c : Brush) : Option Nat :=
  match c.fill with
  | .color color => if c.isSolid then some (colorKey color) else none
  | _ => none

theorem solid_of_key {c : Brush} {key : Nat} (h : brushKey? c = some key) : c.isSolid = true := by
  unfold brushKey? at h
  split at h
  · exact Classical.byContradiction fun hs => by simp [hs] at h
  · cases h

/-- Declares a brush that no variable holds yet. -/
def declareBrush (plan : Plan) (c : Brush) : Build String := do
  let name ← freshName "brush"
  writeBrush plan c name
  if c.isSolid then
    modify fun s => { s with brushes := ((brushKey? c).getD 0, name) :: s.brushes }
  return name

theorem brushName_run (plan : Plan) (c : Brush) :
    brushName plan c b = ((brushKey? c).bind (b.brushes.lookup ·)).elim (declareBrush plan c b)
      (fun name => (name, b)) := by
  simp only [brushName, bind_run, get_run]
  -- `brushName` spells its key out, so `h` applies to it only up to unfolding `brushKey?`.
  cases h : (brushKey? c).bind (b.brushes.lookup ·) with
  | none => erw [h]; rfl
  | some name => erw [h]; rfl

theorem brushName_known (plan : Plan) {c : Brush} {name : String}
    (h : (brushKey? c).bind (b.brushes.lookup ·) = some name) :
    brushName plan c b = (name, b) := by
  rw [brushName_run, h]
  rfl

theorem brushName_new (plan : Plan) {c : Brush}
    (h : (brushKey? c).bind (b.brushes.lookup ·) = none) :
    let name := (freshName "brush" b).1
    let b1 := (writeBrush plan c name (freshName "brush" b).2).2
    ∃ key, brushName plan c b =
      (name, if c.isSolid then { b1 with brushes := (key, name) :: b1.brushes } else b1) := by
  rw [brushName_run, h]
  refine ⟨(brushKey? c).getD 0, ?_⟩
  simp only [Option.elim_none, declareBrush, bind_run, pure_run, ite_run, modify_run]
  cases c.isSolid <;> rfl

/-- A solid brush of the same bytes is shared; others are declared for each use. -/
theorem names_brushName (hb : job.Consistent b) (c : Brush) :
    job.Names c.Typed b (brushName job.plan c b) := by
  cases hfound : (brushKey? c).bind (b.brushes.lookup ·) with
  | some name =>
    obtain ⟨key, hkey, hlookup⟩ := Option.bind_eq_some_iff.mp hfound
    have htyped : True ↔ c.Typed := by
      refine ⟨fun _ hg => ?_, fun _ => trivial⟩
      have hstyle := beq_iff_eq.mp (solid_of_key hkey)
      rcases hg with hg | hg | hg <;> rw [hstyle] at hg <;> exact absurd hg (by decide)
    rw [brushName_known job.plan hfound]
    refine ⟨(Writes.refl hb).congr htyped, hb.shared_mem (mem_shared.mpr ?_)⟩
    simp [mem_of_lookup hlookup]
  | none =>
    obtain ⟨s1, hname⟩ := writes_freshName hb "brush"
    obtain ⟨s2, hvar⟩ := names_writeBrush s1.consistent c _ hname
    obtain ⟨key, hrun⟩ := brushName_new job.plan hfound
    rw [hrun]
    cases hs : c.isSolid with
    | false => exact ⟨s1.andThen s2, hvar⟩
    | true =>
      have s3 := writes_keep s2.consistent hvar (keeps_brush key _ _)
      exact ⟨(s1.andThen s2).followed s3, s3.mem_vars hvar⟩

/-! ## Palettes -/

theorem writes_foldlM {α ρ : Type} (l : List α) (m : ρ → α → Build ρ) (T : α → Prop) (name : String)
    (h : ∀ a ∈ l, ∀ r b, job.Consistent b → name ∈ job.vars b → job.Writes (T a) b (m r a b).2)
    (hb : job.Consistent b) (hname : name ∈ job.vars b) (r : ρ) :
    job.Writes (∀ a ∈ l, T a) b (l.foldlM m r b).2 := by
  induction l generalizing b r with
  | nil => exact (Writes.refl hb).congr (by simp)
  | cons a l ih =>
    have s1 := h a (List.mem_cons_self ..) r b hb hname
    have s2 := ih (fun a' ha' => h a' (List.mem_cons_of_mem a ha')) s1.consistent
      (s1.mem_vars hname) (m r a b).1
    exact (s1.trans s2).congr (by simp)

theorem writes_forM {α : Type} (l : List α) (m : α → Build Unit) (T : α → Prop) (name : String)
    (h : ∀ a ∈ l, ∀ b, job.Consistent b → name ∈ job.vars b → job.Writes (T a) b (m a b).2)
    (hb : job.Consistent b) (hname : name ∈ job.vars b) :
    job.Writes (∀ a ∈ l, T a) b (l.forM m b).2 := by
  rw [forM_eq_foldlM]
  exact writes_foldlM l _ T name (fun a ha _ => h a ha) hb hname ()

theorem writes_writeColorGroup (hb : job.Consistent b) (palette group : String) (g : ColorGroup)
    (hname : palette ∈ job.vars b) :
    job.Writes (∀ c ∈ g.brushes, c.Typed) b (writeColorGroup job.plan palette group g b).2 := by
  let stmts : List Stmt := g.colors.zipIdx.map fun c =>
    .modify palette "setColor" [.code ("QPalette::" ++ group),
      .wrap "static_cast<QPalette::ColorRole>" (.int c.2), colorExpr c.1]
  have s1 : job.Writes True b (emitAll stmts b).2 := by
    refine writes_calls hb fun s hs => ?_
    obtain ⟨⟨c, i⟩, _, rfl⟩ := List.mem_map.mp hs
    exact ⟨rfl, by simpa [Stmt.uses, Expr.uses, colorExpr] using hname⟩
  refine Writes.congr (s1.andThen (writes_forM g.roles _ (fun r => r.role.isSome → r.brush.Typed)
    palette (fun r _ b hb hname => ?_) s1.consistent (s1.mem_vars hname))) ?_
  · cases hr : r.role with
    | none => exact (Writes.refl hb).congr (by simp)
    | some role =>
      obtain ⟨t1, hvar⟩ := names_brushName hb r.brush
      have t2 := writes_call t1.consistent (.modify palette "setBrush"
        [.code ("QPalette::" ++ group), .code ("QPalette::" ++ role),
          .ref (brushName job.plan r.brush b).1]) rfl (by
            simpa [Stmt.uses, Expr.uses] using ⟨t1.mem_vars hname, hvar⟩)
      exact (t1.followed t2).congr (by simp)
  · simp only [ColorGroup.brushes, List.mem_map, List.mem_filter]
    constructor
    · rintro h c ⟨r, ⟨hr, hs⟩, rfl⟩
      exact h r hr hs
    · exact fun h r hr hs => h r.brush ⟨r, ⟨hr, hs⟩, rfl⟩

theorem writes_optional {α : Type} (o : Option α) (m : α → Build Unit) (T : α → Prop)
    (h : ∀ a, job.Writes (T a) b (m a b).2) (hb : job.Consistent b) :
    job.Writes (∀ a ∈ o, T a) b (o.forM m b).2 := by
  cases o with
  | none => exact (Writes.refl hb).congr (by simp)
  | some a => exact (h a).congr (by simp)

theorem forall_palette_brushes (p : Palette) (P : Brush → Prop) :
    (∀ c ∈ (Value.palette p).brushes, P c) ↔
      ((∀ g ∈ p.active, ∀ c ∈ g.brushes, P c) ∧ ∀ g ∈ p.inactive, ∀ c ∈ g.brushes, P c) ∧
        ∀ g ∈ p.disabled, ∀ c ∈ g.brushes, P c := by
  simp only [Value.brushes, List.mem_flatMap, List.mem_append, Option.mem_toList, Option.mem_def]
  refine ⟨fun h => ⟨⟨?_, ?_⟩, ?_⟩, fun ⟨⟨h1, h2⟩, h3⟩ c ⟨g, hg, hc⟩ => ?_⟩
  · exact fun g hg c hc => h c ⟨g, .inl (.inl hg), hc⟩
  · exact fun g hg c hc => h c ⟨g, .inl (.inr hg), hc⟩
  · exact fun g hg c hc => h c ⟨g, .inr hg, hc⟩
  · rcases hg with (hg | hg) | hg
    · exact h1 g hg c hc
    · exact h2 g hg c hc
    · exact h3 g hg c hc

theorem names_paletteName (hb : job.Consistent b) (p : Palette) :
    job.Names (∀ c ∈ (Value.palette p).brushes, c.Typed) b (paletteName job.plan p b) := by
  let name := (freshName "palette" b).1
  let declare : Stmt := .declare "QPalette" name .default
  obtain ⟨s1, hname⟩ := writes_freshName hb "palette"
  have s2 := writes_create s1.consistent declare rfl hname (by simp [declare, Stmt.uses, Init.uses])
  have hvar : name ∈ job.vars (emit declare (freshName "palette" b).2).2 :=
    assigned_emit (by simp [declare, Stmt.assigns])
  have s3 := writes_optional p.active _ (fun g => ∀ c ∈ g.brushes, c.Typed)
    (fun g => writes_writeColorGroup s2.consistent name "Active" g hvar) s2.consistent
  have s4 := writes_optional p.inactive _ (fun g => ∀ c ∈ g.brushes, c.Typed)
    (fun g => writes_writeColorGroup s3.consistent name "Inactive" g (s3.mem_vars hvar))
    s3.consistent
  have s5 := writes_optional p.disabled _ (fun g => ∀ c ∈ g.brushes, c.Typed)
    (fun g => writes_writeColorGroup s4.consistent name "Disabled" g
      (s4.mem_vars (s3.mem_vars hvar))) s4.consistent
  exact ⟨((s1.andThen s2).andThen ((s3.trans s4).trans s5)).congr
    (forall_palette_brushes p Brush.Typed).symm, s5.mem_vars (s4.mem_vars (s3.mem_vars hvar))⟩

end Job

end FormCompiler.Setup
