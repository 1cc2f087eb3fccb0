import FormCompiler.Proofs.Document.Scalar
import FormCompiler.Proofs.Setup.Declarations

/-!
# Sharing variables

A builder keeps the variables it declared for fonts, icons, size policies and solid brushes.
`Tidy` is what holds of them at any time: each variable stands for one value, is declared where it
first occurs and occurs nowhere but in that code and in code that was asked for.  `Evolves` relates
the builders before and after a piece that writes code for values; there is one lemma for code that
uses variables (`evolves_emit`), one for the declaration of a shared variable (`tidy_share`), and
the functions for values are put together from these.
-/

namespace FormCompiler.Setup

open Code Naming

/-- The variables of fonts, icons and size policies. -/
def Builder.variables (b : Builder) : List (Shared × String) :=
  b.fonts.map (Prod.map .font id) ++ b.icons.map (Prod.map .icon id) ++
    b.sizePolicies.map (Prod.map .sizePolicy id)

/-- The code that declares a brush. -/
def brushCode (plan : Plan) (c : Brush) (x : String) (b : Builder) : List Stmt :=
  (writeBrush plan c x b).2.setup.drop b.setup.length

/-! ## What holds of a builder -/

/-- Code that leaves the variables of the code before it as they are, but for the name of a theme
icon.  Palettes are filled and size policies adapted as they are used. -/
structure Spares (l l' : List Stmt) : Prop where
  assigned : ∀ x ∈ locals l, x ≠ themeVariable → x ∉ assigned l'
  modified : ∀ x ∈ painted l, x ≠ themeVariable → x ∉ modified l'

/-- A later builder: its code goes on. -/
structure Later (b b' : Builder) : Prop where
  setup : ∃ l, b'.setup = b.setup ++ l ∧ Spares b.setup l
  taken : ∀ x ∈ b.session.table.taken, x ∈ b'.session.table.taken
  vars : ∀ e ∈ b.variables, e ∈ b'.variables

/-- What code for values has nothing to do with. -/
structure Leaves (b b' : Builder) : Prop where
  entries : b'.session.table.entries = b.session.table.entries
  groups : b'.session.table.groups = b.session.table.groups
  widgets : b'.widgets = b.widgets
  delayed : b'.delayed = b.delayed
  delayedActions : b'.delayedActions = b.delayedActions
  buttonGroups : b'.buttonGroups = b.buttonGroups

/-- Names in code have been handed out, and those of values to nothing else. -/
structure Scoped (t : Table) (l : List Stmt) : Prop where
  distinct : t.Distinct
  known : ∀ s ∈ l, ∀ x ∈ s.names, x ∈ t.taken ∨ x = themeVariable
  declared : ∀ s ∈ l, ∀ x, s.declares? = some x → x ∈ locals l
  outside : ∀ x ∈ locals l, x = themeVariable ∨ x ∉ t.names
  nodup : (locals l).Nodup

/-- The variable `x` stands for a value: it is declared where it first occurs, and it occurs only
there and in code that was asked for. -/
structure Held (plan : Plan) (rs : List Request) (l : List Stmt) (v : Shared) (x : String) :
    Prop where
  ne_theme : x ≠ themeVariable
  declared : ∃ themed before after, l = before ++ v.declaration plan themed x ++ after ∧
    (∀ s ∈ before, x ∉ s.names) ∧ x ∉ assigned after
  requested : ∃ u, .shared u ∈ rs ∧ u.value = v
  accounted : ∀ s ∈ l, x ∈ s.names → (∃ themed, s ∈ v.declaration plan themed x) ∨
    ∃ u y, .shared u ∈ rs ∧ u.value = v ∧ s ∈ u.code x y

structure Cached (plan : Plan) (rs : List Request) (vars : List (Shared × String))
    (l : List Stmt) : Prop where
  held : ∀ e ∈ vars, Held plan rs l e.1 e.2
  alike : ∀ e ∈ vars, ∀ e' ∈ vars, e.1 = e'.1 ↔ e.2 = e'.2
  typed : ∀ s ∈ l, ∀ x, sharedName? s = some x → ∃ v, (v, x) ∈ vars

/-- The variable for theme names is declared at the first icon that needs it. -/
structure Themed (plan : Plan) (vars : List (Shared × String)) (themed : Bool) (l : List Stmt) :
    Prop where
  needed : ∀ e ∈ vars, e.1.hasFallback = true → themed = true
  absent : themed = false → themeVariable ∉ locals l ∧ ∀ s ∈ l, s.isTheme = false
  declared : themed = true → ∃ before x i after, l = before ++ iconStmts plan false x i ++ after ∧
    (.icon i, x) ∈ vars ∧ i.hasFallback = true ∧ (∀ s ∈ before, s.isTheme = false) ∧
    ∀ s ∈ after, ∀ type init, s ≠ .declare type themeVariable init

/-- The variable `x` has been declared as a brush that some request is for, and then other code has
been written. -/
structure Drawn (plan : Plan) (rs : List Request) (c : Brush) (x : String) (after : List Stmt)
    (b' : Builder) : Prop where
  ne_theme : x ≠ themeVariable
  mem : x ∈ painted b'.setup
  requested : ∃ u, .brush u ∈ rs ∧ u.value = c
  written : ∃ b, Later b b' ∧ b'.setup = b.setup ++ brushCode plan c x b ++ after ∧
    (∀ s ∈ b.setup, x ∉ s.names) ∧ x ∉ assigned after ∧ x ∉ modified after

structure Tidy (plan : Plan) (rs : List Request) (b : Builder) : Prop where
  names : Scoped b.session.table b.setup
  cached : Cached plan rs b.variables b.setup
  themed : Themed plan b.variables b.themeDeclared b.setup
  inked : ∀ e ∈ b.brushes, (∀ v, (v, e.2) ∉ b.variables) ∧
    ∃ (c : Brush) (after : List Stmt), c.isSolid = true ∧ colorKey c.paintedColor = e.1 ∧
      Drawn plan rs c e.2 after b

/-- A piece of the setup that writes code for values. -/
structure Evolves (plan : Plan) (rs : List Request) (b b' : Builder) : Prop where
  tidy : Tidy plan rs b'
  later : Later b b'
  leaves : Leaves b b'
  fresh : ∀ e ∈ b'.variables, e ∈ b.variables ∨ e.2 ∉ b.session.table.taken

/-- A name that has been handed out, and not for a shared value. -/
def Builder.Unshared (b : Builder) (x : String) : Prop :=
  x ∈ b.session.table.taken ∧ ∀ v, (v, x) ∉ b.variables

/-- A name that has been handed out for a value that has no code yet. -/
structure Builder.Pending (b : Builder) (x : String) : Prop where
  taken : x ∈ b.session.table.taken
  outside : x ∉ b.session.table.names
  ne_theme : x ≠ themeVariable
  unused : ∀ s ∈ b.setup, x ∉ s.names

variable {plan : Plan} {rs rs' : List Request} {b b' b'' : Builder} {t : Table} {l l' : List Stmt}
  {vars : List (Shared × String)} {v : Shared} {c : Brush} {x y : String} {themed : Bool}

/-! ## Going on -/

namespace Spares

theorem nil (l : List Stmt) : Spares l [] := ⟨by simp [Code.assigned], by simp [Code.modified]⟩

theorem append {l'' : List Stmt} (h : Spares l l') (h' : Spares (l ++ l') l'') :
    Spares l (l' ++ l'') := by
  refine ⟨fun x hx hne => ?_, fun x hx hne => ?_⟩
  · rw [assigned_append, List.mem_append, not_or]
    refine ⟨h.assigned x hx hne, h'.assigned x ?_ hne⟩
    rw [locals_append]
    exact List.mem_append_left _ hx
  · rw [modified_append, List.mem_append, not_or]
    refine ⟨h.modified x hx hne, h'.modified x ?_ hne⟩
    rw [painted_append]
    exact List.mem_append_left _ hx

end Spares

namespace Later

theorem refl (b : Builder) : Later b b :=
  ⟨⟨[], (List.append_nil _).symm, .nil _⟩, fun _ h => h, fun _ h => h⟩

theorem painted_mem (h : Later b b') (hx : x ∈ painted b.setup) : x ∈ painted b'.setup := by
  obtain ⟨l, hl, -⟩ := h.setup
  rw [hl, painted_append]
  exact List.mem_append_left _ hx

theorem trans (h : Later b b') (h' : Later b' b'') : Later b b'' := by
  obtain ⟨l, hl, hspares⟩ := h.setup
  obtain ⟨l', hl', hspares'⟩ := h'.setup
  refine ⟨⟨l ++ l', ?_, hspares.append (hl ▸ hspares')⟩, fun x hx => h'.taken x (h.taken x hx),
    fun e he => h'.vars e (h.vars e he)⟩
  rw [hl', hl, List.append_assoc]

end Later

namespace Leaves

theorem refl (b : Builder) : Leaves b b := ⟨rfl, rfl, rfl, rfl, rfl, rfl⟩

theorem trans (h : Leaves b b') (h' : Leaves b' b'') : Leaves b b'' where
  entries := h'.entries.trans h.entries
  groups := h'.groups.trans h.groups
  widgets := h'.widgets.trans h.widgets
  delayed := h'.delayed.trans h.delayed
  delayedActions := h'.delayedActions.trans h.delayedActions
  buttonGroups := h'.buttonGroups.trans h.buttonGroups

theorem names (h : Leaves b b') : b'.session.table.names = b.session.table.names := by
  rw [Table.names, h.entries, h.groups, Table.names]

end Leaves

namespace Evolves

theorem refl (hb : Tidy plan rs b) : Evolves plan rs b b :=
  ⟨hb, .refl b, .refl b, fun _ => .inl⟩

theorem trans (h : Evolves plan rs b b') (h' : Evolves plan rs b' b'') :
    Evolves plan rs b b'' := by
  refine ⟨h'.tidy, h.later.trans h'.later, h.leaves.trans h'.leaves, fun e he => ?_⟩
  rcases h'.fresh e he with he | he
  · exact h.fresh e he
  · exact .inr fun htaken => he (h.later.taken _ htaken)

theorem unshared (h : Evolves plan rs b b') (hx : b.Unshared x) : b'.Unshared x := by
  refine ⟨h.later.taken x hx.1, fun v hv => ?_⟩
  rcases h.fresh _ hv with hold | hnew
  · exact hx.2 v hold
  · exact hnew hx.1

end Evolves

/-! ## Requests -/

theorem Held.mono (h : Held plan rs l v x) (hrs : rs ⊆ rs') : Held plan rs' l v x where
  ne_theme := h.ne_theme
  declared := h.declared
  requested := h.requested.imp fun _ hu => hu.imp_left (hrs ·)
  accounted s hs hx := (h.accounted s hs hx).imp_right fun ⟨u, y, hu, hv⟩ => ⟨u, y, hrs hu, hv⟩

theorem Drawn.mono (h : Drawn plan rs c x l b) (hrs : rs ⊆ rs') : Drawn plan rs' c x l b :=
  { h with requested := h.requested.imp fun _ hu => hu.imp_left (hrs ·) }

theorem Tidy.mono (h : Tidy plan rs b) (hrs : rs ⊆ rs') : Tidy plan rs' b where
  names := h.names
  cached := ⟨fun e he => (h.cached.held e he).mono hrs, h.cached.alike, h.cached.typed⟩
  themed := h.themed
  inked e he := by
    obtain ⟨hnew, c, after, hsolid, hkey, hdrawn⟩ := h.inked e he
    exact ⟨hnew, c, after, hsolid, hkey, hdrawn.mono hrs⟩

/-! ## Names -/

theorem mem_locals_of_declaration {before after : List Stmt}
    (h : l = before ++ v.declaration plan themed x ++ after) : x ∈ locals l := by
  rw [h, locals_append, locals_append, Shared.declaration_locals]
  simp

namespace Held

theorem mem_locals (h : Held plan rs l v x) : x ∈ locals l := by
  obtain ⟨themed, before, after, hl, -⟩ := h.declared
  exact mem_locals_of_declaration hl

theorem append (h : Held plan rs l v x) (hassign : x ∉ assigned l')
    (haccount : ∀ s ∈ l', x ∈ s.names → ∃ u y, .shared u ∈ rs ∧ u.value = v ∧ s ∈ u.code x y) :
    Held plan rs (l ++ l') v x := by
  obtain ⟨themed, before, after, hl, hbefore, hafter⟩ := h.declared
  refine ⟨h.ne_theme, ⟨themed, before, after ++ l', ?_, hbefore, ?_⟩, h.requested,
    fun s hs hx => ?_⟩
  · rw [hl, List.append_assoc]
  · rw [assigned_append, List.mem_append]
    exact not_or.mpr ⟨hafter, hassign⟩
  · rcases List.mem_append.mp hs with hs | hs
    · exact h.accounted s hs hx
    · exact .inr (haccount s hs hx)

theorem new (hne : x ≠ themeVariable) (hunused : ∀ s ∈ l, x ∉ s.names)
    (hv : ∃ u, .shared u ∈ rs ∧ u.value = v) (themed : Bool) :
    Held plan rs (l ++ v.declaration plan themed x) v x := by
  refine ⟨hne, ⟨themed, l, [], (List.append_nil _).symm, hunused, by simp [assigned]⟩, hv,
    fun s hs hx => ?_⟩
  rcases List.mem_append.mp hs with hs | hs
  · exact absurd hx (hunused s hs)
  · exact .inl ⟨themed, hs⟩

end Held

namespace Scoped

/-- The variable of a value has been handed out, and not to an object. -/
theorem taken (h : Scoped t l) (hx : x ∈ locals l) (hne : x ≠ themeVariable) : x ∈ t.taken := by
  obtain ⟨s, hs, hx⟩ := names_of_locals hx
  exact (h.known s hs x hx).resolve_right hne

/-- A variable is declared once, so if it is declared as something else it is no brush. -/
theorem not_painted {s : Stmt} (h : Scoped t l) (hs : s ∈ l) (hx : s.brings? = some x)
    (hother : s.paints? = none) : x ∉ painted l := by
  obtain ⟨l1, l2, rfl⟩ := List.append_of_mem hs
  have hnodup := h.nodup
  rw [locals_append, show locals (s :: l2) = x :: locals l2 from List.filterMap_cons_some hx,
    List.nodup_append, List.nodup_cons] at hnodup
  obtain ⟨-, ⟨hbehind, -⟩, hbefore⟩ := hnodup
  rw [painted_append, show painted (s :: l2) = painted l2 from List.filterMap_cons_none hother,
    List.mem_append, not_or]
  refine ⟨fun hmem => ?_, fun hmem => hbehind (locals_of_painted hmem)⟩
  exact hbefore x (locals_of_painted hmem) x (List.mem_cons_self ..) rfl

theorem append (h : Scoped t l)
    (hknown : ∀ s ∈ l', ∀ x ∈ s.names, x ∈ t.taken ∨ x = themeVariable)
    (hdeclared : ∀ s ∈ l', ∀ x, s.declares? = some x → x ∈ locals l')
    (hnodup : (locals l').Nodup)
    (hnew : ∀ x ∈ locals l', x ∉ locals l ∧ (x = themeVariable ∨ x ∉ t.names)) :
    Scoped t (l ++ l') where
  distinct := h.distinct
  known := List.forall_mem_append.mpr ⟨h.known, hknown⟩
  declared := by
    rw [locals_append]
    exact List.forall_mem_append.mpr
      ⟨fun s hs x hx => List.mem_append_left _ (h.declared s hs x hx),
        fun s hs x hx => List.mem_append_right _ (hdeclared s hs x hx)⟩
  outside := by
    rw [locals_append]
    exact List.forall_mem_append.mpr ⟨h.outside, fun x hx => (hnew x hx).2⟩
  nodup := by
    rw [locals_append]
    refine List.nodup_append.mpr ⟨h.nodup, hnodup, fun x hx y hy heq => ?_⟩
    exact (hnew y hy).1 (heq ▸ hx)

end Scoped

theorem Tidy.held (h : Tidy plan rs b) (hx : (v, x) ∈ b.variables) :
    Held plan rs b.setup v x := h.cached.held _ hx

theorem Tidy.not_painted (h : Tidy plan rs b) (hx : (v, x) ∈ b.variables) :
    x ∉ painted b.setup := by
  obtain ⟨themed, before, after, hl, -⟩ := (h.held hx).declared
  obtain ⟨s, hs, hbrings, hother⟩ := v.declaration_first plan themed x
  refine h.names.not_painted (s := s) ?_ hbrings hother
  rw [hl]
  exact List.mem_append_left _ (List.mem_append_right _ hs)

theorem Tidy.not_painted_object (h : Tidy plan rs b) (hx : x ∈ b.session.table.names) :
    x = themeVariable ∨ x ∉ painted b.setup := by
  by_cases hpainted : x ∈ painted b.setup
  · exact (h.names.outside x (locals_of_painted hpainted)).imp_right (absurd hx)
  · exact .inr hpainted

theorem Tidy.unshared_object (h : Tidy plan rs b) (hx : x ∈ b.session.table.names) :
    b.Unshared x := by
  refine ⟨h.names.distinct.taken x hx, fun v hv => ?_⟩
  rcases h.names.outside x (h.held hv).mem_locals with htheme | hout
  · exact (h.held hv).ne_theme htheme
  · exact hout hx

namespace Builder.Pending

theorem not_local (h : b.Pending x) : x ∉ locals b.setup := by
  intro hx
  obtain ⟨s, hs, hx⟩ := names_of_locals hx
  exact h.unused s hs hx

theorem not_painted (h : b.Pending x) : x ∉ painted b.setup :=
  fun hx => h.not_local (locals_of_painted hx)

theorem unshared (hb : Tidy plan rs b) (h : b.Pending x) : b.Unshared x :=
  ⟨h.taken, fun _ hv => h.not_local (hb.held hv).mem_locals⟩

/-- A name stays pending while code is written that does not mention it. -/
theorem after (h : b.Pending x) (hb : Evolves plan rs b b') (hsetup : b'.setup = b.setup ++ l)
    (hl : ∀ s ∈ l, x ∉ s.names) : b'.Pending x where
  taken := hb.later.taken x h.taken
  outside := hb.leaves.names ▸ h.outside
  ne_theme := h.ne_theme
  unused := by
    rw [hsetup]
    exact List.forall_mem_append.mpr ⟨h.unused, hl⟩

end Builder.Pending

/-! ## Brushes -/

theorem Drawn.after (h : Drawn plan rs c x l b) (hlater : Later b b') :
    ∃ l', b'.setup = b.setup ++ l' ∧ Drawn plan rs c x (l ++ l') b' := by
  obtain ⟨b0, hearlier, hsetup, hbefore, hassigned, hmodified⟩ := h.written
  obtain ⟨l', hl, hspares⟩ := hlater.setup
  refine ⟨l', hl, h.ne_theme, hlater.painted_mem h.mem, h.requested, b0, hearlier.trans hlater, ?_,
    hbefore, ?_, ?_⟩
  · rw [hl, hsetup, List.append_assoc]
  · rw [assigned_append, List.mem_append]
    exact not_or.mpr ⟨hassigned, hspares.assigned x (locals_of_painted h.mem) h.ne_theme⟩
  · rw [modified_append, List.mem_append]
    exact not_or.mpr ⟨hmodified, hspares.modified x h.mem h.ne_theme⟩

/-- The brushes stay as they are if variables are shared only under names that are new in code. -/
theorem Tidy.inked_after (hb : Tidy plan rs b) (hlater : Later b b')
    (hnew : ∀ e ∈ b'.variables, e ∈ b.variables ∨ e.2 ∉ locals b.setup) {e : Nat × String}
    (he : e ∈ b.brushes) : (∀ v, (v, e.2) ∉ b'.variables) ∧
      ∃ (c : Brush) (after : List Stmt), c.isSolid = true ∧ colorKey c.paintedColor = e.1 ∧
        Drawn plan rs c e.2 after b' := by
  obtain ⟨hother, c, after, hsolid, hkey, hdrawn⟩ := hb.inked e he
  obtain ⟨l, -, hdrawn'⟩ := hdrawn.after hlater
  refine ⟨fun v hv => ?_, c, _, hsolid, hkey, hdrawn'⟩
  rcases hnew _ hv with hold | hout
  · exact hother v hold
  · exact hout (locals_of_painted hdrawn.mem)

/-! ## Code -/

theorem Themed.append (h : Themed plan vars themed l) (hlocals : themeVariable ∉ locals l')
    (hl : ∀ s ∈ l', s.isTheme = false) : Themed plan vars themed (l ++ l') where
  needed := h.needed
  absent hthemed := by
    obtain ⟨hno, hnone⟩ := h.absent hthemed
    rw [locals_append, List.mem_append]
    exact ⟨not_or.mpr ⟨hno, hlocals⟩, List.forall_mem_append.mpr ⟨hnone, hl⟩⟩
  declared hthemed := by
    obtain ⟨before, x, i, after, hsetup, hvar, hi, hbefore, hafter⟩ := h.declared hthemed
    refine ⟨before, x, i, after ++ l', by rw [hsetup, List.append_assoc], hvar, hi, hbefore, ?_⟩
    refine List.forall_mem_append.mpr ⟨hafter, fun s hs type init heq => ?_⟩
    have htheme := hl s hs
    rw [heq] at htheme
    simp [Stmt.isTheme] at htheme

/-- Code that brings in the pending names `ys` and says nothing of shared values, but for uses that
were asked for. -/
structure Fits (rs : List Request) (b : Builder) (ys : List String) (l : List Stmt) : Prop where
  named : ∀ s ∈ l, ∀ x ∈ s.names, b.Unshared x ∨
    ∃ u y, .shared u ∈ rs ∧ (u.value, x) ∈ b.variables ∧ s ∈ u.code x y
  brings : locals l = ys
  declared : ∀ s ∈ l, ∀ x, s.declares? = some x → x ∈ ys
  pending : ∀ y ∈ ys, b.Pending y
  nodup : ys.Nodup
  assigns : ∀ x ∈ assigned l, x ∈ b.session.table.names ∨ x ∈ ys
  modifies : ∀ x ∈ modified l, x = themeVariable ∨ x ∉ painted b.setup
  unshared : ∀ s ∈ l, sharedName? s = none
  themeless : ∀ s ∈ l, s.isTheme = false

theorem later_emit (hb : Tidy plan rs b) {ys : List String} (hl : Fits rs b ys l) :
    Later b (emitAll l b).2 := by
  refine { Later.refl b with setup := ⟨l, rfl, fun x hx hne hmem => ?_, fun x hx hne hmem => ?_⟩ }
  · rcases hl.assigns x hmem with hobject | hpending
    · exact (hb.names.outside x hx).elim hne (· hobject)
    · exact (hl.pending x hpending).not_local hx
  · exact (hl.modifies x hmem).elim hne (· hx)

theorem evolves_emit (hb : Tidy plan rs b) {ys : List String} (hl : Fits rs b ys l) :
    Evolves plan rs b (emitAll l b).2 := by
  have hlater := later_emit hb hl
  have htaken : ∀ v x, (v, x) ∈ b.variables → x ∈ b.session.table.taken := fun v x hx =>
    hb.names.taken (hb.held hx).mem_locals (hb.held hx).ne_theme
  refine ⟨⟨hb.names.append ?_ (hl.brings ▸ hl.declared) ?_ ?_, ⟨?_, hb.cached.alike, ?_⟩,
    hb.themed.append ?_ hl.themeless,
    fun e he => hb.inked_after hlater (fun _ => .inl) he⟩, hlater, { Leaves.refl b with },
    fun _ => .inl⟩
  · intro s hs x hx
    rcases hl.named s hs x hx with hold | ⟨u, y, -, hvar, -⟩
    · exact .inl hold.1
    · exact .inl (htaken _ _ hvar)
  · rw [hl.brings]
    exact hl.nodup
  · intro x hx
    rw [hl.brings] at hx
    exact ⟨(hl.pending x hx).not_local, .inr (hl.pending x hx).outside⟩
  · rintro ⟨v, x⟩ hvar
    obtain ⟨k, hk, hspares⟩ := hlater.setup
    rw [show k = l from (List.append_cancel_left hk).symm] at hspares
    have hheld := hb.held hvar
    refine hheld.append (hspares.assigned x hheld.mem_locals hheld.ne_theme) fun s hs hx => ?_
    rcases hl.named s hs x hx with hother | ⟨u, y, hu, huse, hcode⟩
    · exact absurd hvar (hother.2 v)
    · exact ⟨u, y, hu, (hb.cached.alike _ huse _ hvar).mpr rfl, hcode⟩
  · intro s hs x hx
    rcases List.mem_append.mp hs with hs | hs
    · exact hb.cached.typed s hs x hx
    · rw [hl.unshared s hs] at hx
      cases hx
  · rw [hl.brings]
    exact fun hmem => (hl.pending _ hmem).ne_theme rfl

theorem fits_calls (known : List String) (hl : Calls known l) (hplain : ∀ s ∈ l, s.isPlain = true)
    (hknown : ∀ s ∈ l, ∀ x ∈ known, x ∈ s.uses → b.Unshared x ∨
      ∃ u y, .shared u ∈ rs ∧ (u.value, x) ∈ b.variables ∧ s ∈ u.code x y)
    (hmodifies : ∀ x ∈ modified l, x = themeVariable ∨ x ∉ painted b.setup) : Fits rs b [] l where
  named s hs x hx := by
    have huses : x ∈ s.uses := (Stmt.mem_names.mp hx).resolve_left (by simp [(hl s hs).1])
    exact hknown s hs x ((hl s hs).2 x huses) huses
  brings := locals_of_plain hplain
  declared s hs x hx := by
    rw [Stmt.declares_of_plain (hplain s hs)] at hx
    cases hx
  pending := by simp
  nodup := .nil
  assigns x hx := by
    rw [assigned_of_none fun s hs => (hl s hs).1] at hx
    cases hx
  modifies := hmodifies
  unshared s hs := sharedName_of_plain (hplain s hs)
  themeless s hs := Stmt.isTheme_of_plain (hplain s hs)

/-! ## Fresh names -/

/-- A name with a number behind it does not end like that of the variable for theme names. -/
theorem numbered_ne_theme (base : String) (k : Nat) : Table.numbered base k ≠ themeVariable := by
  intro h
  have hlist : base.toList ++ Number.decimalDigits k = themeVariable.toList := by
    rw [← h]
    simp [Table.numbered, Number.natText]
  have hlast := congrArg List.getLast? hlist
  rw [List.getLast?_append, List.getLast?_eq_some_getLast (Number.decimal_ne_nil k)] at hlast
  have hdigit := Number.decimal_isDigit k _ (List.getLast_mem (Number.decimal_ne_nil k))
  rw [Option.some.inj hlast] at hdigit
  exact absurd hdigit (by decide)

theorem freshName_ne_theme {base : String} (hbase : Table.baseName base "" ≠ themeVariable)
    (b : Builder) : (freshName base b).1 ≠ themeVariable := by
  have hname : (freshName base b).1 =
      Table.firstFree b.session.table.taken (Table.baseName base "") := rfl
  rw [hname]
  rcases Table.firstFree_base b.session.table.taken (Table.baseName base "") with h | ⟨k, h⟩
  · rw [h]
    exact hbase
  · rw [h]
    exact numbered_ne_theme _ k

theorem later_freshName (base : String) (b : Builder) : Later b (freshName base b).2 :=
  { Later.refl b with taken := fun _ hx => List.mem_cons_of_mem _ hx }

theorem evolves_freshName (hb : Tidy plan rs b) (base : String)
    (hbase : Table.baseName base "" ≠ themeVariable) :
    Evolves plan rs b (freshName base b).2 ∧
      (freshName base b).2.Pending (freshName base b).1 := by
  have hlater := later_freshName base b
  have hfresh := Table.unique_fresh b.session.table base ""
  have hne := freshName_ne_theme hbase b
  refine ⟨⟨⟨⟨?_, ?_, hb.names.declared, hb.names.outside, hb.names.nodup⟩, hb.cached, hb.themed,
    fun e he => hb.inked_after hlater (fun _ => .inl) he⟩, hlater, { Leaves.refl b with },
    fun _ => .inl⟩, List.mem_cons_self .., ?_, hne, ?_⟩
  · exact (Table.unique_later hb.names.distinct base "").distinct
  · exact fun s hs x hx => (hb.names.known s hs x hx).imp_left (hlater.taken x)
  · exact fun hmem => hfresh (hb.names.distinct.taken _ hmem)
  · exact fun s hs hx => (hb.names.known s hs _ hx).elim hfresh hne

/-! ## Fonts, icons and size policies -/

theorem Themed.share (h : Themed plan vars themed l) {vars' : List (Shared × String)}
    (hx : x ≠ themeVariable) (hvars : ∀ e, e ∈ vars' ↔ e ∈ vars ∨ e = (v, x)) :
    Themed plan vars' (themed || v.hasFallback) (l ++ v.declaration plan themed x) := by
  cases hv : v.hasFallback with
  | false =>
    have hdecl := Shared.declaration_shared plan themed x hv
    have hsame : Themed plan vars themed (l ++ v.declaration plan themed x) := by
      refine h.append ?_ fun s hs => hdecl.themeless hx hs
      rw [hdecl.locals_eq, List.mem_singleton]
      exact hx.symm
    rw [Bool.or_false]
    refine ⟨fun e he hf => ?_, hsame.absent, fun hthemed => ?_⟩
    · rcases (hvars e).mp he with he | rfl
      · exact h.needed e he hf
      · rw [hv] at hf
        cases hf
    · obtain ⟨before, y, i, after, hl, hvar, hi, hbefore, hafter⟩ := hsame.declared hthemed
      exact ⟨before, y, i, after, hl, (hvars _).mpr (.inl hvar), hi, hbefore, hafter⟩
  | true =>
    obtain ⟨i, rfl, hi, hdecl⟩ := Shared.declaration_fallback plan themed x hv
    rw [Bool.or_true]
    refine ⟨fun _ _ _ => rfl, nofun, fun _ => ?_⟩
    cases themed with
    | false =>
      refine ⟨l, x, i, [], (List.append_nil _).symm, (hvars _).mpr (.inr rfl), hi,
        (h.absent rfl).2, by simp⟩
    | true =>
      obtain ⟨before, y, j, after, hl, hvar, hj, hbefore, hafter⟩ := h.declared rfl
      refine ⟨before, y, j, after ++ Shared.declaration plan true x (.icon i),
        by rw [hl, List.append_assoc], (hvars _).mpr (.inl hvar), hj, hbefore, ?_⟩
      refine List.forall_mem_append.mpr ⟨hafter, ?_⟩
      rw [hdecl]
      simp [hx]

theorem Cached.share (h : Cached plan rs vars l) {vars' : List (Shared × String)}
    (hx : x ≠ themeVariable) (hunused : ∀ s ∈ l, x ∉ s.names) (hnew : ∀ y, (v, y) ∉ vars)
    (hv : ∃ u, .shared u ∈ rs ∧ u.value = v)
    (hvars : ∀ e, e ∈ vars' ↔ e ∈ vars ∨ e = (v, x)) (themed : Bool) :
    Cached plan rs vars' (l ++ v.declaration plan themed x) := by
  have hother : ∀ e ∈ vars, e.2 ≠ x := by
    intro e he heq
    obtain ⟨s, hs, hmem⟩ := names_of_locals (h.held e he).mem_locals
    exact hunused s hs (heq ▸ hmem)
  refine ⟨fun e he => ?_, fun ⟨w, y⟩ he ⟨w', y'⟩ he' => ?_, fun s hs y hy => ?_⟩
  · rcases (hvars e).mp he with he | rfl
    · -- the declaration is about `x` and the name of a theme icon
      have hout : ∀ s ∈ v.declaration plan themed x, e.2 ∉ s.names := fun s hs hmem =>
        (Shared.declaration_names hs hmem).elim (hother e he) (h.held e he).ne_theme
      refine (h.held e he).append (fun hmem => ?_) fun s hs hmem => absurd hmem (hout s hs)
      obtain ⟨s, hs, hmem⟩ := names_of_assigned hmem
      exact hout s hs hmem
    · exact Held.new hx hunused hv themed
  · rcases (hvars _).mp he with he | heq
    · rcases (hvars _).mp he' with he' | heq'
      · exact h.alike _ he _ he'
      · cases heq'
        exact iff_of_false (fun heq : w = v => hnew y (heq ▸ he)) (hother _ he)
    · cases heq
      rcases (hvars _).mp he' with he' | heq'
      · refine iff_of_false (fun heq : v = w' => hnew y' (heq ▸ he')) fun heq => ?_
        exact hother _ he' heq.symm
      · cases heq'
        exact iff_of_true rfl rfl
  · rcases List.mem_append.mp hs with hs | hs
    · obtain ⟨w, hw⟩ := h.typed s hs y hy
      exact ⟨w, (hvars _).mpr (.inl hw)⟩
    · rw [Shared.declaration_shares hs hy]
      exact ⟨v, (hvars _).mpr (.inr rfl)⟩

theorem tidy_share (hb : Tidy plan rs b) (hx : b.Pending x) (hnew : ∀ y, (v, y) ∉ b.variables)
    (hv : ∃ u, .shared u ∈ rs ∧ u.value = v)
    (hsetup : b'.setup = b.setup ++ v.declaration plan b.themeDeclared x)
    (htable : b'.session.table = b.session.table)
    (hvars : ∀ e, e ∈ b'.variables ↔ e ∈ b.variables ∨ e = (v, x))
    (hbrushes : b'.brushes = b.brushes)
    (htheme : b'.themeDeclared = (b.themeDeclared || v.hasFallback)) :
    Tidy plan rs b' ∧ Later b b' := by
  have hlater : Later b b' := by
    have hspared : ∀ y ∈ locals b.setup, y ≠ themeVariable →
        ∀ s ∈ v.declaration plan b.themeDeclared x, y ∉ s.names := by
      intro y hy hne s hs hmem
      rcases Shared.declaration_names hs hmem with rfl | htheme
      · exact hx.not_local hy
      · exact hne htheme
    refine ⟨⟨_, hsetup, fun y hy hne hmem => ?_, fun y hy hne hmem => ?_⟩, htable ▸ fun _ h => h,
      fun e he => (hvars e).mpr (.inl he)⟩
    · obtain ⟨s, hs, hmem⟩ := names_of_assigned hmem
      exact hspared y hy hne s hs hmem
    · obtain ⟨s, hs, hmem⟩ := names_of_modified hmem
      exact hspared y (locals_of_painted hy) hne s hs hmem
  refine ⟨⟨?_, ?_, ?_, fun e he => ?_⟩, hlater⟩
  · rw [hsetup, htable]
    refine hb.names.append (fun s hs y hy => ?_)
      (fun s hs y hy => Shared.declaration_declares hs hy) ?_ fun y hy => ?_
    · rcases Shared.declaration_names hs hy with rfl | htheme
      · exact .inl hx.taken
      · exact .inr htheme
    · rw [Shared.declaration_locals]
      split
      · simpa using hx.ne_theme
      · simp
    · rw [Shared.declaration_locals] at hy
      rcases List.mem_cons.mp hy with rfl | hy
      · exact ⟨hx.not_local, .inr hx.outside⟩
      · split at hy
        · rename_i hneeded
          rw [Bool.and_eq_true, Bool.not_eq_true'] at hneeded
          rw [List.mem_singleton.mp hy]
          exact ⟨(hb.themed.absent hneeded.2).1, .inl rfl⟩
        · cases hy
  · rw [hsetup]
    exact hb.cached.share hx.ne_theme hx.unused hnew hv hvars _
  · rw [hsetup, htheme]
    exact hb.themed.share hx.ne_theme hvars
  · refine hb.inked_after hlater (fun e he => ?_) (hbrushes ▸ he)
    rcases (hvars e).mp he with he | rfl
    · exact .inl he
    · exact .inr hx.not_local

namespace Shared

/-- What the names of variables are made from. -/
def base : Shared → String
  | font _ => "font"
  | icon _ => "icon"
  | sizePolicy _ => "sizePolicy"

/-- The variable of a value. -/
def nameIn (plan : Plan) : Shared → Build String
  | font f => fontName f
  | icon i => iconName plan i
  | sizePolicy p => sizePolicyName p

theorem base_ne_theme (v : Shared) : Table.baseName v.base "" ≠ themeVariable := by
  have hbases : ∀ base ∈ ["font", "icon", "sizePolicy"],
      Table.baseName base "" ≠ themeVariable := by decide +kernel
  cases v <;> exact hbases _ (by simp [base])

theorem mem_fonts {f : Font} {x : String} : (font f, x) ∈ b.variables ↔ (f, x) ∈ b.fonts := by
  simp [Builder.variables]

theorem mem_icons {i : Icon} {x : String} : (icon i, x) ∈ b.variables ↔ (i, x) ∈ b.icons := by
  simp [Builder.variables]

theorem mem_sizePolicies {p : SizePolicy} {x : String} :
    (sizePolicy p, x) ∈ b.variables ↔ (p, x) ∈ b.sizePolicies := by
  simp [Builder.variables]

/-- What there is after a variable has been declared under a fresh name. -/
structure Declared (plan : Plan) (v : Shared) (b b' : Builder) : Prop where
  setup : b'.setup = b.setup ++ v.declaration plan b.themeDeclared (freshName v.base b).1
  table : b'.session.table = (freshName v.base b).2.session.table
  vars : ∀ e, e ∈ b'.variables ↔ e ∈ b.variables ∨ e = (v, (freshName v.base b).1)
  brushes : b'.brushes = b.brushes
  themed : b'.themeDeclared = (b.themeDeclared || v.hasFallback)
  leaves : Leaves b b'

theorem mem_of_lookup_some {α : Type} [BEq α] [LawfulBEq α] {l : List (α × String)} {a : α}
    (h : l.lookup a = some x) : (a, x) ∈ l := by
  obtain ⟨l1, l2, rfl, -⟩ := List.lookup_eq_some_iff.mp h
  simp

theorem not_mem_of_lookup_none {α : Type} [BEq α] [LawfulBEq α] {l : List (α × String)} {a : α}
    (h : l.lookup a = none) (x : String) : (a, x) ∉ l := fun hmem => by
  simpa using List.lookup_eq_none_iff.mp h _ hmem

/-- A value has a variable, or gets one. -/
theorem nameIn_cases (plan : Plan) (v : Shared) (b : Builder) :
    (v, (v.nameIn plan b).1) ∈ b.variables ∧ (v.nameIn plan b).2 = b ∨
      (∀ x, (v, x) ∉ b.variables) ∧ (v.nameIn plan b).1 = (freshName v.base b).1 ∧
        Declared plan v b (v.nameIn plan b).2 := by
  cases v with
  | font f =>
    cases hf : b.fonts.lookup f with
    | some name =>
      rw [nameIn, Job.fontName_known hf]
      exact .inl ⟨mem_fonts.mpr (mem_of_lookup_some hf), rfl⟩
    | none =>
      rw [nameIn, Job.fontName_new hf]
      refine .inr ⟨fun x hx => not_mem_of_lookup_none hf x (mem_fonts.mp hx), rfl, rfl, rfl,
        fun e => ?_, rfl, (Bool.or_false _).symm, { Leaves.refl b with }⟩
      change e ∈ (b.fonts ++ [_]).map _ ++ b.icons.map _ ++ b.sizePolicies.map _ ↔ _
      simp only [Builder.variables, List.map_append, List.mem_append, List.map_singleton,
        List.mem_singleton, Prod.map_apply, id_eq, base]
      grind
  | icon i =>
    cases hi : b.icons.lookup i with
    | some name =>
      rw [nameIn, Job.iconName_known plan hi]
      exact .inl ⟨mem_icons.mpr (mem_of_lookup_some hi), rfl⟩
    | none =>
      rw [nameIn, Job.iconName_new plan hi]
      refine .inr ⟨fun x hx => not_mem_of_lookup_none hi x (mem_icons.mp hx), rfl, rfl, rfl,
        fun e => ?_, rfl, ?_, { Leaves.refl b with }⟩
      · change e ∈ b.fonts.map _ ++ (b.icons ++ [_]).map _ ++ b.sizePolicies.map _ ↔ _
        simp only [Builder.variables, List.map_append, List.mem_append, List.map_singleton,
          List.mem_singleton, Prod.map_apply, id_eq, base]
        grind
      · change (if i.hasFallback = true then true else b.themeDeclared) = _
        rw [hasFallback]
        cases i.hasFallback <;> simp
  | sizePolicy p =>
    cases hp : b.sizePolicies.lookup p with
    | some name =>
      rw [nameIn, Job.sizePolicyName_known hp]
      exact .inl ⟨mem_sizePolicies.mpr (mem_of_lookup_some hp), rfl⟩
    | none =>
      rw [nameIn, Job.sizePolicyName_new hp]
      refine .inr ⟨fun x hx => not_mem_of_lookup_none hp x (mem_sizePolicies.mp hx), rfl, rfl, rfl,
        fun e => ?_, rfl, (Bool.or_false _).symm, { Leaves.refl b with }⟩
      change e ∈ b.fonts.map _ ++ b.icons.map _ ++ (b.sizePolicies ++ [_]).map _ ↔ _
      simp only [Builder.variables, List.map_append, List.mem_append, List.map_singleton,
        List.mem_singleton, Prod.map_apply, id_eq, base]
      grind

end Shared

theorem evolves_nameIn (hb : Tidy plan rs b) (hv : ∃ u, .shared u ∈ rs ∧ u.value = v) :
    let r := v.nameIn plan b
    Evolves plan rs b r.2 ∧ (v, r.1) ∈ r.2.variables ∧
      ∀ x, b.Pending x → r.2.Pending x := by
  intro r
  rcases v.nameIn_cases plan b with ⟨hvar, hsame⟩ | ⟨hnew, hname, hdecl⟩
  · rw [show r.2 = b from hsame]
    exact ⟨.refl hb, hvar, fun _ h => h⟩
  · obtain ⟨s1, hpending⟩ := evolves_freshName hb v.base v.base_ne_theme
    obtain ⟨htidy, hlater⟩ := tidy_share s1.tidy hpending hnew hv hdecl.setup hdecl.table
      hdecl.vars hdecl.brushes hdecl.themed
    have hfresh := Table.unique_fresh b.session.table v.base ""
    have s2 : Evolves plan rs b r.2 := by
      refine ⟨htidy, s1.later.trans hlater, hdecl.leaves, fun e he => ?_⟩
      rcases (hdecl.vars e).mp he with he | rfl
      · exact .inl he
      · exact .inr hfresh
    refine ⟨s2, (hdecl.vars _).mpr (.inr (by rw [← hname])), fun x hx => ?_⟩
    refine hx.after s2 hdecl.setup fun s hs hmem => ?_
    rcases Shared.declaration_names hs hmem with rfl | htheme
    · exact hfresh hx.taken
    · exact hx.ne_theme htheme

end FormCompiler.Setup
