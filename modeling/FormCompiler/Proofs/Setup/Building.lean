import FormCompiler.Proofs.Code.Assignment
import FormCompiler.Proofs.Setup.Missing

/-!
# What building setup code keeps

`Job.Consistent` is what holds of a builder at any time while a form is set up: what it keeps for
later refers to variables that exist, and nothing that is missing has been assigned, unless the
variable for theme names hides it.  `Job.Writes` relates the builders before and after a piece of
the setup.  It accounts exactly for definite assignment: the code is in order afterwards if and only
if it was before and a condition holds, which is that of the piece.
-/

namespace FormCompiler.Setup

open Code Document Naming

theorem nameAt_entry (plan : Plan) {v : Visit} {o : Object} {e : Entry} {b : Builder}
    (ho : Object.ofNode? v.node = some o)
    (he : b.session.table.entry? ⟨plan.document, v.path⟩ = some e) :
    nameAt plan v b = (e.name, b) := by
  have hrun : nameAt plan v b =
      ((Session.nameOfVisit? plan.document v b.session).1.getD "",
        { b with session := (Session.nameOfVisit? plan.document v b.session).2 }) := rfl
  rw [hrun, nameOfVisit_object plan.document v o ho, Table.nameOf_known o he, List.append_nil]
  rfl

/-! ## Texts -/

@[simp] theorem plainText_uses (phrase : Option Phrase) (fallback : String) :
    (plainText phrase fallback).uses = [] := by
  unfold plainText
  split
  · rfl
  · split <;> rfl

@[simp] theorem translatedText_uses (phrase : Option Phrase) (fallback : String) :
    (translatedText phrase fallback).uses = [] := by
  unfold translatedText
  split <;> rfl

@[simp] theorem shownText_uses (phrase : Option Phrase) (fallback : String) :
    (shownText phrase fallback).uses = [] := by
  unfold shownText
  split <;> simp

/-! ## Builders -/

/-- The variables of values that equal values can share. -/
def Builder.shared (b : Builder) : List String :=
  b.fonts.map Prod.snd ++ b.icons.map Prod.snd ++ b.sizePolicies.map Prod.snd ++
    b.brushes.map Prod.snd

/-- The variables that a builder may refer to again. -/
def Builder.kept (b : Builder) : List String := b.widgets ++ b.buttonGroups ++ b.shared

theorem mem_shared {b : Builder} {x : String} :
    x ∈ b.shared ↔ x ∈ b.fonts.map Prod.snd ∨ x ∈ b.icons.map Prod.snd ∨
      x ∈ b.sizePolicies.map Prod.snd ∨ x ∈ b.brushes.map Prod.snd := by
  simp only [Builder.shared, List.mem_append, or_assoc]

theorem mem_kept {b : Builder} {x : String} :
    x ∈ b.kept ↔ x ∈ b.widgets ∨ x ∈ b.buttonGroups ∨ x ∈ b.shared := by
  simp only [Builder.kept, List.mem_append, or_assoc]

namespace Job

/-- The variables that exist by now. -/
def vars (job : Job) (b : Builder) : List String := [job.plan.mainForm] ++ assigned b.setup

/-- The setup function is definitely assigned so far. -/
def Ordered (job : Job) (b : Builder) : Prop := DefinitelyAssigned [job.plan.mainForm] b.setup

/-- A name that has been handed out, and not to an object that is missing. -/
def Assignable (job : Job) (b : Builder) (x : String) : Prop :=
  x ∈ b.session.table.taken ∧ ¬ job.Missing x

/-- A name under which an action is placed, and which an object has. -/
def Placeable (job : Job) (x : String) : Prop :=
  job.Places x ∧ ∃ e ∈ job.table.entries, e.name = x

structure Consistent (job : Job) (b : Builder) : Prop where
  distinct : b.session.table.Distinct
  grows : job.table.Extends b.session.table
  entries : b.session.table.entries = job.table.entries
  /-- Groups that the form does not declare are created with their first button. -/
  groups : ∀ d g, b.session.table.group? d = some g →
    job.table.group? d = some g ∨ g.name ∈ b.buttonGroups
  reserved : ∀ x, job.Missing x → x ∈ b.session.table.taken
  taken : ∀ x ∈ job.vars b, x ∈ b.session.table.taken ∨ x = themeVariable
  free : ∀ x ∈ assigned b.setup, job.Missing x → DeclaresText x b.setup
  kept : ∀ x ∈ b.kept, x ∈ job.vars b
  theme : b.themeDeclared = true → DeclaresText themeVariable b.setup
  delayed : Calls (job.vars b) b.delayed
  actions : ∀ s ∈ b.delayedActions, s.assigns = [] ∧
    ∀ x ∈ s.uses, x ∈ job.vars b ∨ job.Placeable x

/-- A piece of the setup, and the condition under which its code is in order. -/
structure Writes (job : Job) (T : Prop) (b b' : Builder) : Prop where
  consistent : job.Consistent b'
  ordered : job.Ordered b' ↔ job.Ordered b ∧ T
  setup : b.setup <+: b'.setup
  actions : b.delayedActions ⊆ b'.delayedActions
  table : b.session.table.Extends b'.session.table
  buttonGroups : b'.buttonGroups = b.buttonGroups

/-- What may change in a builder while some code is appended. -/
structure Grows (job : Job) (l : List Stmt) (b b' : Builder) : Prop where
  setup : b'.setup = b.setup ++ l
  distinct : b'.session.table.Distinct
  table : b.session.table.Extends b'.session.table
  entries : b'.session.table.entries = b.session.table.entries
  groups : ∀ d g, b'.session.table.group? d = some g →
    b.session.table.group? d = some g ∨ g.name ∈ b'.buttonGroups
  buttonGroups : b.buttonGroups ⊆ b'.buttonGroups
  names : ∀ x ∈ assigned l, job.Assignable b' x ∨ x = themeVariable ∧ DeclaresText x b'.setup
  kept : ∀ x ∈ b'.kept, x ∈ b.kept ∨ x ∈ job.vars b'
  theme : b'.themeDeclared = true → b.themeDeclared = true ∨ DeclaresText themeVariable b'.setup
  delayed : ∀ s ∈ b'.delayed, s ∈ b.delayed ∨ s.assigns = [] ∧ ∀ x ∈ s.uses, x ∈ job.vars b'
  actions : ∀ s ∈ b'.delayedActions, s ∈ b.delayedActions ∨
    s.assigns = [] ∧ ∀ x ∈ s.uses, x ∈ job.vars b' ∨ job.Placeable x

variable {job : Job} {T T' : Prop} {b b' b'' : Builder} {l : List Stmt} {x : String}

theorem mainForm_mem (job : Job) (b : Builder) : job.plan.mainForm ∈ job.vars b :=
  List.mem_append_left _ (List.mem_singleton.mpr rfl)

theorem vars_mono (h : b.setup <+: b'.setup) (hx : x ∈ job.vars b) : x ∈ job.vars b' := by
  obtain ⟨l, hl⟩ := h
  rw [vars, ← hl, assigned_append, ← List.append_assoc]
  exact List.mem_append_left _ hx

namespace Consistent

theorem widget_mem (hb : job.Consistent b) (hx : x ∈ b.widgets) : x ∈ job.vars b :=
  hb.kept x (mem_kept.mpr (.inl hx))

theorem group_mem (hb : job.Consistent b) (hx : x ∈ b.buttonGroups) : x ∈ job.vars b :=
  hb.kept x (mem_kept.mpr (.inr (.inl hx)))

theorem shared_mem (hb : job.Consistent b) (hx : x ∈ b.shared) : x ∈ job.vars b :=
  hb.kept x (mem_kept.mpr (.inr (.inr hx)))

theorem grow (hb : job.Consistent b) (h : job.Grows l b b') : job.Consistent b' := by
  have hsetup : b.setup <+: b'.setup := h.setup ▸ List.prefix_append _ _
  -- What was assigned stays so, and what is new is among `names`.
  have hassigned : assigned b'.setup = assigned b.setup ++ assigned l := by
    rw [h.setup, assigned_append]
  constructor
  case distinct => exact h.distinct
  case grows => exact hb.grows.trans h.table
  case entries => exact h.entries.trans hb.entries
  case groups =>
    intro d g hg
    rcases h.groups d g hg with hg | hg
    · exact (hb.groups d g hg).imp_right (h.buttonGroups ·)
    · exact .inr hg
  case reserved => exact fun x hx => h.table.taken x (hb.reserved x hx)
  case taken =>
    intro x hx
    rw [vars, hassigned, ← List.append_assoc] at hx
    rcases List.mem_append.mp hx with hx | hx
    · exact (hb.taken x hx).imp_left (h.table.taken x)
    · exact (h.names x hx).imp And.left And.left
  case free =>
    intro x hx hm
    rw [hassigned] at hx
    rcases List.mem_append.mp hx with hx | hx
    · exact (hb.free x hx hm).mono hsetup
    · exact (h.names x hx).elim (fun hn => absurd hm hn.2) And.right
  case kept => exact fun x hx => (h.kept x hx).elim (fun hx => vars_mono hsetup (hb.kept x hx)) id
  case theme => exact fun ht => (h.theme ht).elim (fun ht => (hb.theme ht).mono hsetup) id
  case delayed =>
    intro s hs
    rcases h.delayed s hs with hs | hs
    · exact (hb.delayed s hs).imp id fun huses x hx => vars_mono hsetup (huses x hx)
    · exact hs
  case actions =>
    intro s hs
    rcases h.actions s hs with hs | hs
    · exact (hb.actions s hs).imp id fun huses x hx => (huses x hx).imp_left (vars_mono hsetup)
    · exact hs

end Consistent

namespace Writes

theorem refl (hb : job.Consistent b) : job.Writes True b b :=
  ⟨hb, by simp, List.prefix_refl _, fun _ h => h, Table.Extends.refl _, rfl⟩

theorem trans (h : job.Writes T b b') (h' : job.Writes T' b' b'') :
    job.Writes (T ∧ T') b b'' :=
  ⟨h'.consistent, by rw [h'.ordered, h.ordered, and_assoc], h.setup.trans h'.setup,
    fun _ hs => h'.actions (h.actions hs), h.table.trans h'.table,
    h'.buttonGroups.trans h.buttonGroups⟩

theorem congr (h : job.Writes T b b') (ht : T ↔ T') : job.Writes T' b b' :=
  ⟨h.consistent, by rw [h.ordered, ht], h.setup, h.actions, h.table, h.buttonGroups⟩

theorem andThen (h : job.Writes True b b') (h' : job.Writes T b' b'') : job.Writes T b b'' :=
  (h.trans h').congr (by simp)

theorem followed (h : job.Writes T b b') (h' : job.Writes True b' b'') : job.Writes T b b'' :=
  (h.trans h').congr (by simp)

theorem ite {α : Type} (c : Prop) [Decidable c] {r r' : α × Builder}
    (h : c → job.Writes T b r.2) (h' : ¬ c → job.Writes T b r'.2) :
    job.Writes T b (if c then r else r').2 := by
  split
  · exact h ‹_›
  · exact h' ‹_›

theorem mem_vars (h : job.Writes T b b') (hx : x ∈ job.vars b) : x ∈ job.vars b' :=
  vars_mono h.setup hx

end Writes

/-! ## Changes that write no code -/

theorem writes_aside (hb : job.Consistent b) (hsetup : b'.setup = b.setup)
    (htable : b'.session.table = b.session.table) (hgroups : b'.buttonGroups = b.buttonGroups)
    (htheme : b'.themeDeclared = b.themeDeclared)
    (hkept : ∀ x ∈ b'.kept, x ∈ b.kept ∨ x ∈ job.vars b)
    (hdelayed : ∀ s ∈ b'.delayed, s ∈ b.delayed ∨ s.assigns = [] ∧ ∀ x ∈ s.uses, x ∈ job.vars b)
    (hactions : ∀ s ∈ b'.delayedActions, s ∈ b.delayedActions ∨
      s.assigns = [] ∧ ∀ x ∈ s.uses, x ∈ job.vars b ∨ job.Placeable x)
    (hmore : b.delayedActions ⊆ b'.delayedActions) : job.Writes True b b' := by
  have hvars : job.vars b' = job.vars b := by rw [vars, vars, hsetup]
  have hordered : job.Ordered b' ↔ job.Ordered b := by rw [Ordered, Ordered, hsetup]
  have hgrows : job.Grows [] b b' :=
    { setup := by rw [hsetup, List.append_nil]
      distinct := htable ▸ hb.distinct
      table := htable ▸ Table.Extends.refl _
      entries := congrArg Table.entries htable
      groups := fun d g hg => .inl (htable ▸ hg)
      buttonGroups := hgroups ▸ List.Subset.refl _
      names := fun x hx => absurd hx List.not_mem_nil
      kept := hvars ▸ hkept
      theme := fun ht => .inl (htheme ▸ ht)
      delayed := hvars ▸ hdelayed
      actions := hvars ▸ hactions }
  exact ⟨hb.grow hgrows, by rw [hordered, and_true], hsetup ▸ List.prefix_refl _, hmore,
    htable ▸ Table.Extends.refl _, hgroups⟩

theorem writes_nothing (hb : job.Consistent b) (hsetup : b'.setup = b.setup)
    (htable : b'.session.table = b.session.table) (hgroups : b'.buttonGroups = b.buttonGroups)
    (htheme : b'.themeDeclared = b.themeDeclared) (hkept : b'.kept = b.kept)
    (hdelayed : b'.delayed = b.delayed) (hactions : b'.delayedActions = b.delayedActions) :
    job.Writes True b b' :=
  writes_aside hb hsetup htable hgroups htheme (fun _ hx => .inl (hkept ▸ hx))
    (fun _ hs => .inl (hdelayed ▸ hs)) (fun _ hs => .inl (hactions ▸ hs))
    (hactions ▸ List.Subset.refl _)

theorem writes_note (hb : job.Consistent b) (topic : Topic) :
    job.Writes True b (note job.plan topic b).2 :=
  writes_nothing hb rfl rfl rfl rfl rfl rfl rfl

theorem writes_emitRetranslate (hb : job.Consistent b) (l : List Stmt) :
    job.Writes True b (emitRetranslate l b).2 :=
  writes_nothing hb rfl rfl rfl rfl rfl rfl rfl

theorem writes_delay (hb : job.Consistent b) (s : Stmt) (hs : s.assigns = [])
    (huses : ∀ x ∈ s.uses, x ∈ job.vars b) : job.Writes True b (delay s b).2 := by
  refine writes_aside hb rfl rfl rfl rfl (fun _ => .inl) (fun s' hs' => ?_) (fun _ => .inl)
    (fun _ h => h)
  rcases List.mem_append.mp hs' with hs' | hs'
  · exact .inl hs'
  · rw [List.mem_singleton.mp hs']
    exact .inr ⟨hs, huses⟩

theorem writes_delayAction (hb : job.Consistent b) (s : Stmt) (hs : s.assigns = [])
    (huses : ∀ x ∈ s.uses, x ∈ job.vars b ∨ job.Placeable x) :
    job.Writes True b (delayAction s b).2 := by
  refine writes_aside hb rfl rfl rfl rfl (fun _ => .inl) (fun _ => .inl) (fun s' hs' => ?_)
    (fun _ h => List.mem_append_left _ h)
  rcases List.mem_append.mp hs' with hs' | hs'
  · exact .inl hs'
  · rw [List.mem_singleton.mp hs']
    exact .inr ⟨hs, huses⟩

/-! ## Names -/

theorem Assignable.mono (h : job.Writes T b b') (hx : job.Assignable b x) :
    job.Assignable b' x :=
  ⟨h.table.taken x hx.1, hx.2⟩

theorem writes_freshName (hb : job.Consistent b) (base : String) :
    job.Writes True b (freshName base b).2 ∧
      job.Assignable (freshName base b).2 (freshName base b).1 := by
  have hfresh := Table.unique_fresh b.session.table base ""
  have hgrows := Table.unique_extends b.session.table base ""
  refine ⟨⟨?_, by rw [and_true]; exact Iff.rfl, List.prefix_refl _, fun _ h => h, hgrows, rfl⟩,
    List.mem_cons_self .., fun h => hfresh (hb.reserved _ h)⟩
  refine { hb with
    grows := hb.grows.trans hgrows
    distinct := ⟨hb.distinct.nodup, fun x hx => hgrows.taken x (hb.distinct.taken x hx),
      hb.distinct.places, hb.distinct.declared⟩
    reserved := fun x hx => hgrows.taken x (hb.reserved x hx)
    taken := fun x hx => (hb.taken x hx).imp_left (hgrows.taken x) }

theorem freshName_not_mem (hb : job.Consistent b) (base : String)
    (htheme : (freshName base b).1 ≠ themeVariable) :
    (freshName base b).1 ∉ job.vars (freshName base b).2 := by
  intro h
  rcases hb.taken _ h with h | h
  · exact Table.unique_fresh b.session.table base "" h
  · exact htheme h

/-! ## Statements -/

theorem writes_emitAll (hb : job.Consistent b) (l : List Stmt)
    (hassign : ∀ x ∈ assigned l, job.Assignable b x ∨
      x = themeVariable ∧ DeclaresText x (b.setup ++ l)) :
    job.Writes (DefinitelyAssigned (job.vars b) l) b (emitAll l b).2 := by
  have hordered : job.Ordered (emitAll l b).2 ↔
      job.Ordered b ∧ DefinitelyAssigned (job.vars b) l :=
    DefinitelyAssigned.append_iff [job.plan.mainForm] b.setup l
  have hgrows : job.Grows l b (emitAll l b).2 :=
    { setup := rfl
      distinct := hb.distinct
      table := Table.Extends.refl _
      entries := rfl
      groups := fun _ _ => .inl
      buttonGroups := List.Subset.refl _
      names := hassign
      kept := fun _ => .inl
      theme := .inl
      delayed := fun _ => .inl
      actions := fun _ => .inl }
  exact ⟨hb.grow hgrows, hordered, List.prefix_append _ _, List.Subset.refl _,
    Table.Extends.refl _, rfl⟩

theorem assigned_emitAll (hx : x ∈ assigned l) :
    x ∈ job.vars (emitAll l b).2 := by
  have hsetup : (emitAll l b).2.setup = b.setup ++ l := rfl
  rw [vars, hsetup, assigned_append]
  exact List.mem_append_right _ (List.mem_append_right _ hx)

theorem writes_calls (hb : job.Consistent b) (hl : Calls (job.vars b) l) :
    job.Writes True b (emitAll l b).2 := by
  refine (writes_emitAll hb l fun x hx => ?_).congr
    (iff_true_intro (DefinitelyAssigned.of_known fun s hs => (hl s hs).2))
  rw [assigned_of_none fun s hs => (hl s hs).1] at hx
  cases hx

theorem writes_emit (hb : job.Consistent b) (s : Stmt)
    (hassign : ∀ x ∈ s.assigns, job.Assignable b x) :
    job.Writes (∀ x ∈ s.uses, x ∈ job.vars b) b (emit s b).2 := by
  refine (writes_emitAll hb [s] fun x hx => .inl (hassign x (by simpa using hx))).congr ?_
  simp [DefinitelyAssigned]

theorem writes_call (hb : job.Consistent b) (s : Stmt) (hs : s.assigns = [])
    (huses : ∀ x ∈ s.uses, x ∈ job.vars b) : job.Writes True b (emit s b).2 :=
  (writes_emit hb s (by simp [hs])).congr (iff_true_intro huses)

theorem writes_create (hb : job.Consistent b) {name : String} (s : Stmt) (hs : s.assigns = [name])
    (hname : job.Assignable b name) (huses : ∀ x ∈ s.uses, x ∈ job.vars b) :
    job.Writes True b (emit s b).2 := by
  refine (writes_emit hb s fun x hx => ?_).congr (iff_true_intro huses)
  rw [hs, List.mem_singleton] at hx
  exact hx ▸ hname

theorem assigned_emit {s : Stmt} (hx : x ∈ s.assigns) :
    x ∈ job.vars (emit s b).2 :=
  assigned_emitAll (l := [s]) (by simpa using hx)

/-! ## Names of objects -/

theorem nameAt_object (hb : job.Consistent b) (v : Visit) (o : Object) (e : Entry)
    (ho : Object.ofNode? v.node = some o)
    (he : job.table.entry? ⟨job.plan.document, v.path⟩ = some e) :
    nameAt job.plan v b = (job.name v, b) := by
  rw [nameAt_entry job.plan ho (hb.grows.entries _ e he), name, Header.nameIn_of_entry he]

end Job

end FormCompiler.Setup
