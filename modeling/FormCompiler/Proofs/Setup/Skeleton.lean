import FormCompiler.Proofs.Setup.Details
import FormCompiler.Proofs.Setup.Properties

/-!
# The code that builds the tree of objects

A statement handles objects if it creates one of the form or passes one to a method of another
(`Job.handles`); those that give an object to a layout are among them (`Job.builds`).  A `View`
shows something of such statements and nothing of all others.  `View.Adds` relates the builders
before and after a piece of the setup: to the view, the piece appends the given statements.  Of
values and properties nothing is seen: their variables are never those of objects.
-/

namespace FormCompiler

/-- The variable that an expression is. -/
def Code.Expr.reference? : Code.Expr → Option String
  | .ref x => some x
  | _ => none

theorem Code.Expr.reference?_eq_some_iff {e : Code.Expr} {x : String} :
    e.reference? = some x ↔ e = .ref x := by
  cases e <;> simp [reference?]

namespace Setup

open Code Document Naming

namespace Job

/-! ## Statements that build -/

section Statements

variable (job : Job)

/-- Whether an object has a name. -/
def isObject (x : String) : Bool := job.table.entries.any (·.name == x)

/-- Whether a layout of the form has a name. -/
def isLayout (x : String) : Bool :=
  job.form.visits.any fun v => v.node.kind == .layout && job.name v == x

/-- Whether a statement creates an object or gives one to a layout. -/
def builds : Stmt → Bool
  | .create x _ _ | .createLocal x _ _ => job.isObject x
  | .call receiver _ args => job.isLayout receiver && args.any (·.reference?.any job.isObject)
  | _ => false

/-- Whether a statement creates an object or passes one to a method of an object. -/
def handles : Stmt → Bool
  | .create x _ _ | .createLocal x _ _ => job.isObject x
  | .call receiver _ args => job.isObject receiver && args.any (·.reference?.any job.isObject)
  | _ => false

variable {job}

theorem isObject_false {x : String} :
    job.isObject x = false ↔ ∀ e ∈ job.table.entries, e.name ≠ x := by
  simp [isObject]

theorem handles_args {receiver method : String} {args : List Expr}
    (h : ∀ x, .ref x ∈ args → job.isObject x = false) :
    job.handles (.call receiver method args) = false := by
  have hargs : (args.any (·.reference?.any job.isObject)) = false := by
    rw [List.any_eq_false]
    intro e he hx
    obtain ⟨x, href, hobject⟩ := (Option.any_eq_true ..).mp hx
    rw [h x (Expr.reference?_eq_some_iff.mp href ▸ he)] at hobject
    cases hobject
  rw [handles, hargs, Bool.and_false]

theorem handles_call {receiver method : String} {args : List Expr}
    (h : ∀ x ∈ args.flatMap Expr.uses, job.isObject x = false) :
    job.handles (.call receiver method args) = false :=
  handles_args fun x hx => h x (List.mem_flatMap.mpr ⟨_, hx, List.mem_singleton.mpr rfl⟩)

theorem handles_receiver {receiver : String} (h : job.isObject receiver = false)
    (method : String) (args : List Expr) : job.handles (.call receiver method args) = false := by
  rw [handles, h, Bool.false_and]

theorem builds_receiver {receiver : String} (h : job.isLayout receiver = false) (method : String)
    (args : List Expr) : job.builds (.call receiver method args) = false := by
  rw [builds, h, Bool.false_and]

theorem handles_tunes {name : String} {l : List Stmt} (hl : Tunes name l) :
    ∀ s ∈ l, job.handles s = false := by
  intro s hs
  match s, hl s hs with
  | .call _ _ args, ⟨_, _, hargs⟩ =>
    refine handles_args fun x hx => ?_
    obtain ⟨text, htext⟩ := hargs _ hx
    cases htext
  | .ifNotDefined _, _ | .endIf, _ => rfl

end Statements

/-- The objects that are passed to a method. -/
def passed (job : Job) (args : List Expr) : List String :=
  (args.filterMap Expr.reference?).filter job.isObject

/-- Whether a statement links two objects after all have been created. -/
def Links (job : Job) (s : Stmt) : Prop :=
  ∃ receiver method e, s = .call receiver method [e] ∧ method ∈ ["addAction", "setBuddy"] ∧
    job.isLayout receiver = false

/-! ## Builders -/

/-- What is to be seen of the statements that handle objects; of others there is nothing. -/
structure View (job : Job) (α : Type) where
  look : Stmt → Option α
  idle : ∀ s, job.handles s = false → look s = none
  /-- Only of layouts it may show what else they are given besides objects. -/
  blur : ∀ receiver method args args', job.isLayout receiver = false →
    job.passed args = job.passed args' →
    look (.call receiver method args) = look (.call receiver method args')

/-- Of what a builder keeps for later nothing is seen but that it links objects, and its table has
the objects of the job. -/
structure View.Sound {job : Job} {α : Type} (view : job.View α) (b : Builder) : Prop where
  distinct : b.session.table.Distinct
  entries : b.session.table.entries = job.table.entries
  shared : ∀ x ∈ b.shared, job.isObject x = false
  widgets : ∀ x ∈ b.widgets, job.isLayout x = false
  delayed : ∀ s ∈ b.delayed, view.look s = none
  actions : ∀ s ∈ b.delayedActions, view.look s = none ∨ job.Links s

/-- A piece of the setup that for a view adds some statements to the code. -/
structure View.Adds {job : Job} {α : Type} (view : job.View α) (l : List Stmt) (b b' : Builder) :
    Prop where
  sound : view.Sound b'
  seen : b'.setup.filterMap view.look = (b.setup ++ l).filterMap view.look

variable {job : Job} {α : Type} {view : job.View α} {l l' : List Stmt} {b b' b'' : Builder}

namespace View.Adds

theorem refl (hb : view.Sound b) : view.Adds [] b b := ⟨hb, by rw [List.append_nil]⟩

theorem trans (h : view.Adds l b b') (h' : view.Adds l' b' b'') : view.Adds (l ++ l') b b'' := by
  refine ⟨h'.sound, ?_⟩
  rw [h'.seen, List.filterMap_append, h.seen, ← List.filterMap_append, List.append_assoc]

theorem congr (h : view.Adds l b b') (hl : l.filterMap view.look = l'.filterMap view.look) :
    view.Adds l' b b' :=
  ⟨h.sound, by rw [h.seen, List.filterMap_append, hl, ← List.filterMap_append]⟩

theorem andThen (h : view.Adds [] b b') (h' : view.Adds l b' b'') : view.Adds l b b'' := h.trans h'

theorem followed (h : view.Adds l b b') (h' : view.Adds [] b' b'') : view.Adds l b b'' := by
  have hboth := h.trans h'
  rwa [List.append_nil] at hboth

theorem ite {β : Type} (c : Prop) [Decidable c] {r r' : β × Builder}
    (h : c → view.Adds l b r.2) (h' : ¬ c → view.Adds l b r'.2) :
    view.Adds l b (if c then r else r').2 := by
  split
  · exact h ‹_›
  · exact h' ‹_›

theorem when (c : Prop) [Decidable c] (h : c → view.Adds l b b') (h' : ¬ c → view.Adds l b b'') :
    view.Adds l b (if c then b' else b'') := by
  split
  · exact h ‹_›
  · exact h' ‹_›

end View.Adds

/-! ## Changes that write no code -/

theorem adds_aside (hb : view.Sound b) (hsetup : b'.setup = b.setup)
    (htable : b'.session.table = b.session.table)
    (hshared : ∀ x ∈ b'.shared, x ∈ b.shared ∨ job.isObject x = false)
    (hwidgets : ∀ x ∈ b'.widgets, x ∈ b.widgets ∨ job.isLayout x = false)
    (hdelayed : ∀ s ∈ b'.delayed, s ∈ b.delayed ∨ view.look s = none)
    (hactions : ∀ s ∈ b'.delayedActions,
      s ∈ b.delayedActions ∨ view.look s = none ∨ job.Links s) : view.Adds [] b b' := by
  refine ⟨⟨htable ▸ hb.distinct, htable ▸ hb.entries, fun x hx => ?_, fun x hx => ?_,
    fun s hs => ?_, fun s hs => ?_⟩, by rw [hsetup, List.append_nil]⟩
  · exact (hshared x hx).elim (hb.shared x) id
  · exact (hwidgets x hx).elim (hb.widgets x) id
  · exact (hdelayed s hs).elim (hb.delayed s) id
  · exact (hactions s hs).elim (hb.actions s) id

theorem adds_nothing (hb : view.Sound b) (hsetup : b'.setup = b.setup)
    (htable : b'.session.table = b.session.table) (hshared : b'.shared = b.shared)
    (hwidgets : b'.widgets = b.widgets) (hdelayed : b'.delayed = b.delayed)
    (hactions : b'.delayedActions = b.delayedActions) : view.Adds [] b b' :=
  adds_aside hb hsetup htable (fun _ hx => .inl (hshared ▸ hx)) (fun _ hx => .inl (hwidgets ▸ hx))
    (fun _ hs => .inl (hdelayed ▸ hs)) fun _ hs => .inl (hactions ▸ hs)

theorem adds_note (hb : view.Sound b) (topic : Topic) : view.Adds [] b (note job.plan topic b).2 :=
  adds_nothing hb rfl rfl rfl rfl rfl rfl

theorem adds_emitRetranslate (hb : view.Sound b) (l : List Stmt) :
    view.Adds [] b (emitRetranslate l b).2 :=
  adds_nothing hb rfl rfl rfl rfl rfl rfl

theorem adds_delay (hb : view.Sound b) {s : Stmt} (hs : job.handles s = false) :
    view.Adds [] b (delay s b).2 := by
  refine adds_aside hb rfl rfl (fun _ => .inl) (fun _ => .inl) (fun s' hs' => ?_) fun _ => .inl
  rcases List.mem_append.mp hs' with hs' | hs'
  · exact .inl hs'
  · exact .inr (view.idle s' (List.mem_singleton.mp hs' ▸ hs))

theorem adds_delayAction (hb : view.Sound b) {s : Stmt}
    (hs : view.look s = none ∨ job.Links s) :
    view.Adds [] b (delayAction s b).2 := by
  refine adds_aside hb rfl rfl (fun _ => .inl) (fun _ => .inl) (fun _ => .inl) fun s' hs' => ?_
  rcases List.mem_append.mp hs' with hs' | hs'
  · exact .inl hs'
  · exact .inr (List.mem_singleton.mp hs' ▸ hs)

theorem adds_freshName (hb : view.Sound b) (base : String) :
    view.Adds [] b (freshName base b).2 ∧ job.isObject (freshName base b).1 = false := by
  have hfresh := Table.unique_fresh b.session.table base ""
  refine ⟨⟨{ hb with distinct := (Table.unique_later hb.distinct base "").distinct },
    by rw [List.append_nil]; rfl⟩, isObject_false.mpr fun e he hname => ?_⟩
  rw [← hb.entries] at he
  refine hfresh ?_
  change (freshName base b).1 ∈ _
  rw [← hname]
  exact hb.distinct.taken _ (List.mem_append_left _ (List.mem_map_of_mem he))

/-! ## Statements -/

theorem adds_emitAll (hb : view.Sound b) (l : List Stmt) : view.Adds l b (emitAll l b).2 :=
  ⟨{ hb with }, rfl⟩

theorem adds_idle (hb : view.Sound b) (h : ∀ s ∈ l, job.handles s = false) :
    view.Adds [] b (emitAll l b).2 :=
  (adds_emitAll hb l).congr (List.filterMap_eq_nil_iff.mpr fun s hs => view.idle s (h s hs))

theorem adds_emit (hb : view.Sound b) {s : Stmt} (hs : job.handles s = false) :
    view.Adds [] b (emit s b).2 :=
  adds_idle hb (by simpa using hs)

theorem adds_emitIn (hb : view.Sound b) (sect : Section)
    (h : ∀ s ∈ l, job.handles s = false) : view.Adds [] b (emitIn sect l b).2 := by
  cases sect with
  | setup => exact adds_idle hb h
  | retranslate => exact adds_emitRetranslate hb l

theorem adds_forM {β : Type} (l : List β) (m : β → Build Unit)
    (h : ∀ a ∈ l, ∀ b, view.Sound b → view.Adds [] b (m a b).2) (hb : view.Sound b) :
    view.Adds [] b (l.forM m b).2 := by
  induction l generalizing b with
  | nil => exact .refl hb
  | cons a l ih =>
    have s1 := h a (List.mem_cons_self ..) b hb
    exact s1.andThen (ih (fun a' ha' => h a' (List.mem_cons_of_mem a ha')) s1.sound)

/-! ## Details -/

/-- No variable of a value is that of an object. -/
def otherVariables (job : Job) : Variables :=
  ⟨fun x => job.isObject x = false, fun x => job.isObject x = false, fun _ hx => hx⟩

theorem handles_minor {plan : Plan} {sect : Section} {s : Stmt}
    (hs : Minor plan job.otherVariables sect s) : job.handles s = false := by
  cases s with
  | create | createLocal => cases hs.routine
  | call receiver method args => exact handles_args hs.args
  | _ => rfl

theorem adds_detail {β : Type} {m : Build β} {Q : β → Prop}
    (h : Detail job.plan job.otherVariables m Q) (hb : view.Sound b) :
    view.Adds [] b (m b).2 ∧ Q (m b).1 := by
  induction h generalizing b with
  | pure h => exact ⟨.refl hb, h⟩
  | bind hm hk ihm ihk =>
    obtain ⟨s1, ha⟩ := ihm hb
    obtain ⟨s2, hr⟩ := ihk _ ha s1.sound
    exact ⟨s1.andThen s2, hr⟩
  | look hk hsame ih => exact ih b hb.shared hb
  | freshName base => exact adds_freshName hb base
  | note topic => exact ⟨adds_note hb topic, trivial⟩
  | emitIn sect h => exact ⟨adds_emitIn hb sect fun s hs => handles_minor (h s hs), trivial⟩
  | delay h => exact ⟨adds_delay hb (handles_minor h), trivial⟩
  | @remember f h hblind =>
    obtain ⟨hsession, hsetup, -, hdelayed, hactions⟩ :
        (f b).session = b.session ∧ (f b).setup = b.setup ∧ (f b).retranslate = b.retranslate ∧
          (f b).delayed = b.delayed ∧ (f b).delayedActions = b.delayedActions := by
      simpa [Builder.code] using (h b).code
    refine ⟨adds_aside hb hsetup (congrArg _ hsession) (h b).shared (fun x hx => .inl ?_)
      (fun s hs => .inl ?_) fun s hs => .inl ?_, trivial⟩
    · exact (h b).widgets ▸ hx
    · exact hdelayed ▸ hs
    · exact hactions ▸ hs

theorem adds_writeProperties (hb : view.Sound b) (target : Target) (ps : List Property) :
    view.Adds [] b (writeProperties job.plan target ps b).2 :=
  (adds_detail (detail_writeProperties target ps) hb).1

end Job

end Setup

end FormCompiler
