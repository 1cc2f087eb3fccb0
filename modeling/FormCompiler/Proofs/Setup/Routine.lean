import FormCompiler.Proofs.Naming.Table
import FormCompiler.Proofs.Setup.Building

/-!
# Routine statements

Most of the code that sets up a form is routine: it declares values, sets properties, and puts
objects where they belong.  It creates no object, fills no combo box, adds no button to a group and
makes no connection (`Stmt.isRoutine`).  `Appends P` relates the builders before and after a piece
of the setup that writes only statements with the property `P` and has nothing to do with button
groups; a part of the setup is `Routine` if it always does so with routine statements.  Statements
that set something of an object by constants (`Tunes`) are routine.
-/

namespace FormCompiler

/-- Whether arguments are a number and something else, as for the text of an item; that of a page is
set for the number of a widget. -/
def Code.isNumbered : List Code.Expr → Bool
  | [.code _, _] => true
  | _ => false

/-- Whether a call is one of those that fill combo boxes or add buttons to groups. -/
def Code.isFilling (method : String) (args : List Code.Expr) : Bool :=
  ["addItem", "addButton", "clear"].contains method ||
    method == "setItemText" && Code.isNumbered args

/-- Whether a statement is none of those that create objects, fill combo boxes, add buttons to
groups or make connections. -/
def Code.Stmt.isRoutine : Code.Stmt → Bool
  | .create .. | .createLocal .. | .insertItems .. => false
  | .run function _ => function != "QObject::connect"
  | .call _ method args => !Code.isFilling method args
  | _ => true

/-- Whether a statement sets something of an object by constants, or is part of a condition around
such statements. -/
def Code.Stmt.Tunes (name : String) : Code.Stmt → Prop
  | .call receiver method args =>
    receiver = name ∧ Code.isFilling method args = false ∧ ∀ e ∈ args, ∃ text, e = .code text
  | .ifNotDefined _ | .endIf => True
  | _ => False

namespace Setup

open Code Document Naming

/-! ## Builders -/

/-- A list goes on with members that have a property. -/
def Continues {α : Type} (P : α → Prop) (l l' : List α) : Prop :=
  ∃ more, l' = l ++ more ∧ ∀ a ∈ more, P a

namespace Continues

variable {α : Type} {P Q : α → Prop} {l l' l'' : List α}

theorem refl (l : List α) : Continues P l l := ⟨[], by simp⟩

theorem append {more : List α} (h : ∀ s ∈ more, P s) : Continues P l (l ++ more) :=
  ⟨more, rfl, h⟩

theorem trans (h : Continues P l l') (h' : Continues P l' l'') : Continues P l l'' := by
  obtain ⟨more, rfl, hmore⟩ := h
  obtain ⟨more', rfl, hmore'⟩ := h'
  exact ⟨more ++ more', by rw [List.append_assoc], List.forall_mem_append.mpr ⟨hmore, hmore'⟩⟩

theorem mono (h : Continues P l l') (hpq : ∀ a, P a → Q a) : Continues Q l l' := by
  obtain ⟨more, hl, hmore⟩ := h
  exact ⟨more, hl, fun a ha => hpq a (hmore a ha)⟩

theorem prefix_of (h : Continues P l l') : l <+: l' := by
  obtain ⟨more, rfl, -⟩ := h
  exact List.prefix_append l more

theorem filter_eq {p : α → Bool} (h : Continues P l l') (hp : ∀ a, P a → p a = false) :
    l'.filter p = l.filter p := by
  obtain ⟨more, rfl, hmore⟩ := h
  have hnone : more.filter p = [] :=
    List.filter_eq_nil_iff.mpr fun a ha => by simp [hp a (hmore a ha)]
  rw [List.filter_append, hnone, List.append_nil]

end Continues

/-- A piece of the setup that writes statements with a property, wherever they go, and leaves the
button groups as they are.  What it adds to the icons has a variable. -/
structure Appends (P : Stmt → Prop) (b b' : Builder) : Prop where
  setup : Continues P b.setup b'.setup
  retranslate : Continues P b.retranslate b'.retranslate
  delayed : Continues P b.delayed b'.delayed
  actions : Continues P b.delayedActions b'.delayedActions
  groups : b'.session.table.groups = b.session.table.groups
  buttonGroups : b'.buttonGroups = b.buttonGroups
  icons : Continues (fun i => i.2 ≠ "") b.icons b'.icons

namespace Appends

variable {P Q : Stmt → Prop} {b b' b'' : Builder}

theorem refl (b : Builder) : Appends P b b :=
  ⟨.refl _, .refl _, .refl _, .refl _, rfl, rfl, .refl _⟩

theorem trans (h : Appends P b b') (h' : Appends P b' b'') : Appends P b b'' where
  setup := h.setup.trans h'.setup
  retranslate := h.retranslate.trans h'.retranslate
  delayed := h.delayed.trans h'.delayed
  actions := h.actions.trans h'.actions
  groups := h'.groups.trans h.groups
  buttonGroups := h'.buttonGroups.trans h.buttonGroups
  icons := h.icons.trans h'.icons

theorem mono (h : Appends P b b') (hpq : ∀ s, P s → Q s) : Appends Q b b' :=
  { h with
    setup := h.setup.mono hpq
    retranslate := h.retranslate.mono hpq
    delayed := h.delayed.mono hpq
    actions := h.actions.mono hpq }

end Appends

/-- A part of the setup that writes only statements with a property. -/
def AppendsOnly {α : Type} (P : Stmt → Prop) (m : Build α) : Prop := ∀ b, Appends P b (m b).2

namespace AppendsOnly

variable {P : Stmt → Prop} {α β : Type} {m : Build α} {k : α → Build β} {l : List Stmt}

theorem mono {Q : Stmt → Prop} (h : AppendsOnly P m) (hpq : ∀ s, P s → Q s) : AppendsOnly Q m :=
  fun b => (h b).mono hpq

theorem pure (a : α) : AppendsOnly P (pure a) := fun b => .refl b

theorem get : AppendsOnly P (get : Build Builder) := fun b => .refl b

theorem bind (hm : AppendsOnly P m) (hk : ∀ a, AppendsOnly P (k a)) : AppendsOnly P (m >>= k) :=
  fun b => (hm b).trans (hk _ _)

theorem ite (c : Prop) [Decidable c] {m' : Build α} (hm : AppendsOnly P m)
    (hm' : AppendsOnly P m') : AppendsOnly P (if c then m else m') := by
  split
  · exact hm
  · exact hm'

theorem when (c : Prop) [Decidable c] {m : Build Unit} {k : Build β} (hm : AppendsOnly P m)
    (hk : AppendsOnly P k) : AppendsOnly P (if c then m >>= fun _ => k else k) :=
  .ite c (hm.bind fun _ => hk) hk

theorem forM (l : List α) {m : α → Build Unit} (h : ∀ a, AppendsOnly P (m a)) :
    AppendsOnly P (l.forM m) := by
  induction l with
  | nil => exact .pure ()
  | cons a l ih => exact (h a).bind fun _ => ih

theorem filterMapM (l : List α) {m : α → Build (Option β)} (h : ∀ a, AppendsOnly P (m a)) :
    AppendsOnly P (l.filterMapM m) := by
  induction l with
  | nil => exact .pure []
  | cons a l ih =>
    rw [List.filterMapM_cons]
    refine (h a).bind fun o => ?_
    cases o with
    | none => exact ih
    | some r => exact ih.bind fun _ => .pure _

/-! ## Steps -/

theorem withSession {m : StateM Session α} (h : ∀ s, (m s).2.table.groups = s.table.groups) :
    AppendsOnly P (withSession m) :=
  fun b => { Appends.refl b with groups := h b.session }

theorem freshName (base : String) : AppendsOnly P (freshName base) := .withSession fun _ => rfl

theorem note (plan : Plan) (topic : Topic) : AppendsOnly P (note plan topic) :=
  .withSession fun _ => rfl

theorem table : AppendsOnly P table := fun b => .refl b

theorem emitAll (h : ∀ s ∈ l, P s) : AppendsOnly P (emitAll l) :=
  fun b => { Appends.refl b with setup := .append h }

theorem emit {s : Stmt} (h : P s) : AppendsOnly P (emit s) :=
  emitAll (by simpa using h)

theorem emitRetranslate (h : ∀ s ∈ l, P s) : AppendsOnly P (emitRetranslate l) :=
  fun b => { Appends.refl b with retranslate := .append h }

theorem emitIn (sect : Section) (h : ∀ s ∈ l, P s) : AppendsOnly P (emitIn sect l) := by
  cases sect with
  | setup => exact .emitAll h
  | retranslate => exact .emitRetranslate h

theorem delay {s : Stmt} (h : P s) : AppendsOnly P (delay s) :=
  fun b => { Appends.refl b with delayed := .append (by simpa using h) }

theorem delayAction {s : Stmt} (h : P s) : AppendsOnly P (delayAction s) :=
  fun b => { Appends.refl b with actions := .append (by simpa using h) }

end AppendsOnly

/-! ## Statements -/

/-- A part of the setup that writes only routine statements. -/
abbrev Routine {α : Type} (m : Build α) : Prop := AppendsOnly (fun s => s.isRoutine = true) m

@[simp] theorem isNumbered_single (e : Expr) : isNumbered [e] = false := by cases e <;> rfl

theorem isRoutine_call (receiver : String) {method : String} {args : List Expr}
    (h : isFilling method args = false) : (Stmt.call receiver method args).isRoutine = true := by
  simp [Stmt.isRoutine, h]

theorem forall_mem_guarded {P : Stmt → Prop} {l : List Stmt} (symbol : Option String)
    (hbegin : ∀ symbol, P (.ifNotDefined symbol)) (hend : P .endIf) (h : ∀ s ∈ l, P s) :
    ∀ s ∈ guarded symbol l, P s := by
  cases symbol with
  | none => exact h
  | some symbol =>
    refine List.forall_mem_append.mpr ⟨List.forall_mem_append.mpr ⟨?_, h⟩, ?_⟩
    · simpa using hbegin symbol
    · simpa using hend

/-- Statements that set something of an object by constants. -/
def Tunes (name : String) (l : List Stmt) : Prop := ∀ s ∈ l, s.Tunes name

theorem Tunes.calls {name : String} {known : List String} {l : List Stmt} (h : Tunes name l)
    (hname : name ∈ known) : Calls known l := by
  intro s hs
  match s, h s hs with
  | .call receiver method args, ⟨hreceiver, _, hargs⟩ =>
    refine ⟨rfl, List.forall_mem_cons.mpr ⟨hreceiver ▸ hname, fun x hx => ?_⟩⟩
    obtain ⟨e, he, hx⟩ := List.mem_flatMap.mp hx
    obtain ⟨text, rfl⟩ := hargs e he
    cases hx
  | .ifNotDefined _, _ | .endIf, _ => exact ⟨rfl, fun x hx => by cases hx⟩

end Setup

end FormCompiler
