import FormCompiler.Proofs.Code.Mentions
import FormCompiler.Proofs.Naming.Sessions
import FormCompiler.Proofs.Setup.Building

/-!
# Pieces of the setup

`Piece plan marks m Q` says how a part `m` of the setup is put together: which steps it takes, that
each statement goes to a function that may hold it, and that its answer has the property `Q`.
Whatever holds of the steps then holds of the part, by induction over the way it is put together.
Five facts are proved so: the code mentions only what the plan allows where it stands
(`Piece.admitted`), the code of the setup function only grows (`Piece.grows`), no image is declared
and no problem recorded (`Piece.record`), the notices given before make no difference
(`Piece.blind`), and only some pieces say anew where the next layout stands (`Piece.steady`).
-/

namespace FormCompiler.Setup

open Code Document Naming

/-! ## What a plan lets the code mention -/

/-- The images that have a text as their name, as the code refers to them. -/
def Plan.embedded (plan : Plan) (text : String) : List ImageRef :=
  ((plan.images.reverse.lookup text).map fun extension =>
    if plan.options.extractImages then .resource (text ++ "." ++ extension)
    else .stored text).toList

/-- A reference that a plan leads to. -/
def Plan.Embeds (plan : Plan) (r : ImageRef) : Prop :=
  ∃ text : String, text ≠ "" ∧ r ∈ plan.embedded text

/-- An image of the plan may be mentioned anywhere, a translation only where texts are set again
after a change of the language. -/
def Plan.Allows (plan : Plan) (sect : Section) : Mention → Prop
  | .image r => plan.Embeds r
  | .translation => sect = .retranslate

def Plan.Admits (plan : Plan) (sect : Section) (ms : List Mention) : Prop :=
  ∀ m ∈ ms, plan.Allows sect m

variable {plan : Plan} {marks : Bool} {sect : Section} {ms ms' : List Mention}

@[simp] theorem Plan.admits_nil : plan.Admits sect [] := fun _ hm => by cases hm

@[simp] theorem Plan.admits_append :
    plan.Admits sect (ms ++ ms') ↔ plan.Admits sect ms ∧ plan.Admits sect ms' :=
  List.forall_mem_append

theorem Plan.admits_mentionsOf {l : List Stmt} :
    plan.Admits sect (mentionsOf l) ↔ ∀ s ∈ l, plan.Admits sect s.mentions :=
  List.forall_mem_flatMap

theorem Plan.Admits.followed {l l' : List Stmt} (h : plan.Admits sect (mentionsOf l))
    (h' : plan.Admits sect (mentionsOf l')) : plan.Admits sect (mentionsOf (l ++ l')) := by
  rw [mentionsOf_append, Plan.admits_append]
  exact ⟨h, h'⟩

/-- A builder whose code mentions only what the plan allows where it stands. -/
structure Admitted (plan : Plan) (b : Builder) : Prop where
  setup : plan.Admits .setup (mentionsOf b.setup)
  retranslate : plan.Admits .retranslate (mentionsOf b.retranslate)
  delayed : plan.Admits .setup (mentionsOf b.delayed)
  actions : plan.Admits .setup (mentionsOf b.delayedActions)

/-! ## Steps -/

/-- A builder with other notices. -/
def Builder.noting (b : Builder) (notices : List Notice) : Builder :=
  { b with session := { b.session with notices } }

/-- All of a builder that is not only remembered: the code and the session. -/
def Builder.code (b : Builder) : Session × List Stmt × List Stmt × List Stmt × List Stmt :=
  (b.session, b.setup, b.retranslate, b.delayed, b.delayedActions)

/-- The property that every answer has. -/
def Anything {α : Type} (_ : α) : Prop := True

/-- A part of the setup, and a property of its answer.  Only a piece that marks says anew where the
next layout stands. -/
inductive Piece (plan : Plan) (marks : Bool) : {α : Type} → Build α → (α → Prop) → Prop where
  | pure {α : Type} {a : α} {Q : α → Prop} (h : Q a) : Piece plan marks (pure a) Q
  | bind {α β : Type} {m : Build α} {k : α → Build β} {Q : α → Prop} {R : β → Prop}
      (hm : Piece plan marks m Q) (hk : ∀ a, Q a → Piece plan marks (k a) R) :
      Piece plan marks (m >>= k) R
  /-- A look at the state; the notices are nothing to look at. -/
  | look {α : Type} {k : Builder → Build α} {R : α → Prop}
      (hk : ∀ b, Admitted plan b → Piece plan marks (k b) R)
      (hsame : ∀ b notices, k (b.noting notices) = k b) : Piece plan marks (get >>= k) R
  | register {α : Type} {m : StateM Session α} (hquiet : Quiet m) (hblind : Blind m) :
      Piece plan marks (withSession m) Anything
  | emitIn {l : List Stmt} (sect : Section) (h : plan.Admits sect (mentionsOf l)) :
      Piece plan marks (emitIn sect l) Anything
  | delay {s : Stmt} (h : plan.Admits .setup s.mentions) : Piece plan marks (delay s) Anything
  | delayAction {s : Stmt} (h : plan.Admits .setup s.mentions) :
      Piece plan marks (delayAction s) Anything
  /-- A change of what is remembered, which does not depend on the notices. -/
  | remember {f : Builder → Builder} (hcode : ∀ b, (f b).code = b.code)
      (hblind : ∀ b notices, f (b.noting notices) = (f b).noting notices)
      (hplace : ∀ b, marks = true ∨ (f b).marginType = b.marginType) :
      Piece plan marks (modify f) Anything

namespace Piece

variable {α β : Type} {m : Build α} {k : α → Build β} {Q : α → Prop} {R : β → Prop}
  {l : List Stmt} {b : Builder}

/-! ## What holds of every piece -/

/-- Code is added where it is allowed, and what a piece answers is what it says. -/
theorem admitted (h : Piece plan marks m Q) (hb : Admitted plan b) :
    Admitted plan (m b).2 ∧ Q (m b).1 := by
  induction h generalizing b with
  | pure h => exact ⟨hb, h⟩
  | bind hm hk ihm ihk =>
    obtain ⟨hb', ha⟩ := ihm hb
    exact ihk _ ha hb'
  | look hk hsame ih => exact ih b hb hb
  | register hquiet hblind => exact ⟨⟨hb.setup, hb.retranslate, hb.delayed, hb.actions⟩, trivial⟩
  | emitIn sect h =>
    refine ⟨?_, trivial⟩
    cases sect with
    | setup => exact ⟨hb.setup.followed h, hb.retranslate, hb.delayed, hb.actions⟩
    | retranslate => exact ⟨hb.setup, hb.retranslate.followed h, hb.delayed, hb.actions⟩
  | @delay s h =>
    have hs : plan.Admits .setup (mentionsOf [s]) := by simpa using h
    exact ⟨⟨hb.setup, hb.retranslate, hb.delayed.followed hs, hb.actions⟩, trivial⟩
  | @delayAction s h =>
    have hs : plan.Admits .setup (mentionsOf [s]) := by simpa using h
    exact ⟨⟨hb.setup, hb.retranslate, hb.delayed, hb.actions.followed hs⟩, trivial⟩
  | @remember f hcode hblind _ =>
    obtain ⟨-, hsetup, hretranslate, hdelayed, hactions⟩ :
        (f b).session = b.session ∧ (f b).setup = b.setup ∧ (f b).retranslate = b.retranslate ∧
          (f b).delayed = b.delayed ∧ (f b).delayedActions = b.delayedActions := by
      simpa [Builder.code] using hcode b
    refine ⟨⟨?_, ?_, ?_, ?_⟩, trivial⟩
    · exact hsetup.symm ▸ hb.setup
    · exact hretranslate.symm ▸ hb.retranslate
    · exact hdelayed.symm ▸ hb.delayed
    · exact hactions.symm ▸ hb.actions

theorem grows (h : Piece plan marks m Q) (hb : Admitted plan b) : b.setup <+: (m b).2.setup := by
  induction h generalizing b with
  | pure h => exact List.prefix_rfl
  | bind hm hk ihm ihk =>
    obtain ⟨hb', ha⟩ := hm.admitted hb
    exact (ihm hb).trans (ihk _ ha hb')
  | look hk hsame ih => exact ih b hb hb
  | register hquiet hblind => exact List.prefix_rfl
  | emitIn sect h =>
    cases sect with
    | setup => exact List.prefix_append _ _
    | retranslate => exact List.prefix_rfl
  | delay h => exact List.prefix_rfl
  | delayAction h => exact List.prefix_rfl
  | @remember f hcode hblind _ =>
    have hsetup : (f b).setup = b.setup := congrArg (·.2.1) (hcode b)
    exact hsetup.symm ▸ List.prefix_rfl

theorem record (h : Piece plan marks m Q) (hb : Admitted plan b) :
    (m b).2.session.table.record = b.session.table.record := by
  induction h generalizing b with
  | pure h => rfl
  | bind hm hk ihm ihk =>
    obtain ⟨hb', ha⟩ := hm.admitted hb
    exact (ihk _ ha hb').trans (ihm hb)
  | look hk hsame ih => exact ih b hb hb
  | register hquiet hblind => exact hquiet b.session
  | emitIn sect h => cases sect <;> rfl
  | delay h => rfl
  | delayAction h => rfl
  | remember hcode hblind _ => exact congrArg (·.1.table.record) (hcode b)

/-- Where the next layout stands is left as it is by a piece that does not mark it. -/
theorem steady (h : Piece plan false m Q) (hb : Admitted plan b) :
    (m b).2.marginType = b.marginType := by
  induction h generalizing b with
  | pure h => rfl
  | bind hm hk ihm ihk =>
    obtain ⟨hb', ha⟩ := hm.admitted hb
    exact (ihk _ ha hb').trans (ihm hb)
  | look hk hsame ih => exact ih b hb hb
  | register hquiet hblind => rfl
  | emitIn sect h => cases sect <;> rfl
  | delay h => rfl
  | delayAction h => rfl
  | remember hcode hblind hplace => exact (hplace b).resolve_left Bool.false_ne_true

/-- Run with other notices, a piece answers the same and leaves the same but for the notices. -/
theorem blind (h : Piece plan marks m Q) (hb : Admitted plan b) (notices : List Notice) :
    ∃ notices', m (b.noting notices) = ((m b).1, (m b).2.noting notices') := by
  induction h generalizing b notices with
  | pure h => exact ⟨notices, rfl⟩
  | @bind α β m k Q R hm hk ihm ihk =>
    obtain ⟨hb', ha⟩ := hm.admitted hb
    obtain ⟨between, hfirst⟩ := ihm hb notices
    obtain ⟨after, hrest⟩ := ihk _ ha hb' between
    exact ⟨after, by rw [bind_run, hfirst, hrest, bind_run]⟩
  | @look α k R hk hsame ih =>
    obtain ⟨after, hrest⟩ := ih b hb hb notices
    exact ⟨after, by rw [bind_run, get_run, hsame, hrest, bind_run, get_run]⟩
  | @register α m hquiet hblind =>
    obtain ⟨hanswer, htable⟩ := hblind ⟨b.session.table, notices⟩ b.session rfl
    let notices' := (m ⟨b.session.table, notices⟩).2.notices
    exact ⟨notices', Prod.ext hanswer
      (congrArg (fun table => { b with session := ⟨table, notices'⟩ }) htable)⟩
  | emitIn sect h => exact ⟨notices, by cases sect <;> rfl⟩
  | delay h => exact ⟨notices, rfl⟩
  | delayAction h => exact ⟨notices, rfl⟩
  | remember hcode hblind _ => exact ⟨notices, by rw [modify_run, hblind, modify_run]⟩

/-! ## Ways to put pieces together -/

theorem map (hm : Piece plan marks m Q) {f : α → β} (h : ∀ a, Q a → R (f a)) :
    Piece plan marks (f <$> m) R :=
  .bind hm fun a ha => .pure (h a ha)

theorem weaken (hm : Piece plan marks m Q) {R : α → Prop} (h : ∀ a, Q a → R a) :
    Piece plan marks m R := by
  have hmap := hm.map (f := id) h
  rwa [id_map] at hmap

theorem ite (c : Prop) [Decidable c] {m' : Build α} (hm : Piece plan marks m Q)
    (hm' : Piece plan marks m' Q) : Piece plan marks (if c then m else m') Q := by
  split
  · exact hm
  · exact hm'

theorem when (c : Prop) [Decidable c] {m : Build Unit} {k : Build β}
    (hm : Piece plan marks m Anything) (hk : Piece plan marks k R) :
    Piece plan marks (if c then m >>= fun _ => k else k) R :=
  .ite c (hm.bind fun _ _ => hk) hk

theorem table : Piece plan marks table Anything := .look (fun _ _ => .pure trivial) fun _ _ => rfl

theorem forM (l : List α) {m : α → Build Unit} (h : ∀ a ∈ l, Piece plan marks (m a) Anything) :
    Piece plan marks (l.forM m) Anything := by
  induction l with
  | nil => exact .pure trivial
  | cons a l ih =>
    exact (h a (List.mem_cons_self ..)).bind fun _ _ =>
      ih fun a' ha' => h a' (List.mem_cons_of_mem a ha')

theorem foldlM (l : List α) {m : β → α → Build β} (h : ∀ r a, Piece plan marks (m r a) Anything)
    (r : β) : Piece plan marks (l.foldlM m r) Anything := by
  induction l generalizing r with
  | nil => exact .pure trivial
  | cons a l ih => exact (h r a).bind fun r' _ => ih r'

theorem filterMapM (l : List α) {m : α → Build (Option β)}
    (h : ∀ a, Piece plan marks (m a) fun o => ∀ r ∈ o, R r) :
    Piece plan marks (l.filterMapM m) fun rs => ∀ r ∈ rs, R r := by
  induction l with
  | nil => exact .pure fun _ hr => by cases hr
  | cons a l ih =>
    rw [List.filterMapM_cons]
    refine (h a).bind fun o ho => ?_
    cases o with
    | none => exact ih
    | some r =>
      exact ih.bind fun rs hrs => .pure (List.forall_mem_cons.mpr ⟨ho r rfl, hrs⟩)

/-! ## Statements and variables -/

theorem emitAll (h : plan.Admits .setup (mentionsOf l)) : Piece plan marks (emitAll l) Anything :=
  .emitIn .setup h

theorem emit {s : Stmt} (h : plan.Admits .setup s.mentions) : Piece plan marks (emit s) Anything :=
  .emitIn .setup (l := [s]) (by simpa using h)

theorem emitRetranslate (h : plan.Admits .retranslate (mentionsOf l)) :
    Piece plan marks (emitRetranslate l) Anything :=
  .emitIn .retranslate h

theorem freshName (base : String) : Piece plan marks (freshName base) Anything :=
  .register (.unique base "") (.take _)

theorem note (topic : Topic) : Piece plan marks (note plan topic) Anything :=
  .register (.note _) (.note _)

end Piece

end FormCompiler.Setup
