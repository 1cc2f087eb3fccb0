import FormCompiler.Proofs.Header.Members

/-!
# Actions on a symbol table in use

Two properties of everything that hands out names while a form is compiled.  `Quiet`: it gives no
image an enumerator and records no problem.  `Blind`: what it gives, and what becomes of the table,
does not depend on the notices that were given before.
-/

namespace FormCompiler.Naming

open Document

/-- Asking for the name of a visit is asking for that of an object or of a group, or nothing at
all. -/
theorem nameOfVisit_cases (document : Nat) (v : Visit) :
    (∃ p o, Session.nameOfVisit? document v = some <$> Session.nameOf p o) ∨
      (∃ n, Session.nameOfVisit? document v = some <$> Session.nameOfGroup n) ∨
      ∃ a, Session.nameOfVisit? document v = pure a := by
  unfold Session.nameOfVisit?
  cases v.node.kind
  case layoutItem =>
    dsimp only
    split
    · split
      · exact .inl ⟨_, _, rfl⟩
      · exact .inr (.inr ⟨_, rfl⟩)
    · exact .inr (.inr ⟨_, rfl⟩)
  case buttonGroup => exact .inr (.inl ⟨_, rfl⟩)
  all_goals
    dsimp only
    split
    · exact .inl ⟨_, _, rfl⟩
    · exact .inr (.inr ⟨_, rfl⟩)

/-! ## Images and problems -/

/-- What a table holds beside names. -/
def Table.record (t : Table) : List String × List String := (t.pixmaps, t.problems)

/-- An action on a symbol table that leaves alone the images which have an enumerator, and the
problems. -/
def Quiet {α : Type} (m : StateM Session α) : Prop :=
  ∀ s, (m s).2.table.record = s.table.record

namespace Quiet

variable {α β : Type} {m : StateM Session α}

theorem pixmaps (h : Quiet m) (s : Session) : (m s).2.table.pixmaps = s.table.pixmaps :=
  congrArg Prod.fst (h s)

theorem problems (h : Quiet m) (s : Session) : (m s).2.table.problems = s.table.problems :=
  congrArg Prod.snd (h s)

theorem pure (a : α) : Quiet (pure a) := fun _ => rfl

theorem bind {k : α → StateM Session β} (hm : Quiet m) (hk : ∀ a, Quiet (k a)) :
    Quiet (m >>= k) :=
  fun s => (hk _ _).trans (hm s)

theorem map (f : α → β) (hm : Quiet m) : Quiet (f <$> m) := hm

theorem note (n : Notice) : Quiet (Session.note n) := fun _ => rfl

theorem unique (wanted className : String) : Quiet (Session.unique wanted className) :=
  fun _ => rfl

theorem nameOf (p : Place) (o : Object) : Quiet (Session.nameOf p o) := by
  intro s
  change (s.table.nameOf p o).2.1.record = _
  unfold Table.nameOf
  split <;> rfl

theorem nameOfGroup (n : Node) : Quiet (Session.nameOfGroup n) := by
  intro s
  change (s.table.nameOfGroup n).2.1.record = _
  unfold Table.nameOfGroup
  dsimp only
  split <;> rfl

theorem nameOfVisit (document : Nat) (v : Visit) :
    Quiet (Session.nameOfVisit? document v) := by
  obtain ⟨p, o, h⟩ | ⟨n, h⟩ | ⟨a, h⟩ := nameOfVisit_cases document v
  · rw [h]
    exact .map _ (.nameOf p o)
  · rw [h]
    exact .map _ (.nameOfGroup n)
  · rw [h]
    exact .pure a

theorem filterMapM (l : List α) {m : α → StateM Session (Option β)}
    (h : ∀ a, Quiet (m a)) : Quiet (l.filterMapM m) := by
  induction l with
  | nil => exact .pure _
  | cons a l ih =>
    intro s
    rw [Header.filterMapM_run]
    exact (ih _).trans (h a s)

theorem mapM (l : List α) {m : α → StateM Session β} (h : ∀ a, Quiet (m a)) :
    Quiet (l.mapM m) := by
  induction l with
  | nil => exact .pure _
  | cons a l ih =>
    rw [List.mapM_cons]
    exact .bind (h a) fun _ => .bind ih fun _ => .pure _

theorem forM (l : List α) {m : α → StateM Session Unit} (h : ∀ a, Quiet (m a)) :
    Quiet (l.forM m) := by
  induction l with
  | nil => exact .pure _
  | cons a l ih => exact .bind (h a) fun _ => ih

end Quiet

/-! ## Notices -/

/-- An action on a symbol table to which the notices given before make no difference. -/
def Blind {α : Type} (m : StateM Session α) : Prop :=
  ∀ s s' : Session, s.table = s'.table → (m s).1 = (m s').1 ∧ (m s).2.table = (m s').2.table

namespace Blind

variable {α β : Type} {m : StateM Session α}

theorem pure (a : α) : Blind (pure a) := fun _ _ h => ⟨rfl, h⟩

theorem bind {k : α → StateM Session β} (hm : Blind m) (hk : ∀ a, Blind (k a)) :
    Blind (m >>= k) := by
  intro s s' h
  obtain ⟨hanswer, htable⟩ := hm s s' h
  have hrun : ∀ s, (m >>= k) s = k (m s).1 (m s).2 := fun _ => rfl
  rw [hrun, hrun, ← hanswer]
  exact hk (m s).1 (m s).2 (m s').2 htable

theorem map (f : α → β) (hm : Blind m) : Blind (f <$> m) :=
  fun s s' h => (hm s s' h).imp_left (congrArg f)

theorem note (n : Notice) : Blind (Session.note n) := fun _ _ h => ⟨rfl, h⟩

theorem take (f : Table → String × Table × List Notice) : Blind (Session.take f) := by
  intro s s' h
  simp only [Session.take, h, and_self]

theorem nameOfVisit (document : Nat) (v : Visit) : Blind (Session.nameOfVisit? document v) := by
  obtain ⟨p, o, h⟩ | ⟨n, h⟩ | ⟨a, h⟩ := nameOfVisit_cases document v
  · rw [h]
    exact .map _ (.take _)
  · rw [h]
    exact .map _ (.take _)
  · rw [h]
    exact .pure a

theorem filterMapM (l : List α) {m : α → StateM Session (Option β)} (h : ∀ a, Blind (m a)) :
    Blind (l.filterMapM m) := by
  induction l with
  | nil => exact .pure _
  | cons a l ih =>
    intro s s' hs
    obtain ⟨hfirst, htable⟩ := h a s s' hs
    obtain ⟨hrest, hlast⟩ := ih _ _ htable
    rw [Header.filterMapM_run, Header.filterMapM_run, hfirst, hrest]
    exact ⟨rfl, hlast⟩

theorem mapM (l : List α) {m : α → StateM Session β} (h : ∀ a, Blind (m a)) :
    Blind (l.mapM m) := by
  induction l with
  | nil => exact .pure _
  | cons a l ih =>
    rw [List.mapM_cons]
    exact .bind (h a) fun _ => .bind ih fun _ => .pure _

theorem forM (l : List α) {m : α → StateM Session Unit} (h : ∀ a, Blind (m a)) :
    Blind (l.forM m) := by
  induction l with
  | nil => exact .pure _
  | cons a l ih => exact .bind (h a) fun _ => ih

end Blind

end FormCompiler.Naming
