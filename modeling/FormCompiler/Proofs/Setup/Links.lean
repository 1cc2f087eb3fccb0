import FormCompiler.Proofs.Setup.Walk

/-!
# Links between objects

After the walk the setup function links what was made.  Buddies and the tab order refer to widgets
that the walk met, so their code is in order; for actions and connections it depends on whether the
objects they refer to were made.
-/

namespace FormCompiler.Setup

open Code Document Naming

namespace Job

variable {job : Job} {b : Builder} {known : List String} {isWidget : String → Bool}

/-! ## Buddies -/

/-- The statement for a label and its buddy, if both are widgets. -/
def buddyStmt? (plan : Plan) (isWidget : String → Bool) :
    String × String → Build (Option Stmt) := fun (label, buddy) => do
  match [label, buddy].find? (!isWidget ·) with
  | some invalid =>
    note plan (.invalidBuddy invalid)
    return none
  | none => return some (Stmt.call label "setBuddy" [.ref buddy])

theorem writes_buddyStmt (hb : job.Consistent b) (hknown : ∀ x, isWidget x = true → x ∈ known)
    (pair : String × String) :
    let r := buddyStmt? job.plan isWidget pair b
    job.Writes True b r.2 ∧ Calls known r.1.toList := by
  obtain ⟨label, buddy⟩ := pair
  cases hfind : [label, buddy].find? (!isWidget ·) with
  | some invalid =>
    have hrun : buddyStmt? job.plan isWidget (label, buddy) b =
        (none, (note job.plan (.invalidBuddy invalid) b).2) := by
      simp only [buddyStmt?, hfind]
      rfl
    rw [hrun]
    exact ⟨writes_note hb _, Calls.nil⟩
  | none =>
    have hrun : buddyStmt? job.plan isWidget (label, buddy) b =
        (some (.call label "setBuddy" [.ref buddy]), b) := by
      simp only [buddyStmt?, hfind]
      rfl
    rw [hrun]
    have hall := List.find?_eq_none.mp hfind
    have hlabel := hknown label (by simpa using hall label (by simp))
    have hbuddy := hknown buddy (by simpa using hall buddy (by simp))
    exact ⟨.refl hb, Calls.cons rfl (by simpa [Stmt.uses, Expr.uses] using ⟨hlabel, hbuddy⟩)
      Calls.nil⟩

theorem writes_buddyStmts (hb : job.Consistent b) (hknown : ∀ x, isWidget x = true → x ∈ known)
    (pairs : List (String × String)) :
    let r := pairs.filterMapM (buddyStmt? job.plan isWidget) b
    job.Writes True b r.2 ∧ Calls known r.1 := by
  induction pairs generalizing b with
  | nil => exact ⟨.refl hb, Calls.nil⟩
  | cons pair pairs ih =>
    obtain ⟨s1, hcall⟩ := writes_buddyStmt hb hknown pair
    obtain ⟨s2, hcalls⟩ := ih s1.consistent
    rw [Header.filterMapM_run]
    exact ⟨s1.andThen s2, Calls.append hcall hcalls⟩

theorem writeBuddies_run (plan : Plan) (b : Builder) :
    writeBuddies plan b =
      if (!b.buddies.isEmpty) = true then
        emitAll (guarded (some "QT_NO_SHORTCUT")
          (b.buddies.filterMapM (buddyStmt? plan b.widgets.contains) b).1)
          (b.buddies.filterMapM (buddyStmt? plan b.widgets.contains) b).2
      else ((), (b.buddies.filterMapM (buddyStmt? plan b.widgets.contains) b).2) := by
  simp only [writeBuddies, bind_run, ite_run, pure_run]
  rfl

theorem writes_writeBuddies (hb : job.Consistent b) :
    job.Writes True b (writeBuddies job.plan b).2 := by
  have hknown : ∀ x, b.widgets.contains x = true → x ∈ job.vars b :=
    fun x hx => hb.widget_mem (List.contains_iff_mem.mp hx)
  obtain ⟨s1, hcalls⟩ := writes_buddyStmts hb hknown b.buddies
  rw [writeBuddies_run]
  refine Writes.ite _ (fun _ => s1.andThen (writes_calls s1.consistent ?_)) fun _ => s1
  exact guarded_calls _ (hcalls.mono fun x hx => s1.mem_vars hx)

/-! ## The tab order -/

theorem tabSteps_widgets (last : String) (hlast : last.isEmpty = true ∨ isWidget last = true)
    (names : List String) :
    ∀ step ∈ tabSteps isWidget last names, isWidget step.1 = true ∧ isWidget step.2 = true := by
  induction names generalizing last with
  | nil => simp [tabSteps]
  | cons name names ih =>
    intro step hstep
    simp only [tabSteps] at hstep
    split at hstep
    · exact ih last hlast step hstep
    · rename_i hskip
      simp only [Bool.or_eq_true, not_or, Bool.not_eq_true, Bool.not_eq_false'] at hskip
      obtain ⟨⟨hname, _⟩, hne⟩ := hskip
      rcases List.mem_cons.mp hstep with rfl | hstep
      · exact ⟨hlast.resolve_left (by simp [hne]), hname⟩
      · exact ih name (.inr hname) step hstep

theorem tabOrder_widgets (names : List String) :
    ∀ step ∈ tabOrder isWidget names, isWidget step.1 = true ∧ isWidget step.2 = true := by
  cases names with
  | nil => simp [tabOrder]
  | cons first names =>
    refine tabSteps_widgets _ ?_ names
    split
    · exact .inr ‹_›
    · exact .inl rfl

theorem writes_writeTabStops (hb : job.Consistent b) (names : List String) :
    job.Writes True b (writeTabStops job.plan names b).2 := by
  have s1 := writes_forM (names.filter (!b.widgets.contains ·))
    (fun name => note job.plan (.invalidTabStop name)) (fun _ => True) job.plan.mainForm
    (fun name _ b hb _ => writes_note hb _) hb (mainForm_mem job b)
  have s1 := s1.congr (by simp : (∀ a ∈ _, True) ↔ True)
  refine s1.andThen (writes_calls s1.consistent fun s hs => ?_)
  obtain ⟨step, hstep, rfl⟩ := List.mem_map.mp hs
  obtain ⟨h1, h2⟩ := tabOrder_widgets names step hstep
  refine ⟨rfl, fun x hx => s1.mem_vars (hb.widget_mem (List.contains_iff_mem.mp ?_))⟩
  have hx : x ∈ [step.1, step.2] := hx
  rcases List.mem_cons.mp hx with rfl | hx
  · exact h1
  · rw [List.mem_singleton.mp hx]
    exact h2

/-! ## What the links refer to -/

/-- The statements that connect objects. -/
def connectionStmts (f : Form) (t : Table) : List Stmt :=
  (((f.node.child? "connections").map (·.children "connection")).getD []).filterMap
    (connectionStmt? t)

theorem mem_connectionStmts {f : Form} {t : Table} {s : Stmt} (hs : s ∈ connectionStmts f t) :
    ∃ n sender receiver, variableOf? t (Node.string n "sender") = some sender ∧
      variableOf? t (n.string "receiver") = some receiver ∧
      s = .run "QObject::connect"
        [.ref sender, .wrap "SIGNAL" (.code (n.string "signal")),
          .ref receiver, .wrap "SLOT" (.code (n.string "slot"))] := by
  obtain ⟨n, -, hn⟩ := List.mem_filterMap.mp hs
  obtain ⟨sender, hsender, hn⟩ := Option.bind_eq_some_iff.mp hn
  obtain ⟨receiver, hreceiver, hn⟩ := Option.bind_eq_some_iff.mp hn
  exact ⟨n, sender, receiver, hsender, hreceiver, (Option.some.inj hn).symm⟩

theorem connectionStmts_assign (f : Form) (t : Table) :
    ∀ s ∈ connectionStmts f t, s.assigns = [] := by
  intro s hs
  obtain ⟨n, sender, receiver, -, -, rfl⟩ := mem_connectionStmts hs
  rfl

theorem writes_uses (hb : job.Consistent b) (l : List Stmt) (hl : ∀ s ∈ l, s.assigns = []) :
    job.Writes (∀ s ∈ l, ∀ x ∈ s.uses, x ∈ job.vars b) b (emitAll l b).2 := by
  refine (writes_emitAll hb l fun x hx => ?_).congr (DefinitelyAssigned.iff_known hl)
  rw [assigned_of_none hl] at hx
  cases hx

/-- The end of the setup function, after the tab order. -/
def closing (plan : Plan) (f : Form) (b : Builder) : List Stmt :=
  (if !b.delayedActions.isEmpty then .blank :: b.delayedActions else []) ++
    [.blank, .run "retranslateUi" [.ref plan.mainForm]] ++
    connectionStmts f b.session.table ++
    (if !b.delayed.isEmpty then [.blank] ++ b.delayed ++ [.blank] else []) ++
    if plan.options.autoConnection then
      [.blank, .run "QMetaObject::connectSlotsByName" [.ref plan.mainForm]]
    else []

theorem forall_closing (P : Stmt → Prop) (plan : Plan) (f : Form) (b : Builder)
    (hblank : P .blank) (hform : ∀ function, P (.run function [.ref plan.mainForm])) :
    (∀ s ∈ closing plan f b, P s) ↔ (∀ s ∈ b.delayedActions, P s) ∧
      (∀ s ∈ connectionStmts f b.session.table, P s) ∧ ∀ s ∈ b.delayed, P s := by
  have hactions : (∀ s ∈ (if !b.delayedActions.isEmpty then .blank :: b.delayedActions else []),
      P s) ↔ ∀ s ∈ b.delayedActions, P s := by
    cases b.delayedActions <;> simp [hblank]
  have hdelayed : (∀ s ∈ (if !b.delayed.isEmpty then [.blank] ++ b.delayed ++ [.blank] else []),
      P s) ↔ ∀ s ∈ b.delayed, P s := by
    cases b.delayed with
    | nil => simp
    | cons s l =>
      simp only [List.isEmpty_cons, Bool.not_false, if_true, List.forall_mem_append,
        List.forall_mem_singleton, hblank, true_and, and_true]
  have hslots : ∀ s ∈ (if plan.options.autoConnection then
      [.blank, .run "QMetaObject::connectSlotsByName" [.ref plan.mainForm]] else []), P s := by
    split <;> simp [hblank, hform]
  have hretranslate : ∀ s ∈ [Stmt.blank, .run "retranslateUi" [.ref plan.mainForm]], P s := by
    simp [hblank, hform]
  unfold closing
  rw [List.forall_mem_append, List.forall_mem_append, List.forall_mem_append,
    List.forall_mem_append, hactions, hdelayed]
  exact ⟨fun ⟨⟨⟨⟨h1, _⟩, h2⟩, h3⟩, _⟩ => ⟨h1, h2, h3⟩,
    fun ⟨h1, h2, h3⟩ => ⟨⟨⟨⟨h1, hretranslate⟩, h2⟩, h3⟩, hslots⟩⟩

theorem emitAll_emitAll (l l' : List Stmt) (b : Builder) :
    (emitAll l' (emitAll l b).2).2 = (emitAll (l ++ l') b).2 := by
  simp [emitAll, modify_run]

theorem emitAll_when (c : Prop) [Decidable c] (l : List Stmt) (b : Builder) :
    (if c then (emitAll l b).2 else b) = (emitAll (if c then l else []) b).2 := by
  split
  · rfl
  · simp [emitAll, modify_run]

theorem link_run (plan : Plan) (f : Form) (b : Builder) :
    let names := ((f.node.child? "tabstops").map (·.strings "tabstop")).getD []
    let b' := (writeTabStops plan names (writeBuddies plan b).2).2
    (link plan f b).2 = (emitAll (closing plan f b') b').2 := by
  intro names b'
  have hget : (get : Build Builder) b' = (b', b') := rfl
  have hrun : (link plan f b).2 = ((do
      let b ← get
      if !b.delayedActions.isEmpty then emitAll (.blank :: b.delayedActions)
      emitAll [.blank, .run "retranslateUi" [.ref plan.mainForm]]
      emitAll (connectionStmts f b.session.table)
      if !b.delayed.isEmpty then emitAll ([.blank] ++ b.delayed ++ [.blank])
      if plan.options.autoConnection then
        emitAll [.blank, .run "QMetaObject::connectSlotsByName" [.ref plan.mainForm]] :
        Build Unit) b').2 := rfl
  have hlast : ∀ (c : Prop) [Decidable c] (l : List Stmt) (b : Builder),
      ((if c then emitAll l else pure () : Build Unit) b).2 =
        (emitAll (if c then l else []) b).2 := by
    intro c _ l b
    rw [← emitAll_when]
    split <;> rfl
  rw [hrun]
  -- First every piece is appended by itself, then they are joined.
  simp only [bind_run, hget, when_run, hlast, emitAll_when]
  simp only [emitAll_emitAll]
  rfl

/-- The code of the links is in order if what actions and connections refer to exists. -/
theorem link_spec (hb : job.Consistent b) :
    ∃ b', job.Writes True b b' ∧
      (link job.plan job.form b).2.session.table = b'.session.table ∧
      (∀ x, DeclaresText x (link job.plan job.form b).2.setup ↔ DeclaresText x b'.setup) ∧
      (job.Ordered (link job.plan job.form b).2 ↔ job.Ordered b ∧
        (∀ s ∈ b'.delayedActions, ∀ x ∈ s.uses, x ∈ job.vars b') ∧
        ∀ s ∈ connectionStmts job.form b'.session.table, ∀ x ∈ s.uses, x ∈ job.vars b') := by
  have s1 := writes_writeBuddies hb
  have s2 := s1.andThen (writes_writeTabStops s1.consistent
    (((job.form.node.child? "tabstops").map (·.strings "tabstop")).getD []))
  have hlink := link_run job.plan job.form b
  dsimp only at hlink
  generalize (writeTabStops job.plan _ _).2 = b' at s2 hlink
  have hassign : ∀ s ∈ closing job.plan job.form b', s.assigns = [] := by
    refine (forall_closing (·.assigns = []) _ _ _ rfl fun _ => rfl).mpr
      ⟨fun s hs => ?_, ?_, fun s hs => ?_⟩
    · exact (s2.consistent.actions s hs).1
    · exact connectionStmts_assign _ _
    · exact (s2.consistent.delayed s hs).1
  have huses : (∀ s ∈ closing job.plan job.form b', ∀ x ∈ s.uses, x ∈ job.vars b') ↔
      (∀ s ∈ b'.delayedActions, ∀ x ∈ s.uses, x ∈ job.vars b') ∧
        ∀ s ∈ connectionStmts job.form b'.session.table, ∀ x ∈ s.uses, x ∈ job.vars b' := by
    have hiff := forall_closing (fun s => ∀ x ∈ s.uses, x ∈ job.vars b') job.plan job.form b'
      (by simp [Stmt.uses]) (fun _ => by simpa [Stmt.uses, Expr.uses] using mainForm_mem job b')
    exact hiff.trans (and_congr_right fun _ =>
      and_iff_left fun s hs => (s2.consistent.delayed s hs).2)
  have s3 := (writes_uses s2.consistent _ hassign).congr huses
  rw [hlink]
  refine ⟨b', s2, rfl, fun x => ⟨?_, DeclaresText.mono s3.setup⟩, ?_⟩
  · rintro ⟨init, hmem⟩
    rcases List.mem_append.mp hmem with hmem | hmem
    · exact ⟨init, hmem⟩
    · cases hassign _ hmem
  · rw [s3.ordered, s2.ordered, and_true]

end Job

/-! ## Functions -/

end FormCompiler.Setup
