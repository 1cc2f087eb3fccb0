import FormCompiler.Proofs.Setup.Details
import FormCompiler.Proofs.Setup.Links

/-!
# The setup is put together of pieces

Every function of the setup is a `Piece`, so each needs only its own statements to be looked at
(`piece_setUp`).
-/

namespace FormCompiler.Setup

open Code Document Naming

variable {plan : Plan} {marks : Bool}

/-! ## Properties -/

theorem piece_writeProperties (target : Target) (ps : List Property) :
    Piece plan marks (writeProperties plan target ps) Anything :=
  (detail_writeProperties target ps).piece

/-! ## Layouts -/

theorem admits_tunes {sect : Section} {name : String} {l : List Stmt} (h : Tunes name l) :
    plan.Admits sect (mentionsOf l) :=
  Plan.admits_mentionsOf.mpr fun s hs => (h.inert s hs).1 ▸ Plan.admits_nil

theorem piece_nameAt (v : Visit) : Piece plan marks (nameAt plan v) Anything :=
  .bind (.register (.nameOfVisit plan.document v) (.nameOfVisit plan.document v))
    fun _ _ => .pure trivial

theorem piece_enterLayout (c : Context) (v : Visit) :
    Piece plan true (enterLayout plan c v) Anything := by
  unfold enterLayout
  refine .bind (piece_nameAt v) fun name _ => .bind (.emit ?_) fun _ _ => ?_
  · split <;> simp
  · refine .look (fun b _ => .bind (.emitAll ?_) fun _ _ => ?_) fun _ _ => rfl
    · exact admits_tunes (Job.tunes_layoutDistances _ _ _ _ _)
    · refine .bind (.remember (fun _ => rfl) (fun _ _ => rfl) fun _ => .inl rfl) fun _ _ => ?_
      exact .bind (piece_writeProperties _ _) fun _ _ => .pure trivial

theorem mentions_itemPlacement (layoutClass name : String) (item : Node) :
    (itemPlacement layoutClass name item).2.flatMap Expr.mentions = [] := by
  unfold itemPlacement
  dsimp only
  split
  · split <;> simp
  · split
    · simp
    · split <;> simp

theorem piece_leaveItem (c : Context) {v : Visit} (hk : v.node.kind = .layoutItem) :
    Piece plan marks (leaveItem plan c v) Anything := by
  have hinstalls := leaveItem_installs plan c hk
  generalize leaveItem plan c v = m at hinstalls ⊢
  cases hinstalls with
  | idle => exact .pure trivial
  | @install layout =>
    refine .bind (piece_nameAt _) fun name _ => ?_
    have hargs := mentions_itemPlacement layout.className name v.node
    generalize itemPlacement layout.className name v.node = r at hargs ⊢
    exact .emitAll (by simp [hargs])

theorem mentions_spacerArgs (ps : List Property) : (spacerArgs ps).flatMap Expr.mentions = [] := by
  unfold spacerArgs
  dsimp only
  rw [List.flatMap_append, List.append_eq_nil_iff]
  constructor
  · split <;> rfl
  · split <;> rfl

theorem piece_writeSpacer (v : Visit) : Piece plan marks (writeSpacer plan v) Anything :=
  .bind (piece_nameAt v) fun _ _ => .emit (by simp [mentions_spacerArgs])

/-! ## Widgets -/

theorem piece_iconArgs (icon : Option Property) :
    Piece plan marks (iconArgs plan icon) fun args =>
      plan.Admits .setup (args.flatMap Expr.mentions) := by
  refine (detail_iconArgs icon).piece.weaken fun args hargs => ?_
  exact List.forall_mem_flatMap.mpr fun e he => (hargs e he).1

theorem admits_itemTexts {sect : Section} {items : List ComboItem}
    (h : ∀ i ∈ items, textSection i.text "" = sect) :
    plan.Admits sect ((items.map fun i => shownText i.text "").flatMap Expr.mentions) := by
  intro m hm
  rw [List.flatMap_map] at hm
  obtain ⟨i, hi, hm⟩ := List.mem_flatMap.mp hm
  exact h i hi ▸ admits_shownText i.text "" m hm

/-- Texts are inserted together only if all of them may stand in the same function. -/
theorem piece_filling {name : String} {items : List ComboItem} {f : Filling}
    (hf : f.Fits name items) : Piece plan marks (f.run plan) Anything := by
  refine .bind (piece_iconArgs f.icon) fun icon hicon => ?_
  cases hf with
  | insert h =>
    refine .bind (.emitAll ?_) fun _ _ => .emitRetranslate (by simp)
    simpa [insertion] using admits_itemTexts fun i hi =>
      if_neg (by simpa [ComboItem.isTranslated] using h i hi)
  | renew h =>
    refine .bind (.emitAll (by simp)) fun _ _ => .emitRetranslate ?_
    simpa [insertion] using admits_itemTexts fun i hi => if_pos (h i hi)
  | add i =>
    refine .bind (.emitAll ?_) fun _ _ => .emitRetranslate ?_
    · cases h : i.1.isTranslated <;> simpa [itemFilling, itemStmt, h] using hicon
    · unfold itemFilling renewal
      split
      · simpa using admits_translatedText i.1.text ""
      · simp
  | gap => exact .bind (.emitAll (by simp)) fun _ _ => .emitRetranslate (by simp)

theorem piece_fillComboBox (name : String) (items : List ComboItem) :
    Piece plan marks (fillComboBox plan name items) Anything := by
  rw [fillComboBox_eq]
  exact .forM _ fun f hf => piece_filling (fits_of_mem hf)

theorem piece_enrol (c : Context) (name : String) (group : Node) {create : String → Stmt}
    (hcreate : ∀ x, (create x).mentions = []) :
    Piece plan marks (enrol plan c name group create) Anything := by
  refine .bind (.register (.nameOfGroup _) (.take _)) fun groupName _ => ?_
  refine .look (fun b _ => ?_) fun _ _ => rfl
  refine .ite _ ?_ (.emit (by simp))
  refine .bind (.remember (fun _ => rfl) (fun _ _ => rfl) fun _ => .inr rfl) fun _ _ =>
    .bind (.emit (by rw [hcreate]; exact Plan.admits_nil)) fun _ _ => ?_
  exact .bind (piece_writeProperties _ _) fun _ _ => .emit (by simp)

theorem piece_joinButtonGroup (c : Context) (name : String) (button : Node) :
    Piece plan marks (joinButtonGroup plan c name button) Anything := by
  rw [joinButtonGroup_eq]
  cases groupOf? button with
  | none => exact .pure trivial
  | some d =>
    refine .bind .table fun t _ => .bind (.ite _ (.note _) (.pure trivial)) fun _ _ => ?_
    refine piece_enrol c name _ fun x => ?_
    unfold createGroup
    split <;> rfl

theorem piece_takeMenuAction (name : String) :
    Piece plan marks (takeMenuAction name) Anything :=
  .bind .table fun _ _ => .ite _ (.emit (by simp)) (.pure trivial)

theorem piece_addToToolBox (parent name : String) (attrs : List Property) :
    Piece plan marks (addToToolBox plan parent name attrs) Anything := by
  refine .bind (piece_iconArgs _) fun icon hicon => ?_
  refine .bind (.emit (by simpa using hicon)) fun _ _ => ?_
  exact (detail_toolBoxTexts plan parent name attrs _).piece

theorem piece_addToTabWidget (parent name : String) (attrs : List Property) :
    Piece plan marks (addToTabWidget plan parent name attrs) Anything := by
  refine .bind (piece_iconArgs _) fun icon hicon => ?_
  refine .bind (.emit (by simpa using hicon)) fun _ _ => ?_
  exact (detail_tabTexts plan parent name attrs _).piece

theorem piece_addToContainer (parent parentClass name : String) (attrs : List Property) :
    Piece plan marks (addToContainer plan parent parentClass name attrs) Anything := by
  obtain ⟨m, l, hm, -, htakes⟩ := addToContainer_takes plan parent parentClass name attrs
  rw [hm]
  cases htakes with
  | pass hs =>
    obtain ⟨method, first, rfl, -, hmentions⟩ := hs
    exact .emit (by simp [hmentions])
  | toolBox => exact piece_addToToolBox ..
  | tabWidget => exact piece_addToTabWidget ..
  | leave => exact .pure trivial

theorem piece_leaveWidget (c : Context) (name : String) (n : Node) :
    Piece plan marks (leaveWidget plan c name n) Anything := by
  have hparent : Piece plan marks (addToParent plan c name n) Anything := by
    refine .when _ (.emitAll ?_) (piece_addToContainer ..)
    rw [Passes.mentions (mainWindowStmts_passes plan _ _ _ _)]
    exact Plan.admits_nil
  exact .bind hparent fun _ _ => (detail_raiseChildren n).piece

theorem piece_createWidget (c : Context) (name : String) (n : Node) :
    Piece plan true (createWidget plan c name n) Anything := by
  refine .bind (.emitAll ?_) fun _ _ =>
    .remember (fun _ => rfl) (fun _ _ => rfl) fun _ => .inl rfl
  unfold widgetStmts
  repeat' split
  all_goals simp

theorem piece_equip (c : Context) (name : String) (n : Node) :
    Piece plan marks (equip plan c name n) Anything :=
  .when _ (piece_fillComboBox ..) (.ite _ (piece_joinButtonGroup ..) (.pure trivial))

theorem piece_adorn (c : Context) (name : String) (n : Node) :
    Piece plan marks (adorn plan c name n) Anything :=
  .bind (piece_writeProperties ..) fun _ _ => .ite _ (piece_takeMenuAction _) (.pure trivial)

theorem piece_enterWidget (c : Context) (v : Visit) :
    Piece plan true (enterWidget plan c v) Anything := by
  rw [enterWidget_eq]
  exact .bind (piece_nameAt v) fun name _ => .bind (piece_createWidget ..) fun _ _ =>
    .bind (piece_equip ..) fun _ _ => .bind (piece_adorn ..) fun _ _ => .pure trivial

/-! ## Actions -/

theorem piece_enterActionGroup (c : Context) (v : Visit) :
    Piece plan marks (enterActionGroup plan c v) Anything := by
  refine .bind (piece_nameAt v) fun name _ => .bind (.emit (by simp)) fun _ _ => ?_
  exact .bind (piece_writeProperties ..) fun _ _ => .pure trivial

theorem piece_writeAction (c : Context) (v : Visit) :
    Piece plan marks (writeAction plan c v) Anything := by
  refine .ite _ (.pure trivial) (.bind (piece_nameAt v) fun name _ => ?_)
  exact .bind (.emit (by simp)) fun _ _ => piece_writeProperties ..

theorem piece_placeAction (c : Context) (n : Node) :
    Piece plan marks (placeAction plan c n) Anything := by
  obtain ⟨next, hnext, hplaces⟩ := placeAction_places plan c n
  rw [hnext]
  refine .bind .table fun t _ => ?_
  have hplacing := hplaces t
  generalize next t = m at hplacing ⊢
  cases hplacing with
  | outside | pass => exact .pure trivial
  | separator => exact .delayAction (by simp)
  | action hw hx he => exact .delayAction (by rcases he with rfl | rfl <;> simp)
  | undeclared => exact .note _

/-! ## The whole setup -/

theorem piece_enter (c : Context) (v : Visit) :
    Piece plan true ((walker plan).enter c v) Anything := by
  simp only [walker]
  split
  · exact .pure trivial
  · exact .pure trivial
  · exact .map (piece_enterWidget c v) fun _ _ => trivial
  · exact .map (piece_enterLayout c v) fun _ _ => trivial
  · exact .map (piece_enterActionGroup c v) fun _ _ => trivial
  · exact .bind (piece_writeSpacer v) fun _ _ => .pure trivial
  · exact .bind (piece_writeAction c v) fun _ _ => .pure trivial
  · exact .bind (piece_placeAction c v.node) fun _ _ => .pure trivial
  · exact .pure trivial

theorem piece_leave (c inner : Context) (v : Visit) :
    Piece plan marks ((walker plan).leave c inner v) Anything := by
  simp only [walker]
  split
  · exact piece_leaveWidget ..
  · exact .emitAll (admits_tunes (Job.tunes_leaveLayout _ _))
  · exact piece_leaveItem c ‹_›
  · exact .pure trivial

theorem piece_walk (n : Node) (c : Context) (path : List Nat) :
    Piece plan true (n.walk (walker plan) c path) Anything := by
  induction n using Node.reach_induction generalizing c path with
  | h n ih =>
    rw [Node.walk_eq]
    refine .bind (piece_enter c _) fun inner? _ => ?_
    cases inner? with
    | none => exact .pure trivial
    | some inner =>
      exact .bind (.forM (n.reach path) fun v hv => ih path v hv inner v.path) fun _ _ =>
        piece_leave ..

theorem piece_walkFields (fs : List Field) (c : Context) (path : List Nat) (i : Nat) :
    Piece plan true (Node.walkFields (walker plan) c path i fs) Anything := by
  induction fs generalizing i with
  | nil => exact .pure trivial
  | cons f fs ih =>
    refine .bind (Q := Anything) ?_ fun _ _ => ih (i + 1)
    cases f with
    | value tag s => exact .pure trivial
    | node tag m => exact piece_walk m c (i :: path)

theorem piece_writeBuddies : Piece plan marks (writeBuddies plan) Anything := by
  have hbuddy : ∀ isWidget pair, Piece plan marks (Job.buddyStmt? plan isWidget pair)
      fun o => ∀ s ∈ o, s.mentions = [] := by
    rintro isWidget ⟨label, buddy⟩
    unfold Job.buddyStmt?
    dsimp only
    split
    · exact .bind (.note _) fun _ _ => .pure fun _ hs => by cases hs
    · exact .pure fun s hs => by cases hs; rfl
  refine .look (fun b _ => ?_) fun _ _ => rfl
  refine .bind (.filterMapM b.buddies (hbuddy _)) fun stmts hstmts => ?_
  refine .ite _ (.emitAll (Plan.admits_mentionsOf.mpr ?_)) (.pure trivial)
  exact forall_mem_guarded _ (fun _ => Plan.admits_nil) Plan.admits_nil
    fun s hs => hstmts s hs ▸ Plan.admits_nil

theorem piece_writeTabStops (names : List String) :
    Piece plan marks (writeTabStops plan names) Anything := by
  refine .look (fun b _ => .bind (.forM _ fun _ _ => .note _) fun _ _ => .emitAll ?_) fun _ _ => rfl
  rw [mentionsOf_eq_nil.mpr]
  · exact Plan.admits_nil
  · intro s hs
    obtain ⟨step, _, rfl⟩ := List.mem_map.mp hs
    rfl

theorem mentions_connectionStmts (f : Form) (t : Table) :
    mentionsOf (Job.connectionStmts f t) = [] := by
  refine mentionsOf_eq_nil.mpr fun s hs => ?_
  obtain ⟨n, sender, receiver, -, -, rfl⟩ := Job.mem_connectionStmts hs
  rfl

/-- What was put off to the end is admitted like what was written at once. -/
theorem piece_link (f : Form) : Piece plan true (link plan f) Anything := by
  refine .bind piece_writeBuddies fun _ _ => .bind (piece_writeTabStops _) fun _ _ => ?_
  refine .look (fun b hb => ?_) fun _ _ => rfl
  refine .when _ (.emitAll (by simpa using hb.actions)) ?_
  refine .bind (.emitAll (by simp)) fun _ _ => .bind (.emitAll ?_) fun _ _ => ?_
  · exact (mentions_connectionStmts f b.session.table).symm ▸ Plan.admits_nil
  · refine .when _ (.emitAll (by simpa using hb.delayed)) ?_
    exact .ite _ (.emitAll (by simp)) (.pure trivial)

theorem piece_setUp (f : Form) : Piece plan true (setUp plan f) Anything :=
  .bind (piece_walk f.node {} []) fun _ _ => piece_link f

theorem admitted_start (plan : Plan) (s : Session) : Admitted plan { session := s } :=
  ⟨Plan.admits_nil, Plan.admits_nil, Plan.admits_nil, Plan.admits_nil⟩

end FormCompiler.Setup
