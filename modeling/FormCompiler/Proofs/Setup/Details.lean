import FormCompiler.Proofs.Setup.Pieces
import FormCompiler.Proofs.Setup.Properties

/-!
# Details of the setup

What is written for values and properties is a detail of the setup: variables are declared under
new names, filled, kept for values that are equal, and passed on.  `Detail plan vars m Q` says how
such a part `m` of the setup is put together, and that its answer has the property `Q`.  The
functions for values and properties are taken apart only here, up to `detail_writeProperties`.  That
they are pieces (`Detail.piece`), that they write routine statements only (`Detail.routine`), and
that they handle no object, then follows by induction over the way they are put together.
-/

namespace FormCompiler

/-- What a statement passes to a method of an object. -/
def Code.Stmt.args : Code.Stmt → List Code.Expr
  | .call _ _ args => args
  | _ => []

/-- A routine statement that neither mentions anything nor passes a variable to an object. -/
def Code.Stmt.IsInert (s : Code.Stmt) : Prop :=
  s.mentions = [] ∧ s.isRoutine = true ∧ ∀ x, .ref x ∉ s.args

namespace Setup

open Code Document Naming

/-! ## Parts of the setup -/

/-- What is known of the variables of values, and what more of those that are new. -/
structure Variables where
  known : String → Prop
  fresh : String → Prop
  known_of_fresh : ∀ x, fresh x → known x

/-- A statement that stands where it may and passes only variables of values to objects. -/
structure Minor (plan : Plan) (vars : Variables) (sect : Section) (s : Stmt) : Prop where
  mentions : plan.Admits sect s.mentions
  routine : s.isRoutine = true
  args : ∀ x, .ref x ∈ s.args → vars.known x

/-- An expression that may stand in a function and refers only to variables of values. -/
def Suits (plan : Plan) (vars : Variables) (sect : Section) (e : Expr) : Prop :=
  plan.Admits sect e.mentions ∧ ∀ x ∈ e.uses, vars.known x

/-- One builder differs from another only in what it remembers of values. -/
structure Remembers (vars : Variables) (b b' : Builder) : Prop where
  code : b'.code = b.code
  marginType : b'.marginType = b.marginType
  widgets : b'.widgets = b.widgets
  buttonGroups : b'.buttonGroups = b.buttonGroups
  icons : Continues (fun i => vars.fresh i.2) b.icons b'.icons
  shared : ∀ x ∈ b'.shared, x ∈ b.shared ∨ vars.known x

/-- A part of the setup that deals with values and properties, and a property of its answer. -/
inductive Detail (plan : Plan) (vars : Variables) : {α : Type} → Build α → (α → Prop) → Prop where
  | pure {α : Type} {a : α} {Q : α → Prop} (h : Q a) : Detail plan vars (pure a) Q
  | bind {α β : Type} {m : Build α} {k : α → Build β} {Q : α → Prop} {R : β → Prop}
      (hm : Detail plan vars m Q) (hk : ∀ a, Q a → Detail plan vars (k a) R) :
      Detail plan vars (m >>= k) R
  | look {α : Type} {k : Builder → Build α} {R : α → Prop}
      (hk : ∀ b, (∀ x ∈ b.shared, vars.known x) → Detail plan vars (k b) R)
      (hsame : ∀ b notices, k (b.noting notices) = k b) : Detail plan vars (get >>= k) R
  | freshName (base : String) : Detail plan vars (freshName base) vars.fresh
  | note (topic : Topic) : Detail plan vars (note plan topic) Anything
  | emitIn {l : List Stmt} (sect : Section) (h : ∀ s ∈ l, Minor plan vars sect s) :
      Detail plan vars (emitIn sect l) Anything
  | delay {s : Stmt} (h : Minor plan vars .setup s) : Detail plan vars (delay s) Anything
  | remember {f : Builder → Builder} (h : ∀ b, Remembers vars b (f b))
      (hblind : ∀ b notices, f (b.noting notices) = (f b).noting notices) :
      Detail plan vars (modify f) Anything

variable {plan : Plan} {vars : Variables} {sect : Section} {s : Stmt} {l : List Stmt}

theorem minor_of_inert (h : s.IsInert) : Minor plan vars sect s :=
  ⟨h.1.symm ▸ Plan.admits_nil, h.2.1, fun x hx => absurd hx (h.2.2 x)⟩

theorem Tunes.inert {name : String} (h : Tunes name l) : ∀ s ∈ l, s.IsInert := by
  intro s hs
  match s, h s hs with
  | .call receiver method args, ⟨_, hfill, hargs⟩ =>
    refine ⟨List.flatMap_eq_nil_iff.mpr fun e he => ?_, isRoutine_call receiver hfill,
      fun x hx => ?_⟩
    · obtain ⟨text, rfl⟩ := hargs e he
      rfl
    · obtain ⟨text, htext⟩ := hargs _ hx
      cases htext
  | .ifNotDefined _, _ | .endIf, _ => exact ⟨rfl, rfl, fun x hx => by cases hx⟩

namespace Detail

variable {α β : Type} {m : Build α} {Q : α → Prop}

/-- Variables of which nothing is known. -/
def anyVariables : Variables := ⟨fun _ => True, fun _ => True, fun _ _ => trivial⟩

theorem piece {marks : Bool} (h : Detail plan anyVariables m Q) : Piece plan marks m Q := by
  induction h with
  | pure h => exact .pure h
  | bind hm hk ihm ihk => exact ihm.bind ihk
  | look hk hsame ih => exact .look (fun b _ => ih b fun _ _ => trivial) hsame
  | freshName base => exact (Piece.freshName base).weaken fun _ _ => trivial
  | note topic => exact .note topic
  | emitIn sect h =>
    exact .emitIn sect (Plan.admits_mentionsOf.mpr fun s hs => (h s hs).mentions)
  | delay h => exact .delay h.mentions
  | remember h hblind =>
    exact .remember (fun b => (h b).code) hblind fun b => .inr (h b).marginType

/-- Variables of which it is only known that new ones have a name. -/
def spelledVariables : Variables := ⟨fun _ => True, (· ≠ ""), fun _ _ => trivial⟩

theorem appends (h : Detail plan spelledVariables m Q) (b : Builder) :
    Appends (fun s => s.isRoutine = true) b (m b).2 ∧ Q (m b).1 := by
  induction h generalizing b with
  | pure h => exact ⟨.refl b, h⟩
  | bind hm hk ihm ihk =>
    obtain ⟨h1, ha⟩ := ihm b
    obtain ⟨h2, hr⟩ := ihk _ ha _
    exact ⟨h1.trans h2, hr⟩
  | look hk hsame ih => exact ih b (fun _ _ => trivial) b
  | freshName base =>
    exact ⟨AppendsOnly.freshName base b, Table.unique_ne_empty b.session.table base ""⟩
  | note topic => exact ⟨AppendsOnly.note plan topic b, trivial⟩
  | emitIn sect h => exact ⟨AppendsOnly.emitIn sect (fun s hs => (h s hs).routine) b, trivial⟩
  | delay h => exact ⟨AppendsOnly.delay h.routine b, trivial⟩
  | @remember f h hblind =>
    -- nothing is written, and of what is remembered only the icons count
    obtain ⟨hsession, hsetup, hretranslate, hdelayed, hactions⟩ :
        (f b).session = b.session ∧ (f b).setup = b.setup ∧ (f b).retranslate = b.retranslate ∧
          (f b).delayed = b.delayed ∧ (f b).delayedActions = b.delayedActions := by
      simpa [Builder.code] using (h b).code
    refine ⟨⟨?_, ?_, ?_, ?_, ?_, (h b).buttonGroups, (h b).icons⟩, trivial⟩
    · exact hsetup.symm ▸ .refl _
    · exact hretranslate.symm ▸ .refl _
    · exact hdelayed.symm ▸ .refl _
    · exact hactions.symm ▸ .refl _
    · exact hsession.symm ▸ rfl

theorem routine (h : Detail plan spelledVariables m Q) : Routine m := fun b => (h.appends b).1

/-! ## Ways to put details together -/

theorem ite (c : Prop) [Decidable c] {m' : Build α} (hm : Detail plan vars m Q)
    (hm' : Detail plan vars m' Q) : Detail plan vars (if c then m else m') Q := by
  split
  · exact hm
  · exact hm'

theorem when (c : Prop) [Decidable c] {m : Build Unit} {k : Build α}
    (hm : Detail plan vars m Anything) (hk : Detail plan vars k Q) :
    Detail plan vars (if c then m >>= fun _ => k else k) Q :=
  .ite c (hm.bind fun _ _ => hk) hk

theorem forM (l : List α) {m : α → Build Unit} (h : ∀ a, Detail plan vars (m a) Anything) :
    Detail plan vars (l.forM m) Anything := by
  induction l with
  | nil => exact .pure trivial
  | cons a l ih => exact (h a).bind fun _ _ => ih

theorem foldlM (l : List α) {m : β → α → Build β} (h : ∀ r a, Detail plan vars (m r a) Anything)
    (r : β) : Detail plan vars (l.foldlM m r) Anything := by
  induction l generalizing r with
  | nil => exact .pure trivial
  | cons a l ih => exact (h r a).bind fun r' _ => ih r'

theorem optional (o : Option α) {m : α → Build Unit} (h : ∀ a, Detail plan vars (m a) Anything) :
    Detail plan vars (o.forM m) Anything := by
  cases o with
  | none => exact .pure trivial
  | some a => exact h a

theorem emitAll (h : ∀ s ∈ l, Minor plan vars .setup s) :
    Detail plan vars (emitAll l) Anything :=
  .emitIn .setup h

theorem emit (h : Minor plan vars .setup s) : Detail plan vars (emit s) Anything :=
  .emitIn .setup (l := [s]) (by simpa using h)

theorem inert (h : s.IsInert) : Detail plan vars (Setup.emit s) Anything := .emit (minor_of_inert h)

end Detail

/-! ## Statements -/

@[simp] theorem isInert_declare {type name : String} {init : Init} :
    (Stmt.declare type name init).IsInert ↔ init.mentions = [] := by
  simp [Stmt.IsInert, Stmt.isRoutine, Stmt.args]

@[simp] theorem isInert_modify {name method : String} {args : List Expr} :
    (Stmt.modify name method args).IsInert ↔ args.flatMap Expr.mentions = [] := by
  simp [Stmt.IsInert, Stmt.isRoutine, Stmt.args]

@[simp] theorem isInert_call {receiver method : String} {args : List Expr} :
    (Stmt.call receiver method args).IsInert ↔
      args.flatMap Expr.mentions = [] ∧ isFilling method args = false ∧ ∀ x, .ref x ∉ args := by
  simp [Stmt.IsInert, Stmt.isRoutine, Stmt.args]

theorem inert_policyStmts (name : String) (p : SizePolicy) :
    ∀ s ∈ policyStmts name p, s.IsInert := by
  simp only [policyStmts, policyInit]
  split <;> simp [policyNumber, policyName]

theorem inert_fontStmts (name : String) (f : Font) : ∀ s ∈ fontStmts name f, s.IsInert := by
  have hflag (method : String) (flag : Option Bool) :
      ∀ s ∈ flagStmts name method flag, s.IsInert := by
    cases flag <;> simp [flagStmts]
  have hsize (method : String) (size : Option Int) :
      ∀ s ∈ sizeStmts name method size, s.IsInert := by
    cases size with
    | none => simp [sizeStmts]
    | some n =>
      simp only [sizeStmts]
      split <;> simp
  simp only [fontStmts, List.forall_mem_append]
  refine ⟨⟨⟨⟨⟨⟨⟨⟨⟨⟨by simp, ?_⟩, hsize _ _⟩, hflag _ _⟩, hflag _ _⟩, hflag _ _⟩, hsize _ _⟩,
    hflag _ _⟩, hflag _ _⟩, ?_⟩, ?_⟩
  · split
    · split <;> simp
    · simp
  · split <;> simp
  · split <;> simp

theorem inert_gradientStmts (name : String) (g : Gradient) :
    ∀ s ∈ gradientStmts name g, s.IsInert := by
  simp only [gradientStmts, List.forall_mem_append]
  refine ⟨⟨⟨?_, by simp⟩, ?_⟩, by simp [real, colorExpr]⟩
  · unfold gradientInit
    split <;> simp [real]
  · split <;> simp

theorem admits_pictureExpr (plan : Plan) (sect : Section) (type text : String) :
    plan.Admits sect (pictureExpr plan type text).mentions := by
  by_cases hempty : text = ""
  · simp [pictureExpr, hempty]
  · have hsome : text.isEmpty = false := by simpa using hempty
    cases hfound : plan.images.reverse.lookup text with
    | none => simp [pictureExpr, hsome, hfound]
    | some extension =>
      have hembeds : plan.Embeds (if plan.options.extractImages then
          .resource (text ++ "." ++ extension) else .stored text) := by
        refine ⟨text, hempty, ?_⟩
        simp only [Plan.embedded, hfound, Option.map_some, Option.toList_some]
        exact List.mem_singleton.mpr rfl
      simp only [pictureExpr, hsome, hfound, Bool.false_eq_true, if_false]
      split at hembeds
      · rw [if_pos ‹_›]
        exact List.forall_mem_singleton.mpr hembeds
      · rw [if_neg ‹_›]
        exact List.forall_mem_singleton.mpr hembeds

theorem minor_iconStmts (plan : Plan) (vars : Variables) (declared : Bool) (name : String)
    (i : Icon) : ∀ s ∈ iconStmts plan declared name i, Minor plan vars .setup s := by
  unfold iconStmts
  dsimp only
  split
  · split
    · refine List.forall_mem_singleton.mpr ⟨admits_pictureExpr plan .setup "QIcon" i.text, rfl, ?_⟩
      simp [Stmt.args]
    · exact List.forall_mem_singleton.mpr (minor_of_inert (by simp))
  · split
    · refine fun s hs => minor_of_inert ?_
      obtain rfl | hs := List.mem_cons.mp hs
      · simp
      · obtain ⟨f, _, rfl⟩ := List.mem_map.mp hs
        simp [IconFile.args]
    · refine fun s hs => minor_of_inert ?_
      cases declared <;> revert s <;> simp [Stmt.IsInert, Stmt.isRoutine, Stmt.args]

/-! ## Values -/

theorem suits_plain {e : Expr} (hmentions : e.mentions = []) (huses : e.uses = []) :
    Suits plan vars sect e :=
  ⟨hmentions.symm ▸ Plan.admits_nil, fun _ hx => absurd (huses ▸ hx) List.not_mem_nil⟩

theorem suits_ref {x : String} (hx : vars.known x) : Suits plan vars sect (.ref x) :=
  ⟨Plan.admits_nil, fun _ hy => List.mem_singleton.mp hy ▸ hx⟩

theorem suits_pictureExpr (type text : String) :
    Suits plan vars sect (pictureExpr plan type text) :=
  ⟨admits_pictureExpr plan sect type text, by simp [Job.pictureExpr_uses]⟩

theorem detail_declaring (base : String) {f : String → Builder → Builder}
    {stmts : String → List Stmt}
    (hf : ∀ name, vars.fresh name → ∀ b, Remembers vars b (f name b))
    (hblind : ∀ name b notices, f name (b.noting notices) = (f name b).noting notices)
    (hstmts : ∀ name, ∀ s ∈ stmts name, s.IsInert) :
    Detail plan vars (do
      let name ← freshName base
      MonadState.modifyGet fun b => (PUnit.unit, f name b)
      emitAll (stmts name)
      return name) vars.known :=
  .bind (.freshName base) fun name hname => .bind (.remember (hf name hname) (hblind name))
    fun _ _ => .bind (.emitAll fun s hs => minor_of_inert (hstmts name s hs)) fun _ _ =>
      .pure (vars.known_of_fresh name hname)

theorem Keeps.known {name : String} {b b' : Builder} (h : Keeps name b b')
    (hname : vars.fresh name) : ∀ x ∈ b'.shared, x ∈ b.shared ∨ vars.known x :=
  fun x hx => (h.shared x hx).imp_right fun heq : x = name => heq ▸ vars.known_of_fresh name hname

theorem detail_sizePolicyName (p : SizePolicy) :
    Detail plan vars (sizePolicyName p) vars.known := by
  refine .look (fun b hb => ?_) fun _ _ => rfl
  split
  · next name hp => exact .pure (hb name (mem_shared.mpr (by simp [mem_of_lookup hp])))
  · exact detail_declaring _ (fun name hname b =>
      ⟨rfl, rfl, rfl, rfl, .refl _, (keeps_sizePolicy p name b).known hname⟩)
      (fun _ _ _ => rfl) fun name => inert_policyStmts name p

theorem detail_fontName (f : Font) : Detail plan vars (fontName f) vars.known := by
  refine .look (fun b hb => ?_) fun _ _ => rfl
  split
  · next name hf => exact .pure (hb name (mem_shared.mpr (by simp [mem_of_lookup hf])))
  · exact detail_declaring _ (fun name hname b =>
      ⟨rfl, rfl, rfl, rfl, .refl _, (keeps_font f name b).known hname⟩)
      (fun _ _ _ => rfl) fun name => inert_fontStmts name f

theorem detail_iconName (i : Icon) : Detail plan vars (iconName plan i) vars.known := by
  refine .look (fun b hb => ?_) fun _ _ => rfl
  split
  · next name hi => exact .pure (hb name (mem_shared.mpr (by simp [mem_of_lookup hi])))
  · refine .bind (.freshName _) fun name hname => .bind (.remember (fun b => ?_) fun _ _ => rfl)
      fun _ _ => .look (fun b _ => ?_) fun _ _ => rfl
    · exact ⟨rfl, rfl, rfl, rfl, .append (by simpa using hname), (keeps_icon i name b).known hname⟩
    · -- that the variable for themes has been declared is remembered, but it is no shared one
      refine .bind (.emitAll (minor_iconStmts plan vars _ _ _)) fun _ _ => ?_
      exact .when _ (.remember (fun _ => ⟨rfl, rfl, rfl, rfl, .refl _, fun _ => .inl⟩)
        fun _ _ => rfl) (.pure (vars.known_of_fresh name hname))

theorem detail_pixmapExpr (property : String) (p : Picture) :
    Detail plan vars (pixmapExpr plan property p) (Suits plan vars .setup) := by
  cases p with
  | icon i | pixmap q => exact .pure (suits_pictureExpr _ _)
  | none => exact .bind (.note _) fun _ _ => .pure (suits_plain rfl rfl)

theorem detail_iconExpr (property : String) (p : Picture) :
    Detail plan vars (iconExpr plan property p) (Suits plan vars .setup) := by
  cases p with
  | icon i => exact (detail_iconName i).bind fun _ hname => .pure (suits_ref hname)
  | pixmap q => exact detail_pixmapExpr property (.pixmap q)
  | none => exact detail_pixmapExpr property .none

theorem detail_writeBrush (c : Brush) (name : String) :
    Detail plan vars (writeBrush plan c name) Anything := by
  unfold writeBrush
  refine .ite _ ?_ (.ite _ ?_ ?_)
  · refine .bind (.freshName _) fun gradient _ => .bind (.emitAll fun s hs => ?_) fun _ _ => ?_
    · exact minor_of_inert (inert_gradientStmts _ _ s hs)
    · exact .inert (by simp)
  · dsimp only
    split
    · exact .bind (detail_iconExpr _ _) fun e he => .emit ⟨he.1, rfl, by simp [Stmt.args]⟩
    · exact .inert (by simp)
  · exact .bind (.inert (by simp [colorExpr])) fun _ _ => .inert (by simp)

theorem detail_brushName (c : Brush) : Detail plan vars (brushName plan c) vars.known := by
  unfold brushName
  dsimp only
  refine .look (fun b hb => ?_) fun _ _ => rfl
  split
  · next name hc =>
    obtain ⟨key, _, hkey⟩ := Option.bind_eq_some_iff.mp hc
    exact .pure (hb name (mem_shared.mpr (by simp [mem_of_lookup hkey])))
  · refine .bind (.freshName _) fun name hname => (detail_writeBrush c name).bind fun _ _ => ?_
    refine .when _ (.remember (fun b => ?_) fun _ _ => rfl) (.pure (vars.known_of_fresh name hname))
    exact ⟨rfl, rfl, rfl, rfl, .refl _, (keeps_brush _ name b).known hname⟩

theorem detail_writeColorGroup (palette group : String) (g : ColorGroup) :
    Detail plan vars (writeColorGroup plan palette group g) Anything := by
  refine .bind (.emitAll fun s hs => ?_) fun _ _ => .forM _ fun r => ?_
  · obtain ⟨c, _, rfl⟩ := List.mem_map.mp hs
    exact minor_of_inert (by simp [colorExpr])
  · cases r.role with
    | none => exact .pure trivial
    | some role => exact (detail_brushName r.brush).bind fun brush _ => .inert (by simp)

theorem detail_paletteName (p : Palette) : Detail plan vars (paletteName plan p) vars.known := by
  refine .bind (.freshName _) fun name hname => .bind (.inert (by simp)) fun _ _ => ?_
  refine .bind (.optional p.active fun g => detail_writeColorGroup _ _ g) fun _ _ => ?_
  refine .bind (.optional p.inactive fun g => detail_writeColorGroup _ _ g) fun _ _ => ?_
  refine .bind (.optional p.disabled fun g => detail_writeColorGroup _ _ g) fun _ _ => ?_
  exact .pure (vars.known_of_fresh name hname)

theorem detail_iconArgs (icon : Option Property) :
    Detail plan vars (iconArgs plan icon) fun args => ∀ e ∈ args, Suits plan vars .setup e := by
  cases icon with
  | none => exact .pure fun e he => absurd he List.not_mem_nil
  | some p =>
    exact .bind (detail_iconExpr _ _) fun e he => .pure (List.forall_mem_singleton.mpr he)

/-! ## Texts -/

@[simp] theorem mentions_plainText (phrase : Option Phrase) (fallback : String) :
    (plainText phrase fallback).mentions = [] := by
  unfold plainText
  split
  · rfl
  · split <;> rfl

theorem admits_translatedText (phrase : Option Phrase) (fallback : String) :
    plan.Admits .retranslate (translatedText phrase fallback).mentions := by
  have hmentions : (translatedText phrase fallback).mentions = [.translation] := by
    unfold translatedText
    split <;> rfl
  rw [hmentions]
  exact List.forall_mem_singleton.mpr rfl

/-- A text that is shown is set where it may be translated, if it is translated at all. -/
theorem admits_shownText (phrase : Option Phrase) (fallback : String) :
    plan.Admits (textSection phrase fallback) (shownText phrase fallback).mentions := by
  unfold shownText textSection
  split
  · exact admits_translatedText phrase fallback
  · simp

theorem suits_shownText (phrase : Option Phrase) (fallback : String) :
    Suits plan vars (textSection phrase fallback) (shownText phrase fallback) :=
  ⟨admits_shownText phrase fallback, by simp⟩

theorem detail_setPageText (parent name method : String) (phrase : Option Phrase)
    (fallback : String) (hmethod : ["addItem", "addButton", "clear"].contains method = false) :
    Detail plan vars (setPageText parent name method phrase fallback) Anything := by
  obtain ⟨hadmits, huses⟩ : Suits plan vars (textSection phrase fallback) _ :=
    suits_shownText phrase fallback
  refine .emitIn _ (List.forall_mem_singleton.mpr ⟨by simpa using hadmits, ?_, fun x hx => ?_⟩)
  · refine isRoutine_call _ ?_
    rw [isFilling, hmethod]
    simp [isNumbered]
  · have hshown : .ref x = shownText phrase fallback := by simpa [Stmt.args] using hx
    exact huses x (hshown ▸ List.mem_singleton.mpr rfl)

theorem detail_setPageTextNamed (parent name method : String) (attrs : List Property)
    (attr : String) (hmethod : ["addItem", "addButton", "clear"].contains method = false) :
    Detail plan vars (setPageTextNamed parent name method attrs attr) Anything := by
  unfold setPageTextNamed
  split
  · exact detail_setPageText _ _ _ _ _ hmethod
  · exact .pure trivial

theorem detail_toolBoxTexts (plan : Plan) (parent name : String) (attrs : List Property)
    (label : Option Phrase) :
    Detail plan vars (do
      setPageText parent name "setItemText" label pageTitle
      setPageTextNamed parent name "setItemToolTip" attrs "toolTip") Anything :=
  .bind (detail_setPageText _ _ _ _ _ rfl) fun _ _ => detail_setPageTextNamed _ _ _ _ _ rfl

theorem detail_tabTexts (plan : Plan) (parent name : String) (attrs : List Property)
    (title : Option Phrase) :
    Detail plan vars (do
      setPageText parent name "setTabText" title pageTitle
      setPageTextNamed parent name "setTabToolTip" attrs "toolTip"
      setPageTextNamed parent name "setTabWhatsThis" attrs "whatsThis") Anything :=
  .bind (detail_setPageText _ _ _ _ _ rfl) fun _ _ =>
    .bind (detail_setPageTextNamed _ _ _ _ _ rfl) fun _ _ => detail_setPageTextNamed _ _ _ _ _ rfl

/-! ## Properties -/

theorem detail_valueExpr (target : Target) (p : Property) :
    Detail plan vars (valueExpr plan target p) (Suits plan vars (propertySection p)) := by
  obtain ⟨name, stdset, value⟩ := p
  cases value
  case font f => exact (detail_fontName f).bind fun _ hname => .pure (suits_ref hname)
  case icon i => exact (detail_iconName i).bind fun _ hname => .pure (suits_ref hname)
  case pixmap q => exact detail_pixmapExpr name (.pixmap q)
  case palette palette =>
    exact (detail_paletteName palette).bind fun _ hname => .pure (suits_ref hname)
  case brush c => exact (detail_brushName c).bind fun _ hname => .pure (suits_ref hname)
  case sizePolicy policy =>
    exact (detail_sizePolicyName policy).bind fun _ hname =>
      .bind (.inert (by simp)) fun _ _ => .pure (suits_ref hname)
  case cstring text =>
    refine .ite _ ?_ (.ite _ (.pure (suits_plain rfl rfl)) (.pure (suits_plain rfl rfl)))
    exact .bind (.remember (fun _ => ⟨rfl, rfl, rfl, rfl, .refl _, fun _ => .inl⟩) fun _ _ => rfl)
      fun _ _ => .pure (suits_plain rfl rfl)
  case string s =>
    exact .ite _ (.pure (suits_plain rfl rfl)) (.pure (suits_shownText (some s) ""))
  case stringList l =>
    refine .pure ?_
    cases htranslated : l.translatable with
    | true =>
      simp only [propertySection, htranslated, if_true]
      exact ⟨List.forall_mem_singleton.mpr rfl, fun x hx => absurd hx List.not_mem_nil⟩
    | false => exact suits_plain rfl rfl
  all_goals exact .pure (suits_plain rfl rfl)

/-- The call of a setter begins otherwise than those that fill combo boxes and groups. -/
theorem isFilling_setter (path text : String) (hpath : path = "" ∨ path = "viewport()->")
    (e : Expr) : isFilling (path ++ "set" ++ text) [e] = false := by
  have hne (method : String) (h : method ∈ ["addItem", "addButton", "clear"]) :
      path ++ "set" ++ text ≠ method := by
    intro heq
    have hhead := congrArg (fun t => t.toList.head?) heq
    simp only [List.mem_cons, List.not_mem_nil, or_false] at h
    rcases hpath with rfl | rfl <;> rcases h with rfl | rfl | rfl <;> simp at hhead
  simp only [isFilling, isNumbered_single, Bool.and_false, Bool.or_false]
  simpa using hne

theorem minor_setterStmt (target : Target) (p : Property) {e : Expr}
    (he : Suits plan vars sect e) : Minor plan vars sect (setterStmt plan target p e) := by
  obtain ⟨path, hpath, hstmt⟩ : ∃ path, (path = "" ∨ path = "viewport()->") ∧
      setterStmt plan target p e =
        if usesSetter plan p then .call target.name (path ++ "set" ++ Text.upperFirst p.name) [e]
        else .call target.name (path ++ "setProperty")
          [.code ("\"" ++ p.name ++ "\""), .wrap "QVariant" e] := by
    refine ⟨_, ?_, rfl⟩
    split
    · exact .inr rfl
    · exact .inl rfl
  rw [hstmt]
  split
  · refine ⟨by simpa using he.1, isRoutine_call _ (isFilling_setter path _ hpath e), fun x hx => ?_⟩
    exact he.2 x ((List.mem_singleton.mp hx : .ref x = e) ▸ List.mem_singleton.mpr rfl)
  · exact ⟨by simpa using he.1, by rcases hpath with rfl | rfl <;> rfl, by simp [Stmt.args]⟩

theorem detail_setProperty (target : Target) (p : Property) :
    Detail plan vars (setProperty plan target p) Anything := by
  refine (detail_valueExpr target p).bind fun e he => .ite _ (.pure trivial) ?_
  refine .bind (.emitIn _ (forall_mem_guarded _ (fun _ => ?_) ?_ ?_)) fun _ _ => ?_
  · exact ⟨Plan.admits_nil, rfl, by simp [Stmt.args]⟩
  · exact ⟨Plan.admits_nil, rfl, by simp [Stmt.args]⟩
  · exact List.forall_mem_singleton.mpr (minor_setterStmt target p he)
  · exact .ite _ (.remember (fun _ => ⟨rfl, rfl, rfl, rfl, .refl _, fun _ => .inl⟩) fun _ _ => rfl)
      (.pure trivial)

theorem detail_writeProperty (target : Target) (r : Progress) (p : Property) :
    Detail plan vars (writeProperty plan target r p) Anything := by
  obtain ⟨hnow, hlater⟩ := tunes_treatment plan target r.hasShadow p
  obtain ⟨m, r', hrun, hcase⟩ := writeProperty_deals plan target r p
  have hdealt : Detail plan vars m Anything := by
    cases hcase with
    | complain hd => exact .note _
    | skip ht | margin ht => exact .pure trivial
    | now ht => exact .emitAll fun s hs => minor_of_inert ((hnow _ ht).inert s hs)
    | later ht => exact .delay (minor_of_inert ((hlater _ ht).inert _ (by simp)))
    | set hd ht => exact detail_setProperty target p
  rw [hrun]
  exact hdealt.bind fun _ _ => .pure trivial

theorem detail_setAll (target : Target) (ps : List Property) :
    Detail plan vars (setAll plan target ps) Anything :=
  .bind (.foldlM ps (detail_writeProperty target) _) fun _ _ =>
    .ite _ (.inert (by simp [Expr.int, isFilling, isNumbered])) (.pure trivial)

theorem detail_writeProperties (target : Target) (ps : List Property) :
    Detail plan vars (writeProperties plan target ps) Anything := by
  rw [writeProperties_eq]
  refine .bind (.inert ?_) fun _ _ => detail_setAll target ps
  unfold Target.title
  split <;>
    simp [Stmt.setObjectName, Expr.utf8, Stmt.IsInert, Stmt.isRoutine, Stmt.args, isFilling]

theorem detail_raiseChildren (n : Node) : Detail plan vars (raiseChildren plan n) Anything :=
  .forM _ fun _ => .look (fun _ _ => .ite _ (.note _)
    (.ite _ (.inert (by simp [isFilling])) (.pure trivial))) fun _ _ => rfl

end Setup

end FormCompiler
