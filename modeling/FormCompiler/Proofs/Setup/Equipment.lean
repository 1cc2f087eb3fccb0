import FormCompiler.Proofs.Setup.Encounters

/-!
# The code that equips widgets

What is neither routine nor handles objects is notable (`Job.isNotable`): the items of combo boxes,
the creation of button groups, the buttons they get, and connections.  The notable code of a form is
that of its widgets in their order, and then the connections (`built_furnished`).  The code of a
widget depends on those before it, since a group is created with its first button, and on the whole
setup, which decides what variables icons and groups have: `Job.equipment` takes the names of the
groups that were joined before and the final builder.
-/

namespace FormCompiler.Setup

open Code Document Naming
open Header (groupNameIn groupNameIn_of_group)

variable {plan : Plan} {b b' b'' : Builder}

instance (plan : Plan) (v : Visit) (declared : String) : Decidable (Joins plan v declared) :=
  inferInstanceAs (Decidable (_ ∧ _ ∧ _))

/-! ## What stays known -/

/-- Icons and groups that have variables keep them. -/
structure Preserves (b b' : Builder) : Prop where
  icons : Continues (fun i => i.2 ≠ "") b.icons b'.icons
  groups : ∀ d g, b.session.table.group? d = some g → b'.session.table.group? d = some g

theorem Preserves.trans (h : Preserves b b') (h' : Preserves b' b'') : Preserves b b'' :=
  ⟨h.icons.trans h'.icons, fun d g hg => h'.groups d g (h.groups d g hg)⟩

theorem Appends.group? {P : Stmt → Prop} (h : Appends P b b') (d : String) :
    b'.session.table.group? d = b.session.table.group? d := by
  rw [Table.group?, Table.group?, h.groups]

theorem Appends.preserves {P : Stmt → Prop} (h : Appends P b b') : Preserves b b' :=
  ⟨h.icons, fun d _ hg => (h.group? d).trans hg⟩

/-! ## Pictures and items -/

/-- A picture as an argument, if icons have the given variables. -/
def pictureIn (plan : Plan) (icons : List (Icon × String)) : Picture → Expr
  | .icon i => .ref ((icons.lookup i).getD "")
  | .pixmap q => pictureExpr plan "QPixmap" q.text
  | .none => .code "QIcon()"

/-- The icon of an item as an argument. -/
def iconIn (plan : Plan) (icons : List (Icon × String)) (icon : Option Property) : List Expr :=
  icon.toList.map fun p => pictureIn plan icons p.picture

/-- What adds an item; a translated text is left out. -/
def addition (plan : Plan) (icons : List (Icon × String)) (name : String) (i : ComboItem) : Stmt :=
  .call name "addItem"
    (iconIn plan icons i.icon ++ [if i.isTranslated then .emptyText else plainText i.text ""])

/-- What fills a combo box at first. -/
def itemsCode (plan : Plan) (icons : List (Icon × String)) (name : String)
    (items : List ComboItem) : List Stmt :=
  if areUniform items then
    if items.all ComboItem.isTranslated then [] else [insertion name items]
  else items.map (addition plan icons name)

/-- What fills a combo box whenever the language changes. -/
def itemsTexts (name : String) (items : List ComboItem) : List Stmt :=
  if items.isEmpty then []
  else if areUniform items then
    if items.all ComboItem.isTranslated then [.call name "clear" [], insertion name items] else []
  else items.zipIdx.flatMap (renewal name)

theorem mem_itemsCode {icons : List (Icon × String)} {name : String} {items : List ComboItem}
    {s : Stmt} (hs : s ∈ itemsCode plan icons name items) :
    s = insertion name items ∨ ∃ i ∈ items, s = addition plan icons name i := by
  unfold itemsCode at hs
  split at hs
  · split at hs
    · cases hs
    · exact .inl (List.mem_singleton.mp hs)
  · obtain ⟨i, hi, rfl⟩ := List.mem_map.mp hs
    exact .inr ⟨i, hi, rfl⟩

theorem mem_itemsTexts {name : String} {items : List ComboItem} {s : Stmt}
    (hs : s ∈ itemsTexts name items) :
    s = .call name "clear" [] ∨ s = insertion name items ∨
      ∃ i ∈ items.zipIdx, s = .call name "setItemText" [.int i.2, translatedText i.1.text ""] := by
  unfold itemsTexts at hs
  repeat' split at hs
  · cases hs
  · rcases List.mem_cons.mp hs with rfl | hs
    · exact .inl rfl
    · exact .inr (.inl (List.mem_singleton.mp hs))
  · cases hs
  · obtain ⟨i, hi, hs⟩ := List.mem_flatMap.mp hs
    unfold renewal at hs
    split at hs
    · exact .inr (.inr ⟨i, hi, List.mem_singleton.mp hs⟩)
    · cases hs

theorem lookup_iconName (plan : Plan) (i : Icon) (b : Builder) :
    (iconName plan i b).2.icons.lookup i = some (iconName plan i b).1 := by
  cases hi : b.icons.lookup i with
  | some name => rw [Job.iconName_known plan hi, hi]
  | none =>
    rw [Job.iconName_new plan hi]
    change (b.icons ++ [(i, (freshName "icon" b).1)]).lookup i = _
    simp [List.lookup_append, hi]

theorem iconExpr_in {icons : List (Icon × String)} (property : String) (p : Picture)
    (h : (iconExpr plan property p b).2.icons <+: icons) :
    (iconExpr plan property p b).1 = pictureIn plan icons p := by
  cases p with
  | icon i =>
    rw [pictureIn, h.lookup_eq_some (lookup_iconName plan i b)]
    rfl
  | pixmap | none => rfl

theorem iconArgs_in {icons : List (Icon × String)} (icon : Option Property)
    (h : (iconArgs plan icon b).2.icons <+: icons) :
    (iconArgs plan icon b).1 = iconIn plan icons icon := by
  cases icon with
  | none => rfl
  | some p => exact congrArg (fun e => [e]) (iconExpr_in p.name p.picture h)

theorem appends_filling (f : Filling) : AppendsOnly (fun _ => True) (f.run plan) :=
  .bind ((detail_iconArgs f.icon).routine.mono fun _ _ => trivial) fun _ =>
    .bind (.emitAll fun _ _ => trivial) fun _ => .emitRetranslate fun _ _ => trivial

theorem appends_fillComboBox (name : String) (items : List ComboItem) :
    AppendsOnly (fun _ => True) (fillComboBox plan name items) := by
  rw [fillComboBox_eq]
  exact .forM _ appends_filling

theorem fillings_code (icons : List (Icon × String)) (name : String) (items : List ComboItem) :
    (fillings name items).flatMap (fun f => f.code (iconIn plan icons f.icon)) =
      itemsCode plan icons name items := by
  unfold fillings itemsCode
  split
  · rename_i hempty
    rw [List.isEmpty_iff.mp hempty]
    rfl
  · split
    · split <;> rfl
    · have hitems : items.map (addition plan icons name) =
          items.zipIdx.map (addition plan icons name ∘ Prod.fst) := by
        rw [← List.map_map, List.zipIdx_map_fst]
      rw [List.flatMap_append, List.flatMap_map, hitems, List.map_eq_flatMap]
      exact List.append_nil _

namespace Job

variable {job : Job} {l l' r r' : List Stmt} {v : Visit} {c : Context}

/-! ## Notable statements -/

/-- Whether a statement is neither routine nor handles objects. -/
def isNotable (job : Job) (s : Stmt) : Bool := !s.isRoutine && !job.handles s

theorem isNotable_of_quiet {s : Stmt} (h : job.Quiet s) : job.isNotable s = false := by
  rcases h with h | h <;> simp [isNotable, h]

/-- A piece of the setup with the notable code of both functions. -/
structure Shows (job : Job) (l r : List Stmt) (b b' : Builder) : Prop where
  setup : b'.setup.filter job.isNotable = b.setup.filter job.isNotable ++ l
  retranslate : b'.retranslate.filter job.isNotable = b.retranslate.filter job.isNotable ++ r
  delayed : b'.delayed.filter job.isNotable = b.delayed.filter job.isNotable
  actions : b'.delayedActions.filter job.isNotable = b.delayedActions.filter job.isNotable

namespace Shows

theorem refl (b : Builder) : job.Shows [] [] b b := ⟨by simp, by simp, rfl, rfl⟩

theorem trans (h : job.Shows l r b b') (h' : job.Shows l' r' b' b'') :
    job.Shows (l ++ l') (r ++ r') b b'' :=
  ⟨by rw [h'.setup, h.setup, List.append_assoc],
    by rw [h'.retranslate, h.retranslate, List.append_assoc],
    h'.delayed.trans h.delayed, h'.actions.trans h.actions⟩

theorem quiet (h : Appends job.Quiet b b') : job.Shows [] [] b b' where
  setup := by rw [h.setup.filter_eq fun _ => isNotable_of_quiet, List.append_nil]
  retranslate := by rw [h.retranslate.filter_eq fun _ => isNotable_of_quiet, List.append_nil]
  delayed := h.delayed.filter_eq fun _ => isNotable_of_quiet
  actions := h.actions.filter_eq fun _ => isNotable_of_quiet

theorem after (h : Appends job.Quiet b b') (h' : job.Shows l r b' b'') : job.Shows l r b b'' :=
  (Shows.quiet h).trans h'

theorem before (h : job.Shows l r b b') (h' : Appends job.Quiet b' b'') : job.Shows l r b b'' := by
  have hboth := h.trans (Shows.quiet h')
  rwa [List.append_nil, List.append_nil] at hboth

theorem emitAll (h : ∀ s ∈ l, job.isNotable s = true) (b : Builder) :
    job.Shows l [] b (emitAll l b).2 :=
  { Shows.refl b with
    setup := by
      change (b.setup ++ l).filter _ = _
      rw [List.filter_append, List.filter_eq_self.mpr h] }

theorem emit {s : Stmt} (h : job.isNotable s = true) (b : Builder) :
    job.Shows [s] [] b (emit s b).2 :=
  emitAll (by simpa using h) b

theorem emitRetranslate (r : List Stmt) (b : Builder) :
    job.Shows [] (r.filter job.isNotable) b (emitRetranslate r b).2 :=
  { Shows.refl b with retranslate := List.filter_append .. }

end Shows

/-! ## Combo boxes -/

theorem isNotable_clear (name : String) : job.isNotable (.call name "clear" []) = true := by
  simp [isNotable, Stmt.isRoutine, isFilling, handles]

theorem isNotable_renewal (name : String) (i : ComboItem × Nat) :
    ∀ s ∈ renewal name i, job.isNotable s = true := by
  intro s hs
  unfold renewal at hs
  split at hs
  · have hnone : job.handles (.call name "setItemText" [.int i.2, translatedText i.1.text ""]) =
        false := by
      refine handles_call fun x hx => ?_
      simp [Expr.int, Expr.uses, translatedText] at hx
      split at hx <;> cases hx
    rw [List.mem_singleton.mp hs, isNotable, hnone]
    rfl
  · cases hs

theorem isNotable_filling {name : String} {items : List ComboItem} {f : Filling}
    (hf : f.Fits name items) {icon : List Expr}
    (hicon : ∀ x ∈ icon.flatMap Expr.uses, job.isObject x = false) :
    ∀ s ∈ f.code icon, job.isNotable s = true := by
  have hhandles := handles_filling hf hicon
  cases hf with
  | insert | add =>
    refine List.forall_mem_singleton.mpr ?_
    rw [isNotable, hhandles _ (List.mem_singleton.mpr rfl)]
    rfl
  | renew | gap => exact fun s hs => by cases hs

theorem shows_filling (hb : job.unseen.Sound b) {name : String} {items : List ComboItem}
    {f : Filling} (hf : f.Fits name items) {icons : List (Icon × String)}
    (h : (f.run job.plan b).2.icons <+: icons) :
    job.Shows (f.code (iconIn job.plan icons f.icon)) (f.texts.filter job.isNotable) b
      (f.run job.plan b).2 := by
  obtain ⟨-, hother⟩ := adds_iconArgs hb f.icon
  have hquiet : Appends job.Quiet b (iconArgs job.plan f.icon b).2 :=
    quietly (detail_iconArgs f.icon).routine b
  have hwritten := (Shows.emitAll (isNotable_filling hf hother) _).trans
    (.emitRetranslate f.texts (emitAll (f.code (iconArgs job.plan f.icon b).1)
      (iconArgs job.plan f.icon b).2).2)
  rw [List.append_nil, List.nil_append] at hwritten
  rw [← iconArgs_in f.icon h]
  exact .after hquiet hwritten

theorem shows_fillings (hb : job.unseen.Sound b) {name : String} {items : List ComboItem}
    {fs : List Filling} (hfs : ∀ f ∈ fs, f.Fits name items) {icons : List (Icon × String)}
    (h : (fs.forM (Filling.run job.plan) b).2.icons <+: icons) :
    job.Shows (fs.flatMap fun f => f.code (iconIn job.plan icons f.icon))
      (fs.flatMap fun f => f.texts.filter job.isNotable) b
      (fs.forM (Filling.run job.plan) b).2 := by
  induction fs generalizing b with
  | nil => exact .refl b
  | cons f fs ih =>
    obtain ⟨hf, hfs⟩ := List.forall_mem_cons.mp hfs
    have hrest : AppendsOnly (fun _ => True) (fs.forM (Filling.run job.plan)) :=
      .forM _ appends_filling
    have hfirst := (hrest (f.run job.plan b).2).icons.prefix_of.trans h
    exact (shows_filling hb hf hfirst).trans (ih (adds_filling hb hf).sound hfs h)

theorem fillings_texts (name : String) (items : List ComboItem) :
    (fillings name items).flatMap (fun f => f.texts.filter job.isNotable) =
      itemsTexts name items := by
  unfold fillings itemsTexts
  repeat' split
  · rfl
  · simp [isNotable_clear]
    rfl
  · rfl
  · have hrenewal : ∀ i, (renewal name i).filter job.isNotable = renewal name i := fun i =>
      List.filter_eq_self.mpr (isNotable_renewal name i)
    rw [List.flatMap_append, List.flatMap_map]
    simp only [itemFilling, hrenewal]
    exact List.append_nil _

theorem shows_fillComboBox (hb : job.unseen.Sound b) (name : String) (items : List ComboItem)
    {icons : List (Icon × String)} (h : (fillComboBox job.plan name items b).2.icons <+: icons) :
    job.Shows (itemsCode job.plan icons name items) (itemsTexts name items) b
      (fillComboBox job.plan name items b).2 := by
  rw [fillComboBox_eq] at h ⊢
  have hshows := shows_fillings hb (fun f hf => fits_of_mem hf) h
  rwa [fillings_code, fillings_texts] at hshows

/-! ## Button groups -/

/-- The name under which a widget gives its group, if it is a button. -/
def joined? (job : Job) (v : Visit) : Option String :=
  if job.plan.classes.isButton (v.node.stringAttribute "class") = true then groupOf? v.node
  else none

theorem joined_eq_some {d : String} (hk : v.node.kind = .widget) :
    job.joined? v = some d ↔ Joins job.plan v d := by
  simp [joined?, Joins, hk]

/-- What creates the group of a name; one that the form does not declare is a local variable. -/
def groupCreation (job : Job) (x d : String) : Stmt :=
  if (job.table.group? d).isSome then .create x "QButtonGroup" [.ref job.plan.mainForm]
  else .createLocal x "QButtonGroup" [.ref job.plan.mainForm]

/-- What puts a widget into a group, if groups of the given names were joined before. -/
def enrolment (job : Job) (t : Table) (seen : List String) (d name : String) : List Stmt :=
  (if d ∈ seen then [] else [job.groupCreation (groupNameIn t d) d]) ++
    [.call (groupNameIn t d) "addButton" [.ref name]]

theorem mem_enrolment {t : Table} {seen : List String} {d name : String} {s : Stmt}
    (hs : s ∈ job.enrolment t seen d name) :
    d ∉ seen ∧ s = job.groupCreation (groupNameIn t d) d ∨
      s = .call (groupNameIn t d) "addButton" [.ref name] := by
  rcases List.mem_append.mp hs with hs | hs
  · split at hs
    · cases hs
    · exact .inl ⟨‹_›, List.mem_singleton.mp hs⟩
  · exact .inr (List.mem_singleton.mp hs)

/-- The groups known are those of the job and those joined, and those joined have been created. -/
structure Enlisted (job : Job) (seen : List String) (b : Builder) : Prop where
  known : ∀ d, (b.session.table.group? d).isSome = true ↔
    (job.table.group? d).isSome = true ∨ d ∈ seen
  created : ∀ x, x ∈ b.buttonGroups ↔ ∃ d ∈ seen, groupNameIn b.session.table d = x

namespace Enlisted

variable {seen : List String}

theorem group (h : job.Enlisted seen b) {d : String} (hd : d ∈ seen) :
    ∃ g, b.session.table.group? d = some g :=
  Option.isSome_iff_exists.mp ((h.known d).mpr (.inr hd))

theorem of_appends {P : Stmt → Prop} (h : job.Enlisted seen b) (h' : Appends P b b') :
    job.Enlisted seen b' where
  known d := by rw [h'.group? d, h.known d]
  created x := by
    simp only [groupNameIn, h'.group?, h'.buttonGroups]
    exact h.created x

section Later

variable {t : Table} {d : String} {g : Group} (h : job.Enlisted seen b)
  (hgrows : ∀ d g, b.session.table.group? d = some g → t.group? d = some g)

include h hgrows

/-- A group has been created if and only if a button has joined it. -/
theorem created_iff (ht : t.Distinct) (hg : t.group? d = some g) :
    g.name ∈ b.buttonGroups ↔ d ∈ seen := by
  rw [h.created]
  constructor
  · rintro ⟨d', hd', hname⟩
    obtain ⟨g', hg'⟩ := h.group hd'
    rw [groupNameIn_of_group hg'] at hname
    obtain rfl := ht.group_name (hgrows d' g' hg') hg hname
    exact hd'
  · intro hd
    obtain ⟨g', hg'⟩ := h.group hd
    obtain rfl := Option.some.inj ((hgrows d g' hg').symm.trans hg)
    exact ⟨d, hd, groupNameIn_of_group hg'⟩

theorem join (hg : t.group? d = some g)
    (honly : ∀ d' g', t.group? d' = some g' → b.session.table.group? d' = some g' ∨ d' = d)
    (hb' : ∀ d', b'.session.table.group? d' = t.group? d')
    (hnames : ∀ x, x ∈ b'.buttonGroups ↔ x = g.name ∨ x ∈ b.buttonGroups) :
    job.Enlisted (seen ++ [d]) b' where
  known d' := by
    rw [hb', List.mem_append, List.mem_singleton, ← or_assoc, ← h.known]
    simp only [Option.isSome_iff_exists]
    constructor
    · rintro ⟨g', hg'⟩
      exact (honly d' g' hg').imp_left fun hknown => ⟨g', hknown⟩
    · rintro (⟨g', hg'⟩ | rfl)
      · exact ⟨g', hgrows d' g' hg'⟩
      · exact ⟨g, hg⟩
  created x := by
    have hsame : ∀ d' ∈ seen, groupNameIn t d' = groupNameIn b.session.table d' := by
      intro d' hd'
      obtain ⟨g', hg'⟩ := h.group hd'
      rw [groupNameIn_of_group hg', groupNameIn_of_group (hgrows d' g' hg')]
    have hname : groupNameIn t d = g.name := groupNameIn_of_group hg
    have htable : ∀ d', groupNameIn b'.session.table d' = groupNameIn t d' := fun d' => by
      rw [groupNameIn, groupNameIn, hb']
    simp only [hnames, htable, h.created, List.mem_append, List.mem_singleton]
    constructor
    · rintro (rfl | ⟨d', hd', rfl⟩)
      · exact ⟨d, .inr rfl, hname⟩
      · exact ⟨d', .inl hd', hsame d' hd'⟩
    · rintro ⟨d', hd' | rfl, rfl⟩
      · exact .inr ⟨d', hd', (hsame d' hd').symm⟩
      · exact .inl hname

end Later

end Enlisted

/-- A widget is put into a group, which is created if it is the first one there. -/
theorem enrols {seen : List String} (hb : job.unseen.Sound b) (he : job.Enlisted seen b)
    (d name : String) {create : String → Stmt}
    (hcreate : ∀ x, job.isObject x = false → job.isNotable (create x) = true)
    (hfirst : d ∉ seen → ∀ x, create x = job.groupCreation x d) :
    let b' := (enrol job.plan c name (groupNodeIn b.session.table d) create b).2
    job.Enlisted (seen ++ [d]) b' ∧ Preserves b b' ∧ ∀ t : Table,
      (∀ d g, b'.session.table.group? d = some g → t.group? d = some g) →
        job.Shows (job.enrolment t seen d name) [] b b' := by
  have hd := groupNodeIn_name hb.distinct d
  obtain ⟨hdistinct, hgrows, g, hg, hname⟩ :=
    Table.nameOfGroup_spec b.session.table (groupNodeIn b.session.table d) hb.distinct
  have honly : ∀ d' g', (b.session.table.nameOfGroup (groupNodeIn b.session.table d)).2.1.group? d'
      = some g' → b.session.table.group? d' = some g' ∨ d' = d :=
    fun d' g' hg' => (Table.nameOfGroup_group hg').imp_right fun h => h.1.symm.trans hd
  have hother := (adds_nameOfGroup hb (groupNodeIn b.session.table d)).2
  have hcreated := he.created_iff hgrows.groups hdistinct (hd ▸ hg)
  rw [hd] at hg
  rw [← hname] at hother
  dsimp only
  rw [enrol_run, ← hname]
  generalize b.session.table.nameOfGroup (groupNodeIn b.session.table d) = r at *
  have hadd : job.isNotable (.call g.name "addButton" [.ref name]) = true := by
    rw [isNotable, handles_receiver hother]
    rfl
  -- The notable code, once the group has its final variable.
  have hfinal : ∀ t : Table, (∀ d g, r.2.1.group? d = some g → t.group? d = some g) →
      groupNameIn t d = g.name := fun t ht => groupNameIn_of_group (ht d g hg)
  -- Whether the group is there is asked of its variable, and `seen` has its declared name.
  by_cases hmem : g.name ∈ b.buttonGroups
  · rw [if_pos (List.contains_iff_mem.mpr hmem)]
    refine ⟨he.join hgrows.groups hg honly (fun _ => rfl) fun x => ?_,
      ⟨.refl _, hgrows.groups⟩, fun t ht => ?_⟩
    · exact (or_iff_right_of_imp (· ▸ hmem)).symm
    · rw [enrolment, hfinal t ht, if_pos (hcreated.mp hmem), List.nil_append]
      exact { Shows.emit hadd b with }
  · rw [if_neg (by simpa using hmem)]
    let b1 : Builder := { b with session := ⟨r.2.1, b.session.notices ++ r.2.2⟩,
                                 setup := b.setup ++ [create g.name],
                                 buttonGroups := g.name :: b.buttonGroups }
    have hprops : Appends job.Quiet b1
        (writeProperties job.plan (c.target g.name "QButtonGroup" false)
          (groupNodeIn b.session.table d).properties b1).2 :=
      quietly (detail_writeProperties _ _).routine b1
    have hjoined : job.Enlisted (seen ++ [d]) b1 :=
      he.join hgrows.groups hg honly (fun _ => rfl) fun x => List.mem_cons
    refine ⟨?_, ⟨hprops.icons, fun d' g' hg' => ?_⟩, fun t ht => ?_⟩
    · exact (hjoined.of_appends hprops).of_appends (@AppendsOnly.emit (fun _ => True) _ trivial _)
    · exact (hprops.group? d').trans (hgrows.groups d' g' hg')
    · have hnew : d ∉ seen := fun hd => hmem (hcreated.mpr hd)
      have ht' : ∀ d' g', r.2.1.group? d' = some g' → t.group? d' = some g' :=
        fun d' g' hg' => ht d' g' ((hprops.group? d').trans hg')
      have hone : job.Shows [create g.name] [] b b1 := { Shows.emit (hcreate _ hother) b with }
      rw [enrolment, hfinal t ht', if_neg hnew, ← hfirst hnew]
      exact (hone.before hprops).trans (.emit hadd _)

theorem joins {seen : List String} (hb : job.unseen.Sound b) (he : job.Enlisted seen b)
    {d : String} (name : String) {button : Node} (hd : groupOf? button = some d) :
    let b' := (joinButtonGroup job.plan c name button b).2
    job.Enlisted (seen ++ [d]) b' ∧ Preserves b b' ∧ ∀ t : Table,
      (∀ d g, b'.session.table.group? d = some g → t.group? d = some g) →
        job.Shows (job.enrolment t seen d name) [] b b' := by
  let b1 := (announce job.plan b.session.table d b).2
  have happends : AppendsOnly job.Quiet (announce job.plan b.session.table d) :=
    .ite _ (.note _ _) (.pure _)
  have hquiet : Appends job.Quiet b b1 := happends b
  have hsound := (adds_announce hb b.session.table d).sound
  have he1 := he.of_appends hquiet
  have hcreate : ∀ x, job.isObject x = false →
      job.isNotable (createGroup job.plan b1.session.table d x) = true := by
    intro x hx
    rw [isNotable, handles_createGroup _ d hx]
    unfold createGroup
    split <;> rfl
  have hfirst : d ∉ seen → ∀ x,
      createGroup job.plan b1.session.table d x = job.groupCreation x d := by
    intro hnew x
    rw [createGroup, groupCreation]
    simp only [he1.known d, hnew, or_false]
  obtain ⟨h1, h2, h3⟩ := enrols (c := c) hsound he1 d name hcreate hfirst
  dsimp only
  rw [joinButtonGroup_run job.plan hd]
  exact ⟨h1, hquiet.preserves.trans h2, fun t ht => .after hquiet (h3 t ht)⟩

/-! ## Widgets -/

/-- The items of a widget, if it is a combo box. -/
def items (job : Job) (v : Visit) : List ComboItem :=
  if job.plan.classes.derives (v.node.stringAttribute "class") "QComboBox" = true then
    (v.node.children "item").map ComboItem.ofNode
  else []

/-- The notable code of a widget in the setup function. -/
def outfit (job : Job) (final : Builder) (seen : List String) (v : Visit) : List Stmt :=
  itemsCode job.plan final.icons (job.name v) (job.items v) ++
    (job.joined? v).toList.flatMap (job.enrolment final.session.table seen · (job.name v))

/-- The notable code of widgets in the setup function, one after the other. -/
def equipment (job : Job) (final : Builder) : List String → List Visit → List Stmt
  | _, [] => []
  | seen, v :: l =>
    job.outfit final seen v ++ job.equipment final (seen ++ (job.joined? v).toList) l

/-- The notable code of a widget in the retranslate function. -/
def texts (job : Job) (v : Visit) : List Stmt := itemsTexts (job.name v) (job.items v)

theorem equipment_append (final : Builder) (seen : List String) (l l' : List Visit) :
    job.equipment final seen (l ++ l') =
      job.equipment final seen l ++ job.equipment final (seen ++ l.filterMap job.joined?) l' := by
  induction l generalizing seen with
  | nil => simp [equipment]
  | cons v l ih =>
    have hseen : seen ++ (v :: l).filterMap job.joined? =
        seen ++ (job.joined? v).toList ++ l.filterMap job.joined? := by
      rw [List.filterMap_cons]
      cases job.joined? v <;> simp
    rw [List.cons_append, equipment, equipment, ih, hseen, ← List.append_assoc]

theorem mem_equipment {final : Builder} {seen : List String} {l : List Visit} {s : Stmt}
    (hs : s ∈ job.equipment final seen l) :
    ∃ v ∈ l, s ∈ itemsCode job.plan final.icons (job.name v) (job.items v) ∨
      ∃ d seen, job.joined? v = some d ∧
        s ∈ job.enrolment final.session.table seen d (job.name v) := by
  induction l generalizing seen with
  | nil => cases hs
  | cons v l ih =>
    rcases List.mem_append.mp hs with hs | hs
    · refine ⟨v, List.mem_cons_self .., (List.mem_append.mp hs).imp_right fun hs => ?_⟩
      obtain ⟨d, hd, hs⟩ := List.mem_flatMap.mp hs
      exact ⟨d, seen, Option.mem_toList.mp hd, hs⟩
    · obtain ⟨w, hw, hcode⟩ := ih hs
      exact ⟨w, List.mem_cons_of_mem v hw, hcode⟩

/-- A piece of the setup that meets widgets in their order, where groups of the given names were
joined before. -/
structure Furnishes (job : Job) (seen : List String) (l : List Visit) (b b' : Builder) : Prop where
  enlisted : job.Enlisted (seen ++ l.filterMap job.joined?) b'
  preserves : Preserves b b'
  shows : ∀ final, Preserves b' final →
    job.Shows (job.equipment final seen l) (l.flatMap job.texts) b b'

theorem equip_joined (job : Job) (c : Context) (v : Visit) (b : Builder) :
    let b' := (fillComboBox job.plan (job.name v) (job.items v) b).2
    (equip job.plan c (job.name v) v.node b).2 =
      if (job.joined? v).isSome then (joinButtonGroup job.plan c (job.name v) v.node b').2
      else b' := by
  have hfill : (fillComboBox job.plan (job.name v) (job.items v) b).2 =
      if job.plan.classes.derives (v.node.stringAttribute "class") "QComboBox" = true then
        (fillComboBox job.plan (job.name v) ((v.node.children "item").map ComboItem.ofNode) b).2
      else b := by
    unfold items
    split <;> rfl
  dsimp only
  rw [equip_run, ← hfill, joined?]
  split
  · cases hd : groupOf? v.node with
    | none => rw [joinButtonGroup_none job.plan hd]; rfl
    | some d => rfl
  · rfl

theorem furnishes_widget {seen : List String} (hb : job.unseen.Sound b)
    (he : job.Enlisted seen b) :
    job.Furnishes seen [v] b (equip job.plan c (job.name v) v.node b).2 := by
  have happends := @appends_fillComboBox job.plan (job.name v) (job.items v) b
  have hsound := (adds_fillComboBox hb (job.name v) (job.items v)).sound
  have hfill := @shows_fillComboBox b job hb (job.name v) (job.items v)
  rw [equip_joined]
  cases hd : job.joined? v with
  | none =>
    refine ⟨by simpa [hd] using he.of_appends happends, happends.preserves, fun final hfinal => ?_⟩
    simpa [equipment, outfit, texts, hd] using hfill hfinal.icons.prefix_of
  | some d =>
    have hgroup : groupOf? v.node = some d := by
      unfold joined? at hd
      split at hd
      · exact hd
      · cases hd
    obtain ⟨h1, h2, h3⟩ :=
      joins (c := c) hsound (he.of_appends happends) (job.name v) hgroup
    refine ⟨by simpa [hd] using h1, happends.preserves.trans h2, fun final hfinal => ?_⟩
    have hboth := (hfill (h2.trans hfinal).icons.prefix_of).trans (h3 _ hfinal.groups)
    simpa [equipment, outfit, texts, hd] using hboth

theorem Equips.furnishes {l : List Visit} (h : job.Equips l b b') {seen : List String}
    (he : job.Enlisted seen b) : job.Furnishes seen l b b' := by
  induction h generalizing seen with
  | quiet h =>
    refine ⟨by simpa using he.of_appends h, h.preserves, fun final _ => ?_⟩
    exact Shows.quiet h
  | widget c hv hk hb => exact furnishes_widget hb he
  | trans _ _ ih ih' =>
    -- The second piece finds the groups that the first one has joined.
    have h1 := ih he
    have h2 := ih' h1.enlisted
    refine ⟨?_, h1.preserves.trans h2.preserves, fun final hfinal => ?_⟩
    · rw [List.filterMap_append, ← List.append_assoc]
      exact h2.enlisted
    · rw [equipment_append, List.flatMap_append]
      exact (h1.shows final (h2.preserves.trans hfinal)).trans (h2.shows final hfinal)

/-! ## The whole setup -/

/-- The groups that buttons of the form join, in the order of the buttons. -/
def joinedGroups (job : Job) : List String :=
  (job.form.visits.filter isWidget).filterMap job.joined?

theorem mem_joinedGroups {d : String} :
    d ∈ job.joinedGroups ↔ ∃ v ∈ job.form.visits, Joins job.plan v d := by
  simp only [joinedGroups, List.mem_filterMap, mem_widgets]
  constructor
  · rintro ⟨v, ⟨hv, hk⟩, hd⟩
    exact ⟨v, hv, (joined_eq_some hk).mp hd⟩
  · rintro ⟨v, hv, hjoins⟩
    exact ⟨v, ⟨hv, hjoins.1⟩, (joined_eq_some hjoins.1).mpr hjoins⟩

theorem isNotable_connectionStmts (f : Form) (t : Table) :
    ∀ s ∈ connectionStmts f t, job.isNotable s = true := by
  intro s hs
  obtain ⟨n, sender, receiver, -, -, rfl⟩ := mem_connectionStmts hs
  rfl

theorem filter_closing (f : Form) {b : Builder} (hdelayed : b.delayed.filter job.isNotable = [])
    (hactions : b.delayedActions.filter job.isNotable = []) :
    (closing job.plan f b).filter job.isNotable = connectionStmts f b.session.table := by
  have hconnect := List.filter_eq_self.mpr (@isNotable_connectionStmts job f b.session.table)
  have hrun : ∀ function, function ≠ "QObject::connect" →
      job.isNotable (.run function [.ref job.plan.mainForm]) = false := by
    intro function h
    simp [isNotable, Stmt.isRoutine, h]
  have hblank : job.isNotable .blank = false := rfl
  have h1 : (if !b.delayedActions.isEmpty then .blank :: b.delayedActions else []).filter
      job.isNotable = [] := by
    split <;> simp [hblank, hactions]
  have h2 : (if !b.delayed.isEmpty then [.blank] ++ b.delayed ++ [.blank] else []).filter
      job.isNotable = [] := by
    split
    · rw [List.filter_append, List.filter_append, hdelayed]
      simp [hblank]
    · rfl
  have h3 : (if job.plan.options.autoConnection then
      [.blank, .run "QMetaObject::connectSlotsByName" [.ref job.plan.mainForm]]
      else []).filter job.isNotable = [] := by
    split <;> simp [hblank, hrun]
  have h4 : [Stmt.blank, .run "retranslateUi" [.ref job.plan.mainForm]].filter job.isNotable =
      [] := by
    simp [hblank, hrun]
  rw [closing, List.filter_append, List.filter_append, List.filter_append, List.filter_append, h1,
    h2, h3, h4, hconnect]
  simp

/-- What the setup of a form leaves: the groups that are known, and the notable code of the
functions, which is that of the widgets in their order and then that of the connections. -/
structure Furnished (job : Job) (b : Builder) : Prop where
  sound : job.unseen.Sound b
  enlisted : job.Enlisted job.joinedGroups b
  kept : ∀ d g, job.table.group? d = some g → b.session.table.group? d = some g
  icons : ∀ i ∈ b.icons, i.2 ≠ ""
  setup : b.setup.filter job.isNotable =
    job.equipment b [] (job.form.visits.filter isWidget) ++
      connectionStmts job.form b.session.table
  retranslate : b.retranslate.filter job.isNotable =
    (job.form.visits.filter isWidget).flatMap job.texts

theorem built_furnished (hj : job.Named) (hwell : Node.All Node.WellFormed job.form.node)
    {s : Session} (hs : s.table = job.table) : job.Furnished (built job.plan job.form s) := by
  have hstart : job.Enlisted [] { session := s } := ⟨fun d => by simp [hs], fun x => by simp⟩
  have hwalk := (equips_walk hj hwell hs).furnishes hstart
  let b := built job.plan job.form s
  let b1 := (job.form.node.walk (walker job.plan) {} [] { session := s }).2
  let names := ((job.form.node.child? "tabstops").map (·.strings "tabstop")).getD []
  let b2 := (writeTabStops job.plan names (writeBuddies job.plan b1).2).2
  have hlinks : Appends job.Quiet b1 b2 :=
    (quietly (routine_writeBuddies job.plan) b1).trans (quietly (routine_writeTabStops _ names) _)
  have hb : b = (emitAll (closing job.plan job.form b2) b2).2 := link_run job.plan job.form b1
  have hlast : Appends (fun _ => True) b2 b := by
    rw [hb]
    exact AppendsOnly.emitAll (fun _ _ => trivial) b2
  have hrest : Preserves b1 b := hlinks.preserves.trans hlast.preserves
  have hpreserves := hwalk.preserves.trans hrest
  have hshows := (hwalk.shows b hrest).before hlinks
  have hsetup : b.setup = b2.setup ++ closing job.plan job.form b2 := congrArg (·.setup) hb
  have hretranslate : b.retranslate = b2.retranslate := congrArg (·.retranslate) hb
  have htable : b.session.table = b2.session.table := congrArg (·.session.table) hb
  have hclosing := filter_closing job.form hshows.delayed hshows.actions
  refine ⟨(built_assembly job.unseen hj hwell hs).1, ?_, fun d g hg => ?_, fun i hi => ?_, ?_, ?_⟩
  · exact (hwalk.enlisted.of_appends hlinks).of_appends hlast
  · exact hpreserves.groups d g (hs ▸ hg)
  · obtain ⟨more, hicons, hmore⟩ := hpreserves.icons
    exact hmore i (by simpa [show b.icons = _ from hicons] using show i ∈ b.icons from hi)
  · change b.setup.filter job.isNotable = _ ++ connectionStmts job.form b.session.table
    rw [hsetup, htable, ← hclosing, List.filter_append, hshows.setup]
    rfl
  · change b.retranslate.filter job.isNotable = _
    rw [hretranslate, hshows.retranslate]
    rfl

/-- What shows only in notable statements is to be seen in the notable code of a function. -/
theorem filter_notable {p : Stmt → Bool} (h : ∀ s, p s = true → job.isNotable s = true)
    (l : List Stmt) : l.filter p = (l.filter job.isNotable).filter p := by
  rw [List.filter_filter]
  refine List.filter_congr fun s _ => ?_
  cases hp : p s with
  | false => rfl
  | true => rw [h s hp]; rfl

theorem Valid.group_isSome (hj : job.Valid) {d : String} :
    (job.table.group? d).isSome = true ↔ d ∈ Header.declaredGroups job.form := by
  rw [Option.isSome_iff_exists]
  refine ⟨fun ⟨g, hg⟩ => ?_, hj.groups d⟩
  have hnode := hj.nodes d g hg
  exact List.mem_map.mpr ⟨g.node, List.mem_of_find?_eq_some hnode, by
    simpa using List.find?_some hnode⟩

namespace Furnished

variable {d d' : String} {g g' : Group}

section Groups

variable (h : job.Furnished b)

include h

/-- What does not show in connections is to be seen in the code of the widgets. -/
theorem filter_equipment {p : Stmt → Bool}
    (hp : ∀ args, p (.run "QObject::connect" args) = false) :
    (b.setup.filter job.isNotable).filter p =
      (job.equipment b [] (job.form.visits.filter isWidget)).filter p := by
  have hconnections : (connectionStmts job.form b.session.table).filter p = [] := by
    refine List.filter_eq_nil_iff.mpr fun s hs => ?_
    obtain ⟨n, sender, receiver, -, -, rfl⟩ := mem_connectionStmts hs
    simp [hp]
  rw [h.setup, List.filter_append, hconnections, List.append_nil]

theorem group_of_joins (hv : v ∈ job.form.visits) (hjoins : Joins job.plan v d) :
    ∃ g, b.session.table.group? d = some g :=
  h.enlisted.group (mem_joinedGroups.mpr ⟨v, hv, hjoins⟩)

theorem isObject_group (hg : b.session.table.group? d = some g) :
    job.isObject (groupNameIn b.session.table d) = false := by
  refine isObject_false.mpr fun e he => ?_
  rw [groupNameIn_of_group hg]
  exact h.sound.distinct.entry_ne_group (h.sound.entries ▸ he) (Table.group_mem hg).1

theorem group_injective (hg : b.session.table.group? d = some g)
    (hg' : b.session.table.group? d' = some g')
    (hname : groupNameIn b.session.table d = groupNameIn b.session.table d') : d = d' := by
  rw [groupNameIn_of_group hg, groupNameIn_of_group hg'] at hname
  exact h.sound.distinct.group_name hg hg' hname

theorem groupNameIn_kept (hg : job.table.group? d = some g) :
    groupNameIn b.session.table d = groupNameIn job.table d := by
  rw [groupNameIn_of_group hg, groupNameIn_of_group (h.kept d g hg)]

end Groups

end Furnished

end Job

section Declaration

variable (o : Options) (document : Nat) {f : Form} {root : Visit} {s : Session}
  (hk : f.node.kind = .ui) (hw : Node.All Node.WellFormed f.node)
  (hroot : f.rootVisit? = some root) (hd : s.table.Distinct)

include hk hw hroot hd

theorem declaration_texts :
    let job := jobOf o document f root s
    ((Header.declaration o document f root).run s).1.functions.retranslate.filter job.isNotable =
      (f.visits.filter Job.isWidget).flatMap job.texts := by
  intro job
  have hj : job.Named := jobOf_named o document hk hw hroot hd
  have hfurnished := Job.built_furnished hj hw (s := (Header.naming document f root s).2) rfl
  have hretranslate :=
    congrArg Functions.retranslate (declared_functions o document hk hw hroot hd).1
  have hunused : (if (built job.plan f (Header.naming document f root s).2).retranslatesForm then []
      else [Stmt.unused job.plan.mainForm]).filter job.isNotable = [] := by
    split <;> rfl
  refine (congrArg (List.filter job.isNotable) hretranslate).trans ?_
  rw [Header.functionsOf, List.filter_append]
  exact (congrArg (_ ++ ·) hunused).trans ((List.append_nil _).trans hfurnished.retranslate)

end Declaration

end FormCompiler.Setup
