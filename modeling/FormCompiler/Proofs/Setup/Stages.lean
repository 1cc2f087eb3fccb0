import FormCompiler.Proofs.Setup.Painting

/-!
# Stages of the setup

While a form is set up, the requests dealt with so far have been served (`Job.Stage`).  Whatever is
done for the properties of an object serves the requests of these properties.
-/

namespace FormCompiler.Setup

open Code Document Naming

variable {plan : Plan} {rs : List Request} {b b' : Builder} {known : List String} {l : List Stmt}

/-! ## Code about objects -/

/-- Plain code about known names. -/
def Regards (known : List String) (l : List Stmt) : Prop :=
  ∀ s ∈ l, s.isPlain = true ∧ ∀ x ∈ s.names, x ∈ known

namespace Regards

theorem of_calls (hl : Calls known l) (hplain : ∀ s ∈ l, s.isPlain = true) : Regards known l := by
  intro s hs
  refine ⟨hplain s hs, fun x hx => (hl s hs).2 x ?_⟩
  exact (Stmt.mem_names.mp hx).resolve_left (by simp [(hl s hs).1])

theorem of_tunes {name : String} (hl : Tunes name l) (hname : name ∈ known) :
    Regards known l := by
  refine of_calls (hl.calls hname) fun s hs => ?_
  match s, hl s hs with
  | .call .., _ | .ifNotDefined _, _ | .endIf, _ => rfl

theorem append {l' : List Stmt} (h : Regards known l) (h' : Regards known l') :
    Regards known (l ++ l') :=
  List.forall_mem_append.mpr ⟨h, h'⟩

theorem mono {known' : List String} (h : Regards known l) (hk : known ⊆ known') :
    Regards known' l :=
  fun s hs => ⟨(h s hs).1, fun x hx => hk ((h s hs).2 x hx)⟩

theorem guard (symbol : Option String) (h : Regards known l) :
    Regards known (guarded symbol l) :=
  forall_mem_guarded symbol (fun _ => ⟨rfl, by simp [Stmt.names, Stmt.assigns, Stmt.uses]⟩)
    ⟨rfl, by simp [Stmt.names, Stmt.assigns, Stmt.uses]⟩ h

theorem call {name method : String} {args : List Expr} (hname : name ∈ known)
    (hargs : ∀ x ∈ args.flatMap Expr.uses, x ∈ known) :
    Regards known [.call name method args] := by
  refine of_calls (Job.call_calls hname hargs) ?_
  simp [Stmt.isPlain]

theorem create {name className : String} {args : List Expr} (hname : name ∈ known)
    (hargs : ∀ x ∈ args.flatMap Expr.uses, x ∈ known) :
    Regards known [.create name className args] := by
  simp only [Regards, List.forall_mem_singleton]
  refine ⟨rfl, fun x hx => ?_⟩
  rcases List.mem_cons.mp hx with rfl | hx
  · exact hname
  · exact hargs x hx

end Regards

theorem fits_regards (hb : Tidy plan rs b) (hl : Regards b.session.table.names l) :
    Fits rs b [] l where
  named s hs x hx := .inl (hb.unshared_object ((hl s hs).2 x hx))
  brings := locals_of_plain fun s hs => (hl s hs).1
  declared s hs x hx := by
    rw [Stmt.declares_of_plain (hl s hs).1] at hx
    cases hx
  pending := by simp
  nodup := .nil
  assigns x hx := by
    obtain ⟨s, hs, hx⟩ := names_of_assigned hx
    exact .inl ((hl s hs).2 x hx)
  modifies x hx := by
    obtain ⟨s, hs, hx⟩ := names_of_modified hx
    exact hb.not_painted_object ((hl s hs).2 x hx)
  unshared s hs := sharedName_of_plain (hl s hs).1
  themeless s hs := Stmt.isTheme_of_plain (hl s hs).1

/-! ## Uses of values -/

theorem infix_emitAll (l : List Stmt) (b : Builder) : l <:+: (emitAll l b).2.setup :=
  (List.suffix_append b.setup l).isInfix

section Uses

variable (hb : Tidy plan rs b)

include hb

theorem serves_shared (u : Use Shared) (hu : .shared u ∈ rs)
    (hcalls : ∀ x, Calls (x :: b.session.table.names) (u.code x ""))
    (hplain : ∀ x, ∀ s ∈ u.code x "", s.isPlain = true) :
    let r := u.value.nameIn plan b
    Serves plan rs [.shared u] b (emitAll (u.code r.1 "") r.2).2 := by
  intro r
  obtain ⟨s1, hvar, -⟩ := evolves_nameIn hb ⟨u, hu, rfl⟩
  have hfits : Fits rs r.2 [] (u.code r.1 "") := by
    refine fits_calls _ (hcalls r.1) (hplain r.1) (fun s hs z hz _ => ?_) fun z hz => ?_
    · rcases List.mem_cons.mp hz with rfl | hz
      · exact .inr ⟨u, "", hu, hvar, hs⟩
      · exact .inl (s1.unshared (hb.unshared_object hz))
    · obtain ⟨s, hs, hz⟩ := names_of_modified hz
      have huses : z ∈ s.uses :=
        (Stmt.mem_names.mp hz).resolve_left (by simp [(hcalls r.1 s hs).1])
      rcases List.mem_cons.mp ((hcalls r.1 s hs).2 z huses) with rfl | hz
      · exact .inr (s1.tidy.not_painted hvar)
      · exact s1.tidy.not_painted_object (s1.leaves.names ▸ hz)
  have s2 := evolves_emit s1.tidy hfits
  refine ⟨s1.trans s2, List.forall_mem_singleton.mpr ?_⟩
  exact ⟨r.1, "", s2.later.vars _ hvar, infix_emitAll _ _⟩

theorem evolves_use {x : String} (hx : b.Unshared x) (hl : Calls (x :: b.session.table.names) l)
    (hplain : ∀ s ∈ l, s.isPlain = true) (hmodified : modified l = []) :
    Evolves plan rs b (emitAll l b).2 := by
  have hfits : Fits rs b [] l := by
    refine fits_calls _ hl hplain (fun s _ z hz _ => .inl ?_) (by simp [hmodified])
    rcases List.mem_cons.mp hz with rfl | hz
    · exact hx
    · exact hb.unshared_object hz
  exact evolves_emit hb hfits

theorem serves_brush (u : Use Brush) (hu : .brush u ∈ rs)
    (hrs : ∀ r ∈ textureRequests u.value, r ∈ rs)
    (hcalls : ∀ x, Calls (x :: b.session.table.names) (u.code x ""))
    (hplain : ∀ x, ∀ s ∈ u.code x "", s.isPlain = true)
    (hmodified : ∀ x, modified (u.code x "") = []) :
    let r := brushName plan u.value b
    Serves plan rs (.brush u :: textureRequests u.value) b (emitAll (u.code r.1 "") r.2).2 := by
  have hbrush := serves_brushName hb ⟨u, hu, rfl⟩ hrs
  generalize brushName plan u.value b = r at hbrush ⊢
  obtain ⟨s1, hname, after, hdepicts⟩ := hbrush
  have s2 := evolves_use s1.tidy hname (by rw [s1.leaves.names]; exact hcalls r.1) (hplain r.1)
    (hmodified r.1)
  refine ⟨s1.toEvolves.trans s2, List.forall_mem_cons.mpr ⟨?_, (s1.followed s2).served⟩⟩
  exact hdepicts.used s2.later

theorem serves_palette (p : Palette) (code : Expr → List Stmt)
    (hrs : ∀ r ∈ paletteRequests p, r ∈ rs)
    (hcalls : ∀ x, Calls (x :: b.session.table.names) (code (.ref x)))
    (hplain : ∀ x, ∀ s ∈ code (.ref x), s.isPlain = true)
    (hmodified : ∀ x, modified (code (.ref x)) = []) :
    let r := paletteName plan p b
    Serves plan rs (paletteRequests p) b (emitAll (code (.ref r.1)) r.2).2 := by
  have hpalette := serves_paletteName hb p hrs
  generalize paletteName plan p b = r at hpalette ⊢
  obtain ⟨s1, hname⟩ := hpalette
  have s2 := evolves_use s1.tidy hname (by rw [s1.leaves.names]; exact hcalls r.1) (hplain r.1)
    (hmodified r.1)
  exact s1.followed s2

end Uses

/-! ## Properties -/

theorem setterCode_calls (plan : Plan) (target : Target) (p : Property) {e : Expr}
    (ht : target.name ∈ known) (he : ∀ x ∈ e.uses, x ∈ known) :
    Calls known (setterCode plan target p e) := by
  obtain ⟨hassigns, huses⟩ := Job.setterStmt_uses plan target p e
  refine guarded_calls _ (Calls.cons hassigns ?_ Calls.nil)
  rw [huses]
  exact List.forall_mem_cons.mpr ⟨ht, he⟩

theorem setterCode_plain (plan : Plan) (target : Target) (p : Property) (e : Expr) :
    ∀ s ∈ setterCode plan target p e, s.isPlain = true := by
  have hsetter : (setterStmt plan target p e).isPlain = true := by
    unfold setterStmt
    dsimp only
    split <;> rfl
  unfold setterCode guarded
  split
  · simpa [Stmt.isPlain] using hsetter
  · simpa using hsetter

theorem setterCode_modified (plan : Plan) (target : Target) (p : Property) (e : Expr) :
    modified (setterCode plan target p e) = [] := by
  have hsetter : (setterStmt plan target p e).modifies? = none := by
    unfold setterStmt
    dsimp only
    split <;> rfl
  refine List.filterMap_eq_nil_iff.mpr ?_
  unfold setterCode guarded
  split
  · simpa [Stmt.modifies?] using hsetter
  · simpa using hsetter

theorem valueRequests_none {v : Value} (hv : hasVariable v = false) (setter : Expr → List Stmt)
    (name : String) : valueRequests setter name v = [] := by
  cases v
  case font | icon | sizePolicy | brush | palette => cases hv
  all_goals rfl

theorem evolves_valueExpr (hb : Tidy plan rs b) (target : Target) (p : Property)
    (hp : hasVariable p.value = false) :
    Evolves plan rs b (valueExpr plan target p b).2 ∧ (valueExpr plan target p b).1.uses = [] := by
  obtain ⟨name, stdset, value⟩ := p
  cases value
  case font | icon | palette | brush | sizePolicy => cases hp
  case pixmap q => exact ⟨.refl hb, Job.pictureExpr_uses plan "QPixmap" q.text⟩
  case cstring text =>
    by_cases hbuddy : name = "buddy" ∧ plan.classes.derives target.className "QLabel"
    · rw [show valueExpr plan target ⟨name, stdset, .cstring text⟩ b = _ from
        congrFun (if_pos hbuddy) b]
      exact ⟨evolves_same hb rfl rfl rfl rfl rfl { Leaves.refl b with }, rfl⟩
    · rw [show valueExpr plan target ⟨name, stdset, .cstring text⟩ b = _ from
        congrFun (if_neg hbuddy) b]
      cases usesSetter plan ⟨name, stdset, .cstring text⟩ <;> exact ⟨.refl hb, rfl⟩
  case string s =>
    by_cases hsame : name = "objectName" ∧ s.text = target.name
    · rw [show valueExpr plan target ⟨name, stdset, .string s⟩ b = _ from
        congrFun (if_pos hsame) b]
      exact ⟨.refl hb, rfl⟩
    · rw [show valueExpr plan target ⟨name, stdset, .string s⟩ b = _ from
        congrFun (if_neg hsame) b]
      exact ⟨.refl hb, shownText_uses (some s) ""⟩
  case stringList l =>
    refine ⟨.refl hb, ?_⟩
    cases h : l.translatable <;> simp [valueExpr, h, pure_run, Expr.uses]
  all_goals exact ⟨.refl hb, rfl⟩

theorem setProperty_run (plan : Plan) (target : Target) (p : Property) (b : Builder) :
    let r := valueExpr plan target p b
    let b1 := (emitIn (propertySection p) (setterCode plan target p r.1) r.2).2
    (setProperty plan target p b).2 = if r.1.isVoid = true then r.2
      else if target.name = plan.mainForm ∧ propertySection p = .retranslate then
        { b1 with retranslatesForm := true }
      else b1 := by
  simp only [setProperty, bind_run, ite_run, pure_run, modify_run]
  split
  · rfl
  · split <;> rfl

/-- A value with a variable is set in the setup function. -/
theorem setProperty_ref {target : Target} {p : Property} {x : String}
    (h : valueExpr plan target p b = (.ref x, b')) (hp : propertySection p = .setup) :
    (setProperty plan target p b).2 = (emitAll (setterCode plan target p (.ref x)) b').2 := by
  rw [setProperty_run, h, hp, if_neg (by simp [Expr.isVoid]), if_neg (by simp)]
  rfl

theorem evolves_plainProperty (hb : Tidy plan rs b) (target : Target) (p : Property)
    (ht : target.name ∈ b.session.table.names) (hp : hasVariable p.value = false) :
    Evolves plan rs b (setProperty plan target p b).2 := by
  obtain ⟨s1, huses⟩ := evolves_valueExpr hb target p hp
  have hcode : Regards (valueExpr plan target p b).2.session.table.names
      (setterCode plan target p (valueExpr plan target p b).1) := by
    refine .of_calls (setterCode_calls plan target p ?_ (by simp [huses]))
      (setterCode_plain plan target p _)
    rw [s1.leaves.names]
    exact ht
  have s2 : Evolves plan rs (valueExpr plan target p b).2
      (emitIn (propertySection p) (setterCode plan target p (valueExpr plan target p b).1)
        (valueExpr plan target p b).2).2 := by
    cases propertySection p with
    | setup => exact evolves_emit s1.tidy (fits_regards s1.tidy hcode)
    | retranslate => exact evolves_same s1.tidy rfl rfl rfl rfl rfl { Leaves.refl _ with }
  rw [setProperty_run]
  split
  · exact s1
  · split
    · exact (s1.trans s2).trans (evolves_same s2.tidy rfl rfl rfl rfl rfl { Leaves.refl _ with })
    · exact s1.trans s2

theorem serves_setProperty (hb : Tidy plan rs b) (target : Target) (p : Property)
    (ht : target.name ∈ b.session.table.names)
    (hrs : ∀ r ∈ valueRequests (setterCode plan target p) target.name p.value, r ∈ rs) :
    Serves plan rs (valueRequests (setterCode plan target p) target.name p.value) b
      (setProperty plan target p b).2 := by
  have hcalls : ∀ x, Calls (x :: b.session.table.names) (setterCode plan target p (.ref x)) :=
    fun x => setterCode_calls plan target p (List.mem_cons_of_mem _ ht) (by simp [Expr.uses])
  have hplain : ∀ x, ∀ s ∈ setterCode plan target p (.ref x), s.isPlain = true :=
    fun x => setterCode_plain plan target p (.ref x)
  have hmodified : ∀ x, modified (setterCode plan target p (.ref x)) = [] :=
    fun x => setterCode_modified plan target p (.ref x)
  by_cases hp : hasVariable p.value = false
  · rw [valueRequests_none hp]
    exact .nil (evolves_plainProperty hb target p ht hp)
  · cases hvalue : p.value <;> rw [hvalue] at hp <;>
      simp only [hasVariable, not_true_eq_false] at hp
    case font f =>
      have hrun : valueExpr plan target p b = (.ref (fontName f b).1, (fontName f b).2) := by
        simp only [valueExpr, hvalue]
        rfl
      rw [hvalue] at hrs
      rw [setProperty_ref hrun (by rw [propertySection, hvalue])]
      exact serves_shared hb ⟨.font f, fun x _ => setterCode plan target p (.ref x)⟩
        (hrs _ (List.mem_singleton.mpr rfl)) hcalls hplain
    case icon i =>
      have hrun : valueExpr plan target p b =
          (.ref (iconName plan i b).1, (iconName plan i b).2) := by
        simp only [valueExpr, hvalue]
        rfl
      rw [hvalue] at hrs
      rw [setProperty_ref hrun (by rw [propertySection, hvalue])]
      exact serves_shared hb ⟨.icon i, fun x _ => setterCode plan target p (.ref x)⟩
        (hrs _ (List.mem_singleton.mpr rfl)) hcalls hplain
    case sizePolicy policy =>
      let height : String → Stmt := fun x => .modify x "setHeightForWidth"
        [.invoke target.name "sizePolicy().hasHeightForWidth" []]
      have hrun : valueExpr plan target p b = (.ref (sizePolicyName policy b).1,
          (emit (height (sizePolicyName policy b).1) (sizePolicyName policy b).2).2) := by
        simp only [valueExpr, hvalue]
        rfl
      have huses : ∀ x, ∀ z ∈ (height x).uses, z ∈ x :: b.session.table.names := by
        simp [height, Stmt.uses, Expr.uses, ht]
      have huse := serves_shared hb
        ⟨.sizePolicy policy, fun x _ => height x :: setterCode plan target p (.ref x)⟩
        (hrs _ (by rw [hvalue]; exact List.mem_singleton.mpr rfl))
        (fun x => Calls.cons rfl (huses x) (hcalls x))
        (fun x => List.forall_mem_cons.mpr ⟨rfl, hplain x⟩)
      rw [setProperty_ref hrun (by rw [propertySection, hvalue])]
      rw [show (emit (height (sizePolicyName policy b).1) (sizePolicyName policy b).2).2 =
        (emitAll [height (sizePolicyName policy b).1] (sizePolicyName policy b).2).2 from rfl,
        Job.emitAll_emitAll]
      exact huse
    case brush c =>
      have hrun : valueExpr plan target p b =
          (.ref (brushName plan c b).1, (brushName plan c b).2) := by
        simp only [valueExpr, hvalue]
        rfl
      rw [hvalue] at hrs
      obtain ⟨hbrush, htexture⟩ := List.forall_mem_cons.mp hrs
      rw [setProperty_ref hrun (by rw [propertySection, hvalue])]
      exact serves_brush hb ⟨c, fun x _ => setterCode plan target p (.ref x)⟩ hbrush htexture hcalls
        hplain hmodified
    case palette palette =>
      have hrun : valueExpr plan target p b =
          (.ref (paletteName plan palette b).1, (paletteName plan palette b).2) := by
        simp only [valueExpr, hvalue]
        rfl
      rw [hvalue] at hrs
      rw [setProperty_ref hrun (by rw [propertySection, hvalue])]
      exact serves_palette hb palette (setterCode plan target p) hrs hcalls hplain
        hmodified

theorem propertyRequests_eq {p : Property} (hd : defect? p = none) (target : Target)
    {hasShadow : Bool} (ht : treatment plan target hasShadow p = .set) :
    propertyRequests plan target.name target.className target.isLayout p =
      valueRequests (setterCode plan target p) target.name p.value := by
  by_cases hp : hasVariable p.value = false
  · rw [valueRequests_none hp, propertyRequests, valueRequests_none hp, ite_self]
  · have hset := (treatment_set_iff plan target hasShadow p (by simpa using hp)).mp ht
    rw [propertyRequests, if_pos ⟨hd, hset⟩]
    rfl

theorem propertyRequests_unset {p : Property} (target : Target) (hasShadow : Bool)
    (h : (defect? p).isSome = true ∨ treatment plan target hasShadow p ≠ .set) :
    propertyRequests plan target.name target.className target.isLayout p = [] := by
  by_cases hp : hasVariable p.value = false
  · rw [propertyRequests, valueRequests_none hp, ite_self]
  · rw [propertyRequests, if_neg]
    rintro ⟨hd, ht⟩
    rcases h with h | h
    · rw [hd] at h
      cases h
    · exact h ((treatment_set_iff plan target hasShadow p (by simpa using hp)).mpr ht)

/-! ## Stages -/

namespace Job

/-- What holds while a form is set up: the requests `rs` have been served.  The groups `busy` are
being created. -/
structure Stage (job : Job) (busy : List String) (rs : List Request) (b : Builder) : Prop where
  tidy : Tidy job.plan rs b
  served : ∀ r ∈ rs, Served job.plan rs b r
  entries : b.session.table.entries = job.table.entries
  groups : ∀ d g, job.table.group? d = some g → b.session.table.group? d = some g
  /-- Groups that the form does not declare have no properties. -/
  bare : ∀ d g, b.session.table.group? d = some g →
    job.table.group? d = some g ∨ g.node.properties = []
  widgets : ∀ x ∈ b.widgets, x ∈ b.session.table.names
  aside : Regards b.session.table.names (b.delayed ++ b.delayedActions)
  underway : ∀ x ∈ busy, x ∈ b.session.table.names
  created : ∀ d g, job.table.group? d = some g → g.name ∈ b.buttonGroups →
    g.name ∈ busy ∨ ∀ r ∈ job.groupRequests d, r ∈ rs

/-- Names that exist at every stage. -/
def objects (job : Job) (busy : List String) : List String :=
  busy ++ job.table.entries.map Entry.name

variable {job : Job} {busy : List String} {q : List Request}

namespace Stage

section Steps

variable (h : job.Stage busy rs b)

include h

theorem object {x : String} (hx : x ∈ job.objects busy) : x ∈ b.session.table.names := by
  rcases List.mem_append.mp hx with hx | hx
  · exact h.underway x hx
  · rw [Table.names, h.entries]
    exact List.mem_append_left _ hx

theorem serve (hs : Tidy job.plan (rs ++ q) b → Serves job.plan (rs ++ q) q b b') :
    job.Stage busy (rs ++ q) b' := by
  have hmore : rs ⊆ rs ++ q := List.subset_append_left rs q
  have hstep := hs (h.tidy.mono hmore)
  have hnames := hstep.leaves.names
  refine ⟨hstep.tidy, List.forall_mem_append.mpr ⟨fun r hr => ?_, hstep.served⟩,
    hstep.leaves.entries.trans h.entries, fun d g hg => ?_, fun d g hg => ?_, ?_, ?_, ?_,
    fun d g hg hmem => ?_⟩
  · exact ((h.served r hr).mono hmore).after hstep.later
  · rw [Table.group?, hstep.leaves.groups]
    exact h.groups d g hg
  · rw [Table.group?, hstep.leaves.groups] at hg
    exact h.bare d g hg
  · rw [hstep.leaves.widgets, hnames]
    exact h.widgets
  · rw [hstep.leaves.delayed, hstep.leaves.delayedActions, hnames]
    exact h.aside
  · rw [hnames]
    exact h.underway
  · rw [hstep.leaves.buttonGroups] at hmem
    exact (h.created d g hg hmem).imp_right fun hr r hrd => hmore (hr r hrd)

theorem evolve (hs : Tidy job.plan rs b → Evolves job.plan rs b b') : job.Stage busy rs b' := by
  have hstage : job.Stage busy (rs ++ []) b' := h.serve fun htidy => by
    rw [List.append_nil] at htidy ⊢
    exact .nil (hs htidy)
  rwa [List.append_nil] at hstage

theorem emit (hl : Regards b.session.table.names l) : job.Stage busy rs (emitAll l b).2 :=
  h.evolve fun htidy => evolves_emit htidy (fits_regards htidy hl)

theorem note (topic : Topic) : job.Stage busy rs (note job.plan topic b).2 :=
  h.evolve fun htidy => evolves_note htidy topic

theorem change (hsetup : b'.setup = b.setup)
    (htable : b'.session.table = b.session.table) (hvars : b'.variables = b.variables)
    (hbrushes : b'.brushes = b.brushes) (htheme : b'.themeDeclared = b.themeDeclared)
    (hgroups : ∀ x ∈ b'.buttonGroups, x ∈ b.buttonGroups ∨ x ∈ busy)
    (hwidgets : ∀ x ∈ b'.widgets, x ∈ b.widgets ∨ x ∈ b.session.table.names)
    (haside : ∀ s ∈ b'.delayed ++ b'.delayedActions, s ∈ b.delayed ++ b.delayedActions ∨
      Regards b.session.table.names [s]) : job.Stage busy rs b' := by
  obtain ⟨htidy, hlater⟩ := tidy_aside h.tidy hsetup htable hvars htheme
    fun e he => .inl (hbrushes ▸ he)
  refine ⟨htidy, fun r hr => (h.served r hr).after hlater, ?_, ?_, ?_, ?_, ?_, ?_, ?_⟩
  · rw [htable]
    exact h.entries
  · rw [htable]
    exact h.groups
  · rw [htable]
    exact h.bare
  · rw [htable]
    exact fun x hx => (hwidgets x hx).elim (h.widgets x) id
  · rw [htable]
    intro s hs
    rcases haside s hs with hs | hs
    · exact h.aside s hs
    · exact hs s (List.mem_singleton.mpr rfl)
  · rw [htable]
    exact h.underway
  · intro d g hg hmem
    exact (hgroups g.name hmem).elim (h.created d g hg) .inl

theorem retranslate (l : List Stmt) : job.Stage busy rs (emitRetranslate l b).2 :=
  h.change rfl rfl rfl rfl rfl (fun _ => .inl) (fun _ => .inl) fun _ => .inl

theorem emitIn (sect : Section) (hl : Regards b.session.table.names l) :
    job.Stage busy rs (emitIn sect l b).2 := by
  cases sect with
  | setup => exact h.emit hl
  | retranslate => exact h.retranslate l

theorem delay {s : Stmt} (hs : Regards b.session.table.names [s]) :
    job.Stage busy rs (delay s b).2 := by
  refine h.change rfl rfl rfl rfl rfl (fun _ => .inl) (fun _ => .inl) fun s' hs' => ?_
  have hs' : s' ∈ (b.delayed ++ [s]) ++ b.delayedActions := hs'
  simp only [List.mem_append, List.mem_singleton] at hs' ⊢
  rcases hs' with (hs' | rfl) | hs'
  · exact .inl (.inl hs')
  · exact .inr hs
  · exact .inl (.inr hs')

theorem delayAction {s : Stmt}
    (hs : Regards b.session.table.names [s]) : job.Stage busy rs (delayAction s b).2 := by
  refine h.change rfl rfl rfl rfl rfl (fun _ => .inl) (fun _ => .inl) fun s' hs' => ?_
  have hs' : s' ∈ b.delayed ++ (b.delayedActions ++ [s]) := hs'
  rw [← List.append_assoc, List.mem_append, List.mem_singleton] at hs'
  rcases hs' with hs' | rfl
  · exact .inl hs'
  · exact .inr hs

end Steps

theorem foldlM {α ρ : Type} (l : List α) (m : ρ → α → Build ρ) (q : α → List Request)
    (hm : ∀ a ∈ l, ∀ r rs b, job.Stage busy rs b → job.Stage busy (rs ++ q a) (m r a b).2)
    (h : job.Stage busy rs b) (r : ρ) :
    job.Stage busy (rs ++ l.flatMap q) (l.foldlM m r b).2 := by
  induction l generalizing rs b r with
  | nil =>
    rw [List.flatMap_nil, List.append_nil]
    exact h
  | cons a l ih =>
    rw [List.flatMap_cons, ← List.append_assoc]
    exact ih (fun a' ha' => hm a' (List.mem_cons_of_mem a ha'))
      (hm a (List.mem_cons_self ..) r rs b h) (m r a b).1

theorem forM {α : Type} (l : List α) (m : α → Build Unit) (q : α → List Request)
    (hm : ∀ a ∈ l, ∀ rs b, job.Stage busy rs b → job.Stage busy (rs ++ q a) (m a b).2)
    (h : job.Stage busy rs b) : job.Stage busy (rs ++ l.flatMap q) (l.forM m b).2 := by
  rw [forM_eq_foldlM]
  exact foldlM l _ q (fun a ha _ => hm a ha) h ()

/-! ### Properties -/

theorem writeProperty (h : job.Stage busy rs b) (target : Target)
    (ht : target.name ∈ job.objects busy) (r : Progress) (p : Property) :
    job.Stage busy
      (rs ++ propertyRequests job.plan target.name target.className target.isLayout p)
      (writeProperty job.plan target r p b).2 := by
  have hname := h.object ht
  obtain ⟨hnow, hlater⟩ := tunes_treatment job.plan target r.hasShadow p
  obtain ⟨m, r', hrun, hcase⟩ := writeProperty_deals job.plan target r p
  have hunset : ∀ {b'}, (defect? p).isSome = true ∨ treatment job.plan target r.hasShadow p ≠ .set →
      job.Stage busy rs b' → job.Stage busy
        (rs ++ propertyRequests job.plan target.name target.className target.isLayout p) b' := by
    intro b' hno h'
    rwa [propertyRequests_unset target r.hasShadow hno, List.append_nil]
  rw [hrun]
  cases hcase with
  | complain hd => exact hunset (.inl (by rw [hd]; rfl)) (h.note _)
  | skip ht | margin ht => exact hunset (.inr (by rw [ht]; simp)) h
  | now ht => exact hunset (.inr (by rw [ht]; simp)) (h.emit (.of_tunes (hnow _ ht) hname))
  | later ht => exact hunset (.inr (by rw [ht]; simp)) (h.delay (.of_tunes (hlater _ ht) hname))
  | set hd ht =>
    rw [propertyRequests_eq hd target ht]
    exact h.serve fun htidy => serves_setProperty htidy target p hname fun q hq =>
      List.mem_append_right _ hq

theorem margins (h : job.Stage busy rs b) (target : Target) (ht : target.name ∈ job.objects busy)
    (m : Margins) :
    job.Stage busy rs ((if m.isSet then
      Setup.emit (.call target.name "setContentsMargins"
        [.int m.left, .int m.top, .int m.right, .int m.bottom]) else pure ()) b).2 := by
  rw [ite_run]
  split
  · exact h.emit (.call (h.object ht) (by simp))
  · exact h

theorem writeProperties (h : job.Stage busy rs b) (target : Target)
    (ht : target.name ∈ job.objects busy) (ps : List Property) :
    job.Stage busy
      (rs ++ propertiesRequests job.plan target.name target.className target.isLayout ps)
      (writeProperties job.plan target ps b).2 := by
  have s1 : job.Stage busy rs (Setup.emit target.title b).2 := by
    refine h.emit fun s hs => ?_
    rw [List.mem_singleton] at hs
    subst hs
    simp only [Target.title]
    split <;> simpa [Stmt.setObjectName, Stmt.isPlain, Stmt.names, Stmt.assigns, Stmt.uses]
      using h.object ht
  have s2 := s1.foldlM ps (Setup.writeProperty job.plan target)
    (propertyRequests job.plan target.name target.className target.isLayout)
    (fun p _ r rs b hb => hb.writeProperty target ht r p) {}
  rw [writeProperties_eq]
  exact s2.margins target ht _

end Stage

end Job

end FormCompiler.Setup
