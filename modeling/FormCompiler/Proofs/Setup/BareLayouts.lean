import FormCompiler.Proofs.Setup.Flags
import FormCompiler.Proofs.Setup.Layouts

/-!
# Layouts without margins

A plain widget that serves only to hold a layout shows no margins around it: the first layout in it
gets a margin of zero on each side that its properties leave open.  No other layout does, and a
number that is given is kept (`bare_margins`).  Which layout that is can be told by its place in the
form (`Job.isBare`), so the code is the same if every layout is told by its place.
-/

namespace FormCompiler.Setup

open Code Document Naming
open Node (walkFields)

/-! ## The sides of a margin -/

/-- The property that says how wide the margin on a side is. -/
def Side.property : Side → String
  | .left => "leftMargin"
  | .top => "topMargin"
  | .right => "rightMargin"
  | .bottom => "bottomMargin"

theorem Side.ofProperty?_eq_some_iff {name : String} {side : Side} :
    Side.ofProperty? name = some side ↔ name = side.property := by
  constructor
  · intro h
    unfold Side.ofProperty? at h
    split at h <;> cases h <;> rfl
  · rintro rfl
    cases side <;> rfl

theorem number?_eq_some_iff {p : Property} {n : Int} :
    p.number? = some n ↔ p.value = .number n := by
  cases hv : p.value <;> simp [Property.number?, hv]

/-- The margin on a side. -/
def Margins.on (m : Margins) : Side → Int
  | .left => m.left
  | .top => m.top
  | .right => m.right
  | .bottom => m.bottom

/-- What a property says about the margin on a side. -/
def marginSaid? (side : Side) (p : Property) : Option Int :=
  if p.name = side.property then p.number? else none

/-- The margin that properties give for a side, the last of several. -/
def marginGiven? (ps : List Property) (side : Side) : Option Int :=
  (ps.filterMap (marginSaid? side)).getLast?

theorem marginGiven?_append (ps ps' : List Property) (side : Side) :
    marginGiven? (ps ++ ps') side = (marginGiven? ps' side).or (marginGiven? ps side) := by
  rw [marginGiven?, List.filterMap_append, List.getLast?_append, marginGiven?, marginGiven?]

theorem marginGiven?_isSome (ps : List Property) (side : Side) :
    (marginGiven? ps side).isSome =
      ps.any fun p => p.name == side.property && p.number?.isSome := by
  rw [marginGiven?, Bool.eq_iff_iff, List.getLast?_isSome, ne_eq, List.filterMap_eq_nil_iff,
    List.any_eq_true]
  simp [marginSaid?, Option.isSome_iff_ne_none]

/-- The margins after a property. -/
def Margins.after (m : Margins) (p : Property) : Margins :=
  match Side.ofProperty? p.name, p.number? with
  | some side, some n => m.set n side
  | _, _ => m

theorem Margins.on_after (m : Margins) (p : Property) (side : Side) :
    (m.after p).on side = (marginSaid? side p).getD (m.on side) := by
  unfold Margins.after marginSaid?
  simp only [← Side.ofProperty?_eq_some_iff]
  cases Side.ofProperty? p.name with
  | none => rfl
  | some other =>
    cases p.number? with
    | none => simp
    | some n => cases other <;> cases side <;> rfl

theorem Margins.on_foldl (ps : List Property) (m : Margins) (side : Side) :
    (ps.foldl Margins.after m).on side = (marginGiven? ps side).getD (m.on side) := by
  induction ps generalizing m with
  | nil => rfl
  | cons p ps ih =>
    rw [List.foldl_cons, ih, Margins.on_after, marginGiven?, marginGiven?, List.filterMap_cons]
    cases marginSaid? side p with
    | none => rfl
    | some n =>
      rw [List.getLast?_cons]
      cases (ps.filterMap (marginSaid? side)).getLast? <;> rfl

theorem marginGiven?_missing (ps : List Property) (side : Side) :
    marginGiven? (missingMargins ps) side =
      if (marginGiven? ps side).isSome then none else some 0 := by
  have hzeros : ∀ lacks : String → Bool,
      ((sideNames.filter lacks).map fun name => (⟨name, none, .number 0⟩ : Property)).filterMap
        (marginSaid? side) = if lacks side.property then [0] else [] := by
    intro lacks
    rw [List.filterMap_map, List.filterMap_filter]
    have hpick : (fun name => if lacks name then
        (marginSaid? side ∘ fun name => (⟨name, none, .number 0⟩ : Property)) name else none) =
        fun name => if name = side.property then
          if lacks side.property then some 0 else none else none := by
      funext name
      by_cases hname : name = side.property
      · simp only [Function.comp_apply, marginSaid?, hname, if_true, Property.number?]
      · simp only [Function.comp_apply, marginSaid?, hname, if_false, ite_self]
    rw [hpick]
    cases lacks side.property <;> cases side <;> rfl
  rw [marginGiven?, missingMargins, hzeros, marginGiven?_isSome]
  cases ps.any fun p => p.name == side.property && p.number?.isSome <;> rfl

theorem margins_on (ps : List Property) (bare : Bool) (side : Side) :
    ((ps ++ if bare then missingMargins ps else []).foldl Margins.after {}).on side =
      (marginGiven? ps side).getD (if bare then 0 else -1) := by
  have hunset : Margins.on {} side = -1 := by cases side <;> rfl
  rw [Margins.on_foldl, hunset]
  cases bare with
  | false => simp
  | true =>
    rw [if_pos rfl, if_pos rfl, marginGiven?_append, marginGiven?_missing]
    cases marginGiven? ps side <;> rfl

/-! ## Writing margins -/

/-- A property is a margin exactly if it is named like a side and is a number. -/
theorem treatment_margin (plan : Plan) (target : Target) (hasShadow : Bool) (p : Property)
    (side : Side) (n : Int) :
    treatment plan target hasShadow p = .margin side n ↔
      Side.ofProperty? p.name = some side ∧ p.number? = some n := by
  obtain ⟨name, stdset, value⟩ := p
  rw [number?_eq_some_iff]
  constructor
  · intro h
    simp only [treatment] at h
    split at h
    all_goals try split at h
    all_goals cases h
    exact ⟨by assumption, rfl⟩
  · rintro ⟨hname, rfl⟩
    obtain rfl := Side.ofProperty?_eq_some_iff.mp hname
    cases side <;> rfl

theorem writeProperty_margin (plan : Plan) (target : Target) (r : Progress) {p : Property}
    (b : Builder) {side : Side} {n : Int} (hside : Side.ofProperty? p.name = some side)
    (hn : p.number? = some n) :
    writeProperty plan target r p b = ({ r with margins := r.margins.after p }, b) := by
  have hdefect : defect? p = none := by simp only [defect?, number?_eq_some_iff.mp hn]
  have ht := (treatment_margin plan target r.hasShadow p side n).mpr ⟨hside, hn⟩
  obtain ⟨m, r', hrun, hcase⟩ := writeProperty_deals plan target r p
  rw [hrun]
  cases hcase with
  | complain hd => cases hdefect.symm.trans hd
  | margin ht' =>
    obtain ⟨rfl, rfl⟩ := Treatment.margin.inj (ht'.symm.trans ht)
    simp only [bind_run, pure_run, Margins.after, hside, hn]
  | skip ht' | now ht' | later ht' | set _ ht' => cases ht'.symm.trans ht

theorem writeProperty_margins (plan : Plan) (target : Target) (r : Progress) (p : Property)
    (b : Builder) : (writeProperty plan target r p b).1.margins = r.margins.after p := by
  unfold Margins.after
  split
  case h_1 side n hside hn =>
    simp only [writeProperty_margin plan target r b hside hn, Margins.after, hside, hn]
  case h_2 hother =>
    obtain ⟨m, r', hrun, hcase⟩ := writeProperty_deals plan target r p
    rw [hrun]
    cases hcase with
    | margin ht =>
      obtain ⟨hside, hn⟩ := (treatment_margin plan target r.hasShadow p _ _).mp ht
      exact (hother _ _ hside hn).elim
    | complain | skip | now | later | set => rfl

theorem foldlM_margins (plan : Plan) (target : Target) (ps : List Property) (r : Progress)
    (b : Builder) :
    (ps.foldlM (writeProperty plan target) r b).1.margins = ps.foldl Margins.after r.margins := by
  induction ps generalizing r b with
  | nil => rfl
  | cons p ps ih =>
    rw [List.foldlM_cons, bind_run, ih, writeProperty_margins, List.foldl_cons]

theorem foldlM_missing (plan : Plan) (target : Target) {ps : List Property}
    (h : ∀ p ∈ ps, ∃ side n, Side.ofProperty? p.name = some side ∧ p.number? = some n)
    (r : Progress) (b : Builder) : (ps.foldlM (writeProperty plan target) r b).2 = b := by
  induction ps generalizing r with
  | nil => rfl
  | cons p ps ih =>
    obtain ⟨side, n, hside, hn⟩ := h p (List.mem_cons_self ..)
    rw [List.foldlM_cons, bind_run, writeProperty_margin plan target r b hside hn]
    exact ih (fun q hq => h q (List.mem_cons_of_mem p hq)) _

theorem missingMargins_sides (ps : List Property) : ∀ p ∈ missingMargins ps,
    ∃ side n, Side.ofProperty? p.name = some side ∧ p.number? = some n := by
  intro p hp
  obtain ⟨name, hname, rfl⟩ := List.mem_map.mp hp
  have hsides : ∀ name ∈ sideNames, (Side.ofProperty? name).isSome = true := by decide
  obtain ⟨side, hside⟩ :=
    Option.isSome_iff_exists.mp (hsides name (List.mem_filter.mp hname).1)
  exact ⟨side, 0, hside, rfl⟩

/-- The statement that sets the margins of an object, if one of them is given. -/
def marginStmts (name : String) (m : Margins) : List Stmt :=
  if m.isSet then
    [.call name "setContentsMargins" [.int m.left, .int m.top, .int m.right, .int m.bottom]]
  else []

theorem setAll_setup (plan : Plan) (target : Target) (ps : List Property) (b : Builder) :
    (setAll plan target ps b).2.setup =
      (ps.foldlM (writeProperty plan target) {} b).2.setup ++
        marginStmts target.name (ps.foldl Margins.after {}) := by
  rw [← foldlM_margins plan target ps {} b]
  simp only [setAll, bind_run, marginStmts]
  split
  · rfl
  · exact (List.append_nil _).symm

theorem foldlM_added (plan : Plan) (target : Target) (bare : Bool) (ps : List Property)
    (b : Builder) :
    ((ps ++ if bare then missingMargins ps else []).foldlM (writeProperty plan target) {} b).2 =
      (ps.foldlM (writeProperty plan target) {} b).2 := by
  rw [List.foldlM_append, bind_run]
  refine foldlM_missing plan target ?_ _ _
  cases bare with
  | false => simp
  | true => exact missingMargins_sides ps

theorem told_layout (plan : Plan) (tells : Visit → Bool) {v : Visit} (hk : v.node.kind = .layout)
    (c : Context) (b : Builder) :
    let ps := v.node.properties
    let className := v.node.stringAttribute "class"
    let target := c.target (nameAt plan v b).1 className true
    let place := if (Property.find? ps "margin").isSome then b.marginType else .unset
    ∃ titled m,
      titled.setup = b.setup ++
        .create target.name className (if c.layout.isSome then [] else [.ref (c.ownerName plan)]) ::
        layoutDistances plan ps place c.layout.isSome target.name ++ [target.title] ∧
      ((told plan tells).enter c v b).2.setup =
        (ps.foldlM (writeProperty plan target) {} titled).2.setup ++ marginStmts target.name m ∧
      ∀ side, m.on side = (marginGiven? ps side).getD (if tells v then 0 else -1) := by
  intro ps className target place
  have hbare : ((if tells v then some v.path else none) = some v.path) ↔ tells v = true := by
    cases tells v <;> simp
  let created : Builder := { (nameAt plan v b).2 with
    setup := b.setup ++ [.create target.name className
        (if c.layout.isSome then [] else [.ref (c.ownerName plan)])] ++
      layoutDistances plan ps place c.layout.isSome target.name
    marginType := .subLayout }
  have henter : ((told plan tells).enter c v b).2 =
      (setAll plan target (ps ++ if tells v then missingMargins ps else [])
        (emit target.title created).2).2 := by
    simp only [told, walker, hk, map_run, enterLayout_run, hbare]
    rfl
  refine ⟨(emit target.title created).2, _, ?_, ?_, margins_on ps (tells v)⟩
  · exact congrArg (· ++ [target.title]) (List.append_assoc b.setup [_] _)
  · rw [henter, setAll_setup, foldlM_added]

/-! ## Widgets that serve to hold a layout -/

/-- Whether a node at a path is a plain widget within another widget that is neither of the class of
main windows nor of one of containers. -/
def Job.isHolder (job : Job) (path : List Nat) (n : Node) : Bool :=
  n.kind == .widget && n.stringAttribute "class" == "QWidget" && (n.attribute? "native").isNone &&
    (job.form.node.enclosing? .widget path).any fun u =>
      let className := u.node.stringAttribute "class"
      className != "QMainWindow" && !job.plan.classes.isDeclaredContainer className &&
        !job.plan.classes.isContainer className

/-- Whether a layout is the first one of a widget that serves only to hold it. -/
def Job.isBare (job : Job) (v : Visit) : Bool :=
  match v.path with
  | [] => false
  | i :: path => (job.form.node.nodeAt? path).any fun w =>
    job.isHolder path w && (w.fields.take i).all (·.kind? != some .layout)

/-- A field is the first one of its kind if none before it is of that kind. -/
theorem findIdx?_kind {fs : List Field} {kind : Kind} {i : Nat}
    (h : fs[i]?.bind Field.kind? = some kind) :
    fs.findIdx? (·.kind? == some kind) = some i ↔
      (fs.take i).all (·.kind? != some kind) = true := by
  induction fs generalizing i with
  | nil => cases h
  | cons f fs ih =>
    rw [List.findIdx?_cons]
    cases i with
    | zero =>
      rw [List.getElem?_cons_zero, Option.bind_some] at h
      simp [h]
    | succ i =>
      rw [List.getElem?_cons_succ] at h
      by_cases hf : f.kind? = some kind
      · simp [hf]
      · simp [hf, ih h]

namespace Job

/-- The way to the first layout of the nearest widget above a path, if it serves only to hold it. -/
def bareAt (job : Job) (path : List Nat) : Option (List Nat) :=
  (job.form.node.enclosing? .widget path).bind fun u =>
    if job.isHolder u.path u.node then (u.node.firstOfKind? .layout).map (· :: u.path) else none

/-- A context knows the class of the nearest widget above a path, and the layout it is to hold. -/
structure Sees (job : Job) (c : Context) (path : List Nat) : Prop where
  widget : c.widget.map Frame.className =
    (job.form.node.enclosing? .widget path).map (·.node.stringAttribute "class")
  bare : c.bareLayout = job.bareAt path

variable {job : Job} {c inner : Context} {v : Visit} {b : Builder} {n : Node} {path : List Nat}

theorem bareAt_eq_iff (hv : v ∈ job.form.visits) (hk : v.node.kind = .layout) :
    job.bareAt v.path = some v.path ↔ job.isBare v = true := by
  have hnode := (Node.mem_visits _ _).mp hv
  obtain ⟨path, node⟩ := v
  cases path with
  | nil => simp [bareAt, isBare, Node.enclosing?, Node.ancestors]
  | cons i path =>
    obtain ⟨w, hw, hfield⟩ := Node.nodeAt_cons hnode
    have hkind : w.fields[i]?.bind Field.kind? = some .layout := by
      obtain ⟨f, hf, hm⟩ := Option.bind_eq_some_iff.mp hfield
      rw [hf, Option.bind_some, Field.kind?, hm, Option.map_some, hk]
    simp only [isBare, hw, Option.any_some]
    by_cases hwidget : w.kind = .widget
    · have hhere := Node.enclosing_here i hw
      rw [hwidget] at hhere
      rw [Bool.and_eq_true, ← findIdx?_kind hkind]
      simp only [bareAt, hhere, Option.bind_some]
      cases job.isHolder path w with
      | false => simp
      | true => simp [Node.firstOfKind?, Field.kind?]
    · -- The parent is no widget, so the way starts above it and cannot lead to its field.
      have hother : job.bareAt (i :: path) ≠ some (i :: path) := by
        intro h
        obtain ⟨u, hu, hbare⟩ := Option.bind_eq_some_iff.mp h
        split at hbare
        · obtain ⟨j, -, hpath⟩ := Option.map_eq_some_iff.mp hbare
          obtain ⟨hmem, hukind⟩ := Node.enclosing_mem hnode hu
          rw [Node.mem_visits, (List.cons.inj hpath).2, hw] at hmem
          exact hwidget (Option.some.inj hmem ▸ hukind)
        · cases hbare
      simp [hother, isHolder, hwidget]

namespace Sees

theorem isHolder (hc : job.Sees c path) (hk : n.kind = .widget) :
    holdsBareLayout job.plan c n = job.isHolder path n := by
  have hwidget := hc.widget
  unfold holdsBareLayout Job.isHolder Context.widgetClass
  cases henclosing : job.form.node.enclosing? .widget path with
  | none =>
    rw [henclosing, Option.map_none, Option.map_eq_none_iff] at hwidget
    simp [hwidget]
  | some u =>
    rw [henclosing, Option.map_some] at hwidget
    obtain ⟨fr, hfr, hclass⟩ := Option.map_eq_some_iff.mp hwidget
    simp only [hk, hfr, hclass, BEq.rfl, Bool.true_and, Option.isSome_some, Bool.and_true,
      Option.any_some, Bool.and_assoc, Option.map_some, Option.getD_some]

theorem below (hc : job.Sees c v.path) (hn : job.form.node.nodeAt? v.path = some v.node)
    (h : ((walker job.plan).enter c v b).1 = some inner) (j : Nat) :
    job.Sees inner (j :: v.path) := by
  obtain ⟨-, hwidget, hbare⟩ := enter_some h
  by_cases hk : v.node.kind = .widget
  · have hhere := Node.enclosing_here j hn
    rw [hk] at hhere
    rw [if_pos hk] at hwidget hbare
    refine ⟨by rw [hwidget, hhere]; rfl, ?_⟩
    rw [hbare, hc.isHolder hk, bareAt, hhere]
    rfl
  · rw [if_neg hk] at hwidget hbare
    have habove := Node.enclosing_above j hn hk
    exact ⟨by rw [hwidget, hc.widget, habove], by rw [hbare, hc.bare, bareAt, bareAt, habove]⟩

end Sees

/-! ## Being told by the place -/

/-- Wherever a node stands in the form, it is set up alike if its layouts are told by place. -/
def Tells (job : Job) (n : Node) : Prop :=
  ∀ path c b, job.Sees c path → job.form.node.nodeAt? path = some n →
    (n.walk (told job.plan job.isBare) c.plain path b).2 = (n.walk (walker job.plan) c path b).2

theorem tells_fields (fs : List Field) (hfs : ∀ f ∈ fs, ∀ m, f.node? = some m → job.Tells m)
    (hc : ∀ j, job.Sees c (j :: path)) (i : Nat) (b : Builder)
    (hplace : job.form.node.FieldsAt path i fs) :
    (walkFields (told job.plan job.isBare) c.plain path i fs b).2 =
      (walkFields (walker job.plan) c path i fs b).2 := by
  induction fs generalizing i b with
  | nil => rfl
  | cons f fs ih =>
    have hrest := fun b => ih (fun g hg => hfs g (List.mem_cons_of_mem f hg)) (i + 1) b hplace.tail
    cases f with
    | value tag s => exact hrest b
    | node tag m =>
      have hhere := hfs _ (List.mem_cons_self ..) m rfl (i :: path) c b (hc i) hplace.head
      rw [Node.walkFields_node, Node.walkFields_node, hhere]
      exact hrest _

/-- By induction over the tree, where contexts see what is above. -/
theorem tells (n : Node) (hwell : Node.All Node.WellFormed n) : job.Tells n := by
  induction n using Node.induction with
  | h n ih =>
    intro path c b hc hn
    have hv : (⟨path, n⟩ : Visit) ∈ job.form.visits :=
      (Node.mem_visits job.form.node ⟨path, n⟩).mpr hn
    have htold := told_enter job.plan job.isBare c ⟨path, n⟩ b fun hk => by
      rw [hc.bare]
      exact (bareAt_eq_iff hv hk).symm
    cases henter : (walker job.plan).enter c ⟨path, n⟩ b with
    | mk entered b' =>
      rw [henter] at htold
      cases entered with
      | none => rw [Node.walk_outside htold, Node.walk_outside henter]
      | some inner =>
        have hbelow := hc.below (v := ⟨path, n⟩) hn (congrArg Prod.fst henter)
        have hfields := tells_fields n.fields
          (fun f hf m hm => ih f hf m hm (hwell.below f hf m hm)) hbelow 0 b' (Node.fieldsAt_all hn)
        have hleave : (told job.plan job.isBare).leave c.plain inner.plain ⟨path, n⟩ =
            (walker job.plan).leave c inner ⟨path, n⟩ := leave_plain c inner
        rw [Node.walk_entered hwell (told_keepsOut _ _) htold, walk_entered hwell henter, hleave]
        exact congrArg (fun b => ((walker job.plan).leave c inner ⟨path, n⟩ b).2) hfields

end Job

/-- Each layout is told by its place in the form alone whether to add the margins that it lacks: it
is to if it is the first one of a widget that serves only to hold it.  Then those margins are zero;
else they are not set, and in either case the ones that are given by a number are kept.  A flag that
such a widget raises and the next layout takes down tells the same.  The header has the statements
of either. -/
theorem bare_margins (o : Options) (document : Nat) (f : Form) (root : Visit) (s : Session)
    (hk : f.node.kind = .ui) (hw : Node.All Node.WellFormed f.node)
    (hroot : f.rootVisit? = some root) (hd : s.table.Distinct) :
    let d := ((Header.declaration o document f root).run s).1
    let setup := d.functions.setup
    let job := jobOf o document f root s
    let start : Builder := { session := (Header.naming document f root s).2 }
    let linked := fun b => ((link job.plan f).run b).2.setup
    d.InHeader o document f s ∧
      linked (f.node.walk (told job.plan job.isBare) {} [] start).2 = setup ∧
      linked (f.node.walk (flagged job.plan) {} [] (start, false)).2.1 = setup ∧
      ∀ v, v.node.kind = .layout → ∀ c b,
        let ps := v.node.properties
        let className := v.node.stringAttribute "class"
        let target := c.target (nameAt job.plan v b).1 className true
        let place := if (Property.find? ps "margin").isSome then b.marginType else .unset
        ∃ titled m,
          titled.setup = b.setup ++
            .create target.name className
              (if c.layout.isSome then [] else [.ref (c.ownerName job.plan)]) ::
            layoutDistances job.plan ps place c.layout.isSome target.name ++ [target.title] ∧
          ((told job.plan job.isBare).enter c v b).2.setup =
            (ps.foldlM (writeProperty job.plan target) {} titled).2.setup ++
              marginStmts target.name m ∧
          ∀ side, m.on side = (marginGiven? ps side).getD (if job.isBare v then 0 else -1) := by
  intro d setup job start linked
  have hsetup : setup = linked (f.node.walk (walker job.plan) {} [] start).2 :=
    (declaration_built o document hk hw hroot hd).1
  refine ⟨Header.declaration_inHeader o document s hroot, ?_, ?_,
    fun v hlayout => told_layout job.plan job.isBare hlayout⟩
  · rw [hsetup, ← @Job.tells job f.node hw [] {} start ⟨rfl, rfl⟩ rfl]
    rfl
  · rw [hsetup, flagged_form hk hw start]

/-- A form with a layout of its own, and with a widget that holds two layouts, the first of them
with a margin on the left and another layout in an item. -/
def sheltered : Form :=
  ⟨.mk .ui []
    [.node "widget" (.mk .widget [("class", .string "QWidget"), ("name", .string "Form")]
      [.node "layout" (.mk .layout [("class", .string "QVBoxLayout"), ("name", .string "outer")]
          [] ""),
        .node "widget" (.mk .widget [("class", .string "QWidget"), ("name", .string "holder")]
          [.node "layout" (.mk .layout [("class", .string "QVBoxLayout"), ("name", .string "first")]
              [.node "property" (.mk .property [("name", .string "leftMargin")]
                  [.value "number" (.int .int32 ⟨7, by decide, by decide⟩)] ""),
                .node "item" (.mk .layoutItem []
                  [.node "layout" (.mk .layout
                    [("class", .string "QHBoxLayout"), ("name", .string "nested")] [] "")] "")] ""),
            .node "layout" (.mk .layout
              [("class", .string "QHBoxLayout"), ("name", .string "second")] [] "")] "")] "")]
    ""⟩

/-- Only the first layout of the widget gets the missing margins, and it keeps the one it has. -/
theorem bare_margins_sheltered :
    ∃ root, sheltered.rootVisit? = some root ∧ Node.All Node.WellFormed sheltered.node ∧
      let setup := ((Header.declaration {} 0 sheltered root).run {}).1.functions.setup
      let job := jobOf {} 0 sheltered root {}
      let start : Builder := { session := (Header.naming 0 sheltered root {}).2 }
      ((link job.plan sheltered).run
        (sheltered.node.walk (told job.plan job.isBare) {} [] start).2).2.setup = setup ∧
      (sheltered.visits.filter (·.node.kind == .layout)).map
          (fun v => (job.name v, job.isBare v)) =
        [("outer", false), ("first", true), ("nested", false), ("second", false)] ∧
      (setup.filter fun
        | .call _ method _ => method == "setContentsMargins"
        | _ => false) =
        [.call "first" "setContentsMargins" [.int 7, .int 0, .int 0, .int 0]] := by
  have hw : Node.All Node.WellFormed sheltered.node := by decide +kernel
  obtain ⟨-, htold, -⟩ := bare_margins {} 0 sheltered _ {} rfl hw rfl Table.distinct_empty
  exact ⟨_, rfl, hw, htold, by decide +kernel, by decide +kernel⟩

end FormCompiler.Setup
