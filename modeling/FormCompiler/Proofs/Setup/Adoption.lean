import FormCompiler.Proofs.Setup.Parents

/-!
# Widgets without a parent

A widget that is created without a parent is meant to be handed to the widget that encloses it.
Whether it is created so and whether it is handed over are decided by two rules, and these leave a
gap: a class that a form declares as a container is taken for one even if nothing says how it takes
its pages (`Custom.forsakes`).  The widgets in it, and no others, are left without a parent
(`widgets_adopted_iff`).
-/

namespace FormCompiler

open Code Document Naming

namespace Classes.Custom

/-- Whether a class is declared as a container although no way is known by which it takes pages. -/
def forsakes (t : Custom) (className : String) : Bool :=
  t.isDeclaredContainer className && (t.addPageMethod? className).isNone &&
    !t.derivesFromAny className
      ["QMainWindow", "QStackedWidget", "QToolBar", "QSplitter", "QDockWidget", "QScrollArea",
        "QMdiArea", "QWizard", "QToolBox", "QTabWidget"]

/-- The methods by which a widget of a class takes another widget. -/
def takingMethods (t : Custom) (className : String) : List String :=
  ["setMenuBar", "addToolBar", "addDockWidget", "setStatusBar", "setCentralWidget", "addWidget",
    "setWidget", "addSubWindow", "addPage", "setPage", "addItem", "addTab"] ++
    (t.addPageMethod? className).toList

end Classes.Custom

namespace Setup

/-- Whether a widget gets a parent in the setup function: when it is created, or by a method of the
parent that it is passed to later. -/
def Adopts (classes : Classes.Custom) (setup : List Stmt) (parent : Frame) (name : String) : Prop :=
  (∃ className, .create name className [.ref parent.name] ∈ setup) ∨
    ∃ className args method taken,
      [.create name className args, .call parent.name method taken].Sublist setup ∧
        method ∈ classes.takingMethods parent.className ∧ .ref name ∈ taken

/-! ## Handing over -/

section Handover

variable (plan : Plan) (parent : Frame)

theorem mainWindowStmts_take (name className : String) (attrs : List Property) :
    ∃ method args, .call parent.name method args ∈
        mainWindowStmts plan parent.name name className attrs ∧
      method ∈ plan.classes.takingMethods parent.className ∧ .ref name ∈ args := by
  unfold mainWindowStmts
  dsimp only
  repeat' split
  all_goals exact ⟨_, _, List.mem_cons_self .., by simp [Classes.Custom.takingMethods], by simp⟩

theorem pageStmts_take (name : String) (attrs : List Property)
    (h : (plan.classes.addPageMethod? parent.className).isSome = true ∨
      plan.classes.derivesFromAny parent.className
        ["QStackedWidget", "QToolBar", "QSplitter", "QDockWidget", "QScrollArea", "QMdiArea",
          "QWizard", "QToolBox", "QTabWidget"] = true) :
    ∃ method args, .call parent.name method args ∈
        pageStmts plan parent.name parent.className name attrs ∧
      method ∈ plan.classes.takingMethods parent.className ∧ .ref name ∈ args := by
  unfold pageStmts wizardStmt
  dsimp only
  cases hmethod : plan.classes.addPageMethod? parent.className with
  | some method =>
    exact ⟨method, _, List.mem_cons_self .., by simp [Classes.Custom.takingMethods, hmethod],
      by simp⟩
  | none =>
    dsimp only
    repeat' split
    case isFalse.isFalse.isFalse.isFalse.isFalse.isFalse =>
      simp_all [Classes.Custom.derivesFromAny]
    all_goals
      exact ⟨_, _, List.mem_cons_self .., by simp [Classes.Custom.takingMethods], by simp⟩

theorem handoverTo_take (name : String) (n : Node)
    (hcontainer : plan.classes.isContainer parent.className = true)
    (h : plan.classes.forsakes parent.className = false) :
    ∃ method args, .call parent.name method args ∈ handoverTo plan parent name n ∧
      method ∈ plan.classes.takingMethods parent.className ∧ .ref name ∈ args := by
  unfold handoverTo
  by_cases hmain : plan.classes.derives parent.className "QMainWindow" = true
  · obtain ⟨method, args, hmem, htakes⟩ := mainWindowStmts_take plan parent name
      (n.stringAttribute "class") n.containerAttributes
    rw [if_pos hmain]
    exact ⟨method, args, List.mem_append_left _ hmem, htakes⟩
  · obtain ⟨method, args, hmem, htakes⟩ := pageStmts_take plan parent name
      n.containerAttributes (by
        simp only [Classes.Custom.isContainer, Classes.Custom.forsakes,
          Classes.Custom.derivesFromAny, List.any_cons, List.any_nil] at hcontainer h ⊢
        grind)
    exact ⟨method, args, List.mem_append_right _ hmem, htakes⟩

theorem handoverTo_forsaken (h : plan.classes.forsakes parent.className = true) :
    plan.classes.isContainer parent.className = true ∧
      plan.classes.addPageMethod? parent.className = none ∧
      ∀ name n, handoverTo plan parent name n = [] := by
  simp only [Classes.Custom.forsakes, Classes.Custom.derivesFromAny, Bool.and_eq_true,
    Bool.not_eq_true', List.any_eq_false, Option.isNone_iff_eq_none] at h
  obtain ⟨⟨hdeclared, hmethod⟩, hnone⟩ := h
  refine ⟨by rw [Classes.Custom.isContainer, hdeclared, Bool.or_true], hmethod, fun name n => ?_⟩
  simp only [List.mem_cons, List.not_mem_nil, or_false, forall_eq_or_imp, forall_eq] at hnone
  simp only [handoverTo, pageStmts, hmethod, hnone]
  rfl

end Handover

/-! ## Deeds -/

/-- What is done with objects: one is created, or some are passed to a method of another. -/
inductive Deed
  | made (s : Stmt)
  | handed (receiver method : String) (objects : List String)

theorem pair_of_filterMap {α β : Type} {look : α → Option β} {l : List α} {x y : β}
    (h : [x, y].Sublist (l.filterMap look)) :
    ∃ a b, [a, b].Sublist l ∧ look a = some x ∧ look b = some y := by
  obtain ⟨l', hsub, hl'⟩ := List.sublist_filterMap_iff.mp h
  obtain ⟨l₁, a, l₂, rfl, -, ha, hrest⟩ := List.filterMap_eq_cons_iff.mp hl'.symm
  obtain ⟨l₃, b, l₄, rfl, -, hb, -⟩ := List.filterMap_eq_cons_iff.mp hrest
  refine ⟨a, b, List.Sublist.trans ?_ hsub, ha, hb⟩
  refine (List.Sublist.cons_cons a ?_).trans (List.sublist_append_right l₁ _)
  exact (List.singleton_sublist.mpr (List.mem_cons_self ..)).trans (List.sublist_append_right l₃ _)

namespace Job

variable {job : Job} {u v w : Visit} {s : Stmt}

theorem passed_isEmpty (args : List Expr) :
    (job.passed args).isEmpty = !args.any (·.reference?.any job.isObject) := by
  induction args with
  | nil => rfl
  | cons e args ih =>
    rw [List.any_cons, Bool.not_or, ← ih]
    cases e with
    | ref x =>
      cases hx : job.isObject x <;> simp [passed, Expr.reference?, hx]
    | _ => rfl

theorem mem_passed {x : String} {args : List Expr} (hx : job.isObject x = true) :
    x ∈ job.passed args ↔ .ref x ∈ args := by
  rw [passed, List.mem_filter, List.mem_filterMap]
  constructor
  · rintro ⟨⟨e, he, href⟩, -⟩
    exact Expr.reference?_eq_some_iff.mp href ▸ he
  · exact fun h => ⟨⟨_, h, rfl⟩, hx⟩

/-- What a statement does with objects. -/
def deeds (job : Job) : job.View Deed where
  look
    | .create x className args =>
      if job.isObject x then some (.made (.create x className args)) else none
    | .createLocal x className args =>
      if job.isObject x then some (.made (.createLocal x className args)) else none
    | .call receiver method args =>
      if job.isObject receiver && !(job.passed args).isEmpty then
        some (.handed receiver method (job.passed args))
      else none
    | _ => none
  idle s h := by
    cases s with
    | call receiver method args =>
      rw [handles, ← Bool.not_not (args.any _), ← passed_isEmpty] at h
      exact if_neg (Bool.eq_false_iff.mp h)
    | create | createLocal => exact if_neg (Bool.eq_false_iff.mp h)
    | _ => rfl
  blur receiver method args args' _ h := by
    dsimp only
    rw [h]

theorem look_call {receiver method : String} {args : List Expr} {x : String}
    (hreceiver : job.isObject receiver = true) (hx : job.isObject x = true)
    (h : .ref x ∈ args) :
    job.deeds.look (.call receiver method args) =
      some (.handed receiver method (job.passed args)) := by
  refine if_pos ?_
  have hmem := (mem_passed hx).mpr h
  rw [hreceiver, Bool.true_and, Bool.not_eq_true', List.isEmpty_eq_false_iff]
  exact List.ne_nil_of_mem hmem

theorem eq_of_handed {receiver method : String} {objects : List String}
    (h : job.deeds.look s = some (.handed receiver method objects)) :
    ∃ args, s = .call receiver method args ∧ job.passed args = objects := by
  cases s with
  | call r m args =>
    simp only [deeds] at h
    split at h
    · cases h
      exact ⟨args, rfl, rfl⟩
    · cases h
  | create | createLocal =>
    simp only [deeds] at h
    split at h <;> cases h
  | _ => cases h

theorem eq_of_made {s' : Stmt} (h : job.deeds.look s = some (.made s')) : s = s' := by
  cases s with
  | call =>
    simp only [deeds] at h
    split at h <;> cases h
  | create | createLocal =>
    simp only [deeds] at h
    split at h
    · exact Deed.made.inj (Option.some.inj h)
    · cases h
  | _ => cases h

theorem mem_handover (h : s ∈ job.handover v) :
    v.node.kind = .widget ∧ ∃ u, job.form.node.enclosing? .widget v.path = some u ∧
      s ∈ handoverTo job.plan (job.frame u) (job.name v) v.node := by
  rw [handover, handoverIn] at h
  split at h
  · obtain ⟨fr, hfr, hs⟩ := List.mem_flatMap.mp h
    obtain ⟨u, hu, rfl⟩ := Option.map_eq_some_iff.mp (Option.mem_toList.mp hfr)
    exact ⟨‹_›, u, hu, hs⟩
  · cases h

/-! ## Adoption -/

section Adoption

variable (hj : job.Named) (hk : job.form.node.kind = .ui)
  (hw : Node.All Node.WellFormed job.form.node) (hroot : job.form.rootVisit? = some job.root)
  {setup l : List Stmt}
  (hseen : setup.filterMap job.deeds.look =
    (job.assembly [] job.form.node ++ l).filterMap job.deeds.look)

include hj hseen

/-- What is handed over for a widget stands after its creation. -/
theorem handed_after {className method : String} {params args : List Expr}
    (hv : v ∈ job.form.visits) (hwidget : v.node.kind = .widget)
    (hu : job.form.node.enclosing? .widget v.path = some u)
    (hcreate : job.creation v = [.create (job.name v) className params])
    (hmem : .call (job.name u) method args ∈ handoverTo job.plan (job.frame u) (job.name v) v.node)
    (hargs : .ref (job.name v) ∈ args) :
    ∃ taken,
      [.create (job.name v) className params, .call (job.name u) method taken].Sublist setup ∧
      .ref (job.name v) ∈ taken := by
  have hobject := hj.isObject_name hv (by rw [hwidget]; rfl)
  obtain ⟨humem, hukind⟩ := Node.enclosing_mem ((Node.mem_visits _ _).mp hv) hu
  have hreceiver := hj.isObject_name humem (by rw [hukind]; rfl)
  have hcompletion : .call (job.name u) method args ∈ job.completion v := by
    refine List.mem_append_right _ ?_
    rw [handover, handoverIn, if_pos hwidget]
    simp only [contextAt, hu, Option.map_some, Option.toList_some, List.flatMap_singleton]
    exact hmem
  have hsub : [.create (job.name v) className params, .call (job.name u) method args].Sublist
      (job.assembly [] job.form.node ++ l) := by
    refine List.Sublist.trans ?_ (List.sublist_append_left _ l)
    refine List.Sublist.trans ?_ (Node.before_after job.creation job.completion hv)
    rw [hcreate]
    exact (List.singleton_sublist.mpr hcompletion).cons_cons _
  have hmade : job.deeds.look (.create (job.name v) className params) =
      some (.made (.create (job.name v) className params)) := if_pos hobject
  have hdeeds := hsub.filterMap job.deeds.look
  rw [← hseen, List.filterMap_cons_some hmade,
    List.filterMap_cons_some (look_call hreceiver hobject hargs), List.filterMap_nil] at hdeeds
  obtain ⟨a, b, hpair, ha, hb⟩ := pair_of_filterMap hdeeds
  obtain rfl := eq_of_made ha
  obtain ⟨taken, rfl, htaken⟩ := eq_of_handed hb
  refine ⟨taken, hpair, (mem_passed hobject).mp ?_⟩
  rw [htaken]
  exact (mem_passed hobject).mpr hargs

include hk hw hroot

/-- A widget is passed objects to link them, or because they are handed to it. -/
theorem handed_only {method : String} {args : List Expr}
    (hl : ∀ s ∈ l, job.deeds.look s = none ∨ job.Links s) (hu : u ∈ job.form.visits)
    (hukind : u.node.kind = .widget) (hv : v ∈ job.form.visits)
    (hobject : v.node.kind.isObject = true) (hcall : .call (job.name u) method args ∈ setup)
    (hargs : .ref (job.name v) ∈ args) :
    method ∈ ["addAction", "setBuddy"] ∨
      ∃ name n, handoverTo job.plan (job.frame u) name n ≠ [] := by
  have huobject : u.node.kind.isObject = true := by rw [hukind]; rfl
  have hlook : job.deeds.look (.call (job.name u) method args) = _ :=
    look_call (hj.isObject_name hu huobject) (hj.isObject_name hv hobject) hargs
  have hdeed := List.mem_filterMap.mpr ⟨_, hcall, hlook⟩
  rw [hseen] at hdeed
  obtain ⟨s, hs, hsame⟩ := List.mem_filterMap.mp hdeed
  obtain ⟨args', rfl, -⟩ := eq_of_handed hsame
  rcases List.mem_append.mp hs with hs | hs
  · obtain ⟨w, hmem, hs⟩ := List.mem_flatMap.mp
      ((Node.tour_perm job.creation job.completion job.form.node []).mem_iff.mp hs)
    rcases List.mem_append.mp hs with hs | hs
    · obtain ⟨-, _, _, h⟩ := mem_creation hk hw hroot hmem hs
      cases h
    -- Only layouts are given items, so the call is a handover, and by its receiver one to `u`.
    rcases List.mem_append.mp hs with hs | hs
    · have hbuilds := placement_builds hj hmem _ hs
      rw [builds_receiver (hj.isLayout_other hu huobject (by rw [hukind]; decide))] at hbuilds
      cases hbuilds
    · obtain ⟨-, u', hu', hs⟩ := mem_handover hs
      obtain ⟨humem, hukind'⟩ := Node.enclosing_mem ((Node.mem_visits _ _).mp hmem) hu'
      obtain ⟨method', args'', hsame', -⟩ := handoverTo_passes _ hs
      obtain ⟨hname, -, -⟩ := Stmt.call.inj hsame'
      obtain rfl := hj.eq_of_name hu huobject humem (by rw [hukind']; rfl) hname
      exact .inr ⟨_, _, List.ne_nil_of_mem hs⟩
  · rcases hl _ hs with hnone | ⟨receiver, m, e, h, hm, -⟩
    · rw [hnone] at hsame
      cases hsame
    · cases h
      exact .inl hm

/-- A widget in one of a class that forsakes its widgets never gets a parent. -/
theorem forsaken {className : String} (hl : ∀ s ∈ l, job.deeds.look s = none ∨ job.Links s)
    (hv : v ∈ job.form.visits) (hwidget : v.node.kind = .widget)
    (hu : job.form.node.enclosing? .widget v.path = some u)
    (honce : creationsOf (job.name v) setup = [.create (job.name v) className
      (if job.plan.classes.isContainer (job.frame u).className then [] else [.ref (job.name u)])])
    (h : job.plan.classes.forsakes (job.frame u).className = true) :
    ¬ Adopts job.plan.classes setup (job.frame u) (job.name v) := by
  obtain ⟨humem, hukind⟩ := Node.enclosing_mem ((Node.mem_visits _ _).mp hv) hu
  obtain ⟨hcontainer, hmethod, hnone⟩ := handoverTo_forsaken job.plan (job.frame u) h
  rintro (⟨_, hcreate⟩ | ⟨_, _, method, taken, hpair, htaking, href⟩)
  · have hmem : .create (job.name v) _ [.ref (job.name u)] ∈ creationsOf (job.name v) setup :=
      List.mem_filter.mpr ⟨hcreate, by simp [Stmt.constructs?]⟩
    rw [honce, if_pos hcontainer] at hmem
    cases List.mem_singleton.mp hmem
  · have hcall : .call (job.name u) method taken ∈ setup :=
      hpair.subset (List.mem_cons_of_mem _ (List.mem_cons_self ..))
    rcases handed_only hj hk hw hroot hseen hl humem hukind hv (by rw [hwidget]; rfl) hcall
      href with hlink | ⟨name, n, hsome⟩
    · rw [Classes.Custom.takingMethods, hmethod, Option.toList_none, List.append_nil] at htaking
      simp only [List.mem_cons, List.not_mem_nil, or_false] at hlink
      rcases hlink with rfl | rfl <;> simp at htaking
    · exact hsome (hnone name n)

end Adoption

end Job

/-- A widget below the root gets the widget that encloses it as parent, when it is created or later,
unless that is of a class that forsakes its widgets: then it never does. -/
theorem widgets_adopted_iff (o : Options) (document : Nat) (f : Form) (root : Visit) (s : Session)
    (hk : f.node.kind = .ui) (hw : Node.All Node.WellFormed f.node)
    (hroot : f.rootVisit? = some root) (hd : s.table.Distinct) :
    let setup := ((Header.declaration o document f root).run s).1.functions.setup
    let job := jobOf o document f root s
    ∀ v ∈ f.visits, v.node.kind = .widget → v.path ≠ root.path →
      ∃ u, f.node.enclosing? .widget v.path = some u ∧
        Job.creationsOf (job.name v) setup =
          [.create (job.name v) (Classes.Custom.realClass (v.node.stringAttribute "class"))
            (if job.plan.classes.isContainer (u.node.stringAttribute "class") then []
              else [.ref (job.name u)])] ∧
        (Adopts job.plan.classes setup (job.frame u) (job.name v) ↔
          job.plan.classes.forsakes (u.node.stringAttribute "class") = false) := by
  intro setup job v hv hwidget hne
  have hj : job.Named := jobOf_named o document hk hw hroot hd
  have hsetup : setup = (built job.plan job.form (Header.naming document f root s).2).setup :=
    (declaration_built o document hk hw hroot hd).1
  obtain ⟨-, l, hl, hseen⟩ := Job.built_assembly job.deeds hj hw
    (s := (Header.naming document f root s).2) rfl
  obtain ⟨houtline, -⟩ := Job.built_outline hj hw (s := (Header.naming document f root s).2) rfl
  rw [← hsetup] at hseen houtline
  obtain ⟨u, hu, hcreation⟩ := @Job.widget_creation job v hk hw hroot hv hwidget hne
  have honce := Job.created_once houtline hj hk hw hroot hv hcreation
  refine ⟨u, hu, honce, fun hadopts => ?_, fun hforsakes => ?_⟩
  · rw [← Bool.not_eq_true]
    exact fun hforsakes =>
      Job.forsaken hj hk hw hroot hseen hl hv hwidget hu honce hforsakes hadopts
  · cases hcontainer : job.plan.classes.isContainer (u.node.stringAttribute "class") with
    | false =>
      rw [hcontainer] at honce
      have hmem := List.filter_sublist.subset (honce ▸ List.mem_singleton.mpr rfl)
      exact .inl ⟨_, hmem⟩
    | true =>
      obtain ⟨method, args, hmem, htaking, href⟩ := handoverTo_take job.plan (job.frame u)
        (job.name v) v.node hcontainer hforsakes
      obtain ⟨taken, hpair, htaken⟩ :=
        Job.handed_after hj hseen hv hwidget hu hcreation hmem href
      exact .inr ⟨_, _, method, taken, hpair, htaking, htaken⟩

/-- A form with two containers: what takes the pages of one of them is not said. -/
def forsaking : Form :=
  ⟨.mk .ui []
    [.node "widget" (.mk .widget [("class", .string "QWidget"), ("name", .string "Form")]
      [.node "widget" (.mk .widget [("class", .string "Pages"), ("name", .string "pages")]
          [.node "widget" (.mk .widget [("class", .string "QWidget"), ("name", .string "page")]
            [] "")] ""),
        .node "widget" (.mk .widget [("class", .string "QStackedWidget"), ("name", .string "stack")]
          [.node "widget" (.mk .widget [("class", .string "QWidget"), ("name", .string "sheet")]
            [] "")] "")] ""),
      .node "customwidgets" (.mk .customWidgets []
        [.node "customwidget" (.mk .customWidget []
          [.value "class" (.string "Pages"), .value "extends" (.string "QWidget"),
            .value "container" (.int .int32 ⟨1, by decide, by decide⟩)] "")] "")] ""⟩

theorem widgets_adopted_iff_forsaking :
    ∃ root page pages sheet stack, forsaking.rootVisit? = some root ∧
      Node.All Node.WellFormed forsaking.node ∧
      page ∈ forsaking.visits ∧ forsaking.node.enclosing? .widget page.path = some pages ∧
      sheet ∈ forsaking.visits ∧ forsaking.node.enclosing? .widget sheet.path = some stack ∧
      let setup := ((Header.declaration {} 0 forsaking root).run {}).1.functions.setup
      let job := jobOf {} 0 forsaking root {}
      [page, pages, sheet, stack].map job.name = ["page", "pages", "sheet", "stack"] ∧
        Job.creationsOf "page" setup = [.create "page" "QWidget" []] ∧
        ¬ Adopts job.plan.classes setup (job.frame pages) (job.name page) ∧
        Adopts job.plan.classes setup (job.frame stack) (job.name sheet) := by
  have hw : Node.All Node.WellFormed forsaking.node := by decide +kernel
  let page : Visit := ⟨[0, 0, 0], .mk .widget
    [("class", .string "QWidget"), ("name", .string "page")] [] ""⟩
  let sheet : Visit := ⟨[0, 1, 0], .mk .widget
    [("class", .string "QWidget"), ("name", .string "sheet")] [] ""⟩
  have hpage : page ∈ forsaking.visits := (Node.mem_visits _ page).mpr rfl
  have hsheet : sheet ∈ forsaking.visits := (Node.mem_visits _ sheet).mpr rfl
  have hall := widgets_adopted_iff {} 0 forsaking _ {} rfl hw rfl Table.distinct_empty
  obtain ⟨pages, hpages, -, horphan⟩ := hall page hpage rfl (by decide)
  obtain ⟨stack, hstack, -, hadopted⟩ := hall sheet hsheet rfl (by decide)
  refine ⟨_, page, pages, sheet, stack, rfl, hw, hpage, hpages, hsheet, hstack, ?_⟩
  obtain rfl := Option.some.inj hpages
  obtain rfl := Option.some.inj hstack
  refine ⟨by decide +kernel, by decide +kernel, fun h => ?_, hadopted.mpr (by decide +kernel)⟩
  exact absurd (horphan.mp h) (by decide +kernel)

end Setup

end FormCompiler
