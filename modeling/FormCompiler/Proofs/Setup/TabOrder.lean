import FormCompiler.Proofs.Setup.Links

/-!
# The tab order

The tab stops of a form are names, of which some may be those of no widget.  Each of these is
reported, and the others are to be linked one to the next.  That is done exactly if the first name
is that of a widget: from a first name that is not no link starts, and the tab order is lost
(`tabStops_linked_iff`).
-/

namespace FormCompiler.Setup

open Code

/-- The statements that link each of some widgets to the next. -/
def tabLinks (stops : List String) : List Stmt :=
  (stops.zip stops.tail).map fun link => .run "QWidget::setTabOrder" [.ref link.1, .ref link.2]

theorem tabLinks_eq_nil_iff (stops : List String) : tabLinks stops = [] ↔ stops.length ≤ 1 := by
  match stops with
  | [] | [_] => simp [tabLinks]
  | _ :: _ :: _ => simp [tabLinks]

section Steps

variable {isWidget : String → Bool}

/-- From no stop there is no step, whatever follows. -/
theorem tabSteps_from_none (names : List String) : tabSteps isWidget "" names = [] := by
  induction names with
  | nil => rfl
  | cons name names ih => simp [tabSteps, ih]

/-- From a stop on the steps lead from each widget to the next. -/
theorem tabSteps_eq_zip (hnamed : ∀ x, isWidget x = true → x ≠ "") {last : String}
    (hlast : last ≠ "") (names : List String) :
    tabSteps isWidget last names =
      (last :: names.filter isWidget).zip (names.filter isWidget) := by
  induction names generalizing last with
  | nil => rfl
  | cons name names ih =>
    cases hname : isWidget name with
    | false => simp [tabSteps, hname, ih hlast]
    | true => simp [tabSteps, hname, hnamed name hname, hlast, ih (hnamed name hname)]

theorem tabOrder_eq_zip (hnamed : ∀ x, isWidget x = true → x ≠ "") (names : List String) :
    tabOrder isWidget names =
      if names.head?.all isWidget then (names.filter isWidget).zip (names.filter isWidget).tail
      else [] := by
  cases names with
  | nil => rfl
  | cons first names =>
    cases hfirst : isWidget first with
    | false => simp [tabOrder, hfirst, tabSteps_from_none]
    | true => simp [tabOrder, hfirst, tabSteps_eq_zip hnamed (hnamed first hfirst)]

end Steps

theorem note_each (plan : Plan) (topic : String → Topic) (names : List String) (b : Builder) :
    names.forM (fun name => note plan (topic name)) b =
      ((), { b with session := ⟨b.session.table, b.session.notices ++
        names.map (Notice.about plan.options.formName ∘ topic)⟩ }) := by
  induction names generalizing b with
  | nil =>
    rw [List.map_nil, List.append_nil]
    rfl
  | cons name names ih =>
    rw [List.forM, bind_run, ih, List.map_cons, ← List.singleton_append, ← List.append_assoc]
    rfl

/-- Every name that is not that of a widget is reported.  The widgets among the names are linked,
each to the next, if the first name is one of them, or else not at all; so nothing is missing unless
there are two widgets to link and the first name is none. -/
theorem tabStops_linked_iff (plan : Plan) (names : List String) (b : Builder)
    (hnamed : ∀ x ∈ b.widgets, x ≠ "") :
    let valid := names.filter b.widgets.contains
    let invalid := names.filter (!b.widgets.contains ·)
    let b' := ((writeTabStops plan names).run b).2
    b' = { b with
        session := ⟨b.session.table, b.session.notices ++
          invalid.map (Notice.about plan.options.formName ∘ Topic.invalidTabStop)⟩,
        setup := b.setup ++
          if names.head?.all b.widgets.contains then tabLinks valid else [] } ∧
      (b'.setup = b.setup ++ tabLinks valid ↔
        names.head?.all b.widgets.contains = true ∨ valid.length ≤ 1) := by
  intro valid invalid b'
  have hrun : b' = { b with
      session := ⟨b.session.table, b.session.notices ++
        invalid.map (Notice.about plan.options.formName ∘ Topic.invalidTabStop)⟩,
      setup := b.setup ++ if names.head?.all b.widgets.contains then tabLinks valid else [] } := by
    have horder : tabOrder b.widgets.contains names = _ :=
      tabOrder_eq_zip (fun x hx => hnamed x (List.contains_iff_mem.mp hx)) names
    simp only [b', writeTabStops, StateT.run, bind_run, get_run, note_each, horder]
    split <;> rfl
  refine ⟨hrun, ?_⟩
  rw [hrun, ← tabLinks_eq_nil_iff]
  cases names.head?.all b.widgets.contains with
  | true => simp
  | false =>
    simp only [Bool.false_eq_true, if_false, false_or, List.append_cancel_left_eq]
    exact eq_comm

/-- Two widgets stay without a link because the first of three tab stops has gone. -/
theorem tabStops_linked_iff_gone :
    let b : Builder := { session := {}, widgets := ["b", "a"] }
    let b' := ((writeTabStops (Plan.ofForm {} 0 ⟨.empty .ui⟩ "Form") ["gone", "a", "b"]).run b).2
    (∀ x ∈ b.widgets, x ≠ "") ∧ b'.setup = [] ∧
      tabLinks (["gone", "a", "b"].filter b.widgets.contains) =
        [.run "QWidget::setTabOrder" [.ref "a", .ref "b"]] ∧
      (b'.setup = b.setup ++ tabLinks (["gone", "a", "b"].filter b.widgets.contains) ↔
        ["gone", "a", "b"].head?.all b.widgets.contains = true ∨
          (["gone", "a", "b"].filter b.widgets.contains).length ≤ 1) :=
  ⟨by decide, by decide +kernel, by decide +kernel,
    (tabStops_linked_iff _ ["gone", "a", "b"] { session := {}, widgets := ["b", "a"] }
      (by decide)).2⟩

end FormCompiler.Setup
