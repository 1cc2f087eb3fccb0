import FormCompiler.Proofs.Setup.Objects

/-!
# Widgets and what belongs to them

The pieces of which the setup of a widget is made: the items of combo boxes, button groups, the
actions of menus, and handing the widget to the one that encloses it.
-/

namespace FormCompiler.Setup

open Code Document Naming

namespace Job

variable {job : Job} {c : Context} {b : Builder} {v : Visit}

/-! ## Items of combo boxes -/

theorem writes_iconArgs (hb : job.Consistent b) (icon : Option Property) :
    job.Writes True b (iconArgs job.plan icon b).2 ∧
      ∀ x ∈ (iconArgs job.plan icon b).1.flatMap Expr.uses,
        x ∈ job.vars (iconArgs job.plan icon b).2 := by
  cases icon with
  | none => exact ⟨.refl hb, fun x hx => absurd hx List.not_mem_nil⟩
  | some p =>
    obtain ⟨s1, huses⟩ := yields_iconExpr hb p.name p.picture
    refine ⟨s1, fun x hx => huses x ?_⟩
    have hx : x ∈ (iconExpr job.plan p.name p.picture b).1.uses ++ [] := hx
    rwa [List.append_nil] at hx

theorem writes_filling (hb : job.Consistent b) {name : String} {items : List ComboItem}
    {f : Filling} (hf : f.Fits name items) (hname : name ∈ job.vars b) :
    job.Writes True b (f.run job.plan b).2 := by
  obtain ⟨s1, huses⟩ := writes_iconArgs hb f.icon
  have s2 := s1.andThen (writes_calls s1.consistent (hf.calls (s1.mem_vars hname) huses))
  exact s2.andThen (writes_emitRetranslate s2.consistent _)

theorem writes_fillComboBox (hb : job.Consistent b) (name : String) (items : List ComboItem)
    (hname : name ∈ job.vars b) : job.Writes True b (fillComboBox job.plan name items b).2 := by
  rw [fillComboBox_eq]
  have s1 := writes_forM (fillings name items) (Filling.run job.plan) (fun _ => True) name
    (fun f hf b hb hname => writes_filling hb (fits_of_mem hf) hname) hb hname
  exact s1.congr (by simp)

/-! ## Menus -/

theorem writes_takeMenuAction (hj : job.Valid) (hb : job.Consistent b) (hv : v ∈ job.form.visits)
    (hmenu : job.IsMenu v) (hvar : job.name v ∈ job.vars b) :
    job.Writes True b (takeMenuAction (job.name v) b).2 ∧
      (job.table.actionIsMenu? (job.name v ++ "Action") = some true →
        job.name v ++ "Action" ∈ job.vars (takeMenuAction (job.name v) b).2) := by
  have htable : b.session.table.actionIsMenu? (job.name v ++ "Action") =
      job.table.actionIsMenu? (job.name v ++ "Action") := by
    rw [Table.actionIsMenu?, Table.actionIsMenu?, hb.entries]
  have hrun : takeMenuAction (job.name v) b =
      if job.table.actionIsMenu? (job.name v ++ "Action") = some true then
        emit (.assign (job.name v ++ "Action") (.invoke (job.name v) "menuAction" [])) b
      else ((), b) := by
    rw [← htable]
    simp only [takeMenuAction, bind_run, ite_run, pure_run]
    rfl
  rw [hrun]
  by_cases ha : job.table.actionIsMenu? (job.name v ++ "Action") = some true
  · rw [if_pos ha]
    obtain ⟨e, he, hname, _⟩ := hj.distinct.actionIsMenu_iff.mp ha
    have htaken : job.name v ++ "Action" ∈ b.session.table.taken :=
      hb.grows.taken _ (hname ▸ hj.entry_taken he)
    refine ⟨writes_create hb _ rfl ⟨htaken, hj.menu_not_missing hv hmenu ha⟩ ?_, fun _ =>
      assigned_emit (by simp [Stmt.assigns])⟩
    simpa [Stmt.uses, Expr.uses] using hvar
  · rw [if_neg ha]
    exact ⟨.refl hb, fun h => absurd h ha⟩

/-! ## Containers -/

theorem call_calls {known : List String} {name method : String} {args : List Expr}
    (hname : name ∈ known) (hargs : ∀ x ∈ args.flatMap Expr.uses, x ∈ known) :
    Calls known [.call name method args] :=
  Calls.cons rfl (fun x hx => (List.mem_cons.mp hx).elim (fun h => h ▸ hname) (hargs x)) Calls.nil

section Containers

variable {parent name : String} (hparent : parent ∈ job.vars b) (hname : name ∈ job.vars b)

include hparent hname

theorem writes_setPageText (hb : job.Consistent b) (method : String) (phrase : Option Phrase)
    (fallback : String) :
    job.Writes True b (setPageText parent name method phrase fallback b).2 := by
  refine writes_emitIn hb _ (call_calls hparent ?_)
  simpa [Expr.uses] using ⟨hparent, hname⟩

theorem writes_setPageTextNamed (hb : job.Consistent b) (method : String)
    (attrs : List Property) (attr : String) :
    job.Writes True b (setPageTextNamed parent name method attrs attr b).2 := by
  unfold setPageTextNamed
  cases Property.phrase? attrs attr with
  | none => exact .refl hb
  | some phrase => exact writes_setPageText hparent hname hb method (some phrase) ""

theorem writes_addPage (hb : job.Consistent b) (method : String) (attrs : List Property)
    (text : Expr) (htext : text.uses = []) :
    let r := iconArgs job.plan (Property.find? attrs "icon") b
    job.Writes True b (emit (.call parent method ([.ref name] ++ r.1 ++ [text])) r.2).2 := by
  intro r
  obtain ⟨s1, huses⟩ := writes_iconArgs hb (Property.find? attrs "icon")
  refine s1.andThen (writes_call s1.consistent _ rfl fun x hx => ?_)
  simp only [Stmt.uses, List.flatMap_append, List.flatMap_cons, List.flatMap_nil, Expr.uses, htext,
    List.append_nil, List.mem_cons, List.mem_append, List.not_mem_nil, or_false] at hx
  rcases hx with rfl | rfl | hx
  · exact s1.mem_vars hparent
  · exact s1.mem_vars hname
  · exact huses x hx

theorem writes_addToToolBox (hb : job.Consistent b) (attrs : List Property) :
    job.Writes True b (addToToolBox job.plan parent name attrs b).2 := by
  have s1 := writes_addPage hparent hname hb "addItem" attrs
    (plainText (Property.phrase? attrs "label") pageTitle) (plainText_uses ..)
  have s2 := writes_setPageText (s1.mem_vars hparent) (s1.mem_vars hname) s1.consistent
    "setItemText" (Property.phrase? attrs "label") pageTitle
  have s := s1.andThen s2
  exact s.andThen (writes_setPageTextNamed (s.mem_vars hparent) (s.mem_vars hname) s.consistent
    "setItemToolTip" attrs "toolTip")

theorem writes_addToTabWidget (hb : job.Consistent b) (attrs : List Property) :
    job.Writes True b (addToTabWidget job.plan parent name attrs b).2 := by
  have s1 := writes_addPage hparent hname hb "addTab" attrs .emptyText rfl
  have s2 := writes_setPageText (s1.mem_vars hparent) (s1.mem_vars hname) s1.consistent
    "setTabText" (Property.phrase? attrs "title") pageTitle
  have s := s1.andThen s2
  have s3 := writes_setPageTextNamed (s.mem_vars hparent) (s.mem_vars hname) s.consistent
    "setTabToolTip" attrs "toolTip"
  have s' := s.andThen s3
  exact s'.andThen (writes_setPageTextNamed (s'.mem_vars hparent) (s'.mem_vars hname) s'.consistent
    "setTabWhatsThis" attrs "whatsThis")

theorem writes_addToContainer (hb : job.Consistent b) (parentClass : String)
    (attrs : List Property) :
    job.Writes True b (addToContainer job.plan parent parentClass name attrs b).2 := by
  obtain ⟨m, l, hm, -, htakes⟩ := addToContainer_takes job.plan parent parentClass name attrs
  rw [hm]
  cases htakes with
  | pass hs =>
    obtain ⟨method, first, rfl, huses, -⟩ := hs
    refine writes_call hb _ rfl ?_
    simpa [Stmt.uses, Expr.uses, huses] using ⟨hparent, hname⟩
  | toolBox => exact writes_addToToolBox hparent hname hb attrs
  | tabWidget => exact writes_addToTabWidget hparent hname hb attrs
  | leave => exact .refl hb

end Containers

theorem writes_addToParent (hb : job.Consistent b) (hc : job.Located c b) {frame : Frame}
    (hframe : c.widget = some frame) (name : String) (n : Node) (hname : name ∈ job.vars b) :
    job.Writes True b (addToParent job.plan c name n b).2 := by
  have hparent : c.widgetName ∈ job.vars b := by
    rw [Context.widgetName, hframe]
    exact (hc.widget frame hframe).1
  have hknown : [c.widgetName, name] ⊆ job.vars b := by simpa using ⟨hparent, hname⟩
  have s1 := writes_calls hb ((Passes.calls (mainWindowStmts_passes job.plan c.widgetName name
    (n.stringAttribute "class") n.containerAttributes)).mono hknown)
  simp only [addToParent, ite_run, bind_run]
  refine Writes.ite _ (fun _ => ?_) fun _ => writes_addToContainer hparent hname hb _ _
  exact s1.andThen (writes_addToContainer (s1.mem_vars hparent) (s1.mem_vars hname)
    s1.consistent _ _)

theorem writes_raiseChild (hb : job.Consistent b) (child : String) :
    job.Writes True b ((do
      if !(← get).widgets.contains child then
        note job.plan (.invalidOrder child)
      else if !child.isEmpty then
        emit (.call child "raise" []) : Build Unit) b).2 := by
  simp only [bind_run, ite_run, pure_run]
  refine Writes.ite _ (fun _ => writes_note hb _) fun hw => Writes.ite _ (fun _ => ?_) fun _ =>
    .refl hb
  refine writes_call hb _ rfl ?_
  have hvar := hb.widget_mem (x := child) (by simpa [get_run] using hw)
  simpa [Stmt.uses] using hvar

theorem writes_raiseChildren (hb : job.Consistent b) (n : Node) :
    job.Writes True b (raiseChildren job.plan n b).2 := by
  exact Writes.congr (writes_forM (n.strings "zorder") _ (fun _ => True) job.plan.mainForm
    (fun child _ b hb _ => writes_raiseChild hb child) hb (mainForm_mem job b)) (by simp)

end Job

end FormCompiler.Setup
