import FormCompiler.Proofs.Setup.Order
import FormCompiler.Proofs.Setup.Stages

/-!
# Objects and their requests

Each step of the walk over a form serves the requests of the node it deals with: on the way down
those of the object itself, on the way back those of a page.  A button group serves its requests
when it is created, and the buttons that join it later find them served.
-/

namespace FormCompiler.Setup

open Code Document Naming

/-! ## Plain code -/

theorem Passes.isPlain {receiver name : String} {l : List Stmt}
    (h : ∀ s ∈ l, Passes receiver name s) : ∀ s ∈ l, s.isPlain = true := by
  intro s hs
  obtain ⟨method, first, rfl, -⟩ := h s hs
  rfl

theorem names_nameOfGroup (t : Table) (n : Node) : t.names ⊆ (t.nameOfGroup n).2.1.names := by
  intro x hx
  cases hg : t.group? (n.stringAttribute "name") with
  | some g => rwa [Table.nameOfGroup_known hg]
  | none =>
    rw [Table.nameOfGroup_new hg]
    rcases List.mem_append.mp hx with hx | hx
    · exact List.mem_append_left _ hx
    · exact List.mem_append_right _ (List.mem_cons_of_mem _ hx)

/-- The icons of the items are asked for if the items are added one by one; otherwise there are
none. -/
theorem fillings_requests (name : String) (items : List ComboItem) :
    (fillings name items).flatMap (fun f => iconRequests (fun e => f.code [e]) f.icon) =
      items.flatMap (itemRequests name) := by
  unfold fillings
  split
  · rename_i hempty
    rw [List.isEmpty_iff.mp hempty]
    rfl
  · split
    · rename_i huniform
      rw [areUniform, Bool.and_eq_true, List.all_eq_true] at huniform
      have hnone : items.flatMap (itemRequests name) = [] := by
        refine List.flatMap_eq_nil_iff.mpr fun i hi => ?_
        rw [itemRequests, Option.isNone_iff_eq_none.mp (huniform.1 i hi), iconRequests]
      rw [hnone]
      split <;> rfl
    · have hitems : items.flatMap (itemRequests name) =
          items.zipIdx.flatMap fun i => itemRequests name i.1 := by
        rw [← List.flatMap_map Prod.fst, List.zipIdx_map_fst]
      rw [List.flatMap_append, List.flatMap_map, hitems]
      exact List.append_nil _

theorem groupNodeIn_known {t : Table} {d : String} {g : Group} (h : t.group? d = some g) :
    groupNodeIn t d = g.node := by
  rw [groupNodeIn, h]
  rfl

theorem groupNodeIn_new {t : Table} {d : String} (h : t.group? d = none) :
    (groupNodeIn t d).properties = [] := by
  rw [groupNodeIn, h]
  rfl

namespace Job

variable {job : Job} {busy : List String} {rs q : List Request} {b b' : Builder} {c : Context}
  {v : Visit} {parent name : String}

theorem Named.object (hj : job.Named) (hv : v ∈ job.form.visits)
    (hk : v.node.kind.isObject = true) : job.name v ∈ job.objects busy := by
  have hobject := hj.isObject_name hv hk
  rw [isObject, List.any_eq_true] at hobject
  obtain ⟨e, he, hname⟩ := hobject
  rw [← beq_iff_eq.mp hname]
  exact List.mem_append_right _ (List.mem_map_of_mem he)

namespace Stage

theorem congr {rs' : List Request} (h : job.Stage busy rs b) (hrs : ∀ r, r ∈ rs ↔ r ∈ rs') :
    job.Stage busy rs' b := by
  have hmore : rs ⊆ rs' := fun r hr => (hrs r).mp hr
  exact { h with
    tidy := h.tidy.mono hmore
    served := fun r hr => (h.served r ((hrs r).mpr hr)).mono hmore
    created := fun d g hg hmem => (h.created d g hg hmem).imp_right fun hall r hr =>
      hmore (hall r hr) }

theorem again (h : job.Stage busy rs b) (hq : ∀ r ∈ q, r ∈ rs) : job.Stage busy (rs ++ q) b :=
  h.congr fun r => by
    rw [List.mem_append]
    exact ⟨.inl, fun hr => hr.elim id (hq r)⟩

theorem nothing (h : job.Stage busy rs b) (hq : q = []) : job.Stage busy (rs ++ q) b := by
  rwa [hq, List.append_nil]

/-! ## Icons -/

theorem iconCall (h : job.Stage busy rs b) (hname : name ∈ job.objects busy) (method : String)
    (before after : List Expr) (hbefore : ∀ x ∈ before.flatMap Expr.uses, x ∈ job.objects busy)
    (hafter : after.flatMap Expr.uses = []) (icon : Option Property) :
    job.Stage busy
      (rs ++ iconRequests (fun e => [.call name method (before ++ [e] ++ after)]) icon)
      (Setup.emit (.call name method (before ++ (iconArgs job.plan icon b).1 ++ after))
        (iconArgs job.plan icon b).2).2 := by
  have hcalls : ∀ {known : List String} (args : List Expr),
      (∀ x ∈ job.objects busy, x ∈ known) → (∀ x ∈ args.flatMap Expr.uses, x ∈ known) →
      Calls known [.call name method (before ++ args ++ after)] := by
    intro known args hknown hargs
    refine call_calls (hknown name hname) ?_
    rw [List.flatMap_append, List.flatMap_append, hafter, List.append_nil]
    exact List.forall_mem_append.mpr ⟨fun x hx => hknown x (hbefore x hx), hargs⟩
  have hplain : ∀ args, ∀ s ∈ [Stmt.call name method (before ++ args ++ after)],
      s.isPlain = true := by simp [Stmt.isPlain]
  have hplainly : ∀ {b}, job.Stage busy rs b → ∀ args, args.flatMap Expr.uses = [] →
      job.Stage busy rs (Setup.emit (.call name method (before ++ args ++ after)) b).2 := by
    intro b h args hargs
    exact h.emit (.of_calls (hcalls args (fun x => h.object) (by simp [hargs])) (hplain args))
  cases icon with
  | none =>
    rw [iconRequests, List.append_nil]
    exact hplainly h [] rfl
  | some p =>
    have hrun : iconArgs job.plan (some p) b =
        ([(iconExpr job.plan p.name p.picture b).1], (iconExpr job.plan p.name p.picture b).2) :=
      rfl
    rw [hrun, iconRequests]
    cases p.picture with
    | icon i =>
      let u : Use Shared := ⟨.icon i, fun x _ => [.call name method (before ++ [.ref x] ++ after)]⟩
      have hu : ∀ x, Calls (x :: b.session.table.names) (u.code x "") := fun x =>
        hcalls [.ref x] (fun y hy => List.mem_cons_of_mem _ (h.object hy)) (by simp [Expr.uses])
      exact h.serve fun htidy => serves_shared htidy u
        (List.mem_append_right _ (List.mem_singleton.mpr rfl)) hu fun x => hplain [.ref x]
    | pixmap pixmap =>
      refine (hplainly h [pictureExpr job.plan "QPixmap" pixmap.text] ?_).nothing rfl
      rw [List.flatMap_singleton, pictureExpr_uses]
    | none =>
      exact (hplainly (h.note (.unknownIconFormat p.name))
        [(iconExpr job.plan p.name .none b).1] rfl).nothing rfl

theorem filling (h : job.Stage busy rs b) (hname : name ∈ job.objects busy)
    {items : List ComboItem} {f : Filling} (hf : f.Fits name items) :
    job.Stage busy (rs ++ iconRequests (fun e => f.code [e]) f.icon) (f.run job.plan b).2 := by
  cases hf with
  | insert =>
    rw [run_code]
    refine (h.emit (.of_calls (.cons rfl ?_ .nil) (by simp [insertion, Stmt.isPlain]))).nothing rfl
    simpa [insertion, Stmt.uses, List.flatMap_map] using h.object hname
  | renew | gap =>
    rw [run_texts]
    exact (h.retranslate _).nothing rfl
  | add i =>
    refine (h.iconCall hname "addItem" [] [if i.1.isTranslated then .emptyText
      else plainText i.1.text ""] (by simp) ?_ i.1.icon).retranslate _
    split <;> simp

theorem fillComboBox (h : job.Stage busy rs b) (hname : name ∈ job.objects busy)
    (items : List ComboItem) :
    job.Stage busy (rs ++ items.flatMap (itemRequests name))
      (fillComboBox job.plan name items b).2 := by
  have s1 := h.forM (fillings name items) (Filling.run job.plan)
    (fun f => iconRequests (fun e => f.code [e]) f.icon)
    fun f hf rs b hb => hb.filling hname (fits_of_mem hf)
  rw [fillComboBox_eq, ← fillings_requests]
  exact s1

/-! ## Button groups -/

theorem widen {busy' : List String} (h : job.Stage busy rs b) (hmore : busy ⊆ busy')
    (hknown : ∀ x ∈ busy', x ∈ b.session.table.names) : job.Stage busy' rs b :=
  { h with
    underway := hknown
    created := fun d g hg hmem => (h.created d g hg hmem).imp_left fun hx => hmore hx }

theorem extend (h : job.Stage busy rs b) {s : Session} (hlater : b.session.table.Later s.table)
    (hentries : s.table.entries = b.session.table.entries)
    (hnames : b.session.table.names ⊆ s.table.names)
    (hbare : ∀ d g, s.table.group? d = some g →
      b.session.table.group? d = some g ∨ g.node.properties = []) :
    job.Stage busy rs { b with session := s } := by
  have hstep : Setup.Later b { b with session := s } :=
    { Setup.Later.refl b with taken := hlater.grows.taken }
  have hscoped : Scoped s.table b.setup := by
    refine ⟨hlater.distinct, fun t ht x hx => ?_, h.tidy.names.declared, fun x hx => ?_,
      h.tidy.names.nodup⟩
    · exact (h.tidy.names.known t ht x hx).imp_left (hlater.grows.taken x)
    · rcases h.tidy.names.outside x hx with htheme | hout
      · exact .inl htheme
      · by_cases htheme : x = themeVariable
        · exact .inl htheme
        · exact .inr fun hx' => hout (hlater.names x (h.tidy.names.taken hx htheme) hx')
  exact {
    tidy := ⟨hscoped, h.tidy.cached, h.tidy.themed,
      fun e he => h.tidy.inked_after hstep (fun _ => .inl) he⟩
    served := fun r hr => (h.served r hr).after hstep
    entries := hentries.trans h.entries
    groups := fun d g hg => hlater.grows.groups d g (h.groups d g hg)
    bare := fun d g hg => (hbare d g hg).elim (h.bare d g) .inr
    widgets := fun x hx => hnames (h.widgets x hx)
    aside := h.aside.mono hnames
    underway := fun x hx => hnames (h.underway x hx)
    created := h.created }

theorem nameGroup (h : job.Stage [] rs b) (d : String) :
    let r := b.session.table.nameOfGroup (groupNodeIn b.session.table d)
    job.Stage [r.1] rs { b with session := ⟨r.2.1, b.session.notices ++ r.2.2⟩ } ∧
      ∀ d' g, job.table.group? d' = some g → g.name = r.1 → d' = d := by
  intro r
  have hdistinct := h.tidy.names.distinct
  have hname := groupNodeIn_name hdistinct d
  obtain ⟨hdistinct', hgrows, g, hg, hgname⟩ :=
    Table.nameOfGroup_spec b.session.table (groupNodeIn b.session.table d) hdistinct
  rw [hname] at hg
  refine ⟨?_, fun d' g' hg' hgname' => ?_⟩
  · have s1 : job.Stage [] rs { b with session := ⟨r.2.1, b.session.notices ++ r.2.2⟩ } := by
      refine h.extend (Table.nameOfGroup_later hdistinct _) (Table.nameOfGroup_entries _ _) ?_ ?_
      · exact names_nameOfGroup _ _
      · intro d' g' hg'
        cases hd : b.session.table.group? d with
        | some g0 =>
          have hr : r = (g0.name, b.session.table, []) :=
            Table.nameOfGroup_known (hname.symm ▸ hd)
          rw [hr] at hg'
          exact .inl hg'
        | none =>
          refine (Table.nameOfGroup_group hg').imp_right fun hnew => ?_
          rw [hnew.2]
          exact groupNodeIn_new hd
    refine s1.widen (List.nil_subset _) (List.forall_mem_singleton.mpr ?_)
    rw [← hgname]
    exact List.mem_append_right _ (List.mem_map_of_mem (Table.group_mem hg).1)
  · refine hdistinct'.group_name ?_ hg (hgname'.trans hgname.symm)
    exact hgrows.groups d' g' (h.groups d' g' hg')

/-- The group has been created. -/
theorem release {x : String} (h : job.Stage [x] rs b)
    (hdone : ∀ d g, job.table.group? d = some g → g.name = x → ∀ r ∈ job.groupRequests d, r ∈ rs) :
    job.Stage [] rs b :=
  { h with
    underway := by simp
    created := fun d g hg hmem => .inr ((h.created d g hg hmem).elim
      (fun hx => hdone d g hg (List.mem_singleton.mp hx)) id) }

theorem groupRequests_eq (h : job.Stage busy rs b) (d : String) :
    job.groupRequests d = propertiesRequests job.plan
      (b.session.table.nameOfGroup (groupNodeIn b.session.table d)).1 "QButtonGroup" false
      (groupNodeIn b.session.table d).properties := by
  have hname := groupNodeIn_name h.tidy.names.distinct d
  cases hg : job.table.group? d with
  | some g =>
    have hknown := h.groups d g hg
    rw [Table.nameOfGroup_known (hname.symm ▸ hknown), groupNodeIn_known hknown, groupRequests, hg]
  | none =>
    have hbare : (groupNodeIn b.session.table d).properties = [] := by
      cases hknown : b.session.table.group? d with
      | none => exact groupNodeIn_new hknown
      | some g =>
        rw [groupNodeIn_known hknown]
        exact (h.bare d g hknown).resolve_left (by simp [hg])
    rw [groupRequests, hg, hbare]
    rfl

theorem enrol (h : job.Stage [] rs b) (hname : name ∈ job.objects [])
    (hmain : job.plan.mainForm ∈ job.objects []) (d : String) (create : String → Stmt)
    (hcreate : ∀ x, (create x).isPlain = true ∧ (create x).names = [x, job.plan.mainForm]) :
    job.Stage [] (rs ++ job.groupRequests d)
      (enrol job.plan c name (groupNodeIn b.session.table d) create b).2 := by
  have hrequests := h.groupRequests_eq d
  have hgroup : ∀ g, job.table.group? d = some g →
      (b.session.table.nameOfGroup (groupNodeIn b.session.table d)).1 = g.name := by
    intro g hg
    have hknown := h.groups d g hg
    rw [Table.nameOfGroup_known ((groupNodeIn_name h.tidy.names.distinct d).symm ▸ hknown)]
  obtain ⟨s1, hunique⟩ := h.nameGroup d
  rw [enrol_run]
  generalize b.session.table.nameOfGroup (groupNodeIn b.session.table d) = r at *
  have hbusy : r.1 ∈ job.objects [r.1] := List.mem_append_left _ (List.mem_singleton.mpr rfl)
  have hend : ∀ {rs' b'}, job.Stage [r.1] rs' b' → (∀ q ∈ job.groupRequests d, q ∈ rs') →
      job.Stage [] rs' (Setup.emit (.call r.1 "addButton" [.ref name]) b').2 := by
    intro rs' b' h' hq
    have hbutton := h'.object (List.mem_append_right _ hname)
    have hcall : Regards b'.session.table.names [.call r.1 "addButton" [.ref name]] :=
      .call (h'.object hbusy) (by simpa [Expr.uses] using hbutton)
    refine (h'.emit hcall).release fun d' g hg hgname => ?_
    rw [hunique d' g hg hgname]
    exact hq
  split
  · rename_i hmem
    have hdone : ∀ q ∈ job.groupRequests d, q ∈ rs := by
      cases hg : job.table.group? d with
      | none => simp [groupRequests, hg]
      | some g =>
        rw [List.contains_iff_mem, hgroup g hg] at hmem
        exact (h.created d g hg hmem).resolve_left List.not_mem_nil
    exact (hend s1 hdone).again hdone
  · have s2 : job.Stage [r.1] rs { b with
        session := ⟨r.2.1, b.session.notices ++ r.2.2⟩
        buttonGroups := r.1 :: b.buttonGroups } := by
      refine s1.change rfl rfl rfl rfl rfl (fun x hx => ?_) (fun _ => .inl) fun _ => .inl
      exact (List.mem_cons.mp hx).elim (fun hx => .inr (List.mem_singleton.mpr hx)) .inl
    have s3 : job.Stage [r.1] rs { b with
        session := ⟨r.2.1, b.session.notices ++ r.2.2⟩
        setup := b.setup ++ [create r.1]
        buttonGroups := r.1 :: b.buttonGroups } := by
      refine s2.emit fun s hs => ?_
      rw [List.mem_singleton.mp hs, (hcreate r.1).2]
      have hform := s2.object (List.mem_append_right _ hmain)
      simpa [(hcreate r.1).1] using ⟨s2.object hbusy, hform⟩
    rw [hrequests] at hend ⊢
    exact hend (s3.writeProperties (c.target r.1 "QButtonGroup" false) hbusy _) fun q hq =>
      List.mem_append_right _ hq

theorem joinButtonGroup (h : job.Stage [] rs b) (hname : name ∈ job.objects [])
    (hmain : job.plan.mainForm ∈ job.objects []) (button : Node) :
    job.Stage [] (rs ++ job.joiningRequests button)
      (joinButtonGroup job.plan c name button b).2 := by
  cases hd : groupOf? button with
  | none =>
    rw [joinButtonGroup_none job.plan hd]
    exact h.nothing (by rw [joiningRequests, hd])
  | some d =>
    have s1 : job.Stage [] rs (announce job.plan b.session.table d b).2 := by
      simp only [announce, ite_run, pure_run]
      split
      · exact h.note _
      · exact h
    rw [joiningRequests, hd, joinButtonGroup_run job.plan hd]
    refine s1.enrol hname hmain d _ fun x => ?_
    unfold createGroup
    split <;> exact ⟨rfl, rfl⟩

/-! ## Menus and containers -/

theorem takeMenuAction (h : job.Stage busy rs b) (hname : name ∈ job.objects busy) :
    job.Stage busy rs (takeMenuAction name b).2 := by
  have htable : Setup.table b = (b.session.table, b) := rfl
  simp only [Setup.takeMenuAction, bind_run, ite_run, pure_run, htable]
  split
  · rename_i ha
    obtain ⟨e, he, hentry, -⟩ := h.tidy.names.distinct.actionIsMenu_iff.mp ha
    have haction : name ++ "Action" ∈ b.session.table.names := by
      rw [← hentry]
      exact List.mem_append_left _ (List.mem_map_of_mem he)
    have hne : name ++ "Action" ≠ themeVariable := by
      intro htheme
      have hlast := congrArg (fun s : String => s.toList.getLast?) htheme
      simp [List.getLast?_append, themeVariable] at hlast
    refine h.emit (List.forall_mem_singleton.mpr ⟨by simpa [Stmt.isPlain] using hne, ?_⟩)
    simpa [Stmt.names, Stmt.assigns, Stmt.uses, Expr.uses] using ⟨haction, h.object hname⟩
  · exact h

section Containers

variable (h : job.Stage busy rs b) (hparent : parent ∈ job.objects busy)
  (hname : name ∈ job.objects busy)

include h hparent hname

theorem callParent (method : String) (args : List Expr) (hargs : args.flatMap Expr.uses = [name]) :
    job.Stage busy rs (Setup.emit (.call parent method args) b).2 := by
  refine h.emit (.call (h.object hparent) ?_)
  simpa [hargs] using h.object hname

theorem setPageText (method : String) (phrase : Option Phrase) (fallback : String) :
    job.Stage busy rs (setPageText parent name method phrase fallback b).2 := by
  refine h.emitIn _ (.call (h.object hparent) ?_)
  simpa [Expr.uses] using ⟨h.object hparent, h.object hname⟩

theorem setPageTextNamed (method : String) (attrs : List Property)
    (attr : String) : job.Stage busy rs (setPageTextNamed parent name method attrs attr b).2 := by
  unfold Setup.setPageTextNamed
  cases Property.phrase? attrs attr with
  | none => exact h
  | some phrase => exact h.setPageText hparent hname method (some phrase) ""

theorem addToToolBox (attrs : List Property) :
    job.Stage busy (rs ++ iconRequests (fun e => [.call parent "addItem"
      [.ref name, e, plainText (Property.phrase? attrs "label") pageTitle]])
      (Property.find? attrs "icon")) (addToToolBox job.plan parent name attrs b).2 := by
  have s1 := h.iconCall hparent "addItem" [.ref name]
    [plainText (Property.phrase? attrs "label") pageTitle] (by simpa [Expr.uses] using hname)
    (by simp) (Property.find? attrs "icon")
  exact (s1.setPageText hparent hname _ _ _).setPageTextNamed hparent hname _ _ _

theorem addToTabWidget (attrs : List Property) :
    job.Stage busy (rs ++ iconRequests (fun e => [.call parent "addTab"
      [.ref name, e, .emptyText]]) (Property.find? attrs "icon"))
      (addToTabWidget job.plan parent name attrs b).2 := by
  have s1 := h.iconCall hparent "addTab" [.ref name] [.emptyText]
    (by simpa [Expr.uses] using hname) rfl (Property.find? attrs "icon")
  exact ((s1.setPageText hparent hname _ _ _).setPageTextNamed hparent hname _ _ _).setPageTextNamed
    hparent hname _ _ _

theorem addToContainer (parentClass : String) (attrs : List Property) :
    job.Stage busy (rs ++ pageRequests job.plan parent parentClass name attrs)
      (addToContainer job.plan parent parentClass name attrs b).2 := by
  obtain ⟨m, l, hm, -, htakes⟩ := addToContainer_takes job.plan parent parentClass name attrs
  rw [hm]
  cases htakes with
  | pass hs hplain =>
    obtain ⟨method, first, rfl, huses, -⟩ := hs
    have s1 := h.callParent hparent hname method (first ++ [.ref name]) (by simp [huses, Expr.uses])
    exact s1.nothing (by rw [pageRequests, if_pos hplain])
  | toolBox hplain hclass =>
    rw [pageRequests, hplain, hclass]
    exact h.addToToolBox hparent hname attrs
  | tabWidget hplain hno hclass =>
    rw [pageRequests, hplain, hno, hclass]
    exact h.addToTabWidget hparent hname attrs
  | leave hplain hno hno' => exact h.nothing (by simp [pageRequests, hplain, hno, hno'])

end Containers

end Stage

end Job

end FormCompiler.Setup
