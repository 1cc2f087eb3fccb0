import FormCompiler.Proofs.Setup.Links

/-!
# When everything is assigned before it is used

The setup function of a form uses a variable before assigning it exactly if it refers to an object
that is never created, or fills a gradient that is never declared.
-/

namespace FormCompiler.Setup

open Code Document Naming
open Header (nameIn groupNameIn declaredGroups)

namespace Job

/-- A connection refers to a variable, where a table tells what names stand for. -/
def Connects (job : Job) (t : Table) (x : String) : Prop :=
  ∃ s ∈ connectionStmts job.form t, x ∈ s.uses

variable {job : Job} {b : Builder} {x : String}

/-! ## What exists after the walk -/

theorem missing_iff (hj : job.Valid) (hb : job.Consistent b) (hx : job.Missing x) :
    x ∈ job.vars b ↔ DeclaresText x b.setup := by
  constructor
  · intro hmem
    rcases List.mem_append.mp hmem with hmem | hmem
    · obtain ⟨o, ho, hrole⟩ := object_of_widget hj.root
      rw [List.mem_singleton.mp hmem, hj.mainForm] at hx
      exact absurd hx (hj.assignable_object hb (List.mem_cons_self ..) ho hrole).2
    · exact hb.free x hmem hx
  · rintro ⟨init, hmem⟩
    exact List.mem_append_right _ (List.mem_flatMap.mpr ⟨_, hmem, List.mem_singleton.mpr rfl⟩)

theorem entry_made (hj : job.Valid) (hmade : ∀ v ∈ job.visits, job.Made v b) {e : Entry}
    (he : e ∈ job.table.entries) : e.name ∈ job.vars b ∨ job.LacksMenu e.name := by
  obtain ⟨v, hv, o, ho, hrole, hname⟩ := hj.visit he
  rw [← hname]
  by_cases hmenu : o.role = .action true
  · have haction : job.table.actionIsMenu? (job.name v) = some true :=
      hj.distinct.actionIsMenu_iff.mpr ⟨e, he, hname.symm, hrole.trans hmenu⟩
    -- If the form has the menu, its action was taken when the walk met the menu.
    by_cases hhas : ∃ w ∈ job.form.visits, job.IsMenu w ∧ job.name w ++ "Action" = job.name v
    · obtain ⟨w, hw, hm, hsame⟩ := hhas
      have hwjob : w ∈ job.visits := hj.objects w hw (.inl (by rw [hm.2.1]; rfl))
      have hvar := (hmade w hwjob).menu hm (hsame ▸ haction)
      exact .inl (hsame ▸ hvar)
    · exact .inr ⟨haction, fun w hw hm hsame => hhas ⟨w, hw, hm, hsame⟩⟩
  · have hobject : v.node.kind.isObject = true := by
      rw [← Node.object_isSome, ho]
      rfl
    refine .inl ((hmade v hv).object hobject fun hk => ?_)
    cases hm : v.node.attribute? "menu" with
    | none => rfl
    | some s =>
      simp only [Object.ofNode?, hk, hm, Option.isSome_some, Option.some.injEq] at ho
      exact absurd (by rw [← ho]) hmenu

theorem group_made (hj : job.Valid) (hmade : ∀ v ∈ job.visits, job.Made v b) {d : String}
    {g : Group} (hg : job.table.group? d = some g) :
    g.name ∈ job.vars b ∨ job.LacksButton g.name := by
  by_cases hjoined : ∃ v ∈ job.form.visits, Joins job.plan v d
  · obtain ⟨v, hv, hd⟩ := hjoined
    have hvjob : v ∈ job.visits := hj.objects v hv (.inl (by rw [hd.1]; rfl))
    exact .inl ((hmade v hvjob).group d g hd hg).mem_vars
  · have hn := hj.nodes d g hg
    have hmem : d ∈ declaredGroups job.form :=
      List.mem_map.mpr ⟨g.node, List.mem_of_find?_eq_some hn, by simpa using List.find?_some hn⟩
    exact .inr ⟨d, hmem, Header.groupNameIn_of_group hg, fun v hv hd => hjoined ⟨v, hv, hd⟩⟩

/-! ## What the links need -/

theorem actions_iff (hj : job.Valid) (hb : job.Consistent b)
    (hmade : ∀ v ∈ job.visits, job.Made v b) :
    (∀ s ∈ b.delayedActions, ∀ x ∈ s.uses, x ∈ job.vars b) ↔
      ∀ x, job.Places x → job.LacksMenu x → DeclaresText x b.setup := by
  constructor
  · rintro h x ⟨hsep, v, hv, hk, rfl⟩ hx
    obtain ⟨s, hs, huse⟩ := (hmade v (hj.objects v hv (.inr hk))).placed hk hsep hx
    exact (missing_iff hj hb (.inl hx)).mp (h s hs _ huse)
  · intro h s hs x hx
    rcases (hb.actions s hs).2 x hx with hvar | ⟨hplaces, e, he, rfl⟩
    · exact hvar
    · rcases entry_made hj hmade he with hvar | hlacks
      · exact hvar
      · exact (missing_iff hj hb (.inl hlacks)).mpr (h _ hplaces hlacks)

theorem variableOf_known {t : Table} (ht : t.Distinct) {name : String}
    (h : variableOf? t name = some x) :
    (∃ e ∈ t.entries, e.name = x) ∨ ∃ d g, t.group? d = some g ∧ g.name = x := by
  simp only [variableOf?] at h
  split at h
  · rename_i hknown
    obtain rfl := Option.some.inj h
    rw [Bool.or_eq_true] at hknown
    rcases hknown with hclass | haction
    · obtain ⟨className, hclass⟩ := Option.isSome_iff_exists.mp hclass
      obtain ⟨e, he, hname, _⟩ := ht.widgetClass_iff.mp hclass
      exact .inl ⟨e, he, hname⟩
    · obtain ⟨isMenu, haction⟩ := Option.isSome_iff_exists.mp haction
      obtain ⟨e, he, hname, _⟩ := ht.actionIsMenu_iff.mp haction
      exact .inl ⟨e, he, hname⟩
  · obtain ⟨g, hg, hname⟩ := Option.map_eq_some_iff.mp h
    exact .inr ⟨_, g, hg, hname⟩

theorem connections_iff (hj : job.Valid) (hb : job.Consistent b)
    (hmade : ∀ v ∈ job.visits, job.Made v b) :
    (∀ s ∈ connectionStmts job.form b.session.table, ∀ x ∈ s.uses, x ∈ job.vars b) ↔
      ∀ x, job.Connects b.session.table x → job.Missing x → DeclaresText x b.setup := by
  constructor
  · rintro h x ⟨s, hs, huse⟩ hx
    exact (missing_iff hj hb hx).mp (h s hs x huse)
  · intro h s hs x hx
    have hconnects : job.Connects b.session.table x := ⟨s, hs, hx⟩
    have hdone : job.Missing x → x ∈ job.vars b :=
      fun hm => (missing_iff hj hb hm).mpr (h x hconnects hm)
    have hvariable : ∀ name, variableOf? b.session.table name = some x → x ∈ job.vars b := by
      intro name hname
      rcases variableOf_known hb.distinct hname with ⟨e, he, rfl⟩ | ⟨d, g, hg, rfl⟩
      · rcases entry_made hj hmade (hb.entries ▸ he) with hvar | hlacks
        · exact hvar
        · exact hdone (.inl hlacks)
      · -- A group that the form does not declare exists since its first button.
        rcases hb.groups d g hg with hg | hgroup
        · rcases group_made hj hmade hg with hvar | hlacks
          · exact hvar
          · exact hdone (.inr hlacks)
        · exact hb.group_mem hgroup
    obtain ⟨n, sender, receiver, hsender, hreceiver, rfl⟩ := mem_connectionStmts hs
    have hx : x ∈ [sender, receiver] := hx
    rcases List.mem_cons.mp hx with rfl | hx
    · exact hvariable _ hsender
    · obtain rfl := List.mem_singleton.mp hx
      exact hvariable _ hreceiver

/-! ## The whole setup -/

theorem consistent_start (hj : job.Valid) {s : Session} (hs : s.table = job.table) :
    job.Consistent { session := s } := by
  obtain ⟨o, ho, _⟩ := object_of_widget hj.root
  obtain ⟨e, he, _, hname, _⟩ := hj.entry (List.mem_cons_self ..) ho
  constructor
  case distinct => exact hs ▸ hj.distinct
  case grows => exact hs ▸ Table.Extends.refl _
  case entries => exact congrArg Table.entries hs
  case groups => exact fun d g hg => .inl (hs ▸ hg)
  case reserved => exact fun x hx => hs ▸ hj.missing_taken hx
  case taken =>
    intro x hx
    have hx : x ∈ [job.plan.mainForm] := hx
    rw [List.mem_singleton.mp hx, hj.mainForm, ← hname]
    exact .inl (hs ▸ hj.entry_taken he)
  case free => exact fun x hx => absurd hx List.not_mem_nil
  case kept => exact fun x hx => absurd hx List.not_mem_nil
  case theme => exact fun h => absurd h Bool.false_ne_true
  case delayed => exact Calls.nil
  case actions => exact fun s hs => absurd hs List.not_mem_nil

theorem settled_start (s : Session) : job.Settled { session := s } :=
  fun _ _ _ hmem => absurd hmem List.not_mem_nil

theorem paints_form (hj : job.Valid) :
    (∀ v ∈ job.visits, job.Paints v) ↔ ∀ v ∈ job.form.visits, job.Paints v := by
  refine ⟨fun h v hv => ?_, fun h v hv => h v (hj.visits v hv)⟩
  cases ho : v.node.kind.isObject with
  | true => exact h v (hj.objects v hv (.inl ho))
  | false => exact paints_idle ho

/-- When the setup function of a job assigns everything before using it. -/
theorem ordered_iff (hj : job.Valid) (hk : job.form.node.kind = .ui)
    (hwell : Node.All Node.WellFormed job.form.node)
    (hroot : job.form.rootVisit? = some job.root) {s : Session} (hs : s.table = job.table) :
    let b := built job.plan job.form s
    job.Ordered b ↔
      (∀ x, job.Places x → job.LacksMenu x → DeclaresText x b.setup) ∧
      (∀ x, job.Connects b.session.table x → job.Missing x → DeclaresText x b.setup) ∧
      ∀ v ∈ job.form.visits, job.Paints v := by
  intro b
  have hwalk := walks_form hj hk hwell hroot (consistent_start hj hs) (settled_start s)
  obtain ⟨b', s2, htable, htext, hordered⟩ := link_spec hwalk.advances.consistent
  have hb : b = (link job.plan job.form
      (job.form.node.walk (walker job.plan) {} [] { session := s }).2).2 := rfl
  rw [← hb] at htable htext hordered
  have hmade : ∀ v ∈ job.visits, job.Made v b' :=
    fun v hv => (hwalk.made v hv).mono (s2.advances hwalk.advances.settled)
  have hstart : job.Ordered { session := s } := trivial
  rw [hordered, hwalk.advances.ordered, actions_iff hj s2.consistent hmade,
    connections_iff hj s2.consistent hmade, paints_form hj, htable]
  simp only [htext, hstart, true_and]
  exact and_comm.trans and_assoc

end Job

/-! ## The job of a form -/

theorem classes_named (f : Form) : ∀ e ∈ (Classes.Custom.ofForm f).entries, e.1 ≠ "" := by
  have hfold : ∀ (l : List Node) (t : Classes.Custom), (∀ e ∈ t.entries, e.1 ≠ "") →
      ∀ e ∈ (l.foldl (fun t n =>
        let className := n.string "class"
        if className.isEmpty then t else t.insert className n) t).entries, e.1 ≠ "" := by
    intro l
    induction l with
    | nil => exact fun t ht => ht
    | cons n l ih =>
      intro t ht
      refine ih _ ?_
      dsimp only
      split
      · exact ht
      · rename_i hname
        have hname : n.string "class" ≠ "" := fun h => hname (by rw [h]; rfl)
        intro e he
        unfold Classes.Custom.insert at he
        split at he
        · obtain ⟨e', he', rfl⟩ := List.mem_map.mp he
          split
          · exact hname
          · exact ht e' he'
        · rcases List.mem_append.mp he with he | he
          · exact ht e he
          · rw [List.mem_singleton.mp he]
            exact hname
  exact hfold _ ⟨[]⟩ (by simp)

theorem classes_nameless (f : Form) : (Classes.Custom.ofForm f).find? "" = none := by
  rw [Classes.Custom.find?, List.lookup_eq_none_iff]
  intro e he
  simpa using (classes_named f e he).symm

/-- The setup of a form that is compiled with a table that knows nothing yet. -/
def jobOf (o : Options) (document : Nat) (f : Form) (root : Visit) (s : Session) : Job :=
  let t := Header.namedTable document f root s
  ⟨Plan.ofForm o document f (nameIn document t root), f, root, t⟩

theorem jobOf_valid (o : Options) (document : Nat) (f : Form) (root : Visit)
    (notices : List Notice) (hk : f.node.kind = .ui) (hw : Node.All Node.WellFormed f.node)
    (hroot : f.rootVisit? = some root) :
    (jobOf o document f root { notices := notices }).Valid := by
  obtain ⟨before, after, hrooted⟩ := f.rooted root hk hw.here hroot
  obtain ⟨l, r, hvisits, hothers⟩ := f.visits_objects root hk hw hroot
  obtain ⟨object, ho⟩ : ∃ o, Object.ofNode? root.node = some o :=
    Option.isSome_iff_exists.mp (by rw [Node.object_isSome, hrooted.kind]; rfl)
  obtain ⟨hnamed, _⟩ := Header.naming_spec document f root object { notices := notices } ho
    Table.distinct_empty
  constructor
  case distinct => exact hnamed.distinct
  case root => exact hrooted.kind
  case mainForm => rfl
  case known => exact fun v hv hobject => hnamed.known v hv ((Node.object_isSome _).trans hobject)
  case tracks => exact hnamed.tracks _ (List.Subset.refl _) fun e he => absurd he List.not_mem_nil
  case filled => exact hnamed.filled fun e he => absurd he List.not_mem_nil
  case groups => exact hnamed.groups
  case nodes => exact fun d g hg => (hnamed.nodes d g hg).resolve_left (by simp [Table.group?])
  case visits =>
    intro v hv
    rw [jobOf, hvisits]
    exact List.mem_append_left _ (List.mem_append_right _ hv)
  case objects =>
    intro v hv hkind
    rw [jobOf, hvisits, List.append_assoc] at hv
    have hidle : v ∉ l ++ r := fun hmem => by
      obtain ⟨hobject, href⟩ := hothers v hmem
      rcases hkind with hkind | hkind
      · rw [hobject] at hkind
        cases hkind
      · exact href hkind
    rcases List.mem_append.mp hv with hv | hv
    · exact absurd (List.mem_append_left r hv) hidle
    · rcases List.mem_append.mp hv with hv | hv
      · exact hv
      · exact absurd (List.mem_append_right l hv) hidle
  case nameless => exact classes_nameless f

theorem setup_assigned_iff (o : Options) (document : Nat) (f : Form) (root : Visit)
    (notices : List Notice) (hk : f.node.kind = .ui) (hw : Node.All Node.WellFormed f.node)
    (hroot : f.rootVisit? = some root) :
    let d := ((Header.declaration o document f root).run { notices := notices }).1
    let s := (Header.naming document f root { notices := notices }).2
    let t := ((functions o document f root).run s).2.table
    let job := jobOf o document f root { notices := notices }
    DefinitelyAssigned [d.functions.form] d.functions.setup ↔
      (∀ x, job.Places x → job.LacksMenu x → DeclaresText x d.functions.setup) ∧
      (∀ x, job.Connects t x → job.Missing x → DeclaresText x d.functions.setup) ∧
      ∀ v ∈ f.visits, job.Paints v := by
  intro d s t job
  have hj : job.Valid := jobOf_valid o document f root notices hk hw hroot
  obtain ⟨object, ho, _⟩ := Job.object_of_widget hj.root
  have hkind : root.node.kind = .widget := hj.root
  obtain ⟨e, he⟩ := hj.known root (List.mem_cons_self ..) (by rw [hkind]; rfl)
  obtain ⟨_, hd⟩ := Header.declaration_members o document f root { notices := notices }
  have hrun := Header.functions_named o document f root object ho s e he
  have hfunctions : d.functions = Header.functionsOf root job.plan.mainForm (built job.plan f s) :=
    hd.trans (congrArg Prod.fst hrun)
  have ht : t = (built job.plan f s).session.table :=
    congrArg Session.table (congrArg Prod.snd hrun)
  rw [hfunctions, ht]
  exact Job.ordered_iff hj hk hw hroot rfl

/-- A form that places an action for a menu which it does not have, and connects a group without
buttons. -/
def unplugged : Form :=
  ⟨.mk .ui []
    [.node "widget" (.mk .widget [("class", .string "QWidget"), ("name", .string "Form")]
      [.node "action" (.mk .action [("name", .string "act"), ("menu", .string "m")] [] ""),
        .node "addaction" (.mk .actionRef [("name", .string "act")] [] "")] ""),
      .node "connections" (.mk .connections []
        [.node "connection" (.mk .connection []
          [.value "sender" (.string "group"), .value "signal" (.string "buttonClicked(int)"),
            .value "receiver" (.string "Form"), .value "slot" (.string "close()")] "")] ""),
      .node "buttongroups" (.mk .buttonGroups []
        [.node "buttongroup" (.mk .buttonGroup [("name", .string "group")] [] "")] "")] ""⟩

theorem setup_assigned_iff_unplugged :
    ∃ root, unplugged.rootVisit? = some root ∧ Node.All Node.WellFormed unplugged.node ∧
      let d := ((Header.declaration {} 0 unplugged root).run {}).1
      let s := (Header.naming 0 unplugged root {}).2
      let t := ((functions {} 0 unplugged root).run s).2.table
      let job := jobOf {} 0 unplugged root {}
      ¬ DefinitelyAssigned [d.functions.form] d.functions.setup ∧
        (DefinitelyAssigned [d.functions.form] d.functions.setup ↔
          (∀ x, job.Places x → job.LacksMenu x → DeclaresText x d.functions.setup) ∧
          (∀ x, job.Connects t x → job.Missing x → DeclaresText x d.functions.setup) ∧
          ∀ v ∈ unplugged.visits, job.Paints v) := by
  have hw : Node.All Node.WellFormed unplugged.node := by decide +kernel
  refine ⟨_, rfl, hw, ?_, setup_assigned_iff {} 0 unplugged _ [] rfl hw rfl⟩
  decide +kernel

end FormCompiler.Setup
