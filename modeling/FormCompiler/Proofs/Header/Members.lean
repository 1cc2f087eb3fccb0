import FormCompiler.Proofs.Document.Objects
import FormCompiler.Proofs.Document.Walk
import FormCompiler.Proofs.Header.Page
import FormCompiler.Proofs.Naming.Table

/-!
# The members of a form's class

The root widget gets its name first, then the objects below it in the order of the form, and after
them the button groups.  `namedTable` is the table once all of them have names; the members of the
class are the objects and the groups under the names they have there (`naming_spec`), and they
correspond one to one to what the form declares (`members_correspond`).
-/

namespace FormCompiler.Header

open Document Naming

/-! ## Names in a table -/

/-- The name of the object that a visit meets. -/
def nameIn (document : Nat) (t : Table) (v : Visit) : String :=
  (Option.map Entry.name <| t.entry? ⟨document, v.path⟩).getD ""

/-- The name of the button group that is declared under a name. -/
def groupNameIn (t : Table) (declared : String) : String :=
  ((t.group? declared).map Group.name).getD ""

/-- The nodes by which a form declares button groups, in order. -/
def groupNodes (f : Form) : List Node :=
  ((f.node.child? "buttongroups").map (·.children "buttongroup")).getD []

/-- The names under which a form declares button groups, in order. -/
def declaredGroups (f : Form) : List String := (groupNodes f).map (·.stringAttribute "name")

/-- The member for an object, under the name it has in a table. -/
def memberIn (document : Nat) (t : Table) (v : Visit) : Member :=
  ⟨(memberClass? v.node).getD "", nameIn document t v⟩

/-- The member for a node, if it is an object. -/
def memberIn? (document : Nat) (t : Table) (v : Visit) : Option Member :=
  (memberClass? v.node).map fun className => ⟨className, nameIn document t v⟩

theorem nameIn_of_entry {document : Nat} {t : Table} {v : Visit} {e : Entry}
    (h : t.entry? ⟨document, v.path⟩ = some e) : nameIn document t v = e.name := by
  rw [nameIn, h]
  rfl

theorem groupNameIn_of_group {t : Table} {declared : String} {g : Group}
    (h : t.group? declared = some g) : groupNameIn t declared = g.name := by
  rw [groupNameIn, h]
  rfl

/-! ## Objects -/

theorem memberClass_isSome (n : Node) : (memberClass? n).isSome = (Object.ofNode? n).isSome := by
  obtain ⟨k, as, fs, t⟩ := n
  cases k <;> rfl

theorem filterMap_memberIn (document : Nat) (t : Table) (vs : List Visit) :
    vs.filterMap (memberIn? document t) =
      (vs.filter (·.node.kind.isObject)).map (memberIn document t) := by
  induction vs with
  | nil => rfl
  | cons v vs ih =>
    have hsome := (memberClass_isSome v.node).trans v.node.object_isSome
    cases hclass : memberClass? v.node with
    | none =>
      rw [hclass] at hsome
      have hm : memberIn? document t v = none := by rw [memberIn?, hclass]; rfl
      rw [List.filterMap_cons_none hm, List.filter_cons_of_neg (by simp [← hsome]), ih]
    | some className =>
      rw [hclass] at hsome
      have hm : memberIn? document t v = some (memberIn document t v) := by
        rw [memberIn?, memberIn, hclass]; rfl
      rw [List.filterMap_cons_some hm, List.filter_cons_of_pos (by simp [← hsome]), List.map_cons,
        ih]

/-- Every object that a table knows is one of the visits. -/
def Tracks (document : Nat) (vs : List Visit) (t : Table) : Prop :=
  ∀ e ∈ t.entries, ∃ v ∈ vs, ∃ o, Object.ofNode? v.node = some o ∧ e.place = ⟨document, v.path⟩ ∧
    e.role = o.role

/-- What giving names to some objects and button groups does to the table. -/
structure Named (document : Nat) (vs : List Visit) (ns : List Node) (t t' : Table) : Prop where
  distinct : t'.Distinct
  grows : t.Extends t'
  tracks : ∀ ws, vs ⊆ ws → Tracks document ws t → Tracks document ws t'
  known : ∀ v ∈ vs, (Object.ofNode? v.node).isSome → ∃ e, t'.entry? ⟨document, v.path⟩ = some e
  filled : (∀ e ∈ t.entries, e.name ≠ "") → ∀ e ∈ t'.entries, e.name ≠ ""
  groups : ∀ d ∈ ns.map (·.stringAttribute "name"), ∃ g, t'.group? d = some g
  nodes : ∀ d g, t'.group? d = some g →
    t.group? d = some g ∨ ns.find? (·.stringAttribute "name" == d) = some g.node

theorem Named.refl (document : Nat) {t : Table} (h : t.Distinct) : Named document [] [] t t :=
  ⟨h, Table.Extends.refl _, fun _ _ ht => ht, by simp, fun ht => ht, by simp, fun _ _ => .inl⟩

theorem Named.append {document : Nat} {vs ws : List Visit} {ns ms : List Node} {t t' t'' : Table}
    (h : Named document vs ns t t') (h' : Named document ws ms t' t'') :
    Named document (vs ++ ws) (ns ++ ms) t t'' := by
  refine ⟨h'.distinct, h.grows.trans h'.grows, fun us hus ht => ?_, fun v hv ho => ?_,
    fun ht => h'.filled (h.filled ht), fun d hd => ?_, fun d g hg => ?_⟩
  · exact h'.tracks us (fun w hw => hus (List.mem_append_right vs hw))
      (h.tracks us (fun w hw => hus (List.mem_append_left ws hw)) ht)
  · rcases List.mem_append.mp hv with hv | hv
    · obtain ⟨e, he⟩ := h.known v hv ho
      exact ⟨e, h'.grows.entries _ e he⟩
    · exact h'.known v hv ho
  · rw [List.map_append] at hd
    rcases List.mem_append.mp hd with hd | hd
    · obtain ⟨g, hg⟩ := h.groups d hd
      exact ⟨g, h'.grows.groups _ g hg⟩
    · exact h'.groups d hd
  · -- A group that the first nodes name is theirs, even if the others name it as well.
    rw [List.find?_append]
    cases hfirst : ns.find? (·.stringAttribute "name" == d) with
    | some n =>
      have hmem : d ∈ ns.map (·.stringAttribute "name") :=
        List.mem_map.mpr ⟨n, List.mem_of_find?_eq_some hfirst, by
          simpa using List.find?_some hfirst⟩
      obtain ⟨g', hg'⟩ := h.groups d hmem
      obtain rfl := Option.some.inj ((h'.grows.groups d g' hg').symm.trans hg)
      exact (h.nodes d g' hg').imp_right fun hn => by rw [← hn, hfirst]; rfl
    | none =>
      rcases h'.nodes d g hg with hg | hg
      · exact .inl ((h.nodes d g hg).resolve_right (by simp [hfirst]))
      · exact .inr hg

theorem named_object (document : Nat) (v : Visit) (o : Object)
    (ho : Object.ofNode? v.node = some o) (t : Table) (h : t.Distinct) :
    Named document [v] [] t (t.nameOf ⟨document, v.path⟩ o).2.1 := by
  obtain ⟨hd, he, e, hentry, _⟩ := Table.nameOf_spec t ⟨document, v.path⟩ o h
  have hentries : ∀ e' ∈ (t.nameOf ⟨document, v.path⟩ o).2.1.entries, e' ∈ t.entries ∨
      e' = ⟨⟨document, v.path⟩, o.role, (t.nameOf ⟨document, v.path⟩ o).1⟩ := by
    intro e' he'
    rcases Table.nameOf_entries t ⟨document, v.path⟩ o with hsame | hnew
    · exact .inl (hsame ▸ he')
    · rw [hnew] at he'
      exact (List.mem_cons.mp he').symm
  refine ⟨hd, he, fun ws hws ht e' he' => ?_, fun w hw _ => ?_, fun ht e' he' => ?_, by simp,
    fun d g hg => .inl ?_⟩
  · rcases hentries e' he' with he' | rfl
    · exact ht e' he'
    · exact ⟨v, hws (List.mem_singleton.mpr rfl), o, ho, rfl, rfl⟩
  · rw [List.mem_singleton.mp hw]
    exact ⟨e, hentry⟩
  · rcases hentries e' he' with he' | rfl
    · exact ht e' he'
    · exact Table.nameOf_ne_empty t ⟨document, v.path⟩ o ht
  · rw [Table.group?, Table.nameOf_groups] at hg
    exact hg

theorem named_group (document : Nat) (n : Node) (t : Table) (h : t.Distinct) :
    Named document [] [n] t (t.nameOfGroup n).2.1 := by
  obtain ⟨hd, he, g, hg, _⟩ := Table.nameOfGroup_spec t n h
  have hentries := Table.nameOfGroup_entries t n
  refine ⟨hd, he, fun ws _ ht => ?_, by simp, fun ht => hentries ▸ ht, fun d hd => ?_,
    fun d g hg => (Table.nameOfGroup_group hg).imp_right fun hn => ?_⟩
  · unfold Tracks
    rw [hentries]
    exact ht
  · rw [List.mem_singleton.mp hd]
    exact ⟨g, hg⟩
  · simp [hn.1, hn.2]

theorem named_visit (document : Nat) (v : Visit) (o : Object)
    (ho : Object.ofNode? v.node = some o) (s : Session) (h : s.table.Distinct) :
    Named document [v] [] s.table (Session.nameOfVisit? document v s).2.table := by
  rw [nameOfVisit_object document v o ho]
  exact named_object document v o ho s.table h

theorem member_spec (document : Nat) (v : Visit) (s : Session) (h : s.table.Distinct) :
    Named document [v] [] s.table (member? document v s).2.table ∧
      ∀ t : Table, (member? document v s).2.table.Extends t →
        (member? document v s).1 = memberIn? document t v := by
  have hsome := memberClass_isSome v.node
  cases hclass : memberClass? v.node with
  | none =>
    have hrun : member? document v s = (none, s) := by
      simp only [member?, hclass]
      rfl
    rw [hrun]
    rw [hclass] at hsome
    refine ⟨{ Named.refl document h with
      tracks := fun _ _ ht => ht, known := fun w hw ho => ?_ }, fun t _ => ?_⟩
    · rw [List.mem_singleton.mp hw, ← hsome] at ho
      cases ho
    · rw [memberIn?, hclass]
      rfl
  | some className =>
    rw [hclass] at hsome
    obtain ⟨o, ho⟩ := Option.isSome_iff_exists.mp hsome.symm
    have hrun : member? document v s =
        (some ⟨className, (s.table.nameOf ⟨document, v.path⟩ o).1⟩,
          ⟨(s.table.nameOf ⟨document, v.path⟩ o).2.1,
            s.notices ++ (s.table.nameOf ⟨document, v.path⟩ o).2.2⟩) := by
      have hvisit := nameOfVisit_object document v o ho s
      simp only [member?, hclass, bind, StateT.bind, hvisit]
      rfl
    rw [hrun]
    refine ⟨named_object document v o ho s.table h, fun t ht => ?_⟩
    obtain ⟨_, _, e, hentry, hname⟩ := Table.nameOf_spec s.table ⟨document, v.path⟩ o h
    rw [memberIn?, hclass, Option.map_some, nameIn_of_entry (ht.entries _ e hentry), hname]

theorem filterMapM_run {σ α β : Type} (f : α → StateM σ (Option β)) (a : α) (l : List α) (s : σ) :
    (a :: l).filterMapM f s =
      ((f a s).1.toList ++ (l.filterMapM f (f a s).2).1, (l.filterMapM f (f a s).2).2) := by
  rw [List.filterMapM_cons]
  simp only [bind, StateT.bind]
  obtain ⟨b, s'⟩ := f a s
  cases b <;> rfl

theorem objects_spec (document : Nat) (vs : List Visit) (s : Session) (h : s.table.Distinct) :
    Named document vs [] s.table (vs.filterMapM (member? document) s).2.table ∧
      ∀ t : Table, (vs.filterMapM (member? document) s).2.table.Extends t →
        (vs.filterMapM (member? document) s).1 = vs.filterMap (memberIn? document t) := by
  induction vs generalizing s with
  | nil => exact ⟨Named.refl document h, fun _ _ => rfl⟩
  | cons v vs ih =>
    obtain ⟨h1, h2⟩ := member_spec document v s h
    obtain ⟨h3, h4⟩ := ih (member? document v s).2 h1.distinct
    rw [filterMapM_run]
    refine ⟨h1.append h3, fun t ht => ?_⟩
    rw [h4 t ht, h2 t (h3.grows.trans ht), List.filterMap_cons]
    cases memberIn? document t v <;> rfl

/-! ## Button groups -/

theorem groups_spec (document : Nat) (ns : List Node) (s : Session) (h : s.table.Distinct) :
    Named document [] ns s.table (ns.mapM Session.nameOfGroup s).2.table ∧
      ∀ t : Table, (ns.mapM Session.nameOfGroup s).2.table.Extends t →
        (ns.mapM Session.nameOfGroup s).1 =
          (ns.map (·.stringAttribute "name")).map (groupNameIn t) := by
  induction ns generalizing s with
  | nil => exact ⟨Named.refl document h, fun _ _ => rfl⟩
  | cons n ns ih =>
    have h1 := named_group document n s.table h
    obtain ⟨h3, h4⟩ := ih (Session.nameOfGroup n s).2 h1.distinct
    have hrun : (n :: ns).mapM Session.nameOfGroup s =
        ((s.table.nameOfGroup n).1 :: (ns.mapM Session.nameOfGroup (Session.nameOfGroup n s).2).1,
          (ns.mapM Session.nameOfGroup (Session.nameOfGroup n s).2).2) := by
      rw [List.mapM_cons]
      rfl
    rw [hrun]
    refine ⟨h1.append h3, fun t ht => ?_⟩
    obtain ⟨_, _, g, hg, hname⟩ := Table.nameOfGroup_spec s.table n h
    have hfirst := groupNameIn_of_group ((h3.grows.trans ht).groups _ g hg)
    simp only [List.map_cons, h4 t ht, hfirst, hname]

theorem eraseDups_map (g : String → String) (l : List String)
    (h : ∀ a ∈ l, ∀ b ∈ l, g a = g b → a = b) : (l.map g).eraseDups = l.eraseDups.map g := by
  match l with
  | [] => rfl
  | a :: l =>
    have hfilter : (l.map g).filter (fun b => !b == g a) = (l.filter fun b => !b == a).map g := by
      rw [List.filter_map]
      congr 1
      refine List.filter_congr fun b hb => ?_
      have hiff : g b = g a ↔ b = a :=
        ⟨h b (List.mem_cons_of_mem a hb) a (List.mem_cons_self ..), congrArg g⟩
      simp only [Function.comp, Bool.beq_eq_decide_eq, hiff]
    rw [List.map_cons, List.eraseDups_cons, hfilter, List.eraseDups_cons, List.map_cons,
      eraseDups_map g _ fun b hb c hc => h b (List.mem_cons_of_mem a (List.mem_filter.mp hb).1) c
        (List.mem_cons_of_mem a (List.mem_filter.mp hc).1)]
termination_by l.length
decreasing_by exact Nat.lt_succ_of_le (List.length_filter_le _ _)

theorem eraseDups_nodup (l : List String) : l.eraseDups.Nodup := by
  match l with
  | [] => exact .nil
  | a :: l =>
    rw [List.eraseDups_cons, List.nodup_cons]
    refine ⟨fun hm => ?_, eraseDups_nodup _⟩
    have hmem := (List.mem_filter.mp (List.mem_eraseDups.mp hm)).2
    simp at hmem
termination_by l.length
decreasing_by exact Nat.lt_succ_of_le (List.length_filter_le _ _)

/-! ## All members -/

/-- Gives names to the root widget, the objects below it and the button groups. -/
def naming (document : Nat) (f : Form) (root : Visit) : StateM Session (List Member) := do
  let _ ← Session.nameOfVisit? document root
  let objects ← objectMembers document root
  let groups ← groupMembers f
  return objects ++ groups

/-- The table once the objects and groups of a form have names. -/
def namedTable (document : Nat) (f : Form) (root : Visit) (s : Session) : Table :=
  (naming document f root s).2.table

theorem declaration_members (o : Options) (document : Nat) (f : Form) (root : Visit) (s : Session) :
    (declaration o document f root s).1.members = (naming document f root s).1 ∧
      (declaration o document f root s).1.functions =
        (Setup.functions o document f root (naming document f root s).2).1 := by
  cases hi : f.images? with
  | none =>
    simp only [declaration, hi]
    exact ⟨rfl, rfl⟩
  | some images =>
    cases he : o.extractImages with
    | true =>
      simp only [declaration, hi, he, if_true]
      exact ⟨rfl, rfl⟩
    | false =>
      simp only [declaration, hi, he, Bool.false_eq_true, if_false]
      exact ⟨rfl, rfl⟩

theorem naming_run (document : Nat) (f : Form) (root : Visit) (s : Session) :
    let s1 := (Session.nameOfVisit? document root s).2
    let objects := objectMembers document root s1
    let groups := groupMembers f objects.2
    naming document f root s = (objects.1 ++ groups.1, groups.2) := rfl

theorem groupMembers_run (f : Form) (s : Session) :
    let ns := groupNodes f
    groupMembers f s =
      ((ns.mapM Session.nameOfGroup s).1.eraseDups.map fun name => ⟨"QButtonGroup", name⟩,
        (ns.mapM Session.nameOfGroup s).2) := rfl

/-- The members of a form, and what the table knows when all of them have names. -/
theorem naming_spec (document : Nat) (f : Form) (root : Visit) (o : Object) (s : Session)
    (ho : Object.ofNode? root.node = some o) (hd : s.table.Distinct) :
    Named document (root :: root.node.descendants root.path) (groupNodes f) s.table
        (namedTable document f root s) ∧
      (naming document f root s).1 =
        (root.node.descendants root.path).filterMap
            (memberIn? document (namedTable document f root s)) ++
          (declaredGroups f).eraseDups.map fun d =>
            ⟨"QButtonGroup", groupNameIn (namedTable document f root s) d⟩ := by
  have h1 := named_visit document root o ho s hd
  obtain ⟨h2, h3⟩ := objects_spec document (root.node.descendants root.path)
    (Session.nameOfVisit? document root s).2 h1.distinct
  obtain ⟨h4, h5⟩ := groups_spec document (groupNodes f)
    (objectMembers document root (Session.nameOfVisit? document root s).2).2 h2.distinct
  have ht : namedTable document f root s = ((groupNodes f).mapM Session.nameOfGroup
      (objectMembers document root (Session.nameOfVisit? document root s).2).2).2.table := rfl
  rw [← ht] at h4 h5
  have hall := (h1.append h2).append h4
  rw [List.append_nil] at hall
  refine ⟨hall, ?_⟩
  have hinj : ∀ a ∈ declaredGroups f, ∀ b ∈ declaredGroups f,
      groupNameIn (namedTable document f root s) a = groupNameIn (namedTable document f root s) b →
        a = b := by
    intro a ha b hb hab
    obtain ⟨g, hg⟩ := h4.groups a ha
    obtain ⟨g', hg'⟩ := h4.groups b hb
    rw [groupNameIn_of_group hg, groupNameIn_of_group hg'] at hab
    exact h4.distinct.group_name hg hg' hab
  have hnames := h5 _ (Table.Extends.refl _)
  have hobjects := h3 _ h4.grows
  have hdups := eraseDups_map _ (declaredGroups f) hinj
  rw [naming_run, groupMembers_run]
  simp only [objectMembers] at hnames hobjects ⊢
  rw [hobjects, hnames, ← declaredGroups, hdups, List.map_map]
  rfl

/-! ## The class and its parameter -/

/-- What setting up a form gives, as the functions of its class. -/
def functionsOf (root : Visit) (form : String) (b : Setup.Builder) : Setup.Functions where
  formClass := root.node.stringAttribute "class"
  form
  setup := b.setup
  retranslate := b.retranslate ++ if b.retranslatesForm then [] else [.unused form]

theorem functions_run (o : Options) (document : Nat) (f : Form) (root : Visit) (s : Session) :
    Setup.functions o document f root s =
      let r := Session.nameOfVisit? document root s
      let b := Setup.built (Setup.Plan.ofForm o document f (r.1.getD "")) f r.2
      (functionsOf root (r.1.getD "") b, b.session) :=
  rfl

theorem functions_named (o : Options) (document : Nat) (f : Form) (root : Visit) (object : Object)
    (ho : Object.ofNode? root.node = some object) (s : Session) (e : Entry)
    (he : s.table.entry? ⟨document, root.path⟩ = some e) :
    Setup.functions o document f root s =
      let form := nameIn document s.table root
      let b := Setup.built (Setup.Plan.ofForm o document f form) f s
      (functionsOf root form b, b.session) := by
  have hname : Session.nameOfVisit? document root s = (some (nameIn document s.table root), s) := by
    rw [nameOfVisit_object document root object ho, Table.nameOf_known object he,
      nameIn_of_entry he, List.append_nil]
  rw [functions_run, hname]
  rfl

theorem nameIn_injective {document : Nat} {t : Table} (hd : t.Distinct) {v w : Visit} {e e' : Entry}
    (he : t.entry? ⟨document, v.path⟩ = some e) (he' : t.entry? ⟨document, w.path⟩ = some e')
    (h : nameIn document t v = nameIn document t w) : v.path = w.path := by
  rw [nameIn_of_entry he, nameIn_of_entry he'] at h
  exact congrArg Place.path (hd.entry_name he he' h)

theorem nameIn_ne_group {document : Nat} {t : Table} (hd : t.Distinct) {v : Visit} {e : Entry}
    {declared : String} {g : Group} (he : t.entry? ⟨document, v.path⟩ = some e)
    (hg : t.group? declared = some g) : nameIn document t v ≠ groupNameIn t declared := by
  rw [nameIn_of_entry he, groupNameIn_of_group hg]
  exact hd.entry_ne_group (Table.entry_mem he).1 (Table.group_mem hg).1

theorem object_of_memberIn {document : Nat} {t : Table} {v : Visit} {m : Member}
    (h : memberIn? document t v = some m) :
    (Object.ofNode? v.node).isSome ∧ m.name = nameIn document t v := by
  obtain ⟨className, hclass, rfl⟩ := Option.map_eq_some_iff.mp h
  refine ⟨?_, rfl⟩
  rw [← memberClass_isSome, hclass]
  rfl

theorem objectNames_nodup (document : Nat) (t : Table) (vs : List Visit) (hd : t.Distinct)
    (hpaths : (vs.map Visit.path).Nodup)
    (hknown : ∀ v ∈ vs, (Object.ofNode? v.node).isSome →
      ∃ e, t.entry? ⟨document, v.path⟩ = some e) :
    ((vs.filterMap (memberIn? document t)).map Member.name).Nodup := by
  have hpair : vs.Pairwise fun v w => v.path ≠ w.path := List.pairwise_map.mp hpaths
  have hmem := List.Pairwise.imp_of_mem (S := fun v w => v ∈ vs ∧ w ∈ vs ∧ v.path ≠ w.path)
    (fun hv hw h => ⟨hv, hw, h⟩) hpair
  rw [List.Nodup, List.pairwise_map]
  refine List.Pairwise.filterMap (memberIn? document t) ?_ hmem
  intro v w ⟨hv, hw, hne⟩ m hm m' hm' hname
  obtain ⟨hov, hnv⟩ := object_of_memberIn hm
  obtain ⟨how, hnw⟩ := object_of_memberIn hm'
  obtain ⟨e, he⟩ := hknown v hv hov
  obtain ⟨e', he'⟩ := hknown w hw how
  rw [hnv, hnw] at hname
  exact hne (nameIn_injective hd he he' hname)

theorem groupNames_nodup (t : Table) (ds : List String) (hd : t.Distinct) (hds : ds.Nodup)
    (hknown : ∀ d ∈ ds, ∃ g, t.group? d = some g) : (ds.map (groupNameIn t)).Nodup := by
  rw [List.Nodup, List.pairwise_map]
  refine List.Pairwise.imp_of_mem (fun ha hb hne hname => hne ?_) hds
  obtain ⟨g, hg⟩ := hknown _ ha
  obtain ⟨g', hg'⟩ := hknown _ hb
  rw [groupNameIn_of_group hg, groupNameIn_of_group hg'] at hname
  exact hd.group_name hg hg' hname

theorem memberName_entry {document : Nat} {t : Table} {vs : List Visit}
    (hknown : ∀ v ∈ vs, (Object.ofNode? v.node).isSome →
      ∃ e, t.entry? ⟨document, v.path⟩ = some e) {x : String}
    (hx : x ∈ (vs.filterMap (memberIn? document t)).map Member.name) :
    ∃ v ∈ vs, x = nameIn document t v ∧ ∃ e, t.entry? ⟨document, v.path⟩ = some e := by
  obtain ⟨m, hm, rfl⟩ := List.mem_map.mp hx
  obtain ⟨v, hv, hmember⟩ := List.mem_filterMap.mp hm
  obtain ⟨hov, hname⟩ := object_of_memberIn hmember
  exact ⟨v, hv, hname, hknown v hv hov⟩

/-- The names of the members for objects and groups. -/
def memberNames (document : Nat) (t : Table) (vs : List Visit) (ds : List String) : List String :=
  (vs.filterMap (memberIn? document t)).map Member.name ++ ds.map (groupNameIn t)

theorem memberNames_nodup (document : Nat) (t : Table) (vs : List Visit) (ds : List String)
    (hd : t.Distinct) (hpaths : (vs.map Visit.path).Nodup) (hds : ds.Nodup)
    (hknown : ∀ v ∈ vs, (Object.ofNode? v.node).isSome →
      ∃ e, t.entry? ⟨document, v.path⟩ = some e)
    (hgroups : ∀ d ∈ ds, ∃ g, t.group? d = some g) : (memberNames document t vs ds).Nodup := by
  rw [memberNames, List.nodup_append]
  refine ⟨objectNames_nodup document t vs hd hpaths hknown, groupNames_nodup t ds hd hds hgroups,
    fun x hx y hy => ?_⟩
  obtain ⟨v, _, rfl, e, he⟩ := memberName_entry hknown hx
  obtain ⟨a, ha, rfl⟩ := List.mem_map.mp hy
  obtain ⟨g, hg⟩ := hgroups a ha
  exact nameIn_ne_group hd he hg

theorem nameIn_not_mem (document : Nat) (t : Table) (vs : List Visit) (ds : List String)
    (hd : t.Distinct) (hknown : ∀ v ∈ vs, (Object.ofNode? v.node).isSome →
      ∃ e, t.entry? ⟨document, v.path⟩ = some e)
    (hgroups : ∀ d ∈ ds, ∃ g, t.group? d = some g) {w : Visit} {e : Entry}
    (he : t.entry? ⟨document, w.path⟩ = some e) (hw : ∀ v ∈ vs, v.path ≠ w.path) :
    nameIn document t w ∉ memberNames document t vs ds := by
  intro hmem
  rcases List.mem_append.mp hmem with hmem | hmem
  · obtain ⟨v, hv, hname, e', he'⟩ := memberName_entry hknown hmem
    exact hw v hv (nameIn_injective hd he' he hname.symm)
  · obtain ⟨a, ha, hname⟩ := List.mem_map.mp hmem
    obtain ⟨g, hg⟩ := hgroups a ha
    exact nameIn_ne_group hd he hg hname.symm

/-- The objects of a form but the root widget. -/
def objectVisits (f : Form) (root : Visit) : List Visit :=
  f.visits.filter fun v => v.node.kind.isObject && v.path != root.path

theorem members_of_form (document : Nat) (t : Table) (f : Form) (root : Visit)
    (hk : f.node.kind = .ui) (hw : Node.All Node.WellFormed f.node)
    (hroot : f.rootVisit? = some root) :
    (objectVisits f root).map (memberIn document t) =
      (root.node.descendants root.path).filterMap (memberIn? document t) := by
  obtain ⟨l, r, hvisits, hothers⟩ := f.visits_objects root hk hw hroot
  have hempty : ∀ vs : List Visit, (∀ v ∈ vs, v ∈ l ++ r) →
      vs.filter (fun v => v.node.kind.isObject && v.path != root.path) = [] := by
    intro vs hvs
    rw [List.filter_eq_nil_iff]
    intro v hv
    rw [(hothers v (hvs v hv)).1]
    simp
  have hbelow : (root.node.descendants root.path).filter
      (fun v => v.node.kind.isObject && v.path != root.path) =
        (root.node.descendants root.path).filter (·.node.kind.isObject) := by
    refine List.filter_congr fun v hv => ?_
    have hne := Node.path_of_descendant hv
    simp [hne]
  rw [objectVisits, hvisits, List.filter_append, List.filter_append,
    hempty l fun v => List.mem_append_left r, hempty r fun v => List.mem_append_right l,
    List.filter_cons_of_neg (by simp), hbelow, List.nil_append, List.append_nil]
  exact (filterMap_memberIn document t _).symm

/-- The class of a form has one member for each object but the root widget, in the order of the
form, and after them one for each name under which a button group is declared.  All of them have
names of their own, and none has the name of the parameter of the setup function.  They are the
lines of members in the header. -/
theorem members_correspond (o : Options) (document : Nat) (f : Form) (root : Visit)
    (notices : List Notice) (hk : f.node.kind = .ui) (hw : Node.All Node.WellFormed f.node)
    (hroot : f.rootVisit? = some root) :
    let d := ((declaration o document f root).run { notices := notices }).1
    let t := namedTable document f root { notices := notices }
    d.members =
        (objectVisits f root).map (memberIn document t) ++
          (declaredGroups f).eraseDups.map (fun name => ⟨"QButtonGroup", groupNameIn t name⟩) ∧
      (d.members.map Member.name).Nodup ∧
      d.functions.form = nameIn document t root ∧
      d.functions.form ∉ d.members.map Member.name ∧
      d.InHeader o document f { notices := notices } := by
  intro d t
  obtain ⟨before, after, hrooted⟩ := f.rooted root hk hw.here hroot
  have hobject : (Object.ofNode? root.node).isSome := by
    rw [Node.object_isSome, hrooted.kind]
    rfl
  obtain ⟨object, ho⟩ := Option.isSome_iff_exists.mp hobject
  obtain ⟨hnamed, hmembers⟩ := naming_spec document f root object
    { notices := notices } ho Table.distinct_empty
  obtain ⟨hd, hf⟩ := declaration_members o document f root { notices := notices }
  obtain ⟨e, he⟩ := hnamed.known root (List.mem_cons_self ..) hobject
  have hform : d.functions.form = nameIn document t root := by
    rw [show d.functions = _ from hf, functions_named o document f root object ho _ e he]
    rfl
  rw [hmembers] at hd
  have hnames : d.members.map Member.name =
      memberNames document t (root.node.descendants root.path) (declaredGroups f).eraseDups := by
    rw [show d.members = _ from hd, List.map_append, List.map_map]
    rfl
  have hknown : ∀ v ∈ root.node.descendants root.path, (Object.ofNode? v.node).isSome →
      ∃ e, t.entry? ⟨document, v.path⟩ = some e :=
    fun v hv => hnamed.known v (List.mem_cons_of_mem root hv)
  have hgroups : ∀ a ∈ (declaredGroups f).eraseDups, ∃ g, t.group? a = some g :=
    fun a ha => hnamed.groups a (List.mem_eraseDups.mp ha)
  refine ⟨hd.trans (by rw [members_of_form document t f root hk hw hroot]), ?_, hform, ?_,
    declaration_inHeader o document _ hroot⟩
  · rw [hnames]
    exact memberNames_nodup document t _ _ hnamed.distinct (Node.descendants_nodup _ _)
      (eraseDups_nodup _) hknown hgroups
  · rw [hnames, hform]
    exact nameIn_not_mem document t _ _ hnamed.distinct hknown hgroups he
      fun v hv => Node.path_of_descendant hv

/-- A form whose names clash: with the root widget, with each other, with a name that has a number
already and with the names of button groups, one of which is declared twice. -/
def clashing : Form :=
  ⟨.mk .ui []
    [.node "widget" (.mk .widget [("class", .string "QWidget"), ("name", .string "x")]
      [.node "layout" (.mk .layout [("class", .string "QVBoxLayout"), ("name", .string "x1")]
          [.node "item" (.mk .layoutItem []
            [.node "widget" (.mk .widget [("class", .string "Line")] [] "")] "")] ""),
        .node "widget" (.mk .widget [("name", .string "x")] [] ""),
        .node "actiongroup" (.mk .actionGroup [("name", .string "x")]
          [.node "action" (.mk .action [] [] "")] "")] ""),
      .node "buttongroups" (.mk .buttonGroups []
        [.node "buttongroup" (.mk .buttonGroup [("name", .string "x")] [] ""),
          .node "buttongroup" (.mk .buttonGroup [("name", .string "x")] [] "")] "")] ""⟩

theorem members_correspond_clashing :
    ∃ root, clashing.rootVisit? = some root ∧ Node.All Node.WellFormed clashing.node ∧
      let d := ((declaration {} 0 clashing root).run {}).1
      let t := namedTable 0 clashing root {}
      d.members.map Member.name = ["x1", "line", "x2", "x3", "action", "x4"] ∧
        d.members =
          (objectVisits clashing root).map (memberIn 0 t) ++
            (declaredGroups clashing).eraseDups.map
              (fun name => ⟨"QButtonGroup", groupNameIn t name⟩) ∧
        (d.members.map Member.name).Nodup ∧
        d.functions.form = nameIn 0 t root ∧
        d.functions.form ∉ d.members.map Member.name ∧
        ∃ header, (headerOf {} 0 clashing {}).1 = .ok header ∧
          d.Printed (Setup.style {} clashing) header := by
  have hw : Node.All Node.WellFormed clashing.node := by decide +kernel
  have htopics : (includesOf {} clashing).topics = [] := by decide +kernel
  obtain ⟨hmembers, hnodup, hform, hout, hheader⟩ :=
    members_correspond {} 0 clashing _ [] rfl hw rfl
  refine ⟨_, rfl, hw, ?_, hmembers, hnodup, hform, hout, hheader {} ?_⟩
  · decide +kernel
  · simp only [includesText, htopics]
    rfl

end FormCompiler.Header
