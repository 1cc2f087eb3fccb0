import FormCompiler.Naming.Table
import FormCompiler.Proofs.Document.Scalar
import Mathlib.Data.List.Nodup

/-!
# Names are handed out once

Among `base`, `base1`, `base2`, … there is always a name that is not taken, since there are more of
them than names taken.  So a table never holds one name twice (`Distinct`), and what it says about
an object or a group stays as it is while the table grows (`Extends`), nor does a name change hands
(`Later`).
-/

namespace FormCompiler.Naming

open Document

namespace Table

/-! ## Free names -/

theorem numbered_injective (base : String) (j k : Nat) (h : numbered base j = numbered base k) :
    j = k := by
  have hl := congrArg String.toList h
  exact Number.decimal_injective (by simpa [numbered, Number.natText] using hl)

/-- The names with a number that are tried for a base. -/
def candidates (taken : List String) (base : String) : List String :=
  (List.range (taken.length + 1)).map fun k => numbered base (k + 1)

theorem candidates_nodup (taken : List String) (base : String) : (candidates taken base).Nodup := by
  rw [candidates, List.Nodup, List.pairwise_map]
  refine List.nodup_range.imp fun hne he => hne ?_
  have hk := numbered_injective base _ _ he
  omega

theorem exists_free (taken : List String) (base : String) :
    ∃ name ∈ candidates taken base, name ∉ taken := by
  apply Classical.byContradiction
  intro hno
  have hsub : candidates taken base ⊆ taken := fun name hname =>
    Classical.byContradiction fun h => hno ⟨name, hname, h⟩
  have hle := (candidates_nodup taken base).length_le_of_subset hsub
  rw [candidates, List.length_map, List.length_range] at hle
  omega

theorem firstFree_base (taken : List String) (base : String) :
    firstFree taken base = base ∨ ∃ k, firstFree taken base = numbered base k := by
  unfold firstFree
  split
  · cases hfound : (((List.range (taken.length + 1)).map fun k => numbered base (k + 1)).find?
        (!taken.contains ·)) with
    | none => exact .inl rfl
    | some name =>
      obtain ⟨k, _, rfl⟩ := List.mem_map.mp (List.mem_of_find?_eq_some hfound)
      exact .inr ⟨k + 1, rfl⟩
  · exact .inl rfl

theorem firstFree_not_mem (taken : List String) (base : String) : firstFree taken base ∉ taken := by
  unfold firstFree
  split
  · obtain ⟨name, hname, hfree⟩ := exists_free taken base
    have hsome : ((candidates taken base).find? (!taken.contains ·)).isSome :=
      List.find?_isSome.mpr ⟨name, hname, by simpa using hfree⟩
    obtain ⟨found, hfound⟩ := Option.isSome_iff_exists.mp hsome
    rw [candidates] at hfound
    rw [hfound, Option.getD_some]
    simpa using List.find?_some hfound
  · next h => simpa using h

/-! ## Tables -/

/-- The names of the objects and groups that a table keeps track of. -/
def names (t : Table) : List String := t.entries.map Entry.name ++ t.groups.map Group.name

/-- No two of the objects and groups have the same name, all their names are taken, and no two
objects stand at the same place. -/
structure Distinct (t : Table) : Prop where
  nodup : t.names.Nodup
  taken : ∀ x ∈ t.names, x ∈ t.taken
  places : (t.entries.map Entry.place).Nodup
  declared : ∀ g ∈ t.groups, g.node.stringAttribute "name" = g.declared

/-- One table knows at least what another knows. -/
structure Extends (t t' : Table) : Prop where
  taken : ∀ x ∈ t.taken, x ∈ t'.taken
  entries : ∀ p e, t.entry? p = some e → t'.entry? p = some e
  groups : ∀ d g, t.group? d = some g → t'.group? d = some g

theorem Extends.refl (t : Table) : t.Extends t := ⟨fun _ h => h, fun _ _ h => h, fun _ _ h => h⟩

theorem Extends.trans {t t' t'' : Table} (h : t.Extends t') (h' : t'.Extends t'') :
    t.Extends t'' :=
  ⟨fun x hx => h'.taken x (h.taken x hx), fun p e he => h'.entries p e (h.entries p e he),
    fun d g hg => h'.groups d g (h.groups d g hg)⟩

theorem distinct_empty : Distinct {} := ⟨.nil, by simp [names], .nil, by simp⟩

theorem entry_mem {t : Table} {p : Place} {e : Entry} (h : t.entry? p = some e) :
    e ∈ t.entries ∧ e.place = p :=
  ⟨List.mem_of_find?_eq_some h, by simpa using List.find?_some h⟩

theorem group_mem {t : Table} {d : String} {g : Group} (h : t.group? d = some g) :
    g ∈ t.groups ∧ g.declared = d :=
  ⟨List.mem_of_find?_eq_some h, by simpa using List.find?_some h⟩

theorem Distinct.eq_of_name {t : Table} (h : t.Distinct) {e e' : Entry} (he : e ∈ t.entries)
    (he' : e' ∈ t.entries) (hname : e.name = e'.name) : e = e' :=
  List.inj_on_of_nodup_map (List.nodup_append.mp h.nodup).1 he he' hname

theorem Distinct.entry_of_mem {t : Table} (h : t.Distinct) {e : Entry} (he : e ∈ t.entries) :
    t.entry? e.place = some e := by
  have hsome : (Option.isSome <| t.entry? e.place) = true :=
    List.find?_isSome.mpr ⟨e, he, by simp⟩
  obtain ⟨e', he'⟩ := Option.isSome_iff_exists.mp hsome
  obtain ⟨hm, hp⟩ := entry_mem he'
  rw [he', List.inj_on_of_nodup_map h.places hm he hp]

theorem Distinct.entry_name {t : Table} (h : t.Distinct) {p q : Place} {e e' : Entry}
    (he : t.entry? p = some e) (he' : t.entry? q = some e') (hname : e.name = e'.name) : p = q := by
  obtain ⟨hm, hp⟩ := entry_mem he
  obtain ⟨hm', hq⟩ := entry_mem he'
  rw [← hp, ← hq, h.eq_of_name hm hm' hname]

theorem Distinct.group_name {t : Table} (h : t.Distinct) {d d' : String} {g g' : Group}
    (hg : t.group? d = some g) (hg' : t.group? d' = some g') (hname : g.name = g'.name) :
    d = d' := by
  obtain ⟨hm, hd⟩ := group_mem hg
  obtain ⟨hm', hd'⟩ := group_mem hg'
  rw [← hd, ← hd', List.inj_on_of_nodup_map (List.nodup_append.mp h.nodup).2.1 hm hm' hname]

theorem Distinct.entry_ne_group {t : Table} (h : t.Distinct) {e : Entry} {g : Group}
    (he : e ∈ t.entries) (hg : g ∈ t.groups) : e.name ≠ g.name :=
  (List.nodup_append.mp h.nodup).2.2 e.name (List.mem_map_of_mem he) g.name (List.mem_map_of_mem hg)

/-! ## Lookups by name -/

/-- What is looked up of an entry with a name is that of the only such entry. -/
theorem Distinct.findSome_iff {t : Table} (h : t.Distinct) {β : Type} {f : Entry → Option β}
    {x : String} (hf : ∀ e y, f e = some y → e.name = x) {y : β} :
    t.entries.findSome? f = some y ↔ ∃ e ∈ t.entries, f e = some y := by
  refine ⟨List.exists_of_findSome?_eq_some, fun ⟨e, he, hy⟩ => ?_⟩
  have hsome : (t.entries.findSome? f).isSome :=
    List.findSome?_isSome_iff.mpr ⟨e, he, by rw [hy]; rfl⟩
  obtain ⟨y', hfound⟩ := Option.isSome_iff_exists.mp hsome
  obtain ⟨e', he', hy'⟩ := List.exists_of_findSome?_eq_some hfound
  have hsame := h.eq_of_name he he' ((hf e y hy).trans (hf e' y' hy').symm)
  rw [hfound, ← hy', ← hy, hsame]

theorem Distinct.actionIsMenu_iff {t : Table} (h : t.Distinct) {x : String} {isMenu : Bool} :
    t.actionIsMenu? x = some isMenu ↔
      ∃ e ∈ t.entries, e.name = x ∧ e.role = .action isMenu := by
  refine (h.findSome_iff (x := x) fun e m he => ?_).trans
    (exists_congr fun e => and_congr_right fun _ => ?_)
  · cases hr : e.role <;> simp [hr] at he
    exact he.1
  · cases e.role <;> simp

theorem Distinct.widgetClass_iff {t : Table} (h : t.Distinct) {x className : String} :
    t.widgetClass? x = some className ↔
      ∃ e ∈ t.entries, e.name = x ∧ e.role = .widget className := by
  refine (h.findSome_iff (x := x) fun e c he => ?_).trans
    (exists_congr fun e => and_congr_right fun _ => ?_)
  · cases hr : e.role <;> simp [hr] at he
    exact he.1
  · cases e.role <;> simp

/-! ## No name is empty -/

theorem normalized_eq_empty {name : String} (h : normalized name = "") : name = "" := by
  have hlist := congrArg String.toList h
  simpa [normalized, String.toList_map] using hlist

theorem lowerLeading_eq_nil {cs : List Char} (h : lowerLeading cs = []) : cs = [] := by
  cases cs with
  | nil => rfl
  | cons c cs =>
    simp only [lowerLeading] at h
    split at h
    · have hc := (List.append_eq_nil_iff.mp h).1
      unfold Text.lowerChar at hc
      split at hc <;> cases hc
    · cases h

theorem stripMark_eq_nil {cs : List Char} (h : stripMark cs = []) : cs = [] := by
  match cs with
  | [] => rfl
  | [c] => cases h
  | c :: c' :: cs =>
    simp only [stripMark] at h
    split at h <;> cases h

theorem ofClass_eq_empty {className : String} (h : ofClass className = "") : className = "" := by
  have hstrip := stripMark_eq_nil (lowerLeading_eq_nil (String.ofList_eq_empty_iff.mp h))
  exact String.toList_eq_nil_iff.mp hstrip

theorem baseName_ne_empty (wanted className : String) : baseName wanted className ≠ "" := by
  unfold baseName
  split
  · rename_i hwanted
    intro h
    simp [normalized_eq_empty h] at hwanted
  · split
    · rename_i hclass
      intro h
      simp [ofClass_eq_empty (normalized_eq_empty h)] at hclass
    · decide

theorem unique_ne_empty (t : Table) (wanted className : String) :
    (t.unique wanted className).1 ≠ "" := by
  have hbase := baseName_ne_empty wanted className
  have hname : (t.unique wanted className).1 = firstFree t.taken (baseName wanted className) := rfl
  rcases firstFree_base t.taken (baseName wanted className) with h | ⟨k, h⟩
  · rw [hname, h]
    exact hbase
  · rw [hname, h, numbered]
    exact fun hk => hbase (String.append_eq_empty_iff.mp hk).1

/-! ## Handing out names -/

theorem unique_fresh (t : Table) (wanted className : String) :
    (t.unique wanted className).1 ∉ t.taken :=
  firstFree_not_mem t.taken _

theorem unique_extends (t : Table) (wanted className : String) :
    t.Extends (t.unique wanted className).2.1 :=
  ⟨fun _ hx => List.mem_cons_of_mem _ hx, fun _ _ h => h, fun _ _ h => h⟩

theorem nameOf_known {t : Table} {p : Place} {e : Entry} (o : Object) (h : t.entry? p = some e) :
    t.nameOf p o = (e.name, t, []) := by
  rw [nameOf, h]

theorem nameOf_new {t : Table} {p : Place} (o : Object) (h : t.entry? p = none) :
    t.nameOf p o = ((t.unique o.wanted o.className).1,
      { (t.unique o.wanted o.className).2.1 with
        entries := ⟨p, o.role, (t.unique o.wanted o.className).1⟩ :: t.entries },
      (t.unique o.wanted o.className).2.2) := by
  rw [nameOf, h]
  rfl

theorem nameOfGroup_known {t : Table} {n : Node} {g : Group}
    (h : t.group? (n.stringAttribute "name") = some g) : t.nameOfGroup n = (g.name, t, []) := by
  simp only [nameOfGroup, h]

theorem nameOfGroup_new {t : Table} {n : Node} (h : t.group? (n.stringAttribute "name") = none) :
    t.nameOfGroup n = ((t.unique (n.stringAttribute "name") "QButtonGroup").1,
      { (t.unique (n.stringAttribute "name") "QButtonGroup").2.1 with
        groups := ⟨n.stringAttribute "name",
          (t.unique (n.stringAttribute "name") "QButtonGroup").1, n⟩ :: t.groups },
      (t.unique (n.stringAttribute "name") "QButtonGroup").2.2) := by
  simp only [nameOfGroup, h]
  rfl

theorem nameOf_entries (t : Table) (p : Place) (o : Object) :
    (t.nameOf p o).2.1.entries = t.entries ∨
      (t.nameOf p o).2.1.entries = ⟨p, o.role, (t.nameOf p o).1⟩ :: t.entries := by
  cases he : t.entry? p with
  | some e =>
    rw [nameOf_known o he]
    exact .inl rfl
  | none =>
    rw [nameOf_new o he]
    exact .inr rfl

theorem nameOf_groups (t : Table) (p : Place) (o : Object) :
    (t.nameOf p o).2.1.groups = t.groups := by
  cases he : t.entry? p with
  | some e => rw [nameOf_known o he]
  | none =>
    rw [nameOf_new o he]
    rfl

theorem nameOfGroup_entries (t : Table) (n : Node) :
    (t.nameOfGroup n).2.1.entries = t.entries := by
  cases hg : t.group? (n.stringAttribute "name") with
  | some g => rw [nameOfGroup_known hg]
  | none =>
    rw [nameOfGroup_new hg]
    rfl

theorem nameOf_ne_empty (t : Table) (p : Place) (o : Object) (h : ∀ e ∈ t.entries, e.name ≠ "") :
    (t.nameOf p o).1 ≠ "" := by
  cases he : t.entry? p with
  | some e =>
    rw [nameOf_known o he]
    exact h e (entry_mem he).1
  | none =>
    rw [nameOf_new o he]
    exact unique_ne_empty t o.wanted o.className

theorem nameOfGroup_group {t : Table} {n : Node} {d : String} {g : Group}
    (h : (t.nameOfGroup n).2.1.group? d = some g) :
    t.group? d = some g ∨ n.stringAttribute "name" = d ∧ g.node = n := by
  cases hg : t.group? (n.stringAttribute "name") with
  | some g' =>
    rw [nameOfGroup_known hg] at h
    exact .inl h
  | none =>
    rw [nameOfGroup_new hg] at h
    simp only [group?, List.find?_cons] at h
    split at h
    · rename_i hd
      exact .inr ⟨beq_iff_eq.mp hd, by rw [← Option.some.inj h]⟩
    · exact .inl h

/-- What naming an object does: it has the name from then on, and nothing else changes. -/
theorem nameOf_spec (t : Table) (p : Place) (o : Object) (h : t.Distinct) :
    (t.nameOf p o).2.1.Distinct ∧ t.Extends (t.nameOf p o).2.1 ∧
      ∃ e, entry? (t.nameOf p o).2.1 p = some e ∧ e.name = (t.nameOf p o).1 := by
  cases he : t.entry? p with
  | some e =>
    rw [nameOf_known o he]
    exact ⟨h, Extends.refl t, e, he, rfl⟩
  | none =>
    rw [nameOf_new o he]
    have hfresh := unique_fresh t o.wanted o.className
    have hnew : (t.unique o.wanted o.className).1 ∉ t.names := fun hm => hfresh (h.taken _ hm)
    have hplace : p ∉ t.entries.map Entry.place := by
      intro hp
      obtain ⟨e, hm, rfl⟩ := List.mem_map.mp hp
      rw [h.entry_of_mem hm] at he
      cases he
    refine ⟨⟨List.nodup_cons.mpr ⟨hnew, h.nodup⟩, fun x hx => ?_,
      List.nodup_cons.mpr ⟨hplace, h.places⟩, h.declared⟩, ⟨?_, ?_, ?_⟩, ?_⟩
    · rcases List.mem_cons.mp hx with rfl | hx
      · exact List.mem_cons_self ..
      · exact List.mem_cons_of_mem _ (h.taken x hx)
    · exact fun x hx => List.mem_cons_of_mem _ hx
    · intro q e' he'
      have hne : (p == q) = false := by
        rw [beq_eq_false_iff_ne]
        intro hpq
        rw [hpq, he'] at he
        cases he
      simp only [List.find?_cons, hne, entry?]
      exact he'
    · exact fun d g hg => hg
    · exact ⟨⟨p, o.role, (t.unique o.wanted o.className).1⟩, by unfold entry?; simp, rfl⟩

theorem nameOfGroup_spec (t : Table) (n : Node) (h : t.Distinct) :
    (t.nameOfGroup n).2.1.Distinct ∧ t.Extends (t.nameOfGroup n).2.1 ∧
      ∃ g, (t.nameOfGroup n).2.1.group? (n.stringAttribute "name") = some g ∧
        g.name = (t.nameOfGroup n).1 := by
  cases hg : t.group? (n.stringAttribute "name") with
  | some g =>
    rw [nameOfGroup_known hg]
    exact ⟨h, Extends.refl t, g, hg, rfl⟩
  | none =>
    rw [nameOfGroup_new hg]
    have hfresh := unique_fresh t (n.stringAttribute "name") "QButtonGroup"
    generalize hname : (t.unique (n.stringAttribute "name") "QButtonGroup").1 = name at hfresh ⊢
    have hnew : name ∉ t.names := fun hm => hfresh (h.taken _ hm)
    have hperm : (t.entries.map Entry.name ++ name :: t.groups.map Group.name).Perm
        (name :: t.names) := List.perm_middle
    have htaken : name ∈ (t.unique (n.stringAttribute "name") "QButtonGroup").2.1.taken := by
      rw [← hname]
      exact List.mem_cons_self ..
    refine ⟨⟨hperm.nodup_iff.mpr (List.nodup_cons.mpr ⟨hnew, h.nodup⟩), fun x hx => ?_, h.places,
      fun g hg => ?_⟩, ⟨?_, ?_, ?_⟩, ?_⟩
    · rcases List.mem_cons.mp (hperm.mem_iff.mp hx) with rfl | hx'
      · exact htaken
      · exact List.mem_cons_of_mem _ (h.taken x hx')
    · rcases List.mem_cons.mp hg with rfl | hg
      · rfl
      · exact h.declared g hg
    · exact fun x hx => List.mem_cons_of_mem _ hx
    · exact fun p e he => he
    · intro d g' hg'
      have hne : (n.stringAttribute "name" == d) = false := by
        rw [beq_eq_false_iff_ne]
        intro hd
        rw [hd, hg'] at hg
        cases hg
      simp only [group?, List.find?_cons, hne]
      exact hg'
    · exact ⟨⟨n.stringAttribute "name", name, n⟩, by simp [group?], rfl⟩

/-! ## Later tables -/

/-- A table once more names have been handed out: what was known is still known, and a name that was
taken then is a subject's only if it was a subject's then. -/
structure Later (t t' : Table) : Prop where
  grows : t.Extends t'
  distinct : t'.Distinct
  names : ∀ x ∈ t.taken, x ∈ t'.names → x ∈ t.names

theorem Later.refl {t : Table} (h : t.Distinct) : t.Later t := ⟨.refl t, h, fun _ _ hx => hx⟩

theorem Later.trans {t t' t'' : Table} (h : t.Later t') (h' : t'.Later t'') : t.Later t'' :=
  ⟨h.grows.trans h'.grows, h'.distinct,
    fun x hx hn => h.names x hx (h'.names x (h.grows.taken x hx) hn)⟩

theorem unique_later {t : Table} (h : t.Distinct) (wanted className : String) :
    t.Later (t.unique wanted className).2.1 :=
  ⟨unique_extends t wanted className,
    ⟨h.nodup, fun x hx => List.mem_cons_of_mem _ (h.taken x hx), h.places, h.declared⟩,
    fun _ _ hx => hx⟩

theorem nameOf_later {t : Table} (h : t.Distinct) (p : Place) (o : Object) :
    t.Later (t.nameOf p o).2.1 := by
  obtain ⟨hd, hgrows, -⟩ := nameOf_spec t p o h
  refine ⟨hgrows, hd, fun x hx hn => ?_⟩
  cases he : t.entry? p with
  | some e =>
    rw [nameOf_known o he] at hn
    exact hn
  | none =>
    rw [nameOf_new o he] at hn
    rcases List.mem_cons.mp hn with rfl | hn
    · exact absurd hx (unique_fresh t o.wanted o.className)
    · exact hn

theorem nameOfGroup_later {t : Table} (h : t.Distinct) (n : Node) :
    t.Later (t.nameOfGroup n).2.1 := by
  obtain ⟨hd, hgrows, -⟩ := nameOfGroup_spec t n h
  refine ⟨hgrows, hd, fun x hx hn => ?_⟩
  cases hg : t.group? (n.stringAttribute "name") with
  | some g =>
    rw [nameOfGroup_known hg] at hn
    exact hn
  | none =>
    rw [nameOfGroup_new hg] at hn
    rcases List.mem_append.mp hn with hn | hn
    · exact List.mem_append_left _ hn
    · rcases List.mem_cons.mp hn with rfl | hn
      · exact absurd hx (unique_fresh t _ _)
      · exact List.mem_append_right _ hn

end Table

/-! ## Naming what a walk meets -/

theorem kind_of_object {n : Node} {o : Object} (h : Object.ofNode? n = some o) :
    n.kind = .widget ∨ n.kind = .spacer ∨ n.kind = .layout ∨ n.kind = .actionGroup ∨
      n.kind = .action := by
  obtain ⟨k, as, fs, t⟩ := n
  cases k <;> simp [Object.ofNode?, Node.kind] at h ⊢

theorem role_of_object {n : Node} {o : Object} (h : Object.ofNode? n = some o) :
    n.kind = .widget ∧ o.role = .widget (n.stringAttribute "class") ∨
      n.kind = .spacer ∧ o.role = .spacer ∨ n.kind = .layout ∧ o.role = .layout ∨
      n.kind = .actionGroup ∧ o.role = .actionGroup ∨
      n.kind = .action ∧ o.role = .action (n.attribute? "menu").isSome := by
  rcases kind_of_object h with hk | hk | hk | hk | hk <;>
    simp only [Object.ofNode?, hk, Option.some.injEq] at h <;> subst h <;> simp [hk]

theorem nameOfVisit_object (document : Nat) (v : Visit) (o : Object)
    (ho : Object.ofNode? v.node = some o) (s : Session) :
    Session.nameOfVisit? document v s =
      (some (s.table.nameOf ⟨document, v.path⟩ o).1,
        ⟨(s.table.nameOf ⟨document, v.path⟩ o).2.1,
          s.notices ++ (s.table.nameOf ⟨document, v.path⟩ o).2.2⟩) := by
  rcases kind_of_object ho with hk | hk | hk | hk | hk <;>
    simp only [Session.nameOfVisit?, hk, ho] <;> rfl

theorem nameOfVisit_item {v : Visit} {tag : String} {n : Node} {o : Object} (document : Nat)
    (hk : v.node.kind = .layoutItem) (hpayload : v.node.payload? = some (.node tag n))
    (ho : Object.ofNode? n = some o) :
    Session.nameOfVisit? document v = Session.nameOfVisit? document ⟨0 :: v.path, n⟩ := by
  rcases kind_of_object ho with h | h | h | h | h <;>
    simp only [Session.nameOfVisit?, hk, hpayload, ho, h]

end FormCompiler.Naming
