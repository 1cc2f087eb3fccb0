import FormCompiler.Proofs.Setup.Parents

/-!
# A flag for layouts without margins

Whether a layout gets no margins can be told by one flag that is kept beside the code, instead of
the way to the layout that a widget hands down.  A widget that serves to hold a layout raises the
flag, the next layout takes it down, and so does every widget that is left.  Since a widget has its
layouts before the widgets in it, only its first layout can find the flag raised, and the code is
the same (`flagged_form`).
-/

namespace FormCompiler

open Document

/-! ## The schema -/

namespace Document

theorem Kind.widget_contents : ∀ spec ∈ widget.schema.children,
    (widget ∈ spec.content.kind? → spec.tag = "widget") ∧
      (layout ∈ spec.content.kind? → spec.tag = "layout") ∧
      layoutItem ∉ spec.content.kind? ∧ ui ∉ spec.content.kind? := by
  decide +kernel

theorem Kind.group_contents : ∀ spec ∈ actionGroup.schema.children,
    widget ∉ spec.content.kind? ∧ layout ∉ spec.content.kind? ∧
      layoutItem ∉ spec.content.kind? ∧ ui ∉ spec.content.kind? := by
  decide +kernel

/-- The kind of what a field holds. -/
def Field.kind? (f : Field) : Option Kind := f.node?.map Node.kind

theorem Node.kind_of_field {n : Node} (hw : n.WellFormed) {f : Field} (hf : f ∈ n.fields)
    {kind : Kind} (h : f.kind? = some kind) :
    ∃ spec ∈ n.kind.schema.children, spec.tag = f.tag ∧ kind ∈ spec.content.kind? := by
  obtain ⟨m, hm, rfl⟩ := Option.map_eq_some_iff.mp h
  exact Node.kind_of_fitting (hw.fields f hf) hm

/-- A widget has its layouts before the widgets in it. -/
theorem Node.layouts_first {n : Node} (hw : n.WellFormed) (hk : n.kind = .widget) :
    n.fields.Pairwise fun f g => f.kind? = some .widget → g.kind? ≠ some .layout := by
  have htag : ∀ f ∈ n.fields, (f.kind? = some .widget → f.tag = "widget") ∧
      (f.kind? = some .layout → f.tag = "layout") := by
    intro f hf
    refine ⟨fun h => ?_, fun h => ?_⟩ <;>
      obtain ⟨spec, hspec, htag, hcontent⟩ := Node.kind_of_field hw hf h <;>
      rw [hk] at hspec <;> rw [← htag]
    · exact (Kind.widget_contents spec hspec).1 hcontent
    · exact (Kind.widget_contents spec hspec).2.1 hcontent
  refine hw.fieldsInOrder.imp_of_mem fun {f g} hf hg horder hwidget hlayout => ?_
  have hftag := (htag f hf).1 hwidget
  have hgtag := (htag g hg).2 hlayout
  rw [Precedes, hftag, hgtag, hk] at horder
  revert horder
  decide +kernel

end Document

namespace Setup

open Naming
open Node (walkFields)

/-- A context without the way to a layout. -/
def Context.plain (c : Context) : Context := { c with bareLayout := none }

/-- Sets up the objects of a form, where each layout is told whether to add the margins it lacks. -/
def told (plan : Plan) (tells : Visit → Bool) : Walker Builder Context where
  enter c visit := fun b =>
    let bareLayout := if tells visit then some visit.path else none
    let r := (walker plan).enter { c with bareLayout } visit b
    (r.1.map Context.plain, r.2)
  leave := (walker plan).leave

/-- The flag as a node leaves it to its fields. -/
def flagInside (plan : Plan) (c : Context) (n : Node) (flag : Bool) : Bool :=
  match n.kind with
  | .widget => holdsBareLayout plan c n
  | .layout => false
  | _ => flag

/-- Sets up the objects of a form with a flag, which the layouts are told. -/
def flagged (plan : Plan) : Walker (Builder × Bool) Context where
  enter c visit := fun s =>
    let r := (told plan fun _ => s.2).enter c visit s.1
    (r.1, r.2, flagInside plan c visit.node s.2)
  leave c inner visit := fun s =>
    ((), ((walker plan).leave c inner visit s.1).2,
      if visit.node.kind = .widget then false else s.2)

theorem told_keepsOut (plan : Plan) (tells : Visit → Bool) : (told plan tells).KeepsOut := by
  intro c v b h
  simp only [told, walker_keepsOut plan _ v b h]
  rfl

theorem flagged_keepsOut (plan : Plan) : (flagged plan).KeepsOut := by
  intro c v s h
  have hflag : flagInside plan c v.node s.2 = s.2 := by
    unfold flagInside
    split
    · rw [show v.node.kind = _ from ‹_›] at h
      rcases h with h | h <;> cases h
    · rw [show v.node.kind = _ from ‹_›] at h
      rcases h with h | h <;> cases h
    · rfl
  simp only [flagged, told_keepsOut plan _ c v s.1 h, hflag]

variable {plan : Plan} {c inner : Context} {n : Node} {v : Visit} {path : List Nat} {b : Builder}
  {bare : Option (List Nat)} {flag : Bool}

/-! ## Steps -/

theorem enterWidget_inner (plan : Plan) (c : Context) (v : Visit) (b : Builder) :
    (enterWidget plan c v b).1.widget.map Frame.className =
        some (v.node.stringAttribute "class") ∧
      (enterWidget plan c v b).1.bareLayout =
        if holdsBareLayout plan c v.node then (v.node.firstOfKind? .layout).map (· :: v.path)
        else none := by
  rw [enterWidget_eq]
  exact ⟨rfl, rfl⟩

theorem enter_some (h : ((walker plan).enter c v b).1 = some inner) :
    v.node.kind.holdsObjects = true ∧
      inner.widget.map Frame.className =
        (if v.node.kind = .widget then some (v.node.stringAttribute "class")
        else c.widget.map Frame.className) ∧
      inner.bareLayout =
        if v.node.kind = .widget then
          if holdsBareLayout plan c v.node then (v.node.firstOfKind? .layout).map (· :: v.path)
          else none
        else c.bareLayout := by
  generalize henter : (walker plan).enter c v = enter at h
  simp only [walker] at henter
  split at henter <;> subst henter
  case h_3 hk =>
    rw [map_run] at h
    rw [← Option.some.inj h, hk, if_pos rfl, if_pos rfl]
    exact ⟨rfl, enterWidget_inner plan c v b⟩
  case h_1 hk | h_2 hk | h_4 hk | h_5 hk =>
    rw [← Option.some.inj h, hk, if_neg (by decide), if_neg (by decide)]
    exact ⟨rfl, rfl, rfl⟩
  all_goals cases h

/-- Only a layout looks at the way to a layout. -/
theorem enter_plain (plan : Plan) (c : Context) (v : Visit) (bare : Option (List Nat)) (b : Builder)
    (h : v.node.kind = .layout → (bare = some v.path ↔ c.bareLayout = some v.path)) :
    let r := (walker plan).enter { c with bareLayout := bare } v b
    let r' := (walker plan).enter c v b
    (r.1.map Context.plain, r.2) = (r'.1.map Context.plain, r'.2) := by
  simp only [walker]
  generalize hk : v.node.kind = kind
  cases kind with
  | layout =>
    simp only [map_run, enterLayout, bind_run, get_run, modify_run, pure_run, h hk]
    rfl
  | _ => rfl

/-- Being told what is handed down makes no difference. -/
theorem told_enter (plan : Plan) (tells : Visit → Bool) (c : Context) (v : Visit) (b : Builder)
    (h : v.node.kind = .layout → (tells v = true ↔ c.bareLayout = some v.path)) :
    (told plan tells).enter c.plain v b =
      (((walker plan).enter c v b).1.map Context.plain, ((walker plan).enter c v b).2) := by
  refine enter_plain plan c v (if tells v then some v.path else none) b fun hk => ?_
  rw [← h hk]
  cases tells v <;> simp

theorem leave_plain (c inner : Context) :
    (walker plan).leave c.plain inner.plain v = (walker plan).leave c inner v := by
  simp only [walker]
  split <;> rfl

/-! ## What a field finds -/

/-- What a node of a kind needs of the flag and of the way to a layout. -/
structure Prepared (bare : Option (List Nat)) (flag : Bool) (path : List Nat) (kind : Kind) :
    Prop where
  layout : kind = .layout → (flag = true ↔ bare = some path)
  lowered : kind = .layoutItem ∨ kind = .ui → flag = false
  above : ∀ q, bare = some q → q.length ≤ path.length

/-- The flag after a field. -/
def flagAfter (flag : Bool) (f : Field) : Bool :=
  if f.kind? = some .widget ∨ f.kind? = some .layout then false else flag

/-- The nodes in some fields find what they need, one after the other. -/
def Ready (bare : Option (List Nat)) (path : List Nat) : Bool → Nat → List Field → Prop
  | _, _, [] => True
  | flag, i, f :: fs => (∀ kind, f.kind? = some kind → Prepared bare flag (i :: path) kind) ∧
      Ready bare path (flagAfter flag f) (i + 1) fs

theorem foldl_lowered (fs : List Field) : fs.foldl flagAfter false = false := by
  induction fs with
  | nil => rfl
  | cons f fs ih => rw [List.foldl_cons, flagAfter, ite_self, ih]

theorem foldl_others {fs : List Field}
    (h : ∀ f ∈ fs, f.kind? ≠ some .widget ∧ f.kind? ≠ some .layout) :
    fs.foldl flagAfter flag = flag := by
  induction fs with
  | nil => rfl
  | cons f fs ih =>
    have hf := h f (List.mem_cons_self ..)
    rw [List.foldl_cons, flagAfter, if_neg (by simp [hf])]
    exact ih fun g hg => h g (List.mem_cons_of_mem f hg)

/-- With the flag down, no layout may be the one that the way leads to. -/
theorem ready_lowered {i : Nat} (fs : List Field) (hne : ∀ j, i ≤ j → bare ≠ some (j :: path))
    (habove : ∀ q, bare = some q → q.length ≤ path.length + 1) : Ready bare path false i fs := by
  induction fs generalizing i with
  | nil => trivial
  | cons f fs ih =>
    refine ⟨fun kind _ => ⟨fun _ => ?_, fun _ => rfl, habove⟩, ?_⟩
    · simp [hne i (Nat.le_refl i)]
    · rw [flagAfter, ite_self]
      exact ih fun j hj => hne j (Nat.le_of_succ_le hj)

theorem ready_others {i : Nat} {fs : List Field}
    (h : ∀ f ∈ fs, ∀ kind, f.kind? = some kind → kind ≠ .widget ∧ kind ≠ .layout ∧
      kind ≠ .layoutItem ∧ kind ≠ .ui)
    (habove : ∀ q, bare = some q → q.length ≤ path.length + 1) : Ready bare path flag i fs := by
  induction fs generalizing i with
  | nil => trivial
  | cons f fs ih =>
    have hf := h f (List.mem_cons_self ..)
    refine ⟨fun kind hkind => ?_, ?_⟩
    · obtain ⟨-, hlayout, hitem, hui⟩ := hf kind hkind
      exact ⟨fun h => absurd h hlayout, fun h => h.elim (absurd · hitem) (absurd · hui), habove⟩
    · have hsame : flagAfter flag f = flag := by
        refine if_neg fun h => ?_
        rcases h with h | h
        · exact (hf _ h).1 rfl
        · exact (hf _ h).2.1 rfl
      rw [hsame]
      exact ih fun g hg => h g (List.mem_cons_of_mem f hg)

/-- With the flag raised by a widget, its first layout is the one that the way leads to. -/
theorem ready_raised {i : Nat} (fs : List Field)
    (hkinds : ∀ f ∈ fs, f.kind? ≠ some .layoutItem ∧ f.kind? ≠ some .ui)
    (horder : fs.Pairwise fun f g => f.kind? = some .widget → g.kind? ≠ some .layout)
    (hbare : bare = (fs.findIdx? fun f => f.kind? == some .layout).map fun j => (i + j) :: path) :
    Ready bare path true i fs := by
  have habove : ∀ q, bare = some q → q.length ≤ path.length + 1 := by
    intro q hq
    rw [hbare] at hq
    obtain ⟨j, -, rfl⟩ := Option.map_eq_some_iff.mp hq
    simp
  induction fs generalizing i with
  | nil => trivial
  | cons f fs ih =>
    obtain ⟨hitem, hui⟩ := hkinds f (List.mem_cons_self ..)
    obtain ⟨hfirst, horder⟩ := List.pairwise_cons.mp horder
    rw [List.findIdx?_cons] at hbare
    refine ⟨fun kind hkind => ⟨fun hlayout => ?_, fun h => ?_, habove⟩, ?_⟩
    · rw [hlayout] at hkind
      rw [hbare, hkind]
      simp
    · rcases h with rfl | rfl
      · exact absurd hkind hitem
      · exact absurd hkind hui
    · by_cases hlayout : f.kind? = some .layout
      · -- The layout takes the flag down, and the way leads to none of the fields behind it.
        rw [flagAfter, if_pos (.inr hlayout)]
        refine ready_lowered fs (fun j hj h => ?_) habove
        rw [hbare, hlayout, if_pos BEq.rfl, Option.map_some] at h
        have hsame := (List.cons.inj (Option.some.inj h)).1
        omega
      · rw [if_neg (by simp [hlayout])] at hbare
        by_cases hwidget : f.kind? = some .widget
        · -- The flag is lost behind a widget, but no layout stands there.
          rw [flagAfter, if_pos (.inl hwidget)]
          have hnone : bare = none := by
            rw [hbare, List.findIdx?_eq_none_iff.mpr fun g hg => by simp [hfirst g hg hwidget]]
            rfl
          exact ready_lowered fs (fun j _ => by simp [hnone]) habove
        · rw [flagAfter, if_neg (by simp [hlayout, hwidget])]
          refine ih (fun g hg => hkinds g (List.mem_cons_of_mem f hg)) horder ?_
          rw [hbare, Option.map_map]
          congr 1
          funext j
          rw [Function.comp_apply, Nat.add_assoc, Nat.add_comm 1 j]

/-! ## The walk -/

/-- With the flag, a walk over a node builds the same code, and takes the flag down after a widget
or a layout. -/
def Flags (plan : Plan) (n : Node) : Prop :=
  ∀ path c b flag, Prepared c.bareLayout flag path n.kind →
    (n.walk (flagged plan) c.plain path (b, flag)).2 =
      ((n.walk (walker plan) c path b).2,
        if n.kind = .widget ∨ n.kind = .layout then false else flag)

theorem flags_fields (fs : List Field) (hfs : ∀ f ∈ fs, ∀ m, f.node? = some m → Flags plan m)
    (c : Context) (i : Nat) (b : Builder) (hready : Ready c.bareLayout path flag i fs) :
    (walkFields (flagged plan) c.plain path i fs (b, flag)).2 =
      ((walkFields (walker plan) c path i fs b).2, fs.foldl flagAfter flag) := by
  induction fs generalizing i b flag with
  | nil => rfl
  | cons f fs ih =>
    obtain ⟨hprepared, hready⟩ := hready
    have hrest := fun b' => ih (fun g hg => hfs g (List.mem_cons_of_mem f hg)) (i + 1) b' hready
    cases f with
    | value tag v => exact hrest b
    | node tag m =>
      have hhere := hfs _ (List.mem_cons_self ..) m rfl (i :: path) c b flag (hprepared m.kind rfl)
      have hafter : flagAfter flag (.node tag m) =
          if m.kind = .widget ∨ m.kind = .layout then false else flag := by
        simp only [flagAfter, Field.kind?, Field.node?, Option.map_some, Option.some.injEq]
      rw [Node.walkFields_node, hhere, ← hafter]
      exact hrest _

/-- The fields of a node find what they need, and leave the flag as it is after the node; that of a
widget is taken down when the widget is left. -/
theorem ready_inside {b' : Builder} (hwell : n.WellFormed)
    (hprepared : Prepared c.bareLayout flag path n.kind)
    (h : (walker plan).enter c ⟨path, n⟩ b = (some inner, b')) :
    Ready inner.bareLayout path (flagInside plan c n flag) 0 n.fields ∧
      (n.kind ≠ .widget → n.fields.foldl flagAfter (flagInside plan c n flag) =
        if n.kind = .layout then false else flag) := by
  obtain ⟨hholds, -, hinner⟩ := enter_some (congrArg Prod.fst h)
  rw [hinner]
  have hlow : Ready c.bareLayout path false 0 n.fields := by
    refine ready_lowered n.fields (fun j _ hj => ?_) fun q hq =>
      Nat.le_succ_of_le (hprepared.above q hq)
    have hshort := hprepared.above _ hj
    rw [List.length_cons] at hshort
    omega
  cases hk : n.kind with
  | widget =>
    refine ⟨?_, fun hne => absurd rfl hne⟩
    simp only [flagInside, hk, if_true]
    cases holdsBareLayout plan c n with
    | false => exact ready_lowered n.fields (by simp) (by simp)
    | true =>
      refine ready_raised n.fields (fun f hf => ⟨fun h => ?_, fun h => ?_⟩)
        (Node.layouts_first hwell hk) ?_
      · obtain ⟨spec, hspec, -, hcontent⟩ := Node.kind_of_field hwell hf h
        exact (Kind.widget_contents spec (hk ▸ hspec)).2.2.1 hcontent
      · obtain ⟨spec, hspec, -, hcontent⟩ := Node.kind_of_field hwell hf h
        exact (Kind.widget_contents spec (hk ▸ hspec)).2.2.2 hcontent
      · simp only [Nat.zero_add]
        rfl
  | layout =>
    simp only [flagInside, hk]
    exact ⟨hlow, fun _ => foldl_lowered n.fields⟩
  | layoutItem | ui =>
    have hflag := hprepared.lowered (by simp [hk])
    simp only [flagInside, hk, hflag]
    exact ⟨hlow, fun _ => foldl_lowered n.fields⟩
  | actionGroup =>
    have hothers : ∀ f ∈ n.fields, ∀ kind, f.kind? = some kind → kind ≠ .widget ∧
        kind ≠ .layout ∧ kind ≠ .layoutItem ∧ kind ≠ .ui := by
      intro f hf kind hkind
      obtain ⟨spec, hspec, -, hcontent⟩ := Node.kind_of_field hwell hf hkind
      obtain ⟨h1, h2, h3, h4⟩ := Kind.group_contents spec (hk ▸ hspec)
      refine ⟨?_, ?_, ?_, ?_⟩ <;> rintro rfl <;> contradiction
    simp only [flagInside, hk]
    refine ⟨ready_others hothers fun q hq => Nat.le_succ_of_le (hprepared.above q hq), fun _ => ?_⟩
    rw [foldl_others fun f hf => ⟨fun h => (hothers f hf _ h).1 rfl,
      fun h => (hothers f hf _ h).2.1 rfl⟩]
    rfl
  | _ =>
    rw [show n.kind = _ from hk] at hholds
    cases hholds

/-- By induction over the tree: what a node finds, enters and leaves is the same with the flag. -/
theorem flags_node (plan : Plan) (n : Node) (hwell : Node.All Node.WellFormed n) :
    Flags plan n := by
  induction n using Node.induction with
  | h n ih =>
    intro path c b flag hprepared
    have hsame := told_enter plan (fun _ => flag) c ⟨path, n⟩ b hprepared.layout
    have henter : (flagged plan).enter c.plain ⟨path, n⟩ (b, flag) =
        (((walker plan).enter c ⟨path, n⟩ b).1.map Context.plain,
          ((walker plan).enter c ⟨path, n⟩ b).2, flagInside plan c n flag) := by
      simp only [flagged, hsame]
      rfl
    cases h : (walker plan).enter c ⟨path, n⟩ b with
    | mk entered b' =>
      rw [h] at henter
      cases entered with
      | none =>
        have hentered := congrArg Prod.fst h
        rw [Node.walk_outside henter, Node.walk_outside h]
        cases hk : n.kind with
        | widget | layout =>
          simp only [walker, hk, map_run] at hentered
          cases hentered
        | _ => simp [flagInside, hk]
      | some inner =>
        obtain ⟨hready, hafter⟩ := ready_inside hwell.here hprepared h
        have hfields := flags_fields n.fields
          (fun f hf m hm => ih f hf m hm (hwell.below f hf m hm)) inner 0 b' hready
        rw [Node.walk_entered hwell (flagged_keepsOut plan) henter, walk_entered hwell h, hfields]
        simp only [flagged, leave_plain]
        by_cases hk : n.kind = .widget
        · rw [if_pos hk, if_pos (.inl hk)]
        · rw [if_neg hk, hafter hk]
          simp only [hk, false_or]

/-- Whether the way to a layout is handed down or a flag is kept, a form gives the same code. -/
theorem flagged_form (hk : n.kind = .ui) (hwell : Node.All Node.WellFormed n) (b : Builder) :
    (n.walk (flagged plan) {} [] (b, false)).2 = ((n.walk (walker plan) {} [] b).2, false) := by
  have hflags := flags_node plan n hwell [] {} b false
    ⟨fun h => by simp [hk] at h, fun _ => rfl, by simp⟩
  rwa [if_neg (by simp [hk])] at hflags

end Setup

end FormCompiler
