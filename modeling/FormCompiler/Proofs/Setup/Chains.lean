import FormCompiler.Proofs.Setup.Steps

/-!
# Chains of what encloses a node

The context that a walk hands down can be kept in three chains instead: the enclosing widgets, the
layouts and the groups of actions, innermost first.  They are pushed when the walk enters a node and
popped when it leaves, under conditions that depend on the node; an empty place on a chain stands
for nothing.  Whatever a node is, the chains are after it what they were before
(`chained_restores`), so their tops are always the context, and the code is the same
(`chained_form`).
-/

namespace FormCompiler.Setup

open Document Naming
open Node (meet)

structure Chains where
  widgets : List (Option Frame) := []
  layouts : List (Option Frame) := []
  groups : List (Option String) := []
  deriving Repr, DecidableEq

namespace Chains

/-- What the tops of the chains say about the next node. -/
def context (ch : Chains) (bareLayout : Option (List Nat)) : Context where
  widget := ch.widgets.head?.join
  layout := ch.layouts.head?.join
  group := ch.groups.head?.join
  bareLayout

/-- Enters a node that gives a context to its children.  A widget without layouts of its own has two
empty places on the chain of layouts. -/
def enter (n : Node) (inner : Context) (ch : Chains) : Chains :=
  match n.kind with
  | .ui => ⟨none :: ch.widgets, none :: ch.layouts, none :: ch.groups⟩
  | .widget =>
    let layouts := if (n.children "layout").isEmpty then none :: ch.layouts else ch.layouts
    { ch with widgets := inner.widget :: ch.widgets, layouts := none :: layouts }
  | .layout => { ch with layouts := inner.layout :: ch.layouts }
  | .actionGroup => { ch with groups := inner.group :: ch.groups }
  | _ => ch

/-- Leaves a node. -/
def leave (n : Node) (ch : Chains) : Chains :=
  match n.kind with
  | .ui => ⟨ch.widgets.tail, ch.layouts.tail, ch.groups.tail⟩
  | .widget =>
    let layouts := ch.layouts.tail
    { ch with
      widgets := ch.widgets.tail
      layouts := if (n.children "layout").isEmpty then layouts.tail else layouts }
  | .layout => { ch with layouts := ch.layouts.tail }
  | .actionGroup => { ch with groups := ch.groups.tail }
  | _ => ch

theorem leave_enter (n : Node) (inner : Context) (ch : Chains) :
    (ch.enter n inner).leave n = ch := by
  cases hk : n.kind with
  | widget =>
    simp only [enter, leave, hk, List.tail_cons]
    split <;> rfl
  | _ => simp only [enter, leave, hk, List.tail_cons]

end Chains

/-- Sets up the objects of a form with chains; only the way to a bare layout is handed down. -/
def chained (plan : Plan) : Walker (Builder × Chains) (Option (List Nat)) where
  enter bare visit := fun s =>
    let r := (walker plan).enter (s.2.context bare) visit s.1
    match r.1 with
    | none => (none, r.2, s.2)
    | some inner => (some inner.bareLayout, r.2, s.2.enter visit.node inner)
  leave bare innerBare visit := fun s =>
    let outer := s.2.leave visit.node
    ((), ((walker plan).leave (outer.context bare) (s.2.context innerBare) visit s.1).2, outer)

section Walk

variable {plan : Plan} {n : Node} {path : List Nat} {bare : Option (List Nat)} {b b' : Builder}
  {ch : Chains} {inner : Context}

theorem chained_outside
    (h : (walker plan).enter (ch.context bare) ⟨path, n⟩ b = (none, b')) :
    (n.walk (chained plan) bare path (b, ch)).2 = (b', ch) := by
  refine Node.walk_outside ?_
  simp only [chained, h]

theorem chained_entered
    (h : (walker plan).enter (ch.context bare) ⟨path, n⟩ b = (some inner, b')) :
    let s := (forM (n.reach path) (meet (chained plan) inner.bareLayout)
      (b', ch.enter n inner)).2
    (n.walk (chained plan) bare path (b, ch)).2 =
      (((walker plan).leave ((s.2.leave n).context bare) (s.2.context inner.bareLayout) ⟨path, n⟩
        s.1).2, s.2.leave n) := by
  have henter : (chained plan).enter bare ⟨path, n⟩ (b, ch) =
      (some inner.bareLayout, b', ch.enter n inner) := by
    simp only [chained, h]
  exact Node.walk_reached henter

/-! ## After a node the chains are as before -/

theorem restores_visits (vs : List Visit)
    (hvs : ∀ v ∈ vs, ∀ bare path s, (v.node.walk (chained plan) bare path s).2.2 = s.2)
    (bare : Option (List Nat)) (s : Builder × Chains) :
    (forM vs (meet (chained plan) bare) s).2.2 = s.2 := by
  induction vs generalizing s with
  | nil => rfl
  | cons v vs ih =>
    have hrest := ih (fun w hw => hvs w (List.mem_cons_of_mem v hw))
      (meet (chained plan) bare v s).2
    exact hrest.trans (hvs v (List.mem_cons_self ..) bare v.path s)

/-- Every node leaves the chains as it finds them. -/
theorem chained_restores (plan : Plan) (n : Node) (bare : Option (List Nat)) (path : List Nat)
    (s : Builder × Chains) : (n.walk (chained plan) bare path s).2.2 = s.2 := by
  induction n using Node.reach_induction generalizing bare path s with
  | h n ih =>
    obtain ⟨b, ch⟩ := s
    cases henter : (walker plan).enter (ch.context bare) ⟨path, n⟩ b with
    | mk inner? b' =>
      cases inner? with
      | none => rw [chained_outside henter]
      | some inner =>
        rw [chained_entered henter]
        -- What is below leaves the chains as entering the node has set them up.
        have hinside := restores_visits (n.reach path) (ih path) inner.bareLayout
          (b', ch.enter n inner)
        exact (congrArg (Chains.leave n) hinside).trans (Chains.leave_enter n inner ch)

/-! ## The tops of the chains are the context -/

theorem enterWidget_context (plan : Plan) (c : Context) (v : Visit) (b : Builder) :
    let inner := (enterWidget plan c v b).1
    { inner with layout := none, group := c.group } = inner := by
  rw [enterWidget_eq]
  rfl

/-- Below a form, what a node hands down is what it leaves on top of the chains. -/
theorem enter_context (hk : n.kind ≠ .ui)
    (h : (walker plan).enter (ch.context bare) ⟨path, n⟩ b = (some inner, b')) :
    (ch.enter n inner).context inner.bareLayout = inner := by
  have hinner := congrArg Prod.fst h
  cases hkind : n.kind with
  | ui => exact absurd hkind hk
  | widget =>
    simp only [walker, hkind, map_run] at hinner
    obtain rfl := Option.some.inj hinner
    simp only [Chains.enter, hkind, Chains.context, List.head?_cons, Option.join_some]
    exact enterWidget_context plan (ch.context bare) ⟨path, n⟩ b
  | layout | actionGroup =>
    simp only [walker, hkind, map_run] at hinner
    obtain rfl := Option.some.inj hinner
    simp only [Chains.enter, hkind, Chains.context, List.head?_cons, Option.join_some]
    rfl
  | layoutItem =>
    simp only [walker, hkind, pure_run] at hinner
    obtain rfl := Option.some.inj hinner
    simp only [Chains.enter, hkind]
    rfl
  | _ =>
    simp only [walker, hkind] at hinner
    cases hinner

/-- With chains, a walk over a node builds the same code. -/
def Mirrors (plan : Plan) (n : Node) : Prop :=
  ∀ bare path b (ch : Chains), (n.walk (chained plan) bare path (b, ch)).2.1 =
    (n.walk (walker plan) (ch.context bare) path b).2

theorem mirrors_visits (vs : List Visit) (hvs : ∀ v ∈ vs, Mirrors plan v.node)
    (bare : Option (List Nat)) (b : Builder) (ch : Chains) :
    (forM vs (meet (chained plan) bare) (b, ch)).2.1 =
      (forM vs (meet (walker plan) (ch.context bare)) b).2 := by
  induction vs generalizing b with
  | nil => rfl
  | cons v vs ih =>
    have hhere : (meet (chained plan) bare v (b, ch)).2 =
        ((meet (walker plan) (ch.context bare) v b).2, ch) :=
      Prod.ext (hvs v (List.mem_cons_self ..) bare v.path b ch)
        (chained_restores plan v.node bare v.path (b, ch))
    have hrest := ih (fun w hw => hvs w (List.mem_cons_of_mem v hw))
      (meet (walker plan) (ch.context bare) v b).2
    rw [← hhere] at hrest
    exact hrest

/-- What is below a node finds its context on the chains, and so does leaving the node. -/
theorem mirrors_node (hvs : ∀ v ∈ n.reach path, Mirrors plan v.node)
    (hcontext : ∀ inner b', (walker plan).enter (ch.context bare) ⟨path, n⟩ b = (some inner, b') →
      (ch.enter n inner).context inner.bareLayout = inner) :
    (n.walk (chained plan) bare path (b, ch)).2.1 =
      (n.walk (walker plan) (ch.context bare) path b).2 := by
  cases henter : (walker plan).enter (ch.context bare) ⟨path, n⟩ b with
  | mk inner? b' =>
    cases inner? with
    | none => rw [chained_outside henter, Node.walk_outside henter]
    | some inner =>
      have htop := hcontext inner b' henter
      -- Once all below is done, the chains are those that the node pushed: their tops are still
      -- the inner context, and popping them gives the outer one.
      have hchains := restores_visits (n.reach path) (fun v _ => chained_restores plan v.node)
        inner.bareLayout (b', ch.enter n inner)
      have hcode := mirrors_visits (n.reach path) hvs inner.bareLayout b' (ch.enter n inner)
      rw [chained_entered henter, Node.walk_reached henter]
      simp only [hchains, hcode, htop, Chains.leave_enter]

theorem chained_mirrors (n : Node) (hui : Node.All (·.kind ≠ .ui) n) : Mirrors plan n := by
  induction n using Node.reach_induction with
  | h n ih =>
    intro bare path b ch
    refine mirrors_node (fun v hv => ?_) fun inner b' => enter_context hui.here
    exact ih path v hv (Node.all_reach hui.below path v hv)

/-- Whether the context is handed down or kept in chains, a form gives the same code. -/
theorem chained_form (hk : n.kind = .ui) (hw : Node.All Node.WellFormed n) (b : Builder) :
    (n.walk (chained plan) none [] (b, {})).2 = ((n.walk (walker plan) {} [] b).2, {}) := by
  refine Prod.ext ?_ (chained_restores plan n none [] (b, {}))
  change _ = (n.walk (walker plan) (({} : Chains).context none) [] b).2
  refine mirrors_node (fun v hv => ?_) fun inner b' h => ?_
  · exact chained_mirrors v.node (Node.all_reach (Node.not_ui_below hw) [] v hv)
  · have hinner := congrArg Prod.fst h
    simp only [walker, hk, pure_run] at hinner
    obtain rfl := Option.some.inj hinner
    simp only [Chains.enter, hk]
    rfl

end Walk

end FormCompiler.Setup
