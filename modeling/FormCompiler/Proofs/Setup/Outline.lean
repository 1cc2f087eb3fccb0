import FormCompiler.Proofs.Document.Tours
import FormCompiler.Proofs.Setup.Fittings

/-!
# Setup code follows the tree

What a walk hands down to a node is what the tree has above the node (`Job.contextAt`), so the code
that handles the objects can be read off the tree: each object is created on the way down, and on
the way back each layout item is given to its layout and each widget to the one that encloses it
(`Job.assembly`).  To every view the setup function of a form is that, and then links between
objects (`built_assembly`).  What it builds is the part of it without the widgets handed over
(`Job.outline`, `built_outline`).
-/

namespace FormCompiler.Setup

open Code Document Naming
open Node (walkFields fieldsTour)

namespace Job

/-! ## What the tree says -/

section Tree

variable (job : Job)

/-- A widget or layout as what it contains sees it. -/
def frame (v : Visit) : Frame := ⟨job.name v, v.node.stringAttribute "class"⟩

/-- The nearest widget or layout above a path, if it is a layout. -/
def holder? (path : List Nat) : Option Visit :=
  ((job.form.node.ancestors path).find? fun u =>
    u.node.kind == .widget || u.node.kind == .layout).filter (·.node.kind == .layout)

/-- What encloses the node at a path. -/
def contextAt (path : List Nat) : Context where
  widget := (job.form.node.enclosing? .widget path).map job.frame
  layout := (job.holder? path).map job.frame
  group := (job.form.node.enclosing? .actionGroup path).map job.name

/-- The statement that creates the object at a visit in a context, if the setup function creates
it: not for the form itself, nor for an action that stands for a menu. -/
def creationIn (c : Context) (v : Visit) : List Stmt :=
  match v.node.kind with
  | .widget =>
    if c.widget.isSome then
      [.create (job.name v) (Classes.Custom.realClass (v.node.stringAttribute "class"))
        (if job.plan.classes.isContainer c.widgetClass then [] else [.ref c.widgetName])]
    else []
  | .layout =>
    [.create (job.name v) (v.node.stringAttribute "class")
      (if c.layout.isSome then [] else [.ref (c.ownerName job.plan)])]
  | .spacer => [.create (job.name v) "QSpacerItem" (spacerArgs v.node.properties)]
  | .actionGroup => [.create (job.name v) "QActionGroup" [.ref (c.actionOwner job.plan)]]
  | .action =>
    if (v.node.attribute? "menu").isSome then []
    else [.create (job.name v) "QAction" [.ref (c.actionOwner job.plan)]]
  | _ => []

/-- What a layout item holds. -/
def item? (v : Visit) : Option Visit :=
  (v.node.payload?.bind Field.node?).map (Visit.mk (0 :: v.path))

/-- The statement that gives what an item holds to the layout it stands in. -/
def placementIn (c : Context) (v : Visit) : List Stmt :=
  if v.node.kind = .layoutItem then
    match c.layout, itemNoun? v.node, item? v with
    | some layout, some noun, some w =>
      let (verb, args) := itemPlacement layout.className (job.name w) v.node
      [.call layout.name (verb ++ noun) args]
    | _, _, _ => []
  else []

/-- The statements that hand a widget to the one it stands in. -/
def handoverIn (c : Context) (v : Visit) : List Stmt :=
  if v.node.kind = .widget then
    c.widget.toList.flatMap (handoverTo job.plan · (job.name v) v.node)
  else []

def creation (v : Visit) : List Stmt := job.creationIn (job.contextAt v.path) v

def placement (v : Visit) : List Stmt := job.placementIn (job.contextAt v.path) v

def handover (v : Visit) : List Stmt := job.handoverIn (job.contextAt v.path) v

/-- What is done with an object when all that it contains exists. -/
def completion (v : Visit) : List Stmt := job.placement v ++ job.handover v

/-- The code that handles the objects from a node down. -/
def assembly (path : List Nat) (n : Node) : List Stmt := n.tour job.creation job.completion path

/-- The code that builds the objects from a node down. -/
def outline (path : List Nat) (n : Node) : List Stmt := n.tour job.creation job.placement path

end Tree

/-- A context is what the tree has above a path. -/
structure Encloses (job : Job) (c : Context) (path : List Nat) : Prop where
  widget : c.widget = (job.contextAt path).widget
  layout : c.layout = (job.contextAt path).layout
  group : c.group = (job.contextAt path).group

variable {job : Job} {α : Type} {view : job.View α} {c inner : Context} {b b' : Builder} {v : Visit}
  {n : Node} {path : List Nat}

/-! ## Going down -/

theorem holder_here (i : Nat) (h : job.form.node.nodeAt? path = some n) (hk : n.kind = .layout) :
    job.holder? (i :: path) = some ⟨path, n⟩ := by
  rw [holder?, Node.ancestors_cons i h, List.find?_cons_of_pos (by simp [hk]), Option.filter_some,
    if_pos (by simp [hk])]

theorem holder_none (i : Nat) (h : job.form.node.nodeAt? path = some n) (hk : n.kind = .widget) :
    job.holder? (i :: path) = none := by
  rw [holder?, Node.ancestors_cons i h, List.find?_cons_of_pos (by simp [hk]), Option.filter_some,
    if_neg (by simp [hk])]

theorem holder_above (i : Nat) (h : job.form.node.nodeAt? path = some n) (hw : n.kind ≠ .widget)
    (hl : n.kind ≠ .layout) : job.holder? (i :: path) = job.holder? path := by
  rw [holder?, Node.ancestors_cons i h, List.find?_cons_of_neg (by simp [hw, hl]), holder?]

section Contexts

variable (i : Nat) (hn : job.form.node.nodeAt? path = some n)

include hn

theorem contextAt_widget (hk : n.kind = .widget) :
    job.contextAt (i :: path) =
      { widget := some (job.frame ⟨path, n⟩), group := (job.contextAt path).group } := by
  have hwidget := Node.enclosing_here i hn
  have hgroup : job.form.node.enclosing? .actionGroup (i :: path) = _ :=
    Node.enclosing_above i hn (by simp [hk])
  rw [hk] at hwidget
  rw [contextAt, hwidget, holder_none i hn hk, hgroup]
  rfl

theorem contextAt_layout (hk : n.kind = .layout) :
    job.contextAt (i :: path) =
      { job.contextAt path with layout := some (job.frame ⟨path, n⟩) } := by
  have hwidget : job.form.node.enclosing? .widget (i :: path) = _ :=
    Node.enclosing_above i hn (by simp [hk])
  have hgroup : job.form.node.enclosing? .actionGroup (i :: path) = _ :=
    Node.enclosing_above i hn (by simp [hk])
  rw [contextAt, hwidget, holder_here i hn hk, hgroup]
  rfl

theorem contextAt_group (hk : n.kind = .actionGroup) :
    job.contextAt (i :: path) =
      { job.contextAt path with group := some (job.name ⟨path, n⟩) } := by
  have hwidget : job.form.node.enclosing? .widget (i :: path) = _ :=
    Node.enclosing_above i hn (by simp [hk])
  have hgroup := Node.enclosing_here i hn
  rw [hk] at hgroup
  rw [contextAt, hwidget, holder_above i hn (by simp [hk]) (by simp [hk]), hgroup]
  rfl

/-- What is neither a widget nor a layout nor a group of actions is not seen from below. -/
theorem contextAt_other (hw : n.kind ≠ .widget) (hl : n.kind ≠ .layout)
    (hg : n.kind ≠ .actionGroup) : job.contextAt (i :: path) = job.contextAt path := by
  rw [contextAt, Node.enclosing_above i hn hw, Node.enclosing_above i hn hg,
    holder_above i hn hw hl, contextAt]

end Contexts

namespace Encloses

theorem top : job.Encloses {} [] := ⟨rfl, rfl, rfl⟩

variable (hc : job.Encloses c path) (hn : job.form.node.nodeAt? path = some n) (i : Nat)

include hc hn

theorem pass (hw : n.kind ≠ .widget) (hl : n.kind ≠ .layout) (hg : n.kind ≠ .actionGroup) :
    job.Encloses c (i :: path) := by
  have hcontext := contextAt_other i hn hw hl hg
  exact ⟨hcontext ▸ hc.widget, hcontext ▸ hc.layout, hcontext ▸ hc.group⟩

theorem widget_below (hk : n.kind = .widget) (hw : inner.widget = some (job.frame ⟨path, n⟩))
    (hl : inner.layout = none) (hg : inner.group = c.group) : job.Encloses inner (i :: path) := by
  have hcontext := contextAt_widget i hn hk
  exact ⟨by rw [hw, hcontext], by rw [hl, hcontext], by rw [hg, hc.group, hcontext]⟩

theorem layout_below (hk : n.kind = .layout) :
    job.Encloses { c with layout := some (job.frame ⟨path, n⟩) } (i :: path) := by
  have hcontext := contextAt_layout i hn hk
  exact ⟨hcontext ▸ hc.widget, by rw [hcontext], hcontext ▸ hc.group⟩

theorem group_below (hk : n.kind = .actionGroup) :
    job.Encloses { c with group := some (job.name ⟨path, n⟩) } (i :: path) := by
  have hcontext := contextAt_group i hn hk
  exact ⟨hcontext ▸ hc.widget, hcontext ▸ hc.layout, by rw [hcontext]⟩

theorem aside (hj : job.Named) : ∀ fr, c.widget = some fr → job.isLayout fr.name = false := by
  intro fr hfr
  rw [hc.widget] at hfr
  obtain ⟨u, hu, rfl⟩ := Option.map_eq_some_iff.mp hfr
  obtain ⟨hmem, hk⟩ := Node.enclosing_mem hn hu
  exact hj.isLayout_other hmem (by rw [hk]; rfl) (by rw [hk]; decide)

theorem holds : ∀ fr, c.layout = some fr → job.isLayout fr.name = true := by
  intro fr hfr
  rw [hc.layout] at hfr
  obtain ⟨u, hu, rfl⟩ := Option.map_eq_some_iff.mp hfr
  obtain ⟨hfind, hk⟩ := Option.filter_eq_some_iff.mp hu
  have hmem := ((Node.mem_ancestors hn u).mp (List.mem_of_find?_eq_some hfind)).1
  exact isLayout_name hmem (by simpa using hk)

end Encloses

/-! ## Objects -/

theorem Encloses.creation (hc : job.Encloses c v.path) : job.creation v = job.creationIn c v := by
  simp only [Job.creation, creationIn, Context.widgetName, Context.widgetClass, Context.ownerName,
    Context.actionOwner, hc.widget, hc.layout, hc.group]
  rfl

theorem Encloses.placement (hc : job.Encloses c v.path) :
    job.placement v = job.placementIn c v := by
  simp only [Job.placement, placementIn, hc.layout]

theorem Encloses.handover (hc : job.Encloses c v.path) : job.handover v = job.handoverIn c v := by
  simp only [Job.handover, handoverIn, hc.widget]

section Objects

variable (hj : job.Named) (hb : view.Sound b) (hc : job.Encloses c v.path)
  (hv : v ∈ job.form.visits)

include hj hb hc hv

theorem adds_enterWidget (hk : v.node.kind = .widget) :
    let r := enterWidget job.plan c v b
    view.Adds (job.creation v) b r.2 ∧ r.1.widget = some (job.frame v) ∧ r.1.layout = none ∧
      r.1.group = c.group := by
  have hobject : v.node.kind.isObject = true := by rw [hk]; rfl
  have hname := hj.isLayout_other hv hobject (by rw [hk]; decide)
  have s2 := adds_createWidget (c := c) hb hname v.node
  have hcreate : job.creation v = widgetStmts job.plan c (job.name v) v.node := by
    rw [hc.creation]
    simp only [creationIn, hk, widgetStmts]
  rw [← hcreate] at s2
  -- What follows is about the widget that was created, and builds nothing.
  have s3 := s2.followed (adds_equip (c := c) s2.sound (job.name v) v.node)
  have s4 := s3.followed (adds_writeProperties s3.sound
    (c.target (job.name v) (v.node.stringAttribute "class") false) v.node.properties)
  dsimp only
  rw [enterWidget_run job.plan c (hj.nameAt hb hv hobject), adorn_run]
  refine ⟨s4.followed (View.Adds.when _ (fun _ => adds_takeMenuAction s4.sound _)
    fun _ => .refl s4.sound), rfl, rfl, rfl⟩

theorem adds_enterLayout (hk : v.node.kind = .layout) :
    let r := enterLayout job.plan c v b
    view.Adds (job.creation v) b r.2 ∧ r.1 = { c with layout := some (job.frame v) } := by
  have hobject : v.node.kind.isObject = true := by rw [hk]; rfl
  let create : Stmt := .create (job.name v) (v.node.stringAttribute "class")
    (if c.layout.isSome then [] else [.ref (c.ownerName job.plan)])
  have hcreate : job.creation v = [create] := by
    rw [hc.creation]
    simp only [creationIn, hk, create]
  have s1 : view.Adds [create] b (emit create b).2 := adds_emitAll hb _
  obtain ⟨l, hl, hsteps⟩ := enterLayout_steps job.plan c (hj.nameAt hb hv hobject)
  have s2 := s1.followed (adds_idle s1.sound (handles_tunes hl))
  have s3 : view.Adds [] _ { (emitAll _ (emit create b).2).2 with marginType := .subLayout } :=
    adds_nothing s2.sound rfl rfl rfl rfl rfl rfl
  have s4 := (s2.followed s3).followed (adds_writeProperties s3.sound
    (c.target (job.name v) (v.node.stringAttribute "class") true)
    (v.node.properties ++
      if c.bareLayout = some v.path then missingMargins v.node.properties else []))
  rw [hsteps, hcreate]
  exact ⟨s4, rfl⟩

theorem adds_writeSpacer (hk : v.node.kind = .spacer) :
    view.Adds (job.creation v) b (writeSpacer job.plan v b).2 := by
  have hobject : v.node.kind.isObject = true := by rw [hk]; rfl
  rw [hc.creation]
  simp only [creationIn, hk, writeSpacer, bind_run, hj.nameAt hb hv hobject]
  exact adds_emitAll hb _

theorem adds_enterActionGroup (hk : v.node.kind = .actionGroup) :
    let r := enterActionGroup job.plan c v b
    view.Adds (job.creation v) b r.2 ∧ r.1 = { c with group := some (job.name v) } := by
  have hobject : v.node.kind.isObject = true := by rw [hk]; rfl
  rw [hc.creation]
  simp only [creationIn, hk, enterActionGroup, bind_run, pure_run, hj.nameAt hb hv hobject]
  have s1 := adds_emitAll hb [.create (job.name v) "QActionGroup" [.ref (c.actionOwner job.plan)]]
  exact ⟨s1.followed (adds_writeProperties s1.sound _ _), trivial⟩

theorem adds_writeAction (hk : v.node.kind = .action) :
    view.Adds (job.creation v) b (writeAction job.plan c v b).2 := by
  have hobject : v.node.kind.isObject = true := by rw [hk]; rfl
  rw [hc.creation]
  simp only [creationIn, hk, writeAction, ite_run, pure_run, bind_run,
    hj.nameAt hb hv hobject]
  split
  · exact .refl hb
  · have s1 := adds_emitAll hb [.create (job.name v) "QAction" [.ref (c.actionOwner job.plan)]]
    exact s1.followed (adds_writeProperties s1.sound _ _)

end Objects

theorem adds_placeAction (hj : job.Named) (hb : view.Sound b) (hc : job.Encloses c v.path)
    (hv : v ∈ job.form.visits) : view.Adds [] b (placeAction job.plan c v.node b).2 := by
  obtain ⟨m, hrun, hplacing⟩ := placeAction_run job.plan c v.node b
  rw [hrun]
  cases hplacing with
  | outside | pass => exact .refl hb
  | separator hw hx =>
    exact adds_delayAction hb (.inl (view.idle _ (handles_args fun x hx => by cases hx)))
  | @action w e hw =>
    exact adds_delayAction hb (.inr ⟨w.name, "addAction", e, rfl, by simp,
      hc.aside ((Node.mem_visits _ _).mp hv) hj w hw⟩)
  | undeclared => exact adds_note hb _

theorem item_of_payload {tag : String} (h : v.node.payload? = some (.node tag n)) :
    item? v = some ⟨0 :: v.path, n⟩ := by
  rw [item?, h]
  rfl

theorem item_below {w : Visit} (h : item? v = some w) : w ∈ v.node.descendants v.path := by
  obtain ⟨m, hm, rfl⟩ := Option.map_eq_some_iff.mp h
  obtain ⟨f, hf, hfm⟩ := Option.bind_eq_some_iff.mp hm
  obtain ⟨fs, hfs⟩ := List.head?_eq_some_iff.mp hf
  cases f with
  | value tag s => cases hfm
  | node tag n =>
    obtain rfl := Option.some.inj hfm
    rw [Node.descendants, hfs]
    refine List.mem_append_left _ ?_
    rw [Node.fieldVisits, Form.visits_eq ⟨0 :: v.path, n⟩]
    exact List.mem_cons_self ..

theorem item_mem {f : Form} {w : Visit} (hv : v ∈ f.visits) (h : item? v = some w) :
    w ∈ f.visits := by
  refine Node.visits_below hv ?_
  rw [Form.visits_eq]
  exact List.mem_cons_of_mem _ (item_below h)

theorem itemPlacement_ref (layoutClass itemName : String) (item : Node) :
    Expr.ref itemName ∈ (itemPlacement layoutClass itemName item).2 := by
  unfold itemPlacement
  split
  · simp
  · split <;> simp

theorem adds_leaveItem (hj : job.Named) (hb : view.Sound b) (hc : job.Encloses c v.path)
    (hv : v ∈ job.form.visits) (hk : v.node.kind = .layoutItem) :
    view.Adds (job.placement v) b (leaveItem job.plan c v b).2 := by
  rw [hc.placement, placementIn, if_pos hk]
  have hinstalls := leaveItem_installs job.plan c hk
  generalize leaveItem job.plan c v = m at hinstalls ⊢
  cases hinstalls with
  | idle h =>
    rcases h with h | h
    · simp only [h]
      exact .refl hb
    · cases hl : c.layout <;> simp only [h] <;> exact .refl hb
  | @install layout noun tag n hl hn hpayload hobject =>
    have hitem := item_of_payload hpayload
    let r := itemPlacement layout.className (job.name ⟨0 :: v.path, n⟩) v.node
    have s1 := adds_emitAll hb [.blank, .call layout.name (r.1 ++ noun) r.2, .blank]
    rw [bind_run, hj.nameAt hb (item_mem hv hitem) hobject]
    simp only [hl, hn, hitem]
    refine s1.congr ?_
    have hblank : [Stmt.blank].filterMap view.look = [] :=
      List.filterMap_cons_none (view.idle .blank rfl)
    change ([Stmt.blank] ++ [_] ++ [Stmt.blank]).filterMap view.look = _
    rw [List.filterMap_append, List.filterMap_append, hblank, List.nil_append, List.append_nil]

/-! ## The walk -/

theorem placement_other (hk : v.node.kind ≠ .layoutItem) : job.placement v = [] := by
  rw [placement, placementIn, if_neg hk]

theorem handover_other (hk : v.node.kind ≠ .widget) : job.handover v = [] := by
  rw [handover, handoverIn, if_neg hk]

theorem creation_other (hk : v.node.kind.isObject = false) : job.creation v = [] := by
  cases h : v.node.kind <;> simp only [h, Kind.isObject, Bool.true_eq_false] at hk <;>
    simp only [creation, creationIn, h]

theorem adds_enter (hj : job.Named) (hb : view.Sound b) (hc : job.Encloses c v.path)
    (hv : v ∈ job.form.visits) :
    let r := (walker job.plan).enter c v b
    view.Adds (job.creation v) b r.2 ∧ r.1.isSome = v.node.kind.holdsObjects ∧
      ∀ inner, r.1 = some inner → (∀ j, job.Encloses inner (j :: v.path)) ∧
        (v.node.kind = .widget → inner.widgetName = job.name v) := by
  have hn := (Node.mem_visits job.form.node v).mp hv
  have hother : v.node.kind.isObject = false → view.Adds (job.creation v) b b := by
    intro hobject
    rw [creation_other hobject]
    exact .refl hb
  cases hk : v.node.kind with
  | widget =>
    obtain ⟨s1, hwidget, hlayout, hgroup⟩ := adds_enterWidget hj hb hc hv hk
    simp only [walker, hk, map_run]
    refine ⟨s1, rfl, fun inner hinner => ?_⟩
    obtain rfl := Option.some.inj hinner
    refine ⟨fun j => hc.widget_below hn j hk hwidget hlayout hgroup, fun _ => ?_⟩
    rw [Context.widgetName, hwidget]
    rfl
  | layout =>
    obtain ⟨s1, hcontext⟩ := adds_enterLayout hj hb hc hv hk
    simp only [walker, hk, map_run, hcontext]
    refine ⟨s1, rfl, fun inner hinner => ?_⟩
    obtain rfl := Option.some.inj hinner
    exact ⟨fun j => hc.layout_below hn j hk, fun h => by cases h⟩
  | actionGroup =>
    obtain ⟨s1, hcontext⟩ := adds_enterActionGroup hj hb hc hv hk
    simp only [walker, hk, map_run, hcontext]
    refine ⟨s1, rfl, fun inner hinner => ?_⟩
    obtain rfl := Option.some.inj hinner
    exact ⟨fun j => hc.group_below hn j hk, fun h => by cases h⟩
  | layoutItem | ui =>
    simp only [walker, hk, pure_run]
    refine ⟨hother (by rw [hk]; rfl), rfl, fun inner hinner => ?_⟩
    obtain rfl := Option.some.inj hinner
    exact ⟨fun j => hc.pass hn j (by simp [hk]) (by simp [hk]) (by simp [hk]), fun h => by cases h⟩
  | spacer =>
    simp only [walker, hk, bind_run, pure_run]
    exact ⟨adds_writeSpacer hj hb hc hv hk, rfl, fun inner hinner => by cases hinner⟩
  | action =>
    simp only [walker, hk, bind_run, pure_run]
    exact ⟨adds_writeAction hj hb hc hv hk, rfl, fun inner hinner => by cases hinner⟩
  | actionRef =>
    simp only [walker, hk, bind_run, pure_run]
    refine ⟨?_, rfl, fun inner hinner => by cases hinner⟩
    rw [creation_other (by rw [hk]; rfl)]
    exact adds_placeAction hj hb hc hv
  | _ =>
    simp only [walker, hk, pure_run]
    exact ⟨hother (by rw [hk]; rfl), rfl, fun inner hinner => by cases hinner⟩

theorem adds_leave (hj : job.Named) (hb : view.Sound b) (hc : job.Encloses c v.path)
    (hv : v ∈ job.form.visits) (hinner : v.node.kind = .widget → inner.widgetName = job.name v) :
    view.Adds (job.completion v) b ((walker job.plan).leave c inner v b).2 := by
  rw [completion]
  cases hk : v.node.kind with
  | widget =>
    have s1 := adds_addToParent hj hb (hc.aside ((Node.mem_visits _ _).mp hv) hj) (job.name v)
      v.node
    rw [placement_other (by simp [hk]), List.nil_append, hc.handover, handoverIn, if_pos hk]
    simp only [walker, hk, leaveWidget, bind_run, hinner hk]
    exact s1.followed (adds_detail (detail_raiseChildren v.node) s1.sound).1
  | layoutItem =>
    rw [handover_other (by simp [hk]), List.append_nil]
    simp only [walker, hk]
    exact adds_leaveItem hj hb hc hv hk
  | layout =>
    rw [placement_other (by simp [hk]), handover_other (by simp [hk])]
    simp only [walker, hk]
    exact adds_idle hb (handles_tunes (tunes_leaveLayout _ _))
  | _ =>
    rw [placement_other (by simp [hk]), handover_other (by simp [hk])]
    simp only [walker, hk]
    exact .refl hb

/-- Wherever a node stands in the form, a walk assembles what is there. -/
def Assembled (view : job.View α) (n : Node) : Prop :=
  ∀ path c b, view.Sound b → job.Encloses c path → job.form.node.nodeAt? path = some n →
    view.Adds (job.assembly path n) b (n.walk (walker job.plan) c path b).2

theorem adds_fields (hb : view.Sound b) (hc : ∀ j, job.Encloses c (j :: path)) (fs : List Field)
    (hfs : ∀ f ∈ fs, ∀ m, f.node? = some m → Assembled view m) (i : Nat)
    (hplace : job.form.node.FieldsAt path i fs) :
    view.Adds (fieldsTour job.creation job.completion path i fs) b
      (walkFields (walker job.plan) c path i fs b).2 := by
  induction fs generalizing i b with
  | nil => exact .refl hb
  | cons f fs ih =>
    have hhere : view.Adds (Node.fieldTour job.creation job.completion (i :: path) f) b
        (Node.walkField (walker job.plan) c (i :: path) f b).2 := by
      cases f with
      | value tag s => exact .refl hb
      | node tag m =>
        exact hfs _ (List.mem_cons_self ..) m rfl (i :: path) c b hb (hc i) hplace.head
    exact hhere.trans (ih hhere.sound (fun g hg => hfs g (List.mem_cons_of_mem _ hg)) (i + 1)
      hplace.tail)

theorem assembly_eq (job : Job) (path : List Nat) (n : Node) :
    job.assembly path n = job.creation ⟨path, n⟩ ++
      fieldsTour job.creation job.completion path 0 n.fields ++ job.completion ⟨path, n⟩ :=
  Node.tour_eq job.creation job.completion ⟨path, n⟩

theorem completion_other (hk : v.node.kind.holdsObjects = false) : job.completion v = [] := by
  rw [completion, placement_other, handover_other]
  · rfl
  all_goals
    intro h
    rw [h] at hk
    cases hk

theorem assembly_leaf (hwell : Node.All Node.WellFormed n) (hk : n.kind.holdsObjects = false)
    (path : List Nat) : job.assembly path n = job.creation ⟨path, n⟩ := by
  have hbelow : fieldsTour job.creation job.completion path 0 n.fields = [] := by
    refine Node.fieldsTour_eq_nil _ _ fun v hv => ?_
    obtain ⟨hholds, hobject, -⟩ := (Node.forall_fieldsVisits Node.Barren n.fields path 0).mpr
      (Node.below_barren n hwell hk) v hv
    exact ⟨creation_other hobject, completion_other hholds⟩
  rw [assembly_eq, hbelow, completion_other hk, List.append_nil, List.append_nil]

/-- By induction over the tree: a node is entered, its fields are walked over, and it is left. -/
theorem assembled (hj : job.Named) (n : Node) (hwell : Node.All Node.WellFormed n) :
    Assembled view n := by
  induction n using Node.induction with
  | h n ih =>
    intro path c b hb hc hn
    have hfields : ∀ f ∈ n.fields, ∀ m, f.node? = some m → Assembled view m :=
      fun f hf m hm => ih f hf m hm (hwell.below f hf m hm)
    have hv : (⟨path, n⟩ : Visit) ∈ job.form.visits :=
      (Node.mem_visits job.form.node ⟨path, n⟩).mpr hn
    obtain ⟨s1, hholds, hinner⟩ := adds_enter (v := ⟨path, n⟩) hj hb hc hv
    cases henter : (walker job.plan).enter c ⟨path, n⟩ b with
    | mk entered b' =>
      rw [henter] at s1 hholds hinner
      cases entered with
      | none =>
        rw [Node.walk_outside henter, assembly_leaf hwell hholds.symm]
        exact s1
      | some inner =>
        obtain ⟨hbelow, hname⟩ := hinner inner rfl
        have s2 := s1.trans (adds_fields s1.sound hbelow n.fields hfields 0 (Node.fieldsAt_all hn))
        rw [walk_entered hwell henter, assembly_eq]
        exact s2.trans (adds_leave (v := ⟨path, n⟩) hj s2.sound hc hv hname)

theorem Named.sound_start (hj : job.Named) (view : job.View α) {s : Session}
    (hs : s.table = job.table) : view.Sound { session := s } :=
  ⟨hs ▸ hj.distinct, congrArg Table.entries hs, by simp [Builder.shared], by simp, by simp, by simp⟩

/-- What is seen of the setup of a form is its assembly, and then links. -/
theorem built_assembly (view : job.View α) (hj : job.Named)
    (hwell : Node.All Node.WellFormed job.form.node) {s : Session} (hs : s.table = job.table) :
    let b := built job.plan job.form s
    view.Sound b ∧ ∃ l, (∀ s ∈ l, view.look s = none ∨ job.Links s) ∧
      b.setup.filterMap view.look =
        (job.assembly [] job.form.node ++ l).filterMap view.look := by
  intro b
  have s1 := assembled hj job.form.node hwell [] {} { session := s } (hj.sound_start view hs)
    Encloses.top rfl
  obtain ⟨l, hl, s2⟩ := joins_link s1.sound job.form
  exact ⟨s2.sound, l, hl, (s1.trans s2).seen⟩

/-! ## The code that builds -/

/-- The statements that build, as they are. -/
def building (hj : job.Named) : job.View Stmt where
  look := Option.guard job.builds
  idle s h := by
    refine Option.guard_eq_none_iff.mpr ?_
    cases s with
    | call receiver method args =>
      rcases Bool.and_eq_false_iff.mp h with hreceiver | hargs
      · exact builds_receiver (hj.isLayout_of_other hreceiver) method args
      · rw [builds, hargs, Bool.and_false]
    | create | createLocal => exact h
    | _ => rfl
  blur receiver method args args' h _ := by
    rw [Option.guard, Option.guard, builds_receiver h, builds_receiver h]
    rfl

theorem creation_builds (hj : job.Named) (hv : v ∈ job.form.visits) :
    ∀ s ∈ job.creation v, job.builds s = true := by
  intro s hs
  cases hobject : v.node.kind.isObject with
  | false =>
    rw [creation_other hobject] at hs
    cases hs
  | true =>
    have hname := hj.isObject_name hv hobject
    simp only [creation, creationIn] at hs
    repeat' split at hs
    all_goals first
      | exact List.mem_singleton.mp hs ▸ hname
      | cases hs

theorem placement_builds (hj : job.Named) (hv : v ∈ job.form.visits) :
    ∀ s ∈ job.placement v, job.builds s = true := by
  intro s hs
  rw [placement, placementIn] at hs
  split at hs
  · split at hs
    · rename_i layout noun w hl hnoun hitem
      rw [List.mem_singleton.mp hs, builds,
        Encloses.holds ⟨rfl, rfl, rfl⟩ ((Node.mem_visits _ _).mp hv) layout hl, Bool.true_and,
        List.any_eq_true]
      obtain ⟨tag, n, hpayload, hobject, -⟩ := payload_of_noun hnoun
      rw [item_of_payload hpayload] at hitem
      obtain rfl := Option.some.inj hitem
      exact ⟨_, itemPlacement_ref _ _ _, hj.isObject_name
        (item_mem hv (item_of_payload hpayload)) hobject⟩
    · cases hs
  · cases hs

theorem handover_idle (hj : job.Named) (hv : v ∈ job.form.visits) :
    ∀ s ∈ job.handover v, job.builds s = false := by
  intro s hs
  rw [handover, handoverIn] at hs
  split at hs
  · obtain ⟨fr, hfr, hs⟩ := List.mem_flatMap.mp hs
    obtain ⟨method, first, rfl, -⟩ := handoverTo_passes s hs
    exact builds_receiver (Encloses.aside ⟨rfl, rfl, rfl⟩ ((Node.mem_visits _ _).mp hv) hj fr
      (Option.mem_toList.mp hfr)) method _
  · cases hs

/-- The code that builds the objects of a form is its outline. -/
theorem built_outline (hj : job.Named) (hwell : Node.All Node.WellFormed job.form.node)
    {s : Session} (hs : s.table = job.table) :
    let b := built job.plan job.form s
    b.setup.filter job.builds = job.outline [] job.form.node ∧ (building hj).Sound b := by
  intro b
  obtain ⟨hsound, l, hl, hseen⟩ := built_assembly (building hj) hj hwell hs
  have hlinks : l.filter job.builds = [] := by
    refine List.filter_eq_nil_iff.mpr fun s hs => ?_
    rcases hl s hs with hnone | ⟨receiver, method, e, rfl, -, hreceiver⟩
    · exact Bool.eq_false_iff.mp (Option.guard_eq_none_iff.mp hnone)
    · rw [builds_receiver hreceiver]
      exact Bool.false_ne_true
  have htour : (job.assembly [] job.form.node).filter job.builds =
      job.outline [] job.form.node := by
    rw [assembly, ← List.filterMap_eq_filter, Node.tour_filterMap, outline]
    refine Node.tour_congr _ _ _ _ fun v hv => ?_
    simp only [List.filterMap_eq_filter, completion, List.filter_append]
    refine ⟨List.filter_eq_self.mpr (creation_builds hj hv), ?_⟩
    rw [List.filter_eq_self.mpr (placement_builds hj hv), List.filter_eq_nil_iff.mpr fun s hs =>
      Bool.eq_false_iff.mp (handover_idle hj hv s hs), List.append_nil]
  refine ⟨?_, hsound⟩
  rw [← htour, ← List.append_nil (List.filter _ (assembly ..)), ← hlinks, ← List.filter_append]
  simpa only [building, List.filterMap_eq_filter] using hseen

end Job

end FormCompiler.Setup
