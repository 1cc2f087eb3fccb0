import FormCompiler.Proofs.Setup.Creations
import FormCompiler.Proofs.Setup.Rounds

/-!
# Fonts, icons and size policies have variables

The setup function declares one variable for each font, icon and size policy that the form asks for,
however often it does (`values_share_variables`).
-/

namespace FormCompiler.Setup

open Code Document Naming

/-- Some request is for a value. -/
def Wanted (rs : List Request) (v : Shared) : Prop := ∃ u, .shared u ∈ rs ∧ u.value = v

/-- Code that serves the requests for shared values, each under the variable that `var` gives. -/
structure Shares (plan : Plan) (rs : List Request) (l : List Stmt) (var : Shared → String) :
    Prop where
  used : ∀ u, .shared u ∈ rs → ∃ y, u.code (var u.value) y <:+: l
  /-- The code before the declaration does not mention the variable, the code behind it does not
  assign it. -/
  declared : ∀ v, Wanted rs v → ∃ themed before after,
    l = before ++ v.declaration plan themed (var v) ++ after ∧
      (∀ s ∈ before, var v ∉ s.names) ∧ var v ∉ assigned after
  alike : ∀ v v', Wanted rs v → Wanted rs v' → (var v = var v' ↔ v = v')
  /-- There are no other variables of these types. -/
  needed : ∀ s ∈ l, ∀ x, sharedName? s = some x → ∃ v, Wanted rs v ∧ var v = x
  /-- No code mentions the variable but its declaration and the requests for the value. -/
  kept : ∀ v, Wanted rs v → ∀ s ∈ l, var v ∈ s.names →
    (∃ themed, s ∈ v.declaration plan themed (var v)) ∨
      ∃ u y, .shared u ∈ rs ∧ u.value = v ∧ s ∈ u.code (var v) y

/-- Code that declares the variable for theme names if some icon needs it, and at the first such
icon. -/
structure Announces (plan : Plan) (rs : List Request) (l : List Stmt) (var : Shared → String) :
    Prop where
  needed : themeVariable ∈ locals l ↔ ∃ i : Icon, Wanted rs (.icon i) ∧ i.hasFallback = true
  first : themeVariable ∈ locals l → ∃ before i after,
    l = before ++ iconStmts plan false (var (.icon i)) i ++ after ∧
      Wanted rs (.icon i) ∧ i.hasFallback = true ∧ (∀ s ∈ before, s.isTheme = false) ∧
      ∀ s ∈ after, ∀ type init, s ≠ .declare type themeVariable init

variable {plan : Plan} {rs : List Request} {b : Builder} {v : Shared} {x : String}

/-- The variable of a value. -/
def Builder.variableOf (b : Builder) (v : Shared) : String := (b.variables.lookup v).getD ""

theorem Tidy.variableOf_eq (h : Tidy plan rs b) (hx : (v, x) ∈ b.variables) :
    b.variableOf v = x := by
  cases hlookup : b.variables.lookup v with
  | none => exact absurd hx (Shared.not_mem_of_lookup_none hlookup x)
  | some y =>
    have hy := Shared.mem_of_lookup_some hlookup
    rw [Builder.variableOf, hlookup]
    exact (h.cached.alike _ hy _ hx).mp rfl

section Served

variable (h : Tidy plan rs b) (hs : ∀ r ∈ rs, Served plan rs b r)

include h hs

theorem mem_variables (hv : Wanted rs v) : (v, b.variableOf v) ∈ b.variables := by
  obtain ⟨u, hu, rfl⟩ := hv
  obtain ⟨x, y, hx, -⟩ := hs _ hu
  rwa [h.variableOf_eq hx]

theorem tidy_shares : Shares plan rs b.setup b.variableOf where
  used u hu := by
    obtain ⟨x, y, hx, hcode⟩ := hs _ hu
    rw [h.variableOf_eq hx]
    exact ⟨y, hcode⟩
  declared v hv := (h.held (mem_variables h hs hv)).declared
  alike v v' hv hv' :=
    (h.cached.alike _ (mem_variables h hs hv) _ (mem_variables h hs hv')).symm
  needed s hs x hx := by
    obtain ⟨v, hv⟩ := h.cached.typed s hs x hx
    exact ⟨v, (h.held hv).requested, h.variableOf_eq hv⟩
  kept v hv s hs := (h.held (mem_variables h ‹_› hv)).accounted s hs

theorem tidy_announces : Announces plan rs b.setup b.variableOf := by
  have hfirst : b.themeDeclared = true → ∃ before i after,
      b.setup = before ++ iconStmts plan false (b.variableOf (.icon i)) i ++ after ∧
        Wanted rs (.icon i) ∧ i.hasFallback = true ∧ (∀ s ∈ before, s.isTheme = false) ∧
        ∀ s ∈ after, ∀ type init, s ≠ .declare type themeVariable init := by
    intro hthemed
    obtain ⟨before, x, i, after, hsetup, hvar, hi, hbefore, hafter⟩ := h.themed.declared hthemed
    refine ⟨before, i, after, ?_, (h.held hvar).requested, hi, hbefore, hafter⟩
    rwa [h.variableOf_eq hvar]
  have hdeclared : themeVariable ∈ locals b.setup → b.themeDeclared = true := by
    intro hlocal
    by_cases hthemed : b.themeDeclared = false
    · exact absurd hlocal (h.themed.absent hthemed).1
    · simpa using hthemed
  refine ⟨⟨fun hlocal => ?_, ?_⟩, fun hlocal => hfirst (hdeclared hlocal)⟩
  · obtain ⟨-, i, -, -, hwanted, hi, -⟩ := hfirst (hdeclared hlocal)
    exact ⟨i, hwanted, hi⟩
  · rintro ⟨i, hwanted, hi⟩
    obtain ⟨before, i', after, hsetup, -, hi', -⟩ :=
      hfirst (h.themed.needed _ (mem_variables h hs hwanted) hi)
    have hlocals : locals (iconStmts plan false (b.variableOf (.icon i')) i') = _ :=
      (Shared.icon i').declaration_locals plan false (b.variableOf (.icon i'))
    rw [hsetup, locals_append, locals_append, hlocals, Shared.hasFallback, hi']
    simp

end Served

/-! ## The setup function of a form -/

section Declaration

variable (o : Options) (document : Nat) {f : Form} {root : Visit} {s : Session}
  (hk : f.node.kind = .ui) (hw : Node.All Node.WellFormed f.node)
  (hroot : f.rootVisit? = some root) (hd : s.table.Distinct)

include hk hw hroot hd

theorem mainForm_object :
    (jobOf o document f root s).plan.mainForm ∈ (jobOf o document f root s).objects [] :=
  (jobOf_named o document hk hw hroot hd).object (root_mem hk hw hroot)
    (by rw [root_kind hk hw hroot]; rfl)

/-- The names that stand in the class, and that of the parameter of its functions, are names of
objects. -/
theorem declared_names {known : List String} {rs : List Request} {b : Builder}
    (h : (jobOf o document f root s).Stage known rs b) :
    let d := ((Header.declaration o document f root).run s).1
    ∀ x ∈ d.functions.form :: d.members.map Header.Member.name, x ∈ b.session.table.names := by
  intro d
  let job := jobOf o document f root s
  have hj : job.Named := jobOf_named o document hk hw hroot hd
  obtain ⟨object, ho, -⟩ := Job.object_of_widget (root_kind hk hw hroot)
  obtain ⟨hnamed, -⟩ := Header.naming_spec document f root object s ho hd
  have hform : d.functions.form = job.plan.mainForm :=
    congrArg Functions.form (declared_functions o document hk hw hroot hd).1
  have hmembers : d.members = _ := declared_members o document hk hw hroot hd
  rw [List.forall_mem_cons, hform, hmembers, List.map_append, List.map_map, List.map_map]
  refine ⟨h.object (List.mem_append_right _ ?_), List.forall_mem_append.mpr ⟨?_, ?_⟩⟩
  · exact mainForm_object o document hk hw hroot hd
  · intro x hx
    obtain ⟨v, hv, rfl⟩ := List.mem_map.mp hx
    obtain ⟨hv, hobject⟩ := List.mem_filter.mp hv
    rw [Bool.and_eq_true] at hobject
    exact h.object (hj.object hv hobject.1)
  · intro x hx
    obtain ⟨a, ha, rfl⟩ := List.mem_map.mp hx
    obtain ⟨g, hg⟩ := hnamed.groups a (List.mem_eraseDups.mp ha)
    have hname : Header.groupNameIn (Header.namedTable document f root s) a = g.name :=
      Header.groupNameIn_of_group hg
    exact List.mem_append_right _ (List.mem_map.mpr
      ⟨g, (Table.group_mem (h.groups a g hg)).1, hname.symm⟩)

end Declaration

/-- The setup function of a form has a variable for each font, icon and size policy that the form
asks for in a property, an item, a page or a texture.  Two requests have the same variable exactly
if their values are equal.  It is declared once, where it is first mentioned.  The variables of all
values, those of brushes, gradients and palettes among them, differ from each other, and from the
members of the class and the parameter of the function.  The variable for theme names is declared
once, if at all: at the first icon that has both a theme and files.  The header has a line for each
declaration. -/
theorem values_share_variables (o : Options) (document : Nat) (f : Form) (root : Visit)
    (s : Session) (hk : f.node.kind = .ui) (hw : Node.All Node.WellFormed f.node)
    (hroot : f.rootVisit? = some root) (hd : s.table.Distinct) :
    let d := ((Header.declaration o document f root).run s).1
    let job := jobOf o document f root s
    d.InHeader o document f s ∧ ∃ var : Shared → String,
      Shares job.plan job.requests d.functions.setup var ∧
        Announces job.plan job.requests d.functions.setup var ∧
        (∀ t ∈ d.functions.setup, ∀ x, t.declares? = some x → x ∈ locals d.functions.setup) ∧
        (locals d.functions.setup).Nodup ∧
        ∀ x ∈ locals d.functions.setup, x = themeVariable ∨
          x ∉ d.functions.form :: d.members.map Header.Member.name := by
  intro d job
  obtain ⟨hsetup, -⟩ := declaration_built o document hk hw hroot hd
  obtain ⟨known, h⟩ := Job.built_stage (jobOf_named o document hk hw hroot hd)
    (mainForm_object o document hk hw hroot hd) hw (s := (Header.naming document f root s).2) rfl
  have hnames := declared_names o document hk hw hroot hd h
  refine ⟨Header.declaration_inHeader o document s hroot, ?_⟩
  rw [show d.functions.setup = _ from hsetup]
  refine ⟨_, tidy_shares h.tidy h.served, tidy_announces h.tidy h.served,
    h.tidy.names.declared, h.tidy.names.nodup, fun x hx => ?_⟩
  exact (h.tidy.names.outside x hx).imp_right fun hout hmem => hout (hnames x hmem)

/-- A form that asks twice for a font, a size policy and each of two icons, where objects have the
names that the variables would get. -/
def decorated : Form :=
  let font : Field := .node "property" (.mk .property [("name", .string "font")]
    [.node "font" (.mk .font [] [.value "family" (.string "Sans")] "")] "")
  let policy : Field := .node "property" (.mk .property [("name", .string "sizePolicy")]
    [.node "sizepolicy" (.mk .sizePolicy
      [("hsizetype", .string "Fixed"), ("vsizetype", .string "Fixed")] [] "")] "")
  let icon (tag theme : String) : Field := .node tag (.mk .property [("name", .string "icon")]
    [.node "iconset" (.mk .resourceIcon [("theme", .string theme)]
      [.node "normaloff" (.mk .resourcePixmap [] [] "a.png")] "")] "")
  let item (theme : String) : Field := .node "item" (.mk .item [] [icon "property" theme] "")
  ⟨.mk .ui []
    [.node "widget" (.mk .widget [("class", .string "QDialog"), ("name", .string "icon")]
      [font, policy,
        .node "widget" (.mk .widget [("class", .string "QLabel"), ("name", .string "font")]
          [policy, font] ""),
        .node "widget" (.mk .widget [("class", .string "QComboBox"), ("name", .string "choice")]
          [item "edit", item "save", item "edit"] ""),
        .node "widget" (.mk .widget [("class", .string "QTabWidget"), ("name", .string "tabs")]
          [.node "widget" (.mk .widget [("class", .string "QWidget"), ("name", .string "page")]
            [icon "attribute" "save"] "")] "")] "")] ""⟩

theorem values_share_variables_decorated :
    ∃ root, decorated.rootVisit? = some root ∧ Node.All Node.WellFormed decorated.node ∧
      let d := ((Header.declaration {} 0 decorated root).run {}).1
      let job := jobOf {} 0 decorated root {}
      job.requests.length = 8 ∧
        locals d.functions.setup = ["font1", "sizePolicy", "icon1", themeVariable, "icon2"] ∧
        d.InHeader {} 0 decorated {} ∧ ∃ var : Shared → String,
          Shares job.plan job.requests d.functions.setup var ∧
            Announces job.plan job.requests d.functions.setup var ∧
            (∀ t ∈ d.functions.setup, ∀ x, t.declares? = some x → x ∈ locals d.functions.setup) ∧
            (locals d.functions.setup).Nodup ∧
            ∀ x ∈ locals d.functions.setup, x = themeVariable ∨
              x ∉ d.functions.form :: d.members.map Header.Member.name := by
  have hw : Node.All Node.WellFormed decorated.node := by decide +kernel
  refine ⟨_, rfl, hw, ?_, ?_,
    values_share_variables {} 0 decorated _ {} rfl hw rfl Table.distinct_empty⟩
  · decide +kernel
  · decide +kernel

end FormCompiler.Setup
