import FormCompiler.Proofs.Setup.Sharing

/-!
# Brushes and palettes

A brush is declared for each use unless it is solid; then brushes share a variable if the colors
have the same bytes.  `Served` says what there is in the code once a request has been dealt with.
-/

namespace FormCompiler.Setup

open Code Naming

/-- The variable `x` has been declared as a brush, or as another solid one whose color has the same
bytes. -/
def Depicts (plan : Plan) (rs : List Request) (c : Brush) (x : String) (after : List Stmt)
    (b : Builder) : Prop :=
  ∃ c' : Brush, Drawn plan rs c' x after b ∧ (c' = c ∨ c.isSolid = true ∧ c'.isSolid = true ∧
    colorKey c'.paintedColor = colorKey c.paintedColor)

/-- The code of a request is there, with the variable of its value. -/
def Served (plan : Plan) (rs : List Request) (b : Builder) : Request → Prop
  | .shared u => ∃ x y, (u.value, x) ∈ b.variables ∧ u.code x y <:+: b.setup
  | .brush u => ∃ x y after, Depicts plan rs u.value x after b ∧ u.code x y <:+: after

variable {plan : Plan} {rs rs' : List Request} {b b' : Builder} {v : Shared} {c : Brush}
  {x y : String} {l : List Stmt} {r : Request}

theorem Later.infix_mem (h : Later b b') (hl : l <:+: b.setup) : l <:+: b'.setup := by
  obtain ⟨k, hk, -⟩ := h.setup
  rw [hk]
  exact hl.trans (List.prefix_append _ _).isInfix

theorem Depicts.after (h : Depicts plan rs c x l b) (hlater : Later b b') :
    ∃ l', b'.setup = b.setup ++ l' ∧ Depicts plan rs c x (l ++ l') b' := by
  obtain ⟨c', hdrawn, hsame⟩ := h
  obtain ⟨l', hl, hdrawn'⟩ := hdrawn.after hlater
  exact ⟨l', hl, c', hdrawn', hsame⟩

theorem Depicts.used {u : Use Brush} (h : Depicts plan rs u.value x l b)
    (hlater : Later b (emitAll (u.code x y) b).2) :
    Served plan rs (emitAll (u.code x y) b).2 (.brush u) := by
  obtain ⟨l', hl, h'⟩ := h.after hlater
  rw [show l' = u.code x y from (List.append_cancel_left hl).symm] at h'
  exact ⟨x, y, _, h', (List.suffix_append _ _).isInfix⟩

theorem Served.after (h : Served plan rs b r) (hlater : Later b b') : Served plan rs b' r := by
  cases r with
  | shared u =>
    obtain ⟨x, y, hvar, hcode⟩ := h
    exact ⟨x, y, hlater.vars _ hvar, hlater.infix_mem hcode⟩
  | brush u =>
    obtain ⟨x, y, after, hbrush, hcode⟩ := h
    obtain ⟨l, -, hbrush'⟩ := hbrush.after hlater
    exact ⟨x, y, _, hbrush', hcode.trans (List.prefix_append _ _).isInfix⟩

theorem Served.mono (h : Served plan rs b r) (hrs : rs ⊆ rs') : Served plan rs' b r := by
  cases r with
  | shared u => exact h
  | brush u =>
    obtain ⟨x, y, after, ⟨c', hdrawn, hsame⟩, hcode⟩ := h
    exact ⟨x, y, after, ⟨c', hdrawn.mono hrs, hsame⟩, hcode⟩

/-- A piece of the setup that deals with some requests. -/
structure Serves (plan : Plan) (rs : List Request) (q : List Request) (b b' : Builder) : Prop
    extends Evolves plan rs b b' where
  served : ∀ r ∈ q, Served plan rs b' r

namespace Serves

variable {q q' : List Request} {b'' : Builder}

theorem nil (h : Evolves plan rs b b') : Serves plan rs [] b b' := ⟨h, by simp⟩

theorem trans (h : Serves plan rs q b b') (h' : Serves plan rs q' b' b'') :
    Serves plan rs (q ++ q') b b'' := by
  refine ⟨h.toEvolves.trans h'.toEvolves, List.forall_mem_append.mpr ⟨fun r hr => ?_, h'.served⟩⟩
  exact (h.served r hr).after h'.later

theorem followed (h : Serves plan rs q b b') (h' : Evolves plan rs b' b'') :
    Serves plan rs q b b'' :=
  ⟨h.toEvolves.trans h', fun r hr => (h.served r hr).after h'.later⟩

end Serves

theorem Evolves.andThen {q : List Request} {b'' : Builder} (h : Evolves plan rs b b')
    (h' : Serves plan rs q b' b'') : Serves plan rs q b b'' :=
  ⟨h.trans h'.toEvolves, h'.served⟩

/-! ## Pictures -/

theorem tidy_aside (hb : Tidy plan rs b) (hsetup : b'.setup = b.setup)
    (htable : b'.session.table = b.session.table) (hvars : b'.variables = b.variables)
    (htheme : b'.themeDeclared = b.themeDeclared)
    (hbrushes : ∀ e ∈ b'.brushes, e ∈ b.brushes ∨ b.Unshared e.2 ∧
      ∃ (c : Brush) (after : List Stmt), c.isSolid = true ∧ colorKey c.paintedColor = e.1 ∧
        Drawn plan rs c e.2 after b) :
    Tidy plan rs b' ∧ Later b b' := by
  have hlater : Later b b' := by
    refine ⟨⟨[], by rw [hsetup, List.append_nil], .nil _⟩, htable ▸ fun _ h => h,
      hvars ▸ fun _ h => h⟩
  refine ⟨⟨?_, ?_, ?_, fun e he => ?_⟩, hlater⟩
  · rw [hsetup, htable]
    exact hb.names
  · rw [hsetup, hvars]
    exact hb.cached
  · rw [hsetup, hvars, htheme]
    exact hb.themed
  · rcases hbrushes e he with he | ⟨hother, c, after, hsolid, hkey, hdrawn⟩
    · exact hb.inked_after hlater (hvars ▸ fun _ => .inl) he
    · obtain ⟨l, -, hdrawn'⟩ := hdrawn.after hlater
      exact ⟨hvars ▸ hother.2, c, _, hsolid, hkey, hdrawn'⟩

theorem evolves_same (hb : Tidy plan rs b) (hsetup : b'.setup = b.setup)
    (htable : b'.session.table = b.session.table) (hvars : b'.variables = b.variables)
    (hbrushes : b'.brushes = b.brushes) (htheme : b'.themeDeclared = b.themeDeclared)
    (hleaves : Leaves b b') : Evolves plan rs b b' := by
  obtain ⟨htidy, hlater⟩ := tidy_aside hb hsetup htable hvars htheme
    fun e he => .inl (hbrushes ▸ he)
  exact ⟨htidy, hlater, hleaves, fun e he => .inl (hvars ▸ he)⟩

theorem evolves_note (hb : Tidy plan rs b) (topic : Topic) :
    Evolves plan rs b (note plan topic b).2 :=
  evolves_same hb rfl rfl rfl rfl rfl { Leaves.refl b with }

theorem evolves_iconExpr (hb : Tidy plan rs b) (property : String) (p : Picture)
    (code : Expr → String → List Stmt) (hrs : ∀ r ∈ pictureRequests code p, r ∈ rs) :
    let r := iconExpr plan property p b
    Evolves plan rs b r.2 ∧ (∀ x, b.Pending x → r.2.Pending x) ∧
      (pictureRequests code p = [] ∧ r.1.uses = [] ∨
        ∃ i y, p = .icon i ∧ r.1 = .ref y ∧ (.icon i, y) ∈ r.2.variables) := by
  intro r
  cases p with
  | icon i =>
    obtain ⟨s1, hvar, hpending⟩ := evolves_nameIn (v := .icon i) hb
      ⟨_, hrs _ (List.mem_singleton.mpr rfl), rfl⟩
    exact ⟨s1, hpending, .inr ⟨i, _, rfl, rfl, hvar⟩⟩
  | pixmap q =>
    exact ⟨.refl hb, fun _ h => h, .inl ⟨rfl, Job.pictureExpr_uses plan "QPixmap" q.text⟩⟩
  | none =>
    have s1 := evolves_note (b := b) hb (.unknownIconFormat property)
    refine ⟨s1, fun x hx => ?_, .inl ⟨rfl, rfl⟩⟩
    exact hx.after s1 (List.append_nil _).symm (by simp)

/-! ## Brushes -/

theorem evolves_declare (hb : Tidy plan rs b) (hx : b.Pending x) (type : String) (init : Init)
    (htype : type ∉ gradientTypes ∧ type ∉ sharedTypes)
    (huses : ∀ z ∈ init.uses, b.Unshared z ∨ ∃ u y, .shared u ∈ rs ∧ (u.value, z) ∈ b.variables ∧
      .declare type x init ∈ u.code z y) :
    Evolves plan rs b (emit (.declare type x init) b).2 := by
  have hbrings : (Stmt.declare type x init).brings? = some x :=
    if_neg fun h => htype.1 (List.contains_iff_mem.mp h)
  have hfits : Fits rs b [x] [.declare type x init] := by
    refine ⟨fun s hs z hz => ?_, ?_, by simp [Stmt.declares?], by simpa using hx, by simp,
      by simp [Stmt.assigns], by simp [modified, Stmt.modifies?],
      by simpa [sharedName?] using htype.2, by simpa [Stmt.isTheme] using hx.ne_theme⟩
    · rw [List.mem_singleton.mp hs] at hz ⊢
      rcases List.mem_append.mp hz with hz | hz
      · rw [List.mem_singleton.mp hz]
        exact .inl (hx.unshared hb)
      · exact huses z hz
    · rw [locals, List.filterMap_cons_some hbrings]
      rfl
  exact evolves_emit hb hfits

theorem evolves_color (hb : Tidy plan rs b) (hx : b.Pending x) (color : Color) (style : String) :
    Evolves plan rs b (emitAll [.declare "QBrush" x (.args [colorExpr color]),
      .modify x "setStyle" [.code style]] b).2 := by
  have hnamed : ∀ z ∈ [x], b.Unshared z := List.forall_mem_singleton.mpr (hx.unshared hb)
  have hdeclared : ∀ z, some x = some z → z ∈ [x] := by simp
  have hfits : Fits rs b [x] [.declare "QBrush" x (.args [colorExpr color]),
      .modify x "setStyle" [.code style]] :=
    { named := List.forall_mem_cons.mpr ⟨fun z hz => .inl (hnamed z hz),
        List.forall_mem_singleton.mpr fun z hz => .inl (hnamed z hz)⟩
      brings := rfl
      declared := List.forall_mem_cons.mpr ⟨hdeclared, List.forall_mem_singleton.mpr nofun⟩
      pending := List.forall_mem_singleton.mpr hx
      nodup := by simp
      assigns := fun z hz => .inr hz
      modifies := List.forall_mem_singleton.mpr (.inr hx.not_painted)
      unshared := List.forall_mem_cons.mpr ⟨rfl, List.forall_mem_singleton.mpr rfl⟩
      themeless := List.forall_mem_cons.mpr
        ⟨beq_eq_false_iff_ne.mpr hx.ne_theme, List.forall_mem_singleton.mpr rfl⟩ }
  exact evolves_emit hb hfits

theorem base_ne_theme_of : ∀ base ∈ ["gradient", "brush", "palette"],
    Table.baseName base "" ≠ themeVariable := by
  decide +kernel

theorem evolves_gradient (hb : Tidy plan rs b) (g : Gradient) :
    let name := (freshName "gradient" b).1
    let b' := (emitAll (gradientStmts name g) (freshName "gradient" b).2).2
    Evolves plan rs b b' ∧ b'.Unshared name ∧ ∀ x, b.Pending x → b'.Pending x := by
  intro name b'
  obtain ⟨s1, hname⟩ := evolves_freshName hb "gradient" (base_ne_theme_of _ (by simp))
  have hunshared := hname.unshared s1.tidy
  have hfits : Fits rs (freshName "gradient" b).2 [name] (gradientStmts name g) :=
    { named := fun s hs z hz => .inl (gradientStmts_names hs hz ▸ hunshared)
      brings := gradientStmts_locals name g
      declared := fun s hs z hz => List.mem_singleton.mpr (gradientStmts_declares hs hz)
      pending := by simpa using hname
      nodup := by simp
      assigns := fun z hz => by
        obtain ⟨s, hs, hz⟩ := names_of_assigned hz
        exact .inr (List.mem_singleton.mpr (gradientStmts_names hs hz))
      modifies := fun z hz => by
        obtain ⟨s, hs, hz⟩ := names_of_modified hz
        rw [gradientStmts_names hs hz]
        exact .inr hname.not_painted
      unshared := fun s hs => gradientStmts_shares hs
      themeless := fun s hs => gradientStmts_themeless hname.ne_theme hs }
  have s2 := evolves_emit s1.tidy hfits
  refine ⟨s1.trans s2, s2.unshared hunshared, fun x hx => ?_⟩
  refine hx.after (s1.trans s2) rfl fun s hs hmem => ?_
  rw [gradientStmts_names hs hmem] at hx
  exact Table.unique_fresh b.session.table "gradient" "" hx.taken

theorem textureRequests_other (hc : c.styleName ≠ "TexturePattern") : textureRequests c = [] :=
  if_neg hc

theorem textureRequests_of_gradient (hc : c.UsesGradient) : textureRequests c = [] := by
  refine textureRequests_other fun h => ?_
  rcases hc with hc | hc | hc <;> rw [hc] at h <;> exact absurd h (by decide)

theorem serves_texture (hb : Tidy plan rs b) (hx : b.Pending x)
    (htexture : c.styleName = "TexturePattern") (hrs : ∀ r ∈ textureRequests c, r ∈ rs) :
    let r := Job.paintedTexture plan c b
    Serves plan rs (textureRequests c) b
      (emit (.declare "QBrush" x (.value (.wrap "QBrush" r.1))) r.2).2 := by
  have hnone : ∀ e, e.uses = [] → ∀ b', Evolves plan rs b b' → b'.Pending x →
      Evolves plan rs b (emit (.declare "QBrush" x (.value (.wrap "QBrush" e))) b').2 := by
    intro e he b' s1 hx'
    refine s1.trans (evolves_declare s1.tidy hx' _ _ (by decide) fun z hz => ?_)
    rw [show (Init.value (.wrap "QBrush" e)).uses = [] from he] at hz
    cases hz
  cases hfill : c.fill with
  | texture property p =>
    have hrequests : textureRequests c = pictureRequests textureCode p := by
      rw [textureRequests, if_pos htexture, hfill]
    have hrun : Job.paintedTexture plan c b = iconExpr plan property p b := by
      rw [Job.paintedTexture, hfill]
    rw [hrequests] at hrs ⊢
    rw [hrun]
    obtain ⟨s1, hpending, hcases⟩ := evolves_iconExpr hb property p textureCode hrs
    rcases hcases with ⟨hempty, huses⟩ | ⟨i, y, rfl, hexpr, hvar⟩
    · rw [hempty]
      exact .nil (hnone _ huses _ s1 (hpending x hx))
    · have hmem : Request.shared ⟨.icon i, fun x y => textureCode (.ref x) y⟩ ∈ rs :=
        hrs _ (List.mem_singleton.mpr rfl)
      have s2 := evolves_declare s1.tidy (hpending x hx) "QBrush"
        (.value (.wrap "QBrush" (.ref y))) (by decide) fun z hz => .inr ⟨_, x, hmem, ?_, ?_⟩
      · dsimp only
        rw [hexpr]
        refine ⟨s1.trans s2, fun r hr => ?_⟩
        rw [List.mem_singleton.mp hr]
        exact ⟨y, x, s2.later.vars _ hvar, (List.suffix_append _ _).isInfix⟩
      · rw [List.mem_singleton.mp hz]
        exact hvar
      · rw [List.mem_singleton.mp hz]
        exact List.mem_singleton.mpr rfl
  | none | color | gradient =>
    have hrequests : textureRequests c = [] := by rw [textureRequests, if_pos htexture, hfill]
    have hrun : Job.paintedTexture plan c b = (.code "QIcon()", b) := by
      rw [Job.paintedTexture, hfill]
      rfl
    rw [hrequests, hrun]
    exact .nil (hnone _ rfl _ (.refl hb) hx)

theorem serves_writeBrush (hb : Tidy plan rs b) (hx : b.Pending x)
    (hrs : ∀ r ∈ textureRequests c, r ∈ rs) :
    let b' := (writeBrush plan c x b).2
    Serves plan rs (textureRequests c) b b' ∧ x ∈ painted b'.setup := by
  intro b'
  have hpainted : ∀ init b rest,
      x ∈ painted (emitAll (.declare "QBrush" x init :: rest) b).2.setup := fun init b rest =>
    List.mem_filterMap.mpr ⟨_, List.mem_append_right _ (List.mem_cons_self ..), rfl⟩
  by_cases hgradient : c.UsesGradient
  · obtain ⟨s1, hname, hpending⟩ := evolves_gradient hb (Job.paintedGradient c)
    have s2 := evolves_declare s1.tidy (hpending x hx) "QBrush"
      (.args [.ref (freshName "gradient" b).1]) (by decide) fun z hz =>
        .inl (List.mem_singleton.mp hz ▸ hname)
    have hrun : b' = _ := congrArg Prod.snd (Job.writeBrush_gradient plan hgradient x)
    rw [hrun, textureRequests_of_gradient hgradient]
    exact ⟨.nil (s1.trans s2), hpainted _ _ _⟩
  · by_cases htexture : c.styleName = "TexturePattern"
    · have hrun : b' = _ := congrArg Prod.snd (Job.writeBrush_texture plan hgradient htexture x)
      rw [hrun]
      exact ⟨serves_texture hb hx htexture hrs, hpainted _ _ _⟩
    · obtain ⟨color, hcolor⟩ := Job.writeBrush_color (b := b) plan hgradient htexture x
      have hrun : b' = (emitAll [.declare "QBrush" x (.args [colorExpr color]),
          .modify x "setStyle" [.code ("Qt::" ++ c.styleName)]] b).2 :=
        (congrArg Prod.snd hcolor).trans (Job.emitAll_emitAll ..)
      rw [hrun, textureRequests_other htexture]
      exact ⟨.nil (evolves_color hb hx color _), hpainted _ _ _⟩

theorem brushCode_spec (h : Later b (writeBrush plan c x b).2) :
    (writeBrush plan c x b).2.setup = b.setup ++ brushCode plan c x b := by
  obtain ⟨l, hl, -⟩ := h.setup
  rw [brushCode, hl, List.drop_left]

theorem drawn_writeBrush (hx : b.Pending x) (hc : ∃ u, .brush u ∈ rs ∧ u.value = c)
    (hlater : Later b (writeBrush plan c x b).2)
    (hpainted : x ∈ painted (writeBrush plan c x b).2.setup) :
    Drawn plan rs c x [] (writeBrush plan c x b).2 :=
  ⟨hx.ne_theme, hpainted, hc, b, hlater, by rw [brushCode_spec hlater, List.append_nil],
    hx.unused, by simp [assigned], by simp [modified]⟩

/-- A solid brush is kept by the bytes of the color that it is painted with. -/
theorem key_of_solid (hc : c.isSolid = true) :
    (Job.brushKey? c).getD 0 = colorKey c.paintedColor := by
  have hblack : colorKey Color.black = 0 := by decide +kernel
  unfold Job.brushKey? Brush.paintedColor
  cases c.fill with
  | color color => simp [hc]
  | none | texture | gradient => exact hblack.symm

theorem key_of_some {key : Nat} (h : Job.brushKey? c = some key) :
    colorKey c.paintedColor = key := by
  have hkey := key_of_solid (Job.solid_of_key h)
  rw [h] at hkey
  exact hkey.symm

theorem evolves_ink (hb : Tidy plan rs b) (hsolid : c.isSolid = true)
    (hdrawn : Drawn plan rs c x l b) (hx : b.Unshared x) {key : Nat}
    (hkey : colorKey c.paintedColor = key) :
    Evolves plan rs b { b with brushes := (key, x) :: b.brushes } := by
  have haside : Tidy plan rs { b with brushes := (key, x) :: b.brushes } ∧
      Later b { b with brushes := (key, x) :: b.brushes } := by
    refine tidy_aside hb rfl rfl rfl rfl fun e he => ?_
    rcases List.mem_cons.mp he with rfl | he
    · exact .inr ⟨hx, c, l, hsolid, hkey, hdrawn⟩
    · exact .inl he
  exact ⟨haside.1, haside.2, { Leaves.refl b with }, fun _ => .inl⟩

theorem serves_brushName (hb : Tidy plan rs b) (hc : ∃ u, .brush u ∈ rs ∧ u.value = c)
    (hrs : ∀ r ∈ textureRequests c, r ∈ rs) :
    let r := brushName plan c b
    Serves plan rs (textureRequests c) b r.2 ∧ r.2.Unshared r.1 ∧
      ∃ after, Depicts plan rs c r.1 after r.2 := by
  intro r
  have hrun : r = _ := Job.brushName_run plan c
  cases hfound : (Job.brushKey? c).bind (b.brushes.lookup ·) with
  | some name =>
    obtain ⟨key, hkey, hlookup⟩ := Option.bind_eq_some_iff.mp hfound
    obtain ⟨hnew, c', after, hsolid, hsame, hdrawn⟩ :=
      hb.inked _ (Shared.mem_of_lookup_some hlookup)
    have hstyle : c.styleName ≠ "TexturePattern" := by
      rw [beq_iff_eq.mp (Job.solid_of_key hkey)]
      decide
    rw [hrun, hfound, textureRequests_other hstyle]
    refine ⟨.nil (.refl hb), ⟨hb.names.taken (locals_of_painted hdrawn.mem) hdrawn.ne_theme, hnew⟩,
      after, c', hdrawn, .inr ⟨Job.solid_of_key hkey, hsolid, ?_⟩⟩
    rw [hsame, key_of_some hkey]
  | none =>
    obtain ⟨s1, hname⟩ := evolves_freshName hb "brush" (base_ne_theme_of _ (by simp))
    obtain ⟨s2, hpainted⟩ := serves_writeBrush s1.tidy hname hrs
    have hdrawn := drawn_writeBrush hname hc s2.later hpainted
    have hunshared := s2.unshared (hname.unshared s1.tidy)
    have hdeclare : r = ((freshName "brush" b).1, if c.isSolid = true then
        { (writeBrush plan c (freshName "brush" b).1 (freshName "brush" b).2).2 with
          brushes := ((Job.brushKey? c).getD 0, (freshName "brush" b).1) ::
            (writeBrush plan c (freshName "brush" b).1 (freshName "brush" b).2).2.brushes }
        else (writeBrush plan c (freshName "brush" b).1 (freshName "brush" b).2).2) := by
      rw [hrun, hfound, Option.elim_none]
      simp only [Job.declareBrush, bind_run, ite_run, modify_run]
      cases c.isSolid <;> rfl
    rw [hdeclare]
    by_cases hsolid : c.isSolid = true
    · rw [if_pos hsolid]
      have s3 := evolves_ink s2.tidy hsolid hdrawn hunshared (key_of_solid hsolid).symm
      obtain ⟨l, -, hdrawn'⟩ := hdrawn.after s3.later
      exact ⟨s1.andThen (s2.followed s3), s3.unshared hunshared, _, c, hdrawn', .inl rfl⟩
    · rw [if_neg hsolid]
      exact ⟨s1.andThen s2, hunshared, _, c, hdrawn, .inl rfl⟩

/-! ## Palettes -/

/-- A name that is declared as a palette. -/
structure Builder.Mixed (b : Builder) (x : String) : Prop where
  unshared : b.Unshared x
  declared : .declare "QPalette" x .default ∈ b.setup

theorem Evolves.mixed (h : Evolves plan rs b b') (hx : b.Mixed x) : b'.Mixed x := by
  obtain ⟨l, hl, -⟩ := h.later.setup
  refine ⟨h.unshared hx.unshared, ?_⟩
  rw [hl]
  exact List.mem_append_left _ hx.declared

theorem evolves_fill (hb : Tidy plan rs b) (hx : b.Mixed x)
    (hl : ∀ s ∈ l, ∃ method args, s = .modify x method args ∧ method ≠ "setSpread" ∧
      ∀ z ∈ args.flatMap Expr.uses, b.Unshared z) : Evolves plan rs b (emitAll l b).2 := by
  refine evolves_emit hb (fits_calls (l.flatMap Stmt.uses) (fun s hs => ⟨?_, fun z hz => ?_⟩)
    (fun s hs => ?_) (fun s hs z _ hz => .inl ?_) fun z hz => .inr ?_)
  · obtain ⟨method, args, rfl, -⟩ := hl s hs
    rfl
  · exact List.mem_flatMap.mpr ⟨s, hs, hz⟩
  · obtain ⟨method, args, rfl, hmethod, -⟩ := hl s hs
    exact bne_iff_ne.mpr hmethod
  · obtain ⟨method, args, rfl, -, hargs⟩ := hl s hs
    rcases List.mem_cons.mp hz with rfl | hz
    · exact hx.unshared
    · exact hargs z hz
  · obtain ⟨s, hs, hz⟩ := List.mem_filterMap.mp hz
    obtain ⟨method, args, rfl, -⟩ := hl s hs
    rw [← Option.some.inj hz]
    exact hb.names.not_painted hx.declared rfl rfl

theorem serves_forM {α : Type} (l : List α) (m : α → Build Unit) (q : α → List Request)
    (h : ∀ a ∈ l, ∀ b, Tidy plan rs b → b.Mixed x → Serves plan rs (q a) b (m a b).2)
    (hb : Tidy plan rs b) (hx : b.Mixed x) :
    Serves plan rs (l.flatMap q) b (l.forM m b).2 := by
  induction l generalizing b with
  | nil => exact .nil (.refl hb)
  | cons a l ih =>
    have s1 := h a (List.mem_cons_self ..) b hb hx
    rw [List.flatMap_cons]
    exact s1.trans (ih (fun a' ha' => h a' (List.mem_cons_of_mem a ha')) s1.tidy (s1.mixed hx))

theorem serves_writeColorGroup (hb : Tidy plan rs b) (hx : b.Mixed x) (group : String)
    (g : ColorGroup) (hrs : ∀ r ∈ colorGroupRequests group g, r ∈ rs) :
    Serves plan rs (colorGroupRequests group g) b (writeColorGroup plan x group g b).2 := by
  let stmts : List Stmt := g.colors.zipIdx.map fun c =>
    .modify x "setColor" [.code ("QPalette::" ++ group),
      .wrap "static_cast<QPalette::ColorRole>" (.int c.2), colorExpr c.1]
  have s1 : Evolves plan rs b (emitAll stmts b).2 := by
    refine evolves_fill hb hx fun s hs => ?_
    obtain ⟨e, -, rfl⟩ := List.mem_map.mp hs
    exact ⟨_, _, rfl, by decide, by simp [Expr.uses, colorExpr]⟩
  refine s1.andThen (serves_forM g.roles _ _ (fun r hr b hb hx => ?_) s1.tidy (s1.mixed hx))
  have hroles : ∀ q ∈ roleRequests group r, q ∈ rs :=
    fun q hq => hrs q (List.mem_flatMap.mpr ⟨r, hr, hq⟩)
  cases hrole : r.role with
  | none =>
    rw [roleRequests, hrole]
    exact .nil (.refl hb)
  | some role =>
    have hrequests : roleRequests group r = brushRequests (roleCode group role) r.brush := by
      rw [roleRequests, hrole]
    rw [hrequests] at hroles ⊢
    obtain ⟨hbrush, htexture⟩ := List.forall_mem_cons.mp hroles
    obtain ⟨t1, hname, after, hdepicts⟩ := serves_brushName hb ⟨_, hbrush, rfl⟩ htexture
    let u : Use Brush := ⟨r.brush, fun z y => roleCode group role (.ref z) y⟩
    have t2 : Evolves plan rs (brushName plan r.brush b).2
        (emitAll (u.code (brushName plan r.brush b).1 x) (brushName plan r.brush b).2).2 := by
      refine evolves_fill t1.tidy (t1.mixed hx) (List.forall_mem_singleton.mpr ⟨_, _, rfl, ?_, ?_⟩)
      · decide
      · simpa [Expr.uses] using hname
    refine ⟨t1.toEvolves.trans t2, List.forall_mem_cons.mpr ⟨?_, (t1.followed t2).served⟩⟩
    exact hdepicts.used (u := u) t2.later

theorem serves_optional {α : Type} (o : Option α) (m : α → Build Unit) (q : α → List Request)
    (h : ∀ a ∈ o, Serves plan rs (q a) b (m a b).2) (hb : Tidy plan rs b) :
    Serves plan rs (o.toList.flatMap q) b (o.forM m b).2 := by
  cases o with
  | none => exact .nil (.refl hb)
  | some a =>
    rw [Option.toList_some, List.flatMap_singleton]
    exact h a rfl

theorem serves_paletteName (hb : Tidy plan rs b) (p : Palette)
    (hrs : ∀ r ∈ paletteRequests p, r ∈ rs) :
    let r := paletteName plan p b
    Serves plan rs (paletteRequests p) b r.2 ∧ r.2.Unshared r.1 := by
  let name := (freshName "palette" b).1
  rw [paletteRequests, List.forall_mem_append, List.forall_mem_append] at hrs
  obtain ⟨⟨hactive, hinactive⟩, hdisabled⟩ := hrs
  obtain ⟨s1, hname⟩ := evolves_freshName hb "palette" (base_ne_theme_of _ (by simp))
  have s2 := evolves_declare s1.tidy hname "QPalette" .default (by decide) (by simp [Init.uses])
  have hvar : (emit (.declare "QPalette" name .default) (freshName "palette" b).2).2.Mixed name :=
    ⟨s2.unshared (hname.unshared s1.tidy), List.mem_append_right _ (List.mem_singleton.mpr rfl)⟩
  have hgroup : ∀ (group : String) (o : Option ColorGroup) (b : Builder), Tidy plan rs b →
      b.Mixed name → (∀ r ∈ o.toList.flatMap (colorGroupRequests group), r ∈ rs) →
      Serves plan rs (o.toList.flatMap (colorGroupRequests group)) b
        (o.forM (writeColorGroup plan name group) b).2 := by
    intro group o b hb hname hrs
    refine serves_optional o _ _ (fun g hg => ?_) hb
    refine serves_writeColorGroup hb hname group g fun r hr => hrs r ?_
    exact List.mem_flatMap.mpr ⟨g, Option.mem_toList.mpr hg, hr⟩
  have s3 := hgroup "Active" p.active _ s2.tidy hvar hactive
  have s4 := hgroup "Inactive" p.inactive _ s3.tidy (s3.mixed hvar) hinactive
  have s5 := hgroup "Disabled" p.disabled _ s4.tidy (s4.mixed (s3.mixed hvar)) hdisabled
  exact ⟨(s1.trans s2).andThen ((s3.trans s4).trans s5),
    (s5.mixed (s4.mixed (s3.mixed hvar))).unshared⟩

end FormCompiler.Setup
