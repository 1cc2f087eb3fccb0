import FormCompiler.Proofs.Setup.SharedValues

/-!
# Brushes have variables

The setup function keeps the variable of a solid brush under the bytes of its color, and takes it
for the next solid brush with the same bytes.  A channel beyond its byte is cut off there, and no
alpha channel counts as one of zero, while the code that declares a brush has the color as it is
written in the form.  So a variable always stands for a brush whose color has the right bytes
(`brushes_alike_in_bytes`), but not for the right color if a form has two with the same bytes.
-/

namespace FormCompiler

open Number

/-- Colors with the same channels, as far as bytes go.  A color without an alpha channel has the
bytes of one where it is zero. -/
def Color.SameBytes (c c' : Color) : Prop :=
  c.red % 256 = c'.red % 256 ∧ c.green % 256 = c'.green % 256 ∧ c.blue % 256 = c'.blue % 256 ∧
    c.alpha.getD 0 % 256 = c'.alpha.getD 0 % 256

namespace Setup

open Code Document Naming

/-! ## Colors in code -/

theorem colorText_toList (c : Color) : (colorText c).toList =
    "QColor(".toList ++ ((intText c.red).toList ++ ',' :: ' ' :: ((intText c.green).toList ++
      ',' :: ' ' :: ((intText c.blue).toList ++ c.alpha.elim [')'] fun a =>
        ',' :: ' ' :: ((intText a).toList ++ [')'])))) := by
  cases h : c.alpha <;> simp [colorText, h]

theorem colorText_injective {c c' : Color} (h : colorText c = colorText c') : c = c' := by
  have hcomma : isNumeral ',' = false := by decide
  have hparen : isNumeral ')' = false := by decide
  have hlist := congrArg String.toList h
  rw [colorText_toList, colorText_toList] at hlist
  obtain ⟨hred, hlist⟩ := intText_ends hcomma hcomma (List.append_cancel_left hlist)
  obtain ⟨hgreen, hlist⟩ := intText_ends hcomma hcomma (List.cons.inj (List.cons.inj hlist).2).2
  obtain ⟨red, green, blue, alpha⟩ := c
  obtain ⟨red', green', blue', alpha'⟩ := c'
  replace hlist := (List.cons.inj (List.cons.inj hlist).2).2
  dsimp only at hred hgreen hlist
  cases alpha with
  | none =>
    cases alpha' with
    | none =>
      obtain ⟨hblue, -⟩ := intText_ends hparen hparen hlist
      rw [hred, hgreen, hblue]
    | some a' =>
      obtain ⟨-, hrest⟩ := intText_ends hparen hcomma hlist
      exact absurd (congrArg Char.toNat (List.cons.inj hrest).1) (by decide)
  | some a =>
    cases alpha' with
    | none =>
      obtain ⟨-, hrest⟩ := intText_ends hcomma hparen hlist
      exact absurd (congrArg Char.toNat (List.cons.inj hrest).1) (by decide)
    | some a' =>
      obtain ⟨hblue, hrest⟩ := intText_ends hcomma hcomma hlist
      obtain ⟨halpha, -⟩ := intText_ends hparen hparen (List.cons.inj (List.cons.inj hrest).2).2
      rw [hred, hgreen, hblue, halpha]

theorem channelByte_eq_iff {v w : Int} : channelByte v = channelByte w ↔ v % 256 = w % 256 := by
  unfold channelByte
  omega

theorem colorKey_eq_iff {c c' : Color} : colorKey c = colorKey c' ↔ c.SameBytes c' := by
  have hbyte : ∀ (v w : Int) (m n : Nat), m * 256 + channelByte v = n * 256 + channelByte w ↔
      m = n ∧ v % 256 = w % 256 := by
    intro v w m n
    have hv : channelByte v < 256 := by unfold channelByte; omega
    have hw : channelByte w < 256 := by unfold channelByte; omega
    rw [← channelByte_eq_iff]
    omega
  rw [colorKey, colorKey, hbyte, hbyte, hbyte, channelByte_eq_iff, and_assoc, and_assoc]
  rfl

/-! ## Solid brushes -/

variable {plan : Plan} {c c' : Brush} {x : String} {b : Builder}

theorem brushCode_solid (hc : c.isSolid = true) : brushCode plan c x b =
    [.declare "QBrush" x (.args [colorExpr c.paintedColor]),
      .modify x "setStyle" [.code "Qt::SolidPattern"]] := by
  have hstyle : c.styleName = "SolidPattern" := beq_iff_eq.mp hc
  have hgradient : ¬ c.UsesGradient := by
    rw [Brush.UsesGradient, hstyle]
    decide
  have htexture : c.styleName ≠ "TexturePattern" := by
    rw [hstyle]
    decide
  have hrun : writeBrush plan c x b = emit (.modify x "setStyle" [.code ("Qt::" ++ c.styleName)])
      (emit (.declare "QBrush" x (.args [colorExpr c.paintedColor])) b).2 :=
    congrFun ((if_neg hgradient).trans (if_neg htexture)) b
  have hsetup : (writeBrush plan c x b).2.setup = b.setup ++
      [.declare "QBrush" x (.args [colorExpr c.paintedColor]),
        .modify x "setStyle" [.code ("Qt::" ++ c.styleName)]] := by
    rw [hrun]
    exact List.append_assoc ..
  rw [brushCode, hsetup, List.drop_left, hstyle]
  rfl

/-- Different colors are declared by different code. -/
theorem brushCode_solid_iff (hc : c.isSolid = true) (hc' : c'.isSolid = true) :
    brushCode plan c x b = brushCode plan c' x b ↔ c.paintedColor = c'.paintedColor := by
  rw [brushCode_solid hc, brushCode_solid hc']
  constructor
  · intro h
    have hargs := (Stmt.declare.inj (List.cons.inj h).1).2.2
    have hexpr := (List.cons.inj (Init.args.inj hargs)).1
    exact colorText_injective (Expr.code.inj hexpr)
  · intro h
    rw [h]

/-! ## The setup function of a form -/

/-- The variable `x` is used for a request and stands for the brush `c`: the code that declares `c`
follows on the builder `b`, and the variable is neither mentioned before nor assigned or modified
afterwards. -/
structure StandsFor (plan : Plan) (b' : Builder) (u : Use Brush) (c : Brush) (x : String)
    (b : Builder) : Prop where
  later : Later b b'
  unused : ∀ s ∈ b.setup, x ∉ s.names
  written : ∃ y after, b'.setup = b.setup ++ brushCode plan c x b ++ after ∧
    x ∉ assigned after ∧ x ∉ modified after ∧ u.code x y <:+: after

def Request.brush? : Request → Option Brush
  | .brush u => some u.value
  | .shared _ => none

/-- The brushes that requests are for. -/
def wantedBrushes (rs : List Request) : List Brush := rs.filterMap Request.brush?

theorem Served.standsFor {rs : List Request} {u : Use Brush} (h : Served plan rs b (.brush u)) :
    ∃ c ∈ wantedBrushes rs, ∃ x b0, StandsFor plan b u c x b0 ∧
      (c = u.value ∨ c.isSolid = true ∧ u.value.isSolid = true ∧
        c.paintedColor.SameBytes u.value.paintedColor) := by
  obtain ⟨x, y, after, ⟨c, hdrawn, hsame⟩, hcode⟩ := h
  obtain ⟨b0, hlater, hsetup, hbefore, hassigned, hmodified⟩ := hdrawn.written
  obtain ⟨u', hu', rfl⟩ := hdrawn.requested
  refine ⟨u'.value, List.mem_filterMap.mpr ⟨_, hu', rfl⟩, x, b0,
    ⟨hlater, hbefore, y, after, hsetup, hassigned, hmodified, hcode⟩, hsame.imp_right ?_⟩
  rintro ⟨hvalue, hc, hkey⟩
  exact ⟨hc, hvalue, colorKey_eq_iff.mp hkey⟩

/-- Each brush that a form asks for is used under a variable that stands for a brush the form asks
for, which is the same one or another solid brush whose color has the same bytes.  In the second
case the declaration is the one that the brush itself would have exactly if the colors are the same;
so every variable stands for the right brush unless the form has solid brushes of two colors that
have the same bytes. -/
theorem brushes_alike_in_bytes (o : Options) (document : Nat) (f : Form) (root : Visit)
    (s : Session) (hk : f.node.kind = .ui) (hw : Node.All Node.WellFormed f.node)
    (hroot : f.rootVisit? = some root) (hd : s.table.Distinct) :
    let d := ((Header.declaration o document f root).run s).1
    let job := jobOf o document f root s
    let b' := built job.plan f (Header.naming document f root s).2
    d.functions.setup = b'.setup ∧
      ∀ u, .brush u ∈ job.requests →
        (∃ c ∈ wantedBrushes job.requests, ∃ x b, StandsFor job.plan b' u c x b ∧
          (c = u.value ∨ c.isSolid = true ∧ u.value.isSolid = true ∧
            c.paintedColor.SameBytes u.value.paintedColor) ∧
          (brushCode job.plan c x b = brushCode job.plan u.value x b ↔
            c.paintedColor = u.value.paintedColor)) ∧
        ((∀ c ∈ wantedBrushes job.requests, c.isSolid = true → u.value.isSolid = true →
            c.paintedColor.SameBytes u.value.paintedColor →
              c.paintedColor = u.value.paintedColor) →
          ∃ x b, StandsFor job.plan b' u u.value x b) := by
  intro d job b'
  obtain ⟨hsetup, -⟩ := declaration_built o document hk hw hroot hd
  obtain ⟨known, h⟩ := Job.built_stage (jobOf_named o document hk hw hroot hd)
    (mainForm_object o document hk hw hroot hd) hw (s := (Header.naming document f root s).2) rfl
  refine ⟨hsetup, fun u hu => ?_⟩
  obtain ⟨c, hwanted, x, b, hstands, hsame⟩ := (h.served _ hu).standsFor
  have hcode : brushCode job.plan c x b = brushCode job.plan u.value x b ↔
      c.paintedColor = u.value.paintedColor := by
    rcases hsame with rfl | ⟨hc, hvalue, -⟩
    · exact iff_of_true rfl rfl
    · exact brushCode_solid_iff hc hvalue
  refine ⟨⟨c, hwanted, x, b, hstands, hsame, hcode⟩, fun hdistinct => ⟨x, b, ?_⟩⟩
  have hcolor : c.paintedColor = u.value.paintedColor := by
    rcases hsame with rfl | ⟨hc, hvalue, hbytes⟩
    · rfl
    · exact hdistinct c hwanted hc hvalue hbytes
  obtain ⟨y, after, hwritten⟩ := hstands.written
  rw [hcode.mpr hcolor] at hwritten
  exact { hstands with written := ⟨y, after, hwritten⟩ }

/-- A form with an opaque and a transparent red. -/
def tinted : Form :=
  let role (name : String) (attributes : List (String × Scalar)) : Field :=
    .node "colorrole" (.mk .colorRole [("role", .string name)]
      [.node "brush" (.mk .brush [("brushstyle", .string "SolidPattern")]
        [.node "color" (.mk .color attributes
          [.value "red" (.int .int32 ⟨255, by decide, by decide⟩)] "")] "")] "")
  let alpha : Scalar := .int .int32 ⟨0, by decide, by decide⟩
  ⟨.mk .ui []
    [.node "widget" (.mk .widget [("class", .string "QWidget"), ("name", .string "Form")]
      [.node "property" (.mk .property [("name", .string "palette")]
        [.node "palette" (.mk .palette []
          [.node "active" (.mk .colorGroup []
            [role "Button" [], role "Base" [("alpha", alpha)]] "")] "")] "")] "")] ""⟩

theorem brushes_alike_in_bytes_tinted :
    ∃ root, tinted.rootVisit? = some root ∧ Node.All Node.WellFormed tinted.node ∧
      let d := ((Header.declaration {} 0 tinted root).run {}).1
      let job := jobOf {} 0 tinted root {}
      let b' := built job.plan tinted (Header.naming 0 tinted root {}).2
      wantedBrushes job.requests =
          [⟨some "SolidPattern", .color ⟨255, 0, 0, none⟩⟩,
            ⟨some "SolidPattern", .color ⟨255, 0, 0, some 0⟩⟩] ∧
        d.functions.setup.filter (·.names.contains "brush") =
          [.declare "QBrush" "brush" (.args [.code "QColor(255, 0, 0)"]),
            .modify "brush" "setStyle" [.code "Qt::SolidPattern"],
            .modify "palette" "setBrush"
              [.code "QPalette::Active", .code "QPalette::Button", .ref "brush"],
            .modify "palette" "setBrush"
              [.code "QPalette::Active", .code "QPalette::Base", .ref "brush"]] ∧
        d.functions.setup = b'.setup ∧
        ∀ u, .brush u ∈ job.requests →
          (∃ c ∈ wantedBrushes job.requests, ∃ x b, StandsFor job.plan b' u c x b ∧
            (c = u.value ∨ c.isSolid = true ∧ u.value.isSolid = true ∧
              c.paintedColor.SameBytes u.value.paintedColor) ∧
            (brushCode job.plan c x b = brushCode job.plan u.value x b ↔
              c.paintedColor = u.value.paintedColor)) ∧
          ((∀ c ∈ wantedBrushes job.requests, c.isSolid = true → u.value.isSolid = true →
              c.paintedColor.SameBytes u.value.paintedColor →
                c.paintedColor = u.value.paintedColor) →
            ∃ x b, StandsFor job.plan b' u u.value x b) := by
  have hw : Node.All Node.WellFormed tinted.node := by decide +kernel
  refine ⟨_, rfl, hw, ?_, ?_,
    brushes_alike_in_bytes {} 0 tinted _ {} rfl hw rfl Table.distinct_empty⟩
  · decide +kernel
  · decide +kernel

end Setup

end FormCompiler
