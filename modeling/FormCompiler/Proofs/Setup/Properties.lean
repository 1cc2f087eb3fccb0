import FormCompiler.Proofs.Setup.Parts
import FormCompiler.Proofs.Setup.Routine
import FormCompiler.Proofs.Setup.Values

/-!
# Properties are set on objects that exist

Once an object exists, naming it and setting its properties is in order, whatever becomes of each of
them, if the brushes among the values are.
-/

namespace FormCompiler.Setup

open Code

/-! ## What becomes of a property -/

theorem guarded_calls {known : List String} {l : List Stmt} (symbol : Option String)
    (h : Calls known l) : Calls known (guarded symbol l) :=
  forall_mem_guarded symbol (fun _ => ⟨rfl, by simp [Stmt.uses]⟩) ⟨rfl, by simp [Stmt.uses]⟩ h

/-- What is written for a property right away or later concerns its object only. -/
theorem tunes_treatment (plan : Plan) (target : Target) (hasShadow : Bool) (p : Property) :
    (∀ l, treatment plan target hasShadow p = .now l → Tunes target.name l) ∧
      ∀ s, treatment plan target hasShadow p = .later s → Tunes target.name [s] := by
  refine ⟨fun l hl => ?_, fun s hs => ?_⟩
  · simp only [treatment] at hl
    split at hl
    all_goals try split at hl
    all_goals cases hl
    · simp [Tunes, Stmt.Tunes, Expr.int, isFilling]
    · cases hasShadow <;> simp [lineStmts, Tunes, Stmt.Tunes, isFilling]
  · simp only [treatment] at hs
    split at hs
    all_goals try split at hs
    all_goals cases hs
    all_goals simp [Tunes, Stmt.Tunes, Expr.int, isFilling]

/-- Values for which variables are declared. -/
def hasVariable : Value → Bool
  | .font _ | .icon _ | .sizePolicy _ | .brush _ | .palette _ => true
  | _ => false

/-- Whether a value with a variable is set depends on the class of the object only. -/
theorem treatment_set_iff (plan : Plan) (target : Target) (hasShadow : Bool) (p : Property)
    (hp : hasVariable p.value = true) :
    treatment plan target hasShadow p = .set ↔
      treatment plan ⟨"", target.className, true, target.isLayout⟩ false p = .set := by
  obtain ⟨name, stdset, value⟩ := p
  cases value
  case font | icon | sizePolicy | brush | palette =>
    simp only [treatment]
    split
    any_goals contradiction
    all_goals simp
  all_goals cases hp

theorem hasVariable_of_brushes {v : Value} (hv : v.brushes ≠ []) : hasVariable v = true := by
  cases v
  case brush | palette => rfl
  all_goals exact absurd rfl hv

theorem painted_iff (plan : Plan) (target : Target) (hasShadow : Bool) (p : Property) :
    (treatment plan target hasShadow p = .set → ∀ c ∈ p.value.brushes, c.Typed) ↔
      (treatment plan ⟨"", target.className, true, target.isLayout⟩ false p = .set →
        ∀ c ∈ p.value.brushes, c.Typed) := by
  by_cases hp : p.value.brushes = []
  · simp [hp]
  · rw [treatment_set_iff plan target hasShadow p (hasVariable_of_brushes hp)]

namespace Job

variable {job : Job} {b : Builder}

/-! ## Values -/

theorem yields_valueExpr (hb : job.Consistent b) (target : Target) (p : Property)
    (hname : target.name ∈ job.vars b) :
    job.Yields (∀ c ∈ p.value.brushes, c.Typed) b (valueExpr job.plan target p b) := by
  have hnone : ∀ r, job.Yields True b r → p.value.brushes = [] →
      job.Yields (∀ c ∈ p.value.brushes, c.Typed) b r :=
    fun r hr hp => ⟨hr.1.congr (by simp [hp]), hr.2⟩
  obtain ⟨name, stdset, value⟩ := p
  cases value
  case font f => exact hnone _ (names_fontName hb f).ref rfl
  case icon i => exact hnone _ (names_iconName hb i).ref rfl
  case pixmap q => exact hnone _ (yields_pixmapExpr hb name (.pixmap q)) rfl
  case palette palette => exact (names_paletteName hb palette).ref
  case brush c =>
    obtain ⟨s1, hvar⟩ := (names_brushName hb c).ref
    exact ⟨s1.congr (by simp [Value.brushes]), hvar⟩
  case sizePolicy policy =>
    obtain ⟨s1, hvar⟩ := names_sizePolicyName hb policy
    have s2 := writes_call s1.consistent (.modify (sizePolicyName policy b).1 "setHeightForWidth"
      [.invoke target.name "sizePolicy().hasHeightForWidth" []]) rfl (by
        simpa [Stmt.uses, Expr.uses] using ⟨hvar, s1.mem_vars hname⟩)
    refine hnone _ ⟨s1.andThen s2, fun x hx => ?_⟩ rfl
    rw [show x = _ from List.mem_singleton.mp hx]
    exact s2.mem_vars hvar
  case cstring text =>
    by_cases hbuddy : name = "buddy" ∧ job.plan.classes.derives target.className "QLabel"
    · rw [show valueExpr job.plan target ⟨name, stdset, .cstring text⟩ b = _ from
        congrFun (if_pos hbuddy) b]
      exact hnone _ ⟨writes_nothing hb rfl rfl rfl rfl rfl rfl rfl,
        fun x hx => absurd hx List.not_mem_nil⟩ rfl
    · rw [show valueExpr job.plan target ⟨name, stdset, .cstring text⟩ b = _ from
        congrFun (if_neg hbuddy) b]
      cases usesSetter job.plan ⟨name, stdset, .cstring text⟩ <;>
        exact hnone _ (yields_plain hb rfl) rfl
  case string s =>
    by_cases hsame : name = "objectName" ∧ s.text = target.name
    · rw [show valueExpr job.plan target ⟨name, stdset, .string s⟩ b = _ from
        congrFun (if_pos hsame) b]
      exact hnone _ (yields_plain hb rfl) rfl
    · rw [show valueExpr job.plan target ⟨name, stdset, .string s⟩ b = _ from
        congrFun (if_neg hsame) b]
      exact hnone _ (yields_plain hb (shownText_uses (some s) "")) rfl
  case stringList l =>
    refine hnone _ (yields_plain hb ?_) rfl
    cases l.translatable <;> rfl
  all_goals exact hnone _ (yields_plain hb rfl) rfl

/-! ## One property -/

theorem setterStmt_uses (plan : Plan) (target : Target) (p : Property) (e : Expr) :
    (setterStmt plan target p e).assigns = [] ∧
      (setterStmt plan target p e).uses = target.name :: e.uses := by
  obtain ⟨method, method', text, hstmt⟩ : ∃ method method' text, setterStmt plan target p e =
      if usesSetter plan p then .call target.name method [e]
      else .call target.name method' [.code text, .wrap "QVariant" e] := ⟨_, _, _, rfl⟩
  rw [hstmt]
  split <;> simp [Stmt.assigns, Stmt.uses, Expr.uses]

theorem writes_emitIn (hb : job.Consistent b) (sect : Section) {l : List Stmt}
    (hl : Calls (job.vars b) l) : job.Writes True b (emitIn sect l b).2 := by
  cases sect with
  | setup => exact writes_calls hb hl
  | retranslate => exact writes_emitRetranslate hb l

theorem writes_setProperty (hb : job.Consistent b) (target : Target) (p : Property)
    (hname : target.name ∈ job.vars b) :
    job.Writes (∀ c ∈ p.value.brushes, c.Typed) b (setProperty job.plan target p b).2 := by
  obtain ⟨s1, huses⟩ := yields_valueExpr hb target p hname
  obtain ⟨hassigns, hsetter⟩ := setterStmt_uses job.plan target p (valueExpr job.plan target p b).1
  have hcalls : Calls (job.vars (valueExpr job.plan target p b).2)
      (guarded (switchOf? p.name)
        [setterStmt job.plan target p (valueExpr job.plan target p b).1]) := by
    refine guarded_calls _ (Calls.cons hassigns (fun x hx => ?_) Calls.nil)
    rw [hsetter] at hx
    rcases List.mem_cons.mp hx with rfl | hx
    · exact s1.mem_vars hname
    · exact huses x hx
  have s2 := writes_emitIn s1.consistent (propertySection p) hcalls
  simp only [setProperty, bind_run, ite_run, pure_run, modify_run]
  refine Writes.ite _ (fun _ => s1) fun _ => Writes.ite _ (fun _ => ?_) fun _ => s1.followed s2
  exact (s1.followed s2).followed (writes_nothing s2.consistent rfl rfl rfl rfl rfl rfl rfl)

/-- Pictures that show nothing need no brush. -/
theorem brushes_of_defect {p : Property} {topic : Topic} (h : defect? p = some topic) :
    p.value.brushes = [] := by
  unfold defect? at h
  split at h
  · rename_i i hi
    rw [hi]
    rfl
  · rename_i q hq
    rw [hq]
    rfl
  · cases h

theorem writes_writeProperty (hb : job.Consistent b) (target : Target) (r : Progress)
    (p : Property) (hname : target.name ∈ job.vars b) :
    job.Writes (treatment job.plan ⟨"", target.className, true, target.isLayout⟩ false p = .set →
      ∀ c ∈ p.value.brushes, c.Typed) b (writeProperty job.plan target r p b).2 := by
  obtain ⟨hnow, hlater⟩ := tunes_treatment job.plan target r.hasShadow p
  refine Writes.congr ?_ (painted_iff job.plan target r.hasShadow p)
  obtain ⟨m, r', hrun, hcase⟩ := writeProperty_deals job.plan target r p
  rw [hrun]
  cases hcase with
  | complain hd => exact (writes_note hb _).congr (by simp [brushes_of_defect hd])
  | skip ht | margin ht => exact (Writes.refl hb).congr (by simp [ht])
  | now ht => exact (writes_calls hb ((hnow _ ht).calls hname)).congr (by simp [ht])
  | later ht =>
    obtain ⟨hs, huses⟩ := (hlater _ ht).calls hname _ (List.mem_singleton.mpr rfl)
    exact (writes_delay hb _ hs huses).congr (by simp [ht])
  | set hd ht => exact (writes_setProperty hb target p hname).congr (by simp [ht])

/-! ## All properties of an object -/

theorem writes_setAll (hb : job.Consistent b) (target : Target) (ps : List Property)
    (hname : target.name ∈ job.vars b) :
    job.Writes (Painted job.plan target.className target.isLayout ps) b
      (setAll job.plan target ps b).2 := by
  have s1 := writes_foldlM ps (writeProperty job.plan target) _ target.name
    (fun p _ r b hb hname => writes_writeProperty hb target r p hname) hb hname {}
  simp only [setAll, bind_run, ite_run, pure_run]
  refine Writes.ite _ (fun _ => s1.followed (writes_call s1.consistent _ rfl ?_)) (fun _ => s1)
  simpa [Stmt.uses] using s1.mem_vars hname

/-- Setting the properties of an object begins with its title. -/
theorem writes_writeProperties (hb : job.Consistent b) (target : Target) (ps : List Property)
    (hname : target.name ∈ job.vars b) :
    job.Writes (Painted job.plan target.className target.isLayout ps) b
      (writeProperties job.plan target ps b).2 ∧
      target.title ∈ (writeProperties job.plan target ps b).2.setup := by
  have s1 : job.Writes True b (emit target.title b).2 := by
    refine writes_call hb target.title ?_ ?_
    · simp only [Target.title]
      split <;> rfl
    · simp only [Target.title]
      split <;> simpa [Stmt.setObjectName, Stmt.uses] using hname
  have s2 := writes_setAll s1.consistent target ps (s1.mem_vars hname)
  rw [writeProperties_eq]
  exact ⟨s1.andThen s2, s2.setup.subset (List.mem_append_right _ (List.mem_singleton.mpr rfl))⟩

end Job

end FormCompiler.Setup
