import FormCompiler.Proofs.Setup.Assembly

/-!
# Images in the code of a form

Where a property shows an embedded image, the code refers to it by its enumerator or by the path of
its file.  The functions of a form refer to no other images than those that its plan embeds, and
setting up the form declares none (`functions_pictured`).
-/

namespace FormCompiler.Setup

open Code Document Naming

/-- All references among the given ones are such that a plan leads to. -/
def Plan.Covers (plan : Plan) (rs : List ImageRef) : Prop := ∀ r ∈ rs, plan.Embeds r

theorem Plan.Admits.covers {plan : Plan} {sect : Section} {l : List Stmt}
    (h : plan.Admits sect (mentionsOf l)) : plan.Covers (imagesOf l) := by
  intro r hr
  rw [imagesOf_eq] at hr
  obtain ⟨m, hm, hr⟩ := List.mem_filterMap.mp hr
  cases m with
  | image r' =>
    obtain rfl := Option.some.inj hr
    exact h _ hm
  | translation => cases hr

theorem quiet_functions (o : Options) (document : Nat) (f : Form) (root : Visit) :
    Quiet (functions o document f root) := by
  intro s
  rw [Header.functions_run]
  exact ((piece_setUp f).record (admitted_start _ _)).trans (Quiet.nameOfVisit document root s)

theorem functions_pictured (o : Options) (document : Nat) (f : Form) (root : Visit) (s : Session) :
    let r := functions o document f root s
    r.2.table.pixmaps = s.table.pixmaps ∧
      (Plan.ofForm o document f r.1.form).Covers (imagesOf (r.1.setup ++ r.1.retranslate)) := by
  refine ⟨(quiet_functions o document f root).pixmaps s, fun r hr => ?_⟩
  rw [Header.functions_run] at hr
  simp only [Header.functionsOf] at hr
  generalize Session.nameOfVisit? document root s = start at hr ⊢
  obtain ⟨name, s'⟩ := start
  have hstart := admitted_start (Plan.ofForm o document f (name.getD "")) s'
  obtain ⟨hbuilt, -⟩ := (piece_setUp f).admitted hstart
  rw [imagesOf_append, imagesOf_append] at hr
  rcases List.mem_append.mp hr with hr | hr
  · exact hbuilt.setup.covers r hr
  · rcases List.mem_append.mp hr with hr | hr
    · exact hbuilt.retranslate.covers r hr
    · split at hr <;> cases hr

end FormCompiler.Setup
