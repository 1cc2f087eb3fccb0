import FormCompiler.Proofs.Header.Gallery

/-!
# Texts that depend on the language

Texts are translated only in the retranslate function, which can be called again when the language
changes.  So the setup function mentions no translation, and of a whole header only the body of the
retranslate function depends on the function that translates (`translation_confined`).
-/

namespace FormCompiler

open Code Document Naming

/-! ## Texts with one part that varies -/

/-- A text that varies only in one part. -/
def Frames (text part : String → String) : Prop :=
  ∃ before after, ∀ t, text t = before ++ part t ++ after

namespace Frames

variable {text part : String → String}

theorem refl (part : String → String) : Frames part part := ⟨"", "", fun t => by simp⟩

theorem after (h : Frames text part) (lead : String) : Frames (fun t => lead ++ text t) part := by
  obtain ⟨before, after, h⟩ := h
  exact ⟨lead ++ before, after, fun t => by simp only [h, String.append_assoc]⟩

theorem before (h : Frames text part) (rest : String) : Frames (fun t => text t ++ rest) part := by
  obtain ⟨before, after, h⟩ := h
  exact ⟨before, after ++ rest, fun t => by simp only [h, String.append_assoc]⟩

end Frames

/-! ## Headers -/

namespace Setup

theorem functions_untranslated (o : Options) (document : Nat) (f : Form) (root : Visit)
    (s : Session) : .translation ∉ mentionsOf (functions o document f root s).1.setup := by
  rw [Header.functions_run]
  generalize Session.nameOfVisit? document root s = r
  obtain ⟨name, s'⟩ := r
  obtain ⟨hbuilt, -⟩ := (piece_setUp f).admitted
    (admitted_start (Plan.ofForm o document f (name.getD "")) s')
  intro htranslated
  cases hbuilt.setup .translation htranslated

theorem Functions.frames_render (style : Style) {fs : Functions}
    (h : .translation ∉ mentionsOf fs.setup) :
    Frames (fun t => fs.render (style.translating t)) fun t =>
      functionText (style.translating t) "retranslateUi" fs.formClass fs.form fs.retranslate := by
  have hsetup : ∀ t, functionText (style.translating t) "setupUi" fs.formClass fs.form fs.setup =
      functionText style "setupUi" fs.formClass fs.form fs.setup := by
    intro t
    rw [functionText, renderAll_untranslated style t h]
    rfl
  unfold Functions.render
  simp only [hsetup]
  exact (Frames.refl _).after _

end Setup

namespace Header

theorem Declaration.frames_render (o : Options) (style : Style) {d : Declaration}
    (h : .translation ∉ mentionsOf d.functions.setup) :
    Frames (fun t => d.render o (style.translating t)) fun t =>
      Setup.functionText (style.translating t) "retranslateUi" d.functions.formClass
        d.functions.form d.functions.retranslate := by
  have hclass : Frames (fun t => d.classText o (style.translating t)) _ :=
    (((Setup.Functions.frames_render style h).after _).before _).before _
  exact ((((hclass.after _).before _).before _).before _).before _

end Header

/-! ## Whole headers -/

section Translating

variable (o : Options) (t : String)

theorem declaration_translating (document : Nat) (f : Form) (root : Visit) :
    Header.declaration { o with translateFunction := t } document f root =
      Header.declaration o document f root := rfl

theorem includesText_translating (f : Form) :
    includesText { o with translateFunction := t } f = includesText o f := rfl

theorem bannerText_translating (f : Form) :
    bannerText { o with translateFunction := t } f = bannerText o f := rfl

theorem headerName_translating : headerName { o with translateFunction := t } = headerName o := rfl

theorem render_translating (d : Header.Declaration) (style : Style) :
    d.render { o with translateFunction := t } style = d.render o style := rfl

theorem headerText_translating (document : Nat) (f : Form) (root : Visit) (s : Session) :
    let includes := includesText o f s
    let d := Header.declaration o document f root includes.2
    let body := includes.1 ++ d.1.render o ((Setup.style o f).translating t)
    headerText { o with translateFunction := t } document f root s =
      ((if o.banner then bannerText o f else "") ++
        (if o.headerProtection then protect (Naming.guardOf (headerName o)) body else body),
        d.2) := by
  unfold headerText classText
  simp only [includesText_translating, declaration_translating, bannerText_translating,
    headerName_translating, render_translating, bind_run, pure_run]
  rfl

end Translating

theorem frames_header (o : Options) (document : Nat) (f : Form) (root : Visit) (s : Session)
    (hsetup : .translation ∉ mentionsOf
      (Header.declaration o document f root (includesText o f s).2).1.functions.setup) :
    let fs := (Header.declaration o document f root (includesText o f s).2).1.functions
    Frames (fun t => (headerText { o with translateFunction := t } document f root s).1) fun t =>
      Setup.functionText (Setup.style { o with translateFunction := t } f) "retranslateUi"
        fs.formClass fs.form fs.retranslate := by
  have hclass := Header.Declaration.frames_render o (Setup.style o f) hsetup
  simp only [headerText_translating]
  refine Frames.after ?_ _
  split
  · unfold protect
    exact ((hclass.after _).after _).before _ |>.before _ |>.before _
  · exact hclass.after _

/-- The setup function mentions no translation.  Of the header of a form, and of what compiling it
does to the symbol table, only the body of the retranslate function depends on the function that
translates. -/
theorem translation_confined (o : Options) (document : Nat) (f : Form) (s : Session) :
    (f.rootVisit? = none →
      ∀ t, headerOf { o with translateFunction := t } document f s = (.error .noRootWidget, s)) ∧
    ∀ root, f.rootVisit? = some root →
      let fs := (Header.declaration o document f root (includesText o f s).2).1.functions
      .translation ∉ mentionsOf fs.setup ∧
        ∃ before after s', ∀ t, headerOf { o with translateFunction := t } document f s =
          (.ok (before ++
            (o.indent ++ "void retranslateUi(" ++ fs.formClass ++ " *" ++ fs.form ++ ")\n" ++
              o.indent ++ "\x7b\n") ++
            renderAll (Setup.style { o with translateFunction := t } f) fs.retranslate ++
            (o.indent ++ "\x7d\n\n") ++ after), s') := by
  constructor
  · intro hroot t
    simp only [headerOf, hroot, pure_run]
  · intro root hroot fs
    have hsetup : .translation ∉ mentionsOf fs.setup := by
      obtain ⟨-, hfunctions⟩ := Header.declaration_members o document f root (includesText o f s).2
      rw [show fs = _ from hfunctions]
      exact Setup.functions_untranslated o document f root _
    obtain ⟨before, after, hheader⟩ := frames_header o document f root s hsetup
    refine ⟨hsetup, before, after,
      (Header.declaration o document f root (includesText o f s).2).2, fun t => ?_⟩
    have hrun : headerOf { o with translateFunction := t } document f s =
        (.ok (headerText { o with translateFunction := t } document f root s).1,
          (headerText { o with translateFunction := t } document f root s).2) := by
      simp only [headerOf, hroot, map_run]
    refine hrun.trans (Prod.ext (congrArg Except.ok ((hheader t).trans ?_)) ?_)
    · rw [show "void retranslateUi(" = "void " ++ "retranslateUi" ++ "(" from rfl]
      simp only [Setup.functionText, String.append_assoc]
      rfl
    · rw [headerText_translating]

/-- A form with texts that are translated and texts that are not: of a label, of a combo box, and of
a page that has no title. -/
def multilingual : Form :=
  let text (attributes : List (String × Scalar)) (content : String) : Field :=
    .node "string" (.mk .string attributes [] content)
  let property (name : String) (value : Field) : Field :=
    .node "property" (.mk .property [("name", .string name)] [value] "")
  let widget (className : String) (fields : List Field) : Field :=
    .node "widget" (.mk .widget [("class", .string className)] fields "")
  ⟨.mk .ui []
    [.value "class" (.string "Form"),
      widget "QTabWidget"
        [widget "QWidget"
          [widget "QLabel"
            [property "text" (text [] "Hello"),
              property "toolTip" (text [("notr", .string "true")] "plain")],
            widget "QComboBox"
              [.node "item" (.mk .item [] [property "text" (text [] "one")] ""),
                .node "item" (.mk .item [] [property "text" (text [("notr", .string "true")] "2")]
                  "")]]]] ""⟩

theorem translation_confined_multilingual :
    ∃ root, multilingual.rootVisit? = some root ∧
      let o : Options := {}
      let fs := (Header.declaration o 0 multilingual root
        (includesText o multilingual {}).2).1.functions
      (mentionsOf fs.retranslate).count .translation = 3 ∧
        .translation ∉ mentionsOf fs.setup ∧
        ∃ before after s', ∀ t, headerOf { o with translateFunction := t } 0 multilingual {} =
          (.ok (before ++
            (o.indent ++ "void retranslateUi(" ++ fs.formClass ++ " *" ++ fs.form ++ ")\n" ++
              o.indent ++ "\x7b\n") ++
            renderAll (Setup.style { o with translateFunction := t } multilingual) fs.retranslate ++
            (o.indent ++ "\x7d\n\n") ++ after), s') := by
  refine ⟨_, rfl, ?_, (translation_confined {} 0 multilingual {}).2 _ rfl⟩
  decide +kernel

end FormCompiler
