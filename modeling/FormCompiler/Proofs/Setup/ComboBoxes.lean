import FormCompiler.Proofs.Setup.Equipment
import FormCompiler.Proofs.Setup.SharedValues

/-!
# Items of combo boxes

Items that have no icons, and of which all or none are translated, are inserted by one call; others
are added one by one, and the texts that are translated are set afterwards.  Both ways a combo box
shows its items in their order, each with its own icon and text, and goes on to do so when the
language changes (`items_kept`).  A text that is missing is no expression, so the code has an empty
operand for it.
-/

namespace FormCompiler

namespace Code

/-- An expression that is not empty when it is rendered. -/
def Expr.IsWritten (e : Expr) : Prop := ∀ style, e.render style ≠ ""

namespace Expr

theorem append_ne_empty (s : String) {t : String} (h : t ≠ "") : s ++ t ≠ "" :=
  fun hst => h (String.append_eq_empty_iff.mp hst).2

theorem isWritten_code {text : String} (h : text ≠ "") : (code text).IsWritten := fun _ => h

theorem isWritten_int (n : Nat) : (int n).IsWritten :=
  isWritten_code fun h => Number.decimal_ne_nil n (String.ofList_injective h)

theorem isWritten_wrap (function : String) (e : Expr) : (wrap function e).IsWritten :=
  fun _ => append_ne_empty _ (by decide)

theorem isWritten_translate (text comment : String) : (translate text comment).IsWritten := by
  intro style
  change translated style text comment ≠ ""
  unfold translated
  split
  · decide
  · exact append_ne_empty _ (by decide)

end Expr

/-- What a combo box shows in one place: an icon, if there is one, and a text. -/
structure Row where
  icon : List Expr
  text : Expr

/-- A row with its number gets a text, if it is the one with the given number. -/
def Row.renewed (index text : Expr) (row : Row × Nat) : Row :=
  if index = .int row.2 then ⟨row.1.icon, text⟩ else row.1

theorem Row.map_renewed (text : Expr) (rows : List Row) {first k : Nat}
    (h : k < first ∨ first + rows.length ≤ k) :
    (rows.zipIdx first).map (Row.renewed (.int k) text) = rows := by
  have hother : ∀ row ∈ rows.zipIdx first, Row.renewed (.int k) text row = row.1 := by
    intro row hrow
    refine if_neg fun hk => ?_
    have hk : (k : Int) = row.2 := Number.intText_injective (Expr.code.inj hk)
    have hbounds := List.mem_zipIdx hrow
    omega
  rw [List.map_congr_left hother]
  exact List.zipIdx_map_fst first rows

namespace Stmt

/-- Whether a statement fills a combo box. -/
def fills (x : String) : Stmt → Bool
  | insertItems receiver _ => receiver == x
  | call receiver method args => receiver == x &&
      (["addItem", "clear"].contains method || method == "setItemText" && isNumbered args)
  | _ => false

/-- The arguments of a statement that fills a combo box. -/
def operands : Stmt → List Expr
  | insertItems _ texts => texts
  | call _ _ args => args
  | _ => []

/-- What a combo box shows after a statement that fills it.  Texts are inserted before all others,
and items are added behind them. -/
def rowsAfter (rows : List Row) : Stmt → List Row
  | insertItems _ texts => texts.map (⟨[], ·⟩) ++ rows
  | call _ method args =>
    if method = "addItem" then rows ++ args.getLast?.toList.map (⟨args.dropLast, ·⟩)
    else if method = "clear" then []
    else match args with
      | [index, text] =>
        if method = "setItemText" then rows.zipIdx.map (Row.renewed index text) else rows
      | _ => rows
  | _ => rows

theorem rowsAfter_addItem (rows : List Row) (x : String) (icon : List Expr) (text : Expr) :
    (call x "addItem" (icon ++ [text])).rowsAfter rows = rows ++ [⟨icon, text⟩] := by
  simp [rowsAfter]

theorem rowsAfter_setItemText (l r : List Row) (row : Row) (x : String) (text : Expr) :
    (call x "setItemText" [.int l.length, text]).rowsAfter (l ++ row :: r) =
      l ++ ⟨row.icon, text⟩ :: r := by
  change (l ++ row :: r).zipIdx.map (Row.renewed (.int l.length) text) = _
  rw [List.zipIdx_append, List.zipIdx_cons, List.map_append, List.map_cons,
    Row.map_renewed text l (by omega), Row.map_renewed text r (by omega), Nat.zero_add]
  simp [Row.renewed]

end Stmt

end Code

namespace Setup

open Code Document Naming

variable {plan : Plan} {icons : List (Icon × String)} {x : String} {items : List ComboItem}

/-! ## Items -/

namespace ComboItem

/-- The text of an item as an expression; there is none if the item has no text. -/
def shown (i : ComboItem) : Expr :=
  match i.text with
  | some p => if p.translatable then .translate p.text p.comment else .utf8 innerDepth p.text
  | none => .code ""

/-- The row of an item, if pictures are given by the expressions of `picture`. -/
def row (picture : Picture → Expr) (i : ComboItem) : Row :=
  ⟨i.icon.toList.map fun p => picture p.picture, i.shown⟩

theorem shownText_text (i : ComboItem) : shownText i.text "" = i.shown := by
  unfold shown shownText Setup.isTranslated translatedText plainText
  cases i.text <;> rfl

theorem translatedText_text {i : ComboItem} (h : i.isTranslated = true) :
    translatedText i.text "" = i.shown := by
  rw [← shownText_text, shownText]
  exact (if_pos h).symm

theorem plainText_text {i : ComboItem} (h : i.isTranslated = false) :
    plainText i.text "" = i.shown := by
  rw [← shownText_text, shownText]
  exact (if_neg (Bool.eq_false_iff.mp h)).symm

theorem isTranslated_of_missing {i : ComboItem} (h : i.text = none) : i.isTranslated = false := by
  rw [isTranslated, h]
  rfl

end ComboItem

/-- No item has an icon, and all or none are translated. -/
def Alike (items : List ComboItem) : Prop :=
  (∀ i ∈ items, i.icon = none) ∧ ∀ i ∈ items, ∀ j ∈ items, i.isTranslated = j.isTranslated

theorem areUniform_iff : areUniform items = true ↔ Alike items := by
  simp only [areUniform, Alike, Bool.and_eq_true, Bool.or_eq_true, List.all_eq_true,
    Option.isNone_iff_eq_none, Bool.not_eq_true']
  refine and_congr_right fun _ => ⟨?_, fun h => ?_⟩
  · rintro (h | h) i hi j hj <;> rw [h i hi, h j hj]
  · cases items with
    | nil => exact .inl fun i hi => by cases hi
    | cons j items =>
      have hj := fun i hi => h i hi j (List.mem_cons_self ..)
      cases ht : j.isTranslated with
      | true => exact .inl fun i hi => (hj i hi).trans ht
      | false => exact .inr fun i hi => (hj i hi).trans ht

/-! ## The code for items -/

theorem insertion_eq (x : String) (items : List ComboItem) :
    insertion x items = .insertItems x (items.map ComboItem.shown) := by
  simp only [insertion, ComboItem.shownText_text]

theorem addition_eq (i : ComboItem) :
    addition plan icons x i = .call x "addItem" ((i.row (pictureIn plan icons)).icon ++
      [if i.isTranslated then .emptyText else i.shown]) := by
  unfold addition
  cases ht : i.isTranslated with
  | true => rfl
  | false =>
    rw [ComboItem.plainText_text ht]
    rfl

theorem renewal_eq (i : ComboItem × Nat) :
    renewal x i =
      if i.1.isTranslated then [.call x "setItemText" [.int i.2, i.1.shown]] else [] := by
  unfold renewal
  split
  · rw [ComboItem.translatedText_text ‹_›]
  · rfl

/-- The row of an item that has been added; a translated text is still missing. -/
def ComboItem.firstRow (picture : Picture → Expr) (i : ComboItem) : Row :=
  ⟨(i.row picture).icon, if i.isTranslated then .emptyText else i.shown⟩

theorem rows_additions (items : List ComboItem) (rows : List Row) :
    (items.map (addition plan icons x)).foldl Stmt.rowsAfter rows =
      rows ++ items.map (ComboItem.firstRow (pictureIn plan icons)) := by
  induction items generalizing rows with
  | nil => simp
  | cons i items ih =>
    rw [List.map_cons, List.foldl_cons, addition_eq, Stmt.rowsAfter_addItem, ih]
    simp [ComboItem.firstRow]

theorem rows_renewals (picture : Picture → Expr) (old : ComboItem → Row) (items : List ComboItem)
    (hicon : ∀ i, (old i).icon = (i.row picture).icon)
    (htext : ∀ i, i.isTranslated = false → (old i).text = i.shown) (l : List Row) :
    ((items.zipIdx l.length).flatMap (renewal x)).foldl Stmt.rowsAfter (l ++ items.map old) =
      l ++ items.map (ComboItem.row picture) := by
  induction items generalizing l with
  | nil => rfl
  | cons i items ih =>
    -- The rows of `l` have their texts, so the number of the next one is the length of `l`.
    have hrest := ih (l ++ [i.row picture])
    rw [List.length_append, List.append_assoc, List.append_assoc] at hrest
    rw [List.zipIdx_cons, List.flatMap_cons, List.foldl_append, renewal_eq]
    refine Eq.trans (congrArg (List.foldl _ · _) ?_) hrest
    cases ht : i.isTranslated with
    | true =>
      refine (Stmt.rowsAfter_setItemText l (items.map old) (old i) x i.shown).trans ?_
      rw [hicon]
      rfl
    | false =>
      have hsame : old i = i.row picture := by
        rw [show old i = ⟨(old i).icon, (old i).text⟩ from rfl, hicon, htext i ht]
        rfl
      rw [List.map_cons, hsame]
      rfl

theorem rows_insertion (picture : Picture → Expr) (h : ∀ i ∈ items, i.icon = none) :
    (insertion x items).rowsAfter [] = items.map (ComboItem.row picture) := by
  rw [insertion_eq, Stmt.rowsAfter, List.append_nil, List.map_map]
  refine List.map_congr_left fun i hi => ?_
  rw [Function.comp, ComboItem.row, h i hi]
  rfl

/-- The code of the setup function and then that of the texts show all items. -/
theorem rows_items (hne : items ≠ []) :
    (itemsCode plan icons x items ++ itemsTexts x items).foldl Stmt.rowsAfter [] =
      items.map (ComboItem.row (pictureIn plan icons)) := by
  have hempty : items.isEmpty = false := by simpa using hne
  rw [itemsCode, itemsTexts, hempty]
  by_cases halike : areUniform items = true
  · have hrows := @rows_insertion x items (pictureIn plan icons) (areUniform_iff.mp halike).1
    simp only [halike, if_true, Bool.false_eq_true, if_false]
    split
    · exact hrows
    · exact hrows
  · have hfirst := @rows_additions plan icons x items []
    simp only [halike, Bool.false_eq_true, if_false, List.foldl_append, hfirst]
    exact rows_renewals (pictureIn plan icons) (ComboItem.firstRow _) items (fun i => rfl)
      (fun i hi => by simp [ComboItem.firstRow, hi]) []

theorem rows_texts (picture : Picture → Expr) (items : List ComboItem) :
    (itemsTexts x items).foldl Stmt.rowsAfter (items.map (ComboItem.row picture)) =
      items.map (ComboItem.row picture) := by
  unfold itemsTexts
  split
  · rfl
  · split
    · rename_i halike
      split
      · exact @rows_insertion x items picture (areUniform_iff.mp halike).1
      · rfl
    · exact rows_renewals picture _ items (fun i => rfl) (fun i _ => rfl) []

theorem inserted_iff (hne : items ≠ []) :
    (∃ texts, .insertItems x texts ∈ itemsCode plan icons x items ++ itemsTexts x items) ↔
      Alike items := by
  have hempty : items.isEmpty = false := by simpa using hne
  rw [← areUniform_iff, itemsCode, itemsTexts, hempty]
  constructor
  · rintro ⟨texts, hs⟩
    by_cases halike : areUniform items = true
    · exact halike
    · rw [if_neg halike, if_neg halike] at hs
      rcases List.mem_append.mp hs with hs | hs
      · obtain ⟨i, -, hs⟩ := List.mem_map.mp hs
        cases hs
      · obtain ⟨i, -, hs⟩ := List.mem_flatMap.mp hs
        rw [renewal_eq] at hs
        split at hs
        · cases List.mem_singleton.mp hs
        · cases hs
  · intro halike
    refine ⟨items.map ComboItem.shown, ?_⟩
    rw [if_pos halike, if_pos halike, ← insertion_eq]
    split <;> simp

/-! ## Icons and operands -/

/-- An expression that gives a picture in a function: an icon has a variable, which is declared
before it is mentioned and is not assigned again. -/
inductive Portrays (plan : Plan) (setup : List Stmt) : Picture → Expr → Prop where
  | icon (i : Icon) (y : String) (themed : Bool) (before after : List Stmt) (hy : y ≠ "")
      (hsetup : setup = before ++ iconStmts plan themed y i ++ after)
      (hbefore : ∀ s ∈ before, y ∉ s.names) (hafter : y ∉ assigned after) :
      Portrays plan setup (.icon i) (.ref y)
  | pixmap (q : Pixmap) : Portrays plan setup (.pixmap q) (pictureExpr plan "QPixmap" q.text)
  | none : Portrays plan setup .none (.code "QIcon()")

theorem isWritten_pictureExpr (plan : Plan) {type : String} (text : String) :
    (pictureExpr plan type text).IsWritten := by
  unfold pictureExpr
  split
  · exact Expr.isWritten_code (Expr.append_ne_empty _ (by decide))
  · split
    · split
      · exact fun _ => Expr.append_ne_empty _ (by decide)
      · exact fun _ => Expr.append_ne_empty _ (by decide)
    · exact Expr.isWritten_wrap _ _

theorem Portrays.isWritten {setup : List Stmt} {p : Picture} {e : Expr}
    (h : Portrays plan setup p e) : e.IsWritten := by
  cases h with
  | icon i y themed before after hy => exact fun _ => hy
  | pixmap q => exact isWritten_pictureExpr plan q.text
  | none => exact Expr.isWritten_code (by decide)

theorem ComboItem.isWritten_shown {i : ComboItem} : i.shown.IsWritten ↔ i.text ≠ none := by
  unfold shown
  cases i.text with
  | none => exact ⟨fun h => absurd rfl (h ⟨"", "", ""⟩), fun h => absurd rfl h⟩
  | some p =>
    refine ⟨fun _ => by simp, fun _ => ?_⟩
    dsimp only
    split
    · exact Expr.isWritten_translate _ _
    · exact Expr.isWritten_wrap _ _

section Operands

variable {setup : List Stmt} (hicons : ∀ i ∈ items, ∀ p, i.icon = some p →
  Portrays plan setup p.picture (pictureIn plan icons p.picture))

include hicons

theorem isWritten_operands (htexts : ∀ i ∈ items, i.text ≠ none) :
    ∀ s ∈ itemsCode plan icons x items ++ itemsTexts x items, ∀ e ∈ s.operands, e.IsWritten := by
  have hshown : ∀ i ∈ items, i.shown.IsWritten :=
    fun i hi => ComboItem.isWritten_shown.mpr (htexts i hi)
  have hinsertion : ∀ e ∈ (insertion x items).operands, e.IsWritten := by
    rw [insertion_eq]
    intro e he
    obtain ⟨i, hi, rfl⟩ := List.mem_map.mp he
    exact hshown i hi
  intro s hs
  rcases List.mem_append.mp hs with hs | hs
  · rcases mem_itemsCode hs with rfl | ⟨i, hi, rfl⟩
    · exact hinsertion
    · rw [addition_eq]
      refine List.forall_mem_append.mpr ⟨fun e he => ?_, fun e he => ?_⟩
      · obtain ⟨p, hp, rfl⟩ := List.mem_map.mp he
        exact (hicons i hi p (Option.mem_toList.mp hp)).isWritten
      · rw [List.mem_singleton.mp he]
        split
        · exact Expr.isWritten_code (by decide)
        · exact hshown i hi
  · rcases mem_itemsTexts hs with rfl | rfl | ⟨i, hi, rfl⟩
    · intro e he
      cases he
    · exact hinsertion
    · intro e he
      rcases List.mem_cons.mp he with rfl | he
      · exact Expr.isWritten_int i.2
      · rw [List.mem_singleton.mp he]
        unfold translatedText
        split <;> exact Expr.isWritten_translate _ _

omit hicons in
theorem missing_operand {i : ComboItem} (hi : i ∈ items) (htext : i.text = none) :
    ∃ s ∈ itemsCode plan icons x items, i.shown ∈ s.operands := by
  have ht := ComboItem.isTranslated_of_missing htext
  have hnot : ¬ items.all ComboItem.isTranslated = true := fun h => by
    rw [List.all_eq_true.mp h i hi] at ht
    cases ht
  unfold itemsCode
  rw [if_neg hnot]
  split
  · refine ⟨_, List.mem_singleton_self _, ?_⟩
    rw [insertion_eq]
    exact List.mem_map_of_mem hi
  · refine ⟨_, List.mem_map_of_mem hi, ?_⟩
    rw [addition_eq, ht]
    exact List.mem_append_right _ (List.mem_singleton_self _)

theorem isWritten_operands_iff :
    (∀ s ∈ itemsCode plan icons x items ++ itemsTexts x items, ∀ e ∈ s.operands, e.IsWritten) ↔
      ∀ i ∈ items, i.text ≠ none := by
  refine ⟨fun h i hi htext => ?_, isWritten_operands hicons⟩
  obtain ⟨s, hs, hoperand⟩ := @missing_operand plan icons x items i hi htext
  exact ComboItem.isWritten_shown.mp (h s (List.mem_append_left _ hs) _ hoperand) htext

end Operands

/-! ## The code of a form -/

namespace Job

variable {job : Job} {b : Builder} {v : Visit}

/-- The code that fills a combo box; other calls pass an object of the form. -/
def filling (job : Job) (x : String) (l : List Stmt) : List Stmt :=
  l.filter fun s => s.fills x && !job.handles s

theorem isRoutine_of_fills {s : Stmt} (h : s.fills x = true) : s.isRoutine = false := by
  cases s with
  | insertItems receiver texts => rfl
  | call receiver method args =>
    simp only [Stmt.fills, Bool.and_eq_true, Bool.or_eq_true, List.contains_cons] at h
    rcases h.2 with (h | h | h) | ⟨h, hargs⟩
    · simp [Stmt.isRoutine, isFilling, beq_iff_eq.mp h]
    · simp [Stmt.isRoutine, isFilling, beq_iff_eq.mp h]
    · cases h
    · simp [Stmt.isRoutine, isFilling, h, hargs]
  | _ => cases h

theorem filling_eq (x : String) (l : List Stmt) :
    job.filling x l = (l.filter job.isNotable).filter (Stmt.fills x) := by
  rw [filling, List.filter_filter]
  refine List.filter_congr fun s _ => ?_
  cases hs : s.fills x with
  | false => rfl
  | true =>
    rw [isNotable, isRoutine_of_fills hs]
    rfl

theorem fills_itemsCode {name : String} {s : Stmt} (hs : s ∈ itemsCode plan icons name items) :
    s.fills x = (name == x) := by
  rcases mem_itemsCode hs with rfl | ⟨i, -, rfl⟩
  · rfl
  · simp [addition, Stmt.fills]

theorem fills_itemsTexts {name : String} {s : Stmt} (hs : s ∈ itemsTexts name items) :
    s.fills x = (name == x) := by
  rcases mem_itemsTexts hs with rfl | rfl | ⟨i, -, rfl⟩
  · simp [Stmt.fills]
  · rfl
  · simp [Stmt.fills, isNumbered, Expr.int]

theorem fills_enrolment {t : Table} {seen : List String} {d name : String} {s : Stmt}
    (hs : s ∈ job.enrolment t seen d name) : s.fills x = false := by
  rcases mem_enrolment hs with ⟨-, rfl⟩ | rfl
  · unfold groupCreation
    split <;> rfl
  · simp [Stmt.fills]

theorem filter_fills_equipment (final : Builder) (seen : List String) (l : List Visit) :
    (job.equipment final seen l).filter (Stmt.fills x) = l.flatMap fun v =>
      (itemsCode job.plan final.icons (job.name v) (job.items v)).filter (Stmt.fills x) := by
  induction l generalizing seen with
  | nil => rfl
  | cons v l ih =>
    have hjoined : ((job.joined? v).toList.flatMap
        (job.enrolment final.session.table seen · (job.name v))).filter (Stmt.fills x) = [] := by
      refine List.filter_eq_nil_iff.mpr fun s hs => ?_
      obtain ⟨d, -, hs⟩ := List.mem_flatMap.mp hs
      rw [fills_enrolment hs]
      exact Bool.false_ne_true
    rw [equipment, outfit, List.filter_append, List.filter_append, hjoined, List.append_nil, ih,
      List.flatMap_cons]

/-- Of parts that fill the widgets of a form, those that fill one widget are its own. -/
theorem filter_fills_widget (hj : job.Named) (hv : v ∈ job.form.visits)
    (hk : v.node.kind = .widget) {part : Visit → List Stmt}
    (hpart : ∀ w, ∀ s ∈ part w, s.fills (job.name v) = (job.name w == job.name v)) :
    ((job.form.visits.filter isWidget).flatMap fun w =>
      (part w).filter (Stmt.fills (job.name v))) = part v := by
  have hnodup : (job.form.visits.filter isWidget).Nodup := job.form.visits_distinct.filter _
  refine (flatMap_only hnodup (mem_widgets.mpr ⟨hv, hk⟩) fun w hw hne => ?_).trans ?_
  · refine List.filter_eq_nil_iff.mpr fun s hs => ?_
    -- Another widget has another name.
    rw [hpart w s hs]
    obtain ⟨hw, hkind⟩ := mem_widgets.mp hw
    simpa using fun hname => hne
      (hj.eq_of_name hw (by rw [hkind]; rfl) hv (by rw [hk]; rfl) hname)
  · exact List.filter_eq_self.mpr fun s hs => (hpart v s hs).trans (beq_self_eq_true _)

/-- The items of a combo box are all inserted, each with its own icon and text. -/
structure Stocked (job : Job) (picture : Picture → Expr) (x : String) (items : List ComboItem)
    (setup retranslate : List Stmt) : Prop where
  /-- Items that are alike are inserted by one call. -/
  together : Alike items →
    job.filling x setup = (if items.all ComboItem.isTranslated then []
      else [.insertItems x (items.map ComboItem.shown)]) ∧
    job.filling x retranslate = if items.all ComboItem.isTranslated then
      [.call x "clear" [], .insertItems x (items.map ComboItem.shown)] else []
  /-- Other items are added one by one, and translated texts are set by their numbers. -/
  apart : ¬ Alike items →
    job.filling x setup = (items.map fun i => .call x "addItem"
      ((i.row picture).icon ++ [if i.isTranslated then .emptyText else i.shown])) ∧
    job.filling x retranslate = items.zipIdx.flatMap fun i =>
      if i.1.isTranslated then [.call x "setItemText" [.int i.2, i.1.shown]] else []
  single : (∃ texts, .insertItems x texts ∈ job.filling x setup ++ job.filling x retranslate) ↔
    Alike items
  rows : (job.filling x setup ++ job.filling x retranslate).foldl Stmt.rowsAfter [] =
    items.map (ComboItem.row picture)
  /-- When the language changes, the same items are shown. -/
  again : (job.filling x retranslate).foldl Stmt.rowsAfter (items.map (ComboItem.row picture)) =
    items.map (ComboItem.row picture)
  icons : ∀ i ∈ items, ∀ p, i.icon = some p → Portrays job.plan setup p.picture (picture p.picture)
  /-- There is an empty operand if and only if a text is missing. -/
  operands : (∀ s ∈ job.filling x setup ++ job.filling x retranslate, ∀ e ∈ s.operands,
    e.IsWritten) ↔ ∀ i ∈ items, i.text ≠ none

theorem stocked {setup retranslate : List Stmt} (hne : items ≠ [])
    (hsetup : job.filling x setup = itemsCode job.plan icons x items)
    (hretranslate : job.filling x retranslate = itemsTexts x items)
    (hicons : ∀ i ∈ items, ∀ p, i.icon = some p →
      Portrays job.plan setup p.picture (pictureIn job.plan icons p.picture)) :
    job.Stocked (pictureIn job.plan icons) x items setup retranslate := by
  have hempty : items.isEmpty = false := by simpa using hne
  refine ⟨fun halike => ?_, fun hmixed => ?_, ?_, ?_, ?_, hicons, ?_⟩
  · rw [hsetup, hretranslate, itemsCode, itemsTexts, areUniform_iff.mpr halike, hempty,
      insertion_eq]
    exact ⟨rfl, rfl⟩
  · rw [← areUniform_iff] at hmixed
    rw [hsetup, hretranslate, itemsCode, itemsTexts, if_neg hmixed, if_neg hmixed, hempty]
    refine ⟨List.map_congr_left fun i _ => addition_eq i, ?_⟩
    exact congrArg items.zipIdx.flatMap (funext fun i => renewal_eq i)
  · rw [hsetup, hretranslate, inserted_iff hne]
  · rw [hsetup, hretranslate, rows_items hne]
  · rw [hretranslate, rows_texts]
  · rw [hsetup, hretranslate]
    exact isWritten_operands_iff hicons

theorem wanted_icon (hv : v ∈ job.form.visits) (hk : v.node.kind = .widget) {i : ComboItem}
    (hi : i ∈ job.items v) {p : Property} (hp : i.icon = some p) {c : Icon}
    (hc : p.picture = .icon c) : Wanted job.requests (.icon c) := by
  unfold items at hi
  split at hi
  · rename_i hcombo
    refine ⟨⟨.icon c, fun y _ => [.call (job.name v) "addItem"
      [.ref y, if i.isTranslated then .emptyText else plainText i.text ""]]⟩, ?_, rfl⟩
    refine List.mem_flatMap.mpr ⟨v, hv, List.mem_append_left _ ?_⟩
    simp only [enterRequests, hk, hcombo, if_true]
    refine List.mem_append_left _ (List.mem_append_left _ (List.mem_flatMap.mpr ⟨i, hi, ?_⟩))
    simp [itemRequests, iconRequests, pictureRequests, hp, hc]
  · cases hi

theorem portrays_icon {known : List String} (hstage : job.Stage known job.requests b)
    (h : job.Furnished b) (hv : v ∈ job.form.visits) (hk : v.node.kind = .widget) {i : ComboItem}
    (hi : i ∈ job.items v) {p : Property} (hp : i.icon = some p) :
    Portrays job.plan b.setup p.picture (pictureIn job.plan b.icons p.picture) := by
  cases hc : p.picture with
  | icon c =>
    have hvar := Shared.mem_icons.mp
      (mem_variables hstage.tidy hstage.served (wanted_icon hv hk hi hp hc))
    cases hlookup : b.icons.lookup c with
    | none => exact absurd hvar (Shared.not_mem_of_lookup_none hlookup _)
    | some y =>
      have hy := Shared.mem_of_lookup_some hlookup
      obtain ⟨themed, before, after, hsetup, hbefore, hafter⟩ :=
        (hstage.tidy.held (Shared.mem_icons.mpr hy)).declared
      rw [pictureIn, hlookup]
      exact .icon c y themed before after (h.icons _ hy) hsetup hbefore hafter
  | pixmap q => exact .pixmap q
  | none => exact .none

namespace Furnished

variable (hj : job.Named) (hv : v ∈ job.form.visits) (hk : v.node.kind = .widget)

include hj hv hk

theorem filling_setup (h : job.Furnished b) : job.filling (job.name v) b.setup =
    itemsCode job.plan b.icons (job.name v) (job.items v) := by
  rw [filling_eq, h.filter_equipment fun _ => rfl, filter_fills_equipment]
  exact filter_fills_widget hj hv hk fun w s => fills_itemsCode

end Furnished

theorem filling_texts (hj : job.Named) (hv : v ∈ job.form.visits) (hk : v.node.kind = .widget)
    {l : List Stmt}
    (hl : l.filter job.isNotable = (job.form.visits.filter isWidget).flatMap job.texts) :
    job.filling (job.name v) l = itemsTexts (job.name v) (job.items v) := by
  rw [filling_eq, hl, List.filter_flatMap]
  exact filter_fills_widget hj hv hk fun w s => fills_itemsTexts

end Job

/-- Every combo box of a form shows its items in their order, each with its own icon and text; one
call inserts them if they are alike, and else there is one call for each. -/
theorem items_kept (o : Options) (document : Nat) (f : Form) (root : Visit) (s : Session)
    (hk : f.node.kind = .ui) (hw : Node.All Node.WellFormed f.node)
    (hroot : f.rootVisit? = some root) (hd : s.table.Distinct) :
    let d := ((Header.declaration o document f root).run s).1
    let job := jobOf o document f root s
    ∃ picture, ∀ v ∈ f.visits, v.node.kind = .widget →
      job.plan.classes.derives (v.node.stringAttribute "class") "QComboBox" = true →
      let items := (v.node.children "item").map ComboItem.ofNode
      items ≠ [] →
        job.Stocked picture (job.name v) items d.functions.setup d.functions.retranslate := by
  intro d job
  have hj : job.Named := jobOf_named o document hk hw hroot hd
  let b := built job.plan job.form (Header.naming document f root s).2
  have hsetup : d.functions.setup = b.setup := (declaration_built o document hk hw hroot hd).1
  have htexts : d.functions.retranslate.filter job.isNotable =
      (job.form.visits.filter Job.isWidget).flatMap job.texts :=
    declaration_texts o document hk hw hroot hd
  have h : job.Furnished b := Job.built_furnished hj hw rfl
  obtain ⟨known, hstage⟩ : ∃ known, job.Stage known job.requests b :=
    Job.built_stage hj (mainForm_object o document hk hw hroot hd) hw rfl
  refine ⟨pictureIn job.plan b.icons, ?_⟩
  intro v hv hkind hcombo items hne
  have hitems : job.items v = items := if_pos hcombo
  have hcode := h.filling_setup hj hv hkind
  have hlater := Job.filling_texts hj hv hkind htexts
  rw [hitems] at hcode hlater
  rw [hsetup]
  refine Job.stocked hne hcode hlater fun i hi p hp => ?_
  exact Job.portrays_icon hstage h hv hkind (hitems ▸ hi) hp

/-- A combo box with three items: one with an icon from the theme, one without anything, and one
with a text alone. -/
def selector : Node :=
  let text (t : String) : Field := .node "property" (.mk .property [("name", .string "text")]
    [.node "string" (.mk .string [] [] t)] "")
  .mk .widget [("class", .string "QComboBox"), ("name", .string "box")]
    [.node "item" (.mk .item []
        [text "save", .node "property" (.mk .property [("name", .string "icon")]
          [.node "iconset" (.mk .resourceIcon [("theme", .string "disk")] [] "")] "")] ""),
      .node "item" (.mk .item [] [] ""), .node "item" (.mk .item [] [text "quit"] "")] ""

def selectorPanel : Visit :=
  ⟨[0], .mk .widget [("class", .string "QWidget"), ("name", .string "Form")]
    [.node "widget" selector] ""⟩

def selectorForm : Form := ⟨.mk .ui [] [.node "widget" selectorPanel.node] ""⟩

/-- The item without a text gets an empty operand. -/
theorem items_kept_selector :
    selectorForm.rootVisit? = some selectorPanel ∧ Node.All Node.WellFormed selectorForm.node ∧
      let d := ((Header.declaration {} 0 selectorForm selectorPanel).run {}).1
      let job := jobOf {} 0 selectorForm selectorPanel {}
      ∃ y, y ≠ "" ∧
        job.filling "box" d.functions.setup =
          [.call "box" "addItem" [.ref y, .emptyText], .call "box" "addItem" [.code ""],
            .call "box" "addItem" [.emptyText]] ∧
        job.filling "box" d.functions.retranslate =
          [.call "box" "setItemText" [.int 0, .translate "save" ""],
            .call "box" "setItemText" [.int 2, .translate "quit" ""]] := by
  have hw : Node.All Node.WellFormed selectorForm.node := by decide +kernel
  obtain ⟨picture, h⟩ :=
    items_kept {} 0 selectorForm selectorPanel {} rfl hw rfl Table.distinct_empty
  have hv : (⟨[0, 0], selector⟩ : Visit) ∈ selectorForm.visits :=
    (Node.mem_visits selectorForm.node _).mpr rfl
  have hname : (jobOf {} 0 selectorForm selectorPanel {}).name ⟨[0, 0], selector⟩ = "box" := by
    decide +kernel
  obtain ⟨p, c, hc, hitems⟩ : ∃ p c, p.picture = .icon c ∧
      (selector.children "item").map ComboItem.ofNode =
        [⟨some ⟨"save", "", true⟩, some p⟩, ⟨none, none⟩, ⟨some ⟨"quit", "", true⟩, none⟩] :=
    ⟨_, _, rfl, rfl⟩
  have hbox := h _ hv rfl (by decide +kernel) (by decide +kernel)
  rw [hitems, hname] at hbox
  have hmixed := hbox.apart fun halike => by cases halike.1 _ (List.mem_cons_self ..)
  have hicon := hbox.icons _ (List.mem_cons_self ..) p rfl
  rw [hc] at hicon
  obtain ⟨e, he⟩ : ∃ e, picture (.icon c) = e := ⟨_, rfl⟩
  rw [he] at hicon
  cases hicon with
  | icon c y themed before after hy =>
    refine ⟨rfl, hw, y, hy, hmixed.1.trans ?_, hmixed.2⟩
    rw [← he, ← hc]
    rfl

end Setup

end FormCompiler
