import FormCompiler.Proofs.Document.Shape
import FormCompiler.Proofs.Text.Lowercase
import FormCompiler.Proofs.Xml.Transmission

/-!
# Nodes as markup

The markup of a node is the tree of the element it is written as.  Writing the node and writing the
tree give the same document, and the names of the schema are such that the element is found again
under the tag and with the attributes of the node.
-/

namespace FormCompiler.Document

open Xml (Markup Part Command Writer IsName reported reportedTag)

/-! ## The names of the schema -/

/-- A text of letters of the Latin alphabet. -/
def Lettered (s : String) : Prop := s.toList ≠ [] ∧ ∀ c ∈ s.toList, c.isAlpha = true

-- The letters are those of the list: an instance found by search may run over all characters.
instance (s : String) : Decidable (Lettered s) :=
  decidable_of_iff (s.toList ≠ [] ∧ s.toList.all Char.isAlpha = true) (by simp [Lettered])

/-- A tag that is written as `written` and read as `tag`. -/
def SpelledAs (tag written : String) : Prop :=
  Lettered written ∧ written.toList.map Char.toLower = tag.toList

instance (tag written : String) : Decidable (SpelledAs tag written) :=
  inferInstanceAs (Decidable (_ ∧ _))

theorem letter_facts (c : Char) (h : c.isAlpha = true) :
    Xml.isNameChar c = true ∧ c ≠ ':' ∧ c.toNat < 128 ∧ c.toLower.isAlpha = true ∧
      c.toLower.toLower = c.toLower := by
  have hsmall : c.toNat < 128 := by
    change (decide (c.val ≥ 65 ∧ c.val ≤ 90) || c.val ≥ 97 && c.val ≤ 122) = true at h
    simp only [Bool.or_eq_true, Bool.and_eq_true, decide_eq_true_eq, ge_iff_le,
      UInt32.le_iff_toNat_le] at h
    change 65 ≤ c.toNat ∧ c.toNat ≤ 90 ∨ 97 ≤ c.toNat ∧ c.toNat ≤ 122 at h
    omega
  have hall : ∀ n < 128, (Char.ofNat n).isAlpha = true →
      Xml.isNameChar (Char.ofNat n) = true ∧ Char.ofNat n ≠ ':' ∧
        (Char.ofNat n).toLower.isAlpha = true ∧
        (Char.ofNat n).toLower.toLower = (Char.ofNat n).toLower := by
    decide
  have hc := hall c.toNat hsmall
  rw [Char.ofNat_toNat] at hc
  obtain ⟨h1, h2, h3, h4⟩ := hc h
  exact ⟨h1, h2, hsmall, h3, h4⟩

theorem isName_of_lettered {s : String} (h : Lettered s) : IsName s :=
  ⟨h.1, fun c hc => (letter_facts c (h.2 c hc)).1⟩

theorem SpelledAs.self {tag written : String} (h : SpelledAs tag written) : SpelledAs tag tag := by
  obtain ⟨⟨hne, hall⟩, hlower⟩ := h
  refine ⟨⟨?_, ?_⟩, ?_⟩
  · rw [← hlower]
    simpa using hne
  · rw [← hlower]
    intro c hc
    obtain ⟨d, hd, rfl⟩ := List.mem_map.mp hc
    exact (letter_facts d (hall d hd)).2.2.2.1
  · rw [← hlower, List.map_map]
    exact List.map_congr_left fun d hd => (letter_facts d (hall d hd)).2.2.2.2

namespace Kind

theorem tag_lettered (k : Kind) : Lettered k.tag := by
  cases k <;> decide +kernel

theorem children_spelled (k : Kind) :
    ∀ spec ∈ k.schema.children, SpelledAs spec.tag spec.written := by
  cases k <;> decide +kernel

theorem attributes_spelled (k : Kind) :
    ∀ spec ∈ k.schema.attributes, Lettered spec.name ∧
      (spec.written = spec.name ∨ k = .ui ∧ spec.name = "stdSetDef") := by
  cases k <;> decide +kernel

end Kind

theorem localName_plain (cs : List Char) (h : ∀ c ∈ cs, c ≠ ':') : Xml.localName cs = cs := by
  have hdrop : cs.dropWhile (· != ':') = [] := by
    induction cs with
    | nil => rfl
    | cons c cs ih =>
      have hc : (c != ':') = true := bne_iff_ne.mpr (h c (List.mem_cons_self ..))
      rw [List.dropWhile_cons, if_pos hc, ih (fun d hd => h d (List.mem_cons_of_mem c hd))]
  rw [Xml.localName, hdrop]

theorem lowercase_spelled {tag written : String} (h : SpelledAs tag written) :
    Text.lowercase written = tag := by
  rw [Text.lowercase_ascii written (fun c hc => (letter_facts c (h.1.2 c hc)).2.2.1), h.2,
    String.ofList_toList]

theorem reportedTag_spelled {tag written : String} (h : SpelledAs tag written) :
    reportedTag written = tag := by
  rw [reportedTag, localName_plain _ (fun c hc => (letter_facts c (h.1.2 c hc)).2.1),
    String.ofList_toList, lowercase_spelled h]

theorem reported_lettered {name : String} (h : Lettered name) (value : String) :
    reported (name, value) = (name, value) := by
  rw [reported, localName_plain _ (fun c hc => (letter_facts c (h.2 c hc)).2.1),
    String.ofList_toList]

theorem isEmpty_lettered {s : String} (h : Lettered s) : s.isEmpty = false := by
  rw [String.isEmpty_eq_false_iff]
  exact fun he => h.1 (by rw [he]; rfl)

namespace Node

/-! ## Markup -/

/-- The parts for character data; an empty text has none. -/
def textParts (s : String) : List Part := if s.isEmpty then [] else [.text s]

mutual

/-- The tree of the element that a node is written as. -/
def markup (tag : String) : Node → Markup
  | mk kind attributes fields text =>
    .mk (tagFor kind tag) (attributes.map fun a => (kind.writtenAttribute a.1, a.2.format))
      (fieldsParts kind fields ++ textParts text)
termination_by structural n => n

def fieldsParts (kind : Kind) : List Field → List Part
  | [] => []
  | f :: rest => .element (fieldMarkup kind f) :: fieldsParts kind rest
termination_by structural fs => fs

def fieldMarkup (kind : Kind) : Field → Markup
  | .value tag v => .mk (kind.writtenTag tag) [] (textParts v.format)
  | .node tag n => markup (kind.writtenTag tag) n
termination_by structural f => f

end

theorem partsCommands_append (ps qs : List Part) :
    Markup.partsCommands (ps ++ qs) = Markup.partsCommands ps ++ Markup.partsCommands qs := by
  induction ps with
  | nil => rfl
  | cons p ps ih =>
    cases p with
    | text s =>
      rw [List.cons_append, Markup.partsCommands, Markup.partsCommands, ih, List.cons_append]
    | element m =>
      rw [List.cons_append, Markup.partsCommands, Markup.partsCommands, ih, List.append_assoc]

theorem partsCommands_text (s : String) : Markup.partsCommands (textParts s) = textCommands s := by
  unfold textParts textCommands
  split <;> rfl

theorem run_textElement (w : Writer) (tag s : String) :
    w.run [.textElement tag s] = w.run (Markup.mk tag [] (textParts s)).commands := by
  rw [Markup.commands, partsCommands_text, textCommands]
  split
  · next hs => simp [Writer.run, Writer.step, hs]
  · next hs => simp [Writer.run, Writer.step, hs]

theorem run_append_congr {w : Writer} {cs cs' ds ds' : List Command} (h : w.run cs = w.run cs')
    (h' : ∀ w : Writer, w.run ds = w.run ds') : w.run (cs ++ ds) = w.run (cs' ++ ds') := by
  rw [Writer.run_append, Writer.run_append, h, h']

mutual

theorem run_commands (n : Node) (tag : String) (w : Writer) :
    w.run (n.commands tag) = w.run (n.markup tag).commands := by
  match n with
  | mk kind attributes fields text =>
    rw [commands, markup, Markup.commands, partsCommands_append, partsCommands_text]
    simp only [List.append_assoc, List.map_map]
    exact run_append_congr rfl fun w =>
      run_append_congr (run_fieldsCommands fields kind w) fun _ => rfl
termination_by structural n

theorem run_fieldsCommands (fs : List Field) (kind : Kind) (w : Writer) :
    w.run (fieldsCommands kind fs) = w.run (Markup.partsCommands (fieldsParts kind fs)) := by
  match fs with
  | [] => rfl
  | f :: fs =>
    rw [fieldsCommands, fieldsParts, Markup.partsCommands]
    exact run_append_congr (run_fieldCommands f kind w) fun w => run_fieldsCommands fs kind w
termination_by structural fs

theorem run_fieldCommands (f : Field) (kind : Kind) (w : Writer) :
    w.run (fieldCommands kind f) = w.run (fieldMarkup kind f).commands := by
  match f with
  | .value tag v => exact run_textElement w (kind.writtenTag tag) v.format
  | .node tag n => exact run_commands n (kind.writtenTag tag) w
termination_by structural f

end

theorem toText_markup (n : Node) : n.toText = Xml.write (n.markup "").commands := by
  apply String.toList_inj.mp
  rw [toText, toTextAs, Xml.toList_write, Xml.toList_write, run_commands]

end Node

end FormCompiler.Document
