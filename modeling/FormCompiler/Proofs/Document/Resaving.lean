import FormCompiler.Proofs.Document.Objects
import FormCompiler.Proofs.Document.RoundTrip
import FormCompiler.Proofs.Number.Decimal
import Mathlib.Data.List.Nodup

/-!
# Saving a form and loading it again

Loading what was saved gives the canonical form of what was saved: attributes under the names they
are written with, and floating point values as their texts say.  The canonical form has the same
document, so saving is a fixed point after one round (`Form.resaved`).  One thing can go wrong: a
form that gives its flag under both spellings is written with one attribute twice, and such a
document is refused.
-/

namespace FormCompiler.Document

open Xml (Markup Part Located Spells)

/-! ## Scalars -/

namespace Scalar

/-- The value that is read from the text of a value. -/
def canonical (v : Scalar) : Scalar := (parse v.type v.format).1

theorem canonical_type (v : Scalar) : v.canonical.type = v.type := parse_type _ _

theorem canonical_of_plain {v : Scalar} (h : v.isFloat = false) : v.canonical = v :=
  stable_of_floats v (by simp [h])

theorem canonical_float (t : Number.FloatType) (b : Number.Binary) :
    ∃ c, (float t b).canonical = float t c := by
  simp only [canonical, parse, type]
  split
  · exact ⟨_, rfl⟩
  · exact ⟨_, rfl⟩

theorem string_canonical (v : Scalar) : v.canonical.string? = v.string? := by
  cases v with
  | float t b =>
    obtain ⟨c, hc⟩ := canonical_float t b
    rw [hc]
    rfl
  | _ => rw [canonical_of_plain rfl]

theorem int_canonical (v : Scalar) : v.canonical.int? = v.int? := by
  cases v with
  | float t b =>
    obtain ⟨c, hc⟩ := canonical_float t b
    rw [hc]
    rfl
  | _ => rw [canonical_of_plain rfl]

theorem parsed_representable {t : Number.FloatType} {b : Number.Binary} (h : (float t b).Parsed) :
    b.Representable t := by
  obtain ⟨text, htext⟩ := h
  simp only [parse, type] at htext
  split at htext
  · next v hv =>
    obtain ⟨_, rfl⟩ := float.inj htext
    exact Number.readBinary_representable hv
  · obtain ⟨_, rfl⟩ := float.inj htext
    exact Number.Binary.representable_zero t false

/-- One round through its text may change a value, but not the text. -/
theorem canonical_format {v : Scalar} (h : v.Parsed) : v.canonical.format = v.format := by
  cases v with
  | float t b =>
    have hp : 0 < places t ∧ places t ≤ 400 := by cases t <;> decide
    obtain ⟨w, hread, hsame⟩ :=
      Number.fixed_reread t (places t) hp.1 hp.2 b (parsed_representable h)
    have htrim : Text.trim (Number.fixed (places t) b) = Number.fixed (places t) b :=
      trim_eq_self _ (Number.fixed_isWhite (places t) hp.1 b)
    simp only [canonical, parse, type, format, htrim, hread, hsame]
  | _ => rw [canonical_of_plain rfl]

theorem canonical_stable {v : Scalar} (h : v.Parsed) : v.canonical.Stable := by
  rw [Stable, canonical_type, canonical_format h]
  rfl

end Scalar

/-! ## Spellings -/

theorem Kind.writtenAttribute_eq {k : Kind} {name : String} (h : (k.attribute? name).isSome) :
    k.writtenAttribute name = if k = .ui ∧ name = "stdSetDef" then "stdsetdef" else name := by
  obtain ⟨spec, hspec⟩ := Option.isSome_iff_exists.mp h
  split
  · next hold =>
    obtain ⟨rfl, rfl⟩ := hold
    rfl
  · next hnew =>
    have hwritten := (k.attributes_spelled spec (List.mem_of_find?_eq_some hspec)).2
    rw [attribute_name hspec] at hwritten
    rw [Kind.writtenAttribute, hspec]
    exact hwritten.resolve_right hnew

/-- An attribute under the name it is written with is an attribute of the same type, at no later
place in the schema. -/
theorem Kind.attribute_written {k : Kind} {name : String} {spec : AttributeSpec}
    (h : k.attribute? name = some spec) :
    (∃ spec', k.attribute? (k.writtenAttribute name) = some spec' ∧ spec'.type = spec.type) ∧
      k.writtenAttribute (k.writtenAttribute name) = k.writtenAttribute name := by
  rw [writtenAttribute_eq (by rw [h]; rfl)]
  split
  · next hold =>
    obtain ⟨rfl, rfl⟩ := hold
    obtain rfl := Option.some.inj h
    exact ⟨⟨_, rfl, rfl⟩, rfl⟩
  · next hnew => exact ⟨⟨spec, h, rfl⟩, by rw [writtenAttribute_eq (by rw [h]; rfl), if_neg hnew]⟩

namespace Node

/-- The flag of a form is not given under both of its spellings. -/
def SpelledOnce (n : Node) : Prop :=
  n.kind = .ui → n.attribute? "stdsetdef" = none ∨ n.attribute? "stdSetDef" = none

theorem not_mem_of_attribute {n : Node} {name : String} (h : n.attribute? name = none)
    {a : String × Scalar} (ha : a ∈ n.attributes) : a.1 ≠ name := by
  have hne := List.lookup_eq_none_iff.mp h a ha
  rw [bne_iff_ne] at hne
  exact fun he => hne he.symm

/-- Since the two spellings are neighbours, one of them can take the place of the other. -/
theorem written_inOrder {n : Node} (hw : n.WellFormed) (ho : n.SpelledOnce)
    {a b : String × Scalar} (ha : a ∈ n.attributes) (hb : b ∈ n.attributes)
    (h : n.kind.attributeRank a.1 < n.kind.attributeRank b.1) :
    n.kind.attributeRank (n.kind.writtenAttribute a.1) <
      n.kind.attributeRank (n.kind.writtenAttribute b.1) := by
  have hsa := isSome_of_attribute (hw.attributes a ha)
  have hsb := isSome_of_attribute (hw.attributes b hb)
  have hnew : Kind.ui.attributeRank "stdsetdef" = 3 := rfl
  have hold : Kind.ui.attributeRank "stdSetDef" = 4 := rfl
  rw [Kind.writtenAttribute_eq hsa, Kind.writtenAttribute_eq hsb]
  split
  · next hspelled =>
    obtain ⟨hk, hname⟩ := hspelled
    rw [hk] at h ⊢
    rw [hname] at h
    split
    · next hboth =>
      rw [hboth.2] at h
      omega
    · omega
  · split
    · next hspelled =>
      obtain ⟨hk, hname⟩ := hspelled
      have hne : a.1 ≠ "stdsetdef" := by
        rcases ho hk with hnone | hnone
        · exact not_mem_of_attribute hnone ha
        · exact absurd hname (not_mem_of_attribute hnone hb)
      rw [hk] at h hsa ⊢
      rw [hname] at h
      have hrank : Kind.ui.attributeRank a.1 ≠ Kind.ui.attributeRank "stdsetdef" := fun he =>
        hne (Kind.ui.attributeRank_injective a.1 "stdsetdef" hsa rfl he)
      omega
    · exact h

/-! ## Canonical nodes -/

mutual

/-- The node that is read from the document of a node. -/
def canonical : Node → Node
  | mk kind attributes fields text =>
    mk kind (attributes.map fun a => (kind.writtenAttribute a.1, a.2.canonical))
      (canonicalFields fields) text
termination_by structural n => n

def canonicalFields : List Field → List Field
  | [] => []
  | f :: rest => canonicalField f :: canonicalFields rest
termination_by structural fs => fs

def canonicalField : Field → Field
  | .value tag v => .value tag v.canonical
  | .node tag n => .node tag (canonical n)
termination_by structural f => f

end

theorem canonicalFields_eq (fs : List Field) : canonicalFields fs = fs.map canonicalField := by
  induction fs with
  | nil => rfl
  | cons f fs ih => rw [canonicalFields, ih, List.map_cons]

theorem canonical_kind (n : Node) : n.canonical.kind = n.kind := by
  cases n
  rfl

theorem canonical_text (n : Node) : n.canonical.text = n.text := by
  cases n
  rfl

theorem canonical_attributes (n : Node) :
    n.canonical.attributes =
      n.attributes.map fun a => (n.kind.writtenAttribute a.1, a.2.canonical) := by
  cases n
  rfl

theorem canonical_fields (n : Node) : n.canonical.fields = n.fields.map canonicalField := by
  obtain ⟨k, as, fs, t⟩ := n
  exact canonicalFields_eq fs

theorem canonicalField_tag (f : Field) : (canonicalField f).tag = f.tag := by
  cases f <;> rfl

theorem canonicalField_content (f : Field) : (canonicalField f).content = f.content := by
  cases f with
  | value tag v => exact congrArg Content.scalar v.canonical_type
  | node tag n => exact congrArg Content.node n.canonical_kind

theorem canonicalField_scalar {f : Field} {v : Scalar} (h : (canonicalField f).scalar? = some v) :
    ∃ w, f.scalar? = some w ∧ v = w.canonical := by
  cases f with
  | value tag w => exact ⟨w, rfl, (Option.some.inj h).symm⟩
  | node tag n => cases h

theorem canonicalField_node {f : Field} {m : Node} (h : (canonicalField f).node? = some m) :
    ∃ n, f.node? = some n ∧ m = n.canonical := by
  cases f with
  | value tag w => cases h
  | node tag n => exact ⟨n, rfl, (Option.some.inj h).symm⟩

theorem canonical_wellFormed {n : Node} (hw : n.WellFormed) (ho : n.SpelledOnce) :
    n.canonical.WellFormed := by
  constructor
  · intro a ha
    rw [canonical_attributes] at ha
    obtain ⟨b, hb, rfl⟩ := List.mem_map.mp ha
    obtain ⟨spec, hspec, htype⟩ := hw.attributes b hb
    obtain ⟨⟨spec', hspec', htype'⟩, _⟩ := Kind.attribute_written hspec
    rw [canonical_kind]
    exact ⟨spec', hspec', by rw [Scalar.canonical_type, htype, htype']⟩
  · rw [canonical_attributes, canonical_kind, List.pairwise_map]
    exact hw.attributesInOrder.imp_of_mem fun ha hb h => written_inOrder hw ho ha hb h
  · intro f hf
    rw [canonical_fields] at hf
    obtain ⟨g, hg, rfl⟩ := List.mem_map.mp hf
    obtain ⟨spec, hspec, hcontent⟩ := hw.fields g hg
    rw [canonical_kind]
    exact ⟨spec, by rw [canonicalField_tag, hspec], by rw [canonicalField_content, hcontent]⟩
  · rw [canonical_fields, canonical_kind, List.pairwise_map]
    refine hw.fieldsInOrder.imp fun h => ?_
    simpa only [Precedes, canonicalField_tag] using h
  · intro hchoice
    rw [canonical_kind] at hchoice
    rw [canonical_fields, List.length_map]
    exact hw.choice hchoice

theorem canonical_newSpelling {n : Node} (hw : n.WellFormed) : n.canonical.NewSpelling := by
  intro hk
  rw [canonical_kind] at hk
  rw [attribute?, canonical_attributes, List.lookup_eq_none_iff]
  intro a ha
  obtain ⟨b, hb, rfl⟩ := List.mem_map.mp ha
  rw [Kind.writtenAttribute_eq (isSome_of_attribute (hw.attributes b hb)), bne_iff_ne]
  split
  · exact show "stdSetDef" ≠ "stdsetdef" by decide
  · next h => exact fun he => h ⟨hk, he.symm⟩

theorem canonical_floatsStable {n : Node} (h : n.Sound) : n.canonical.FloatsStable := by
  intro v hv _
  rcases List.mem_append.mp hv with hv | hv
  · obtain ⟨a, ha, rfl⟩ := List.mem_map.mp hv
    rw [canonical_attributes] at ha
    obtain ⟨b, hb, rfl⟩ := List.mem_map.mp ha
    exact Scalar.canonical_stable (h.attributesParsed b hb)
  · obtain ⟨f, hf, hscalar⟩ := List.mem_filterMap.mp hv
    rw [canonical_fields] at hf
    obtain ⟨g, hg, rfl⟩ := List.mem_map.mp hf
    obtain ⟨w, hw, rfl⟩ := canonicalField_scalar hscalar
    exact Scalar.canonical_stable (h.fieldsParsed g hg w hw)

theorem all_canonical (n : Node) (h : All Sound n) (ho : n.SpelledOnce) :
    All Restorable n.canonical := by
  induction n using Node.induction with
  | h n ih =>
    have hs := h.here
    refine all_of ⟨canonical_wellFormed hs.wellFormed ho, ?_, canonical_newSpelling hs.wellFormed,
      canonical_floatsStable hs⟩ fun f hf m hm => ?_
    · rw [Texted, canonical_text]
      exact hs.texted
    · rw [canonical_fields] at hf
      obtain ⟨g, hg, rfl⟩ := List.mem_map.mp hf
      obtain ⟨n', hn', rfl⟩ := canonicalField_node hm
      have hne := (not_ui_below (fun v hv => (h v hv).wellFormed) g hg n' hn').here
      exact ih g hg n' hn' (h.below g hg n' hn') fun hk => absurd hk hne

mutual

/-- The canonical form of a node is written in the same way. -/
theorem markup_canonical (n : Node) (h : All Sound n) (tag : String) :
    n.canonical.markup tag = n.markup tag := by
  match n with
  | mk kind attributes fields text =>
    have hattributes : (attributes.map fun a => (kind.writtenAttribute a.1, a.2.canonical)).map
        (fun a => (kind.writtenAttribute a.1, a.2.format)) =
          attributes.map fun a => (kind.writtenAttribute a.1, a.2.format) := by
      rw [List.map_map]
      refine List.map_congr_left fun a ha => ?_
      obtain ⟨spec, hspec, _⟩ := h.here.wellFormed.attributes a ha
      change kind.attribute? a.1 = some spec at hspec
      simp only [Function.comp, (Kind.attribute_written hspec).2,
        Scalar.canonical_format (h.here.attributesParsed a ha)]
    rw [canonical, markup, markup, hattributes,
      fieldsParts_canonical fields kind h.here.fieldsParsed h.below]
termination_by structural n

theorem fieldsParts_canonical (fs : List Field) (kind : Kind)
    (hv : ∀ f ∈ fs, ∀ v, f.scalar? = some v → v.Parsed)
    (hb : ∀ f ∈ fs, ∀ m, f.node? = some m → All Sound m) :
    fieldsParts kind (canonicalFields fs) = fieldsParts kind fs := by
  match fs with
  | [] => rfl
  | f :: fs =>
    rw [canonicalFields, fieldsParts, fieldsParts,
      fieldMarkup_canonical f kind (hv f (List.mem_cons_self ..)) (hb f (List.mem_cons_self ..)),
      fieldsParts_canonical fs kind (fun g hg => hv g (List.mem_cons_of_mem f hg))
        (fun g hg => hb g (List.mem_cons_of_mem f hg))]
termination_by structural fs

theorem fieldMarkup_canonical (f : Field) (kind : Kind)
    (hv : ∀ v, f.scalar? = some v → v.Parsed) (hb : ∀ m, f.node? = some m → All Sound m) :
    fieldMarkup kind (canonicalField f) = fieldMarkup kind f := by
  match f with
  | .value tag v =>
    rw [canonicalField, fieldMarkup, fieldMarkup, Scalar.canonical_format (hv v rfl)]
  | .node tag n => rw [canonicalField, fieldMarkup, fieldMarkup, markup_canonical n (hb n rfl)]
termination_by structural f

end

/-! ## Attributes of canonical nodes -/

theorem lookup_renamed (rename : String → String) (as : List (String × Scalar))
    (name old : String) (h : ∀ a ∈ as, rename a.1 = name ↔ a.1 = old) :
    (as.map fun a => (rename a.1, a.2.canonical)).lookup name =
      (as.lookup old).map Scalar.canonical := by
  induction as with
  | nil => rfl
  | cons a as ih =>
    have hhead := h a (List.mem_cons_self ..)
    rw [List.map_cons, List.lookup_cons, List.lookup_cons,
      ih fun b hb => h b (List.mem_cons_of_mem a hb)]
    by_cases hname : a.1 = old
    · rw [beq_iff_eq.mpr (hhead.mpr hname).symm, beq_iff_eq.mpr hname.symm]
      rfl
    · rw [beq_eq_false_iff_ne.mpr fun he => hname (hhead.mp he.symm),
        beq_eq_false_iff_ne.mpr fun he => hname he.symm]

theorem attribute_canonical {n : Node} {name old : String}
    (h : ∀ a ∈ n.attributes, n.kind.writtenAttribute a.1 = name ↔ a.1 = old) :
    n.canonical.attribute? name = (n.attribute? old).map Scalar.canonical := by
  rw [attribute?, canonical_attributes]
  exact lookup_renamed n.kind.writtenAttribute n.attributes name old h

theorem stringAttribute_canonical {n : Node} (hw : n.WellFormed) {name : String}
    (hnew : name ≠ "stdsetdef") (hold : name ≠ "stdSetDef") :
    n.canonical.stringAttribute? name = n.stringAttribute? name := by
  have hname : ∀ a ∈ n.attributes, n.kind.writtenAttribute a.1 = name ↔ a.1 = name := by
    intro a ha
    rw [Kind.writtenAttribute_eq (isSome_of_attribute (hw.attributes a ha))]
    split
    · next h =>
      rw [h.2]
      exact ⟨fun he => absurd he.symm hnew, fun he => absurd he.symm hold⟩
    · rfl
  rw [stringAttribute?, attribute_canonical hname, stringAttribute?]
  cases n.attribute? name with
  | none => rfl
  | some v => exact v.string_canonical

end Node

namespace Form

open Node

/-! ## Reading the document of a form -/

theorem toText_markup (f : Form) :
    f.toText = Xml.write (.declaration :: (f.node.markup "").commands) := by
  apply String.toList_inj.mp
  rw [toText, Xml.toList_write, Xml.toList_write]
  simp only [Xml.Writer.run, run_commands]

theorem rootElement_gap (offset : Nat) (found : List Located) :
    rootElement (Xml.gapTokens (Markup.lead 0 true) offset ++ found) = rootElement found := by
  rfl

theorem rootElement_spelled {m : Markup} {e : Xml.Element} {found : List Located}
    (h : Spells [.element m] [.element e] found) (rest : List Located) :
    rootElement (found ++ rest) = .ok e := by
  cases h with
  | element inside hnil =>
    cases hnil
    rw [List.cons_append, List.append_assoc, List.cons_append, rootElement, inside.forms.take]

theorem ofText_toText (f : Form) (hk : f.node.kind = .ui) (h : All Restorable f.node)
    (hc : checkHeader f.node = .ok ()) : (ofText f.toText).2 = .ok f := by
  have hnamed := markup_named f.node h "" (isName_of_lettered f.node.kind.tag_lettered)
  obtain ⟨offset, e, found, rest, htokens, hspells⟩ := Xml.tokens_declared (f.node.markup "") hnamed
  obtain ⟨hnode, hfailure⟩ := readElement_written f.node h "" 0 e found hspells
  have htag : e.tag = "ui" := by
    obtain ⟨⟨k, as, fs, t⟩⟩ := f
    obtain rfl : k = .ui := hk
    rw [markup, Markup.seen] at hspells
    obtain ⟨_, _, _, rfl, _⟩ := hspells.of_single
    exact @reportedTag_spelled "ui" "ui" ⟨by decide +kernel, by decide +kernel⟩
  rw [ofText, toText_markup, htokens, List.append_assoc, rootElement_gap,
    rootElement_spelled hspells]
  rw [hk] at hnode hfailure
  simp only [ofElement, htag, if_true, hnode, hfailure, hc]
  rfl

theorem checkHeader_ofWidget (w : Node) : checkHeader (ofWidget w).node = .ok () := by
  rw [ofWidget]
  split
  · rfl
  · rfl

/-- What is read has passed the check of its header; a form made of a widget has no header. -/
theorem ofText_checked {source : String} {f : Form} (h : (ofText source).2 = .ok f) :
    checkHeader f.node = .ok () := by
  obtain ⟨e, ⟨-, hc⟩ | rfl⟩ := ofText_ok h
  · exact hc
  · exact checkHeader_ofWidget _

theorem checkHeader_canonical {n : Node} (hw : n.WellFormed) :
    checkHeader n.canonical = checkHeader n := by
  rw [checkHeader, checkHeader, stringAttribute_canonical hw (by decide) (by decide),
    stringAttribute_canonical hw (by decide) (by decide)]

/-! ## The flag -/

/-- The flag is given under both of its spellings. -/
def flaggedTwice (f : Form) : Bool :=
  (f.node.attribute? "stdsetdef").isSome && (f.node.attribute? "stdSetDef").isSome

theorem spelledOnce_of_flagged {f : Form} (h : f.flaggedTwice = false) : f.node.SpelledOnce := by
  intro _
  rw [flaggedTwice, Bool.and_eq_false_iff, Option.isSome_eq_false_iff, Option.isSome_eq_false_iff,
    Option.isNone_iff_eq_none, Option.isNone_iff_eq_none] at h
  exact h

/-- Whichever spelling was used, the flag is found under the newer one. -/
theorem usesSetters_canonical {f : Form} (hk : f.node.kind = .ui) (hw : f.node.WellFormed)
    (ho : f.node.SpelledOnce) : (Form.mk f.node.canonical).usesSetters = f.usesSetters := by
  have hspelled : ∀ a ∈ f.node.attributes, f.node.kind.writtenAttribute a.1 =
      if a.1 = "stdSetDef" then "stdsetdef" else a.1 := by
    intro a ha
    rw [Kind.writtenAttribute_eq (isSome_of_attribute (hw.attributes a ha)), hk]
    simp
  have hnone : f.node.canonical.attribute? "stdSetDef" = none :=
    canonical_newSpelling hw (f.node.canonical_kind.trans hk)
  have hint : ∀ o : Option Scalar, (o.map Scalar.canonical).bind Scalar.int? = o.bind Scalar.int? :=
    fun o => by
      cases o with
      | none => rfl
      | some v => exact v.int_canonical
  rw [usesSetters, usesSetters]
  simp only [intAttribute?, hnone, Option.bind_none, Option.or_none]
  rcases ho hk with hnew | hold
  · have hsame : ∀ a ∈ f.node.attributes,
        f.node.kind.writtenAttribute a.1 = "stdsetdef" ↔ a.1 = "stdSetDef" := by
      intro a ha
      rw [hspelled a ha]
      split
      · next he => exact ⟨fun _ => he, fun _ => rfl⟩
      · next he =>
        exact ⟨fun h => absurd h (not_mem_of_attribute hnew ha), fun h => absurd h he⟩
    rw [attribute_canonical hsame, hint, hnew, Option.bind_none, Option.none_or]
  · have hsame : ∀ a ∈ f.node.attributes,
        f.node.kind.writtenAttribute a.1 = "stdsetdef" ↔ a.1 = "stdsetdef" := by
      intro a ha
      rw [hspelled a ha, if_neg (not_mem_of_attribute hold ha)]
    rw [attribute_canonical hsame, hint, hold, Option.bind_none, Option.or_none]

theorem written_isName {n : Node} (hw : n.WellFormed) {a : String × Scalar}
    (ha : a ∈ n.attributes) : Xml.IsName (n.kind.writtenAttribute a.1) := by
  have hattribute := hw.attributes a ha
  rw [Kind.writtenAttribute_eq (isSome_of_attribute hattribute)]
  split
  · decide +kernel
  · obtain ⟨spec, hspec, _⟩ := hattribute
    have hlettered := (n.kind.attributes_spelled spec (List.mem_of_find?_eq_some hspec)).1
    rw [Kind.attribute_name hspec] at hlettered
    exact isName_of_lettered hlettered

theorem written_clash {f : Form} (hk : f.node.kind = .ui) (h : f.flaggedTwice = true) :
    ¬ (f.node.attributes.map fun a => f.node.kind.writtenAttribute a.1).Nodup := by
  rw [flaggedTwice, Bool.and_eq_true, Option.isSome_iff_exists, Option.isSome_iff_exists] at h
  obtain ⟨⟨v, hv⟩, w, hw⟩ := h
  intro hnodup
  have heq := List.inj_on_of_nodup_map hnodup (mem_of_attribute hv) (mem_of_attribute hw)
    (by rw [hk]; rfl)
  have hname : "stdsetdef" = "stdSetDef" := congrArg Prod.fst heq
  exact absurd hname (by decide)

theorem ofElement_refused (source : String) {e : Xml.Element} {fault : Xml.Fault}
    (htag : e.tag = "ui") (hattributes : e.attributes = .error fault) :
    (ofElement source e).2 = .error (Failure.locate source ⟨e.offset, .malformed fault⟩) := by
  simp only [ofElement, htag, if_true, readElement, hattributes, readTag]

/-- Under both spellings the flag is written twice, and the start tag of the form is refused. -/
theorem ofText_flaggedTwice {f : Form} (hk : f.node.kind = .ui) (hw : f.node.WellFormed)
    (h : f.flaggedTwice = true) :
    ∃ offset start previous, (ofText f.toText).2 =
      .error (Failure.locate f.toText
        ⟨offset, .malformed (.badAttribute (.duplicated start previous))⟩) := by
  have hclash := written_clash hk h
  obtain ⟨⟨k, as, fs, t⟩⟩ := f
  obtain rfl : k = .ui := hk
  let written := as.map fun a => (Kind.ui.writtenAttribute a.1, a.2.format)
  have hnames : ∀ a ∈ written, Xml.IsName a.1 := by
    intro a ha
    obtain ⟨b, hb, rfl⟩ := List.mem_map.mp ha
    exact written_isName hw hb
  have htag : Xml.IsName "ui" := by decide +kernel
  obtain ⟨start, previous, hrefused⟩ := Xml.attributes_clash "ui" written htag hnames (by
    rw [List.map_map]
    exact hclash)
  obtain ⟨offset, place, rest, htokens⟩ :=
    Xml.tokens_root "ui" written (fieldsParts .ui fs ++ textParts t) htag hnames
  have hreported : Xml.reportedTag "ui" = "ui" :=
    reportedTag_spelled ⟨by decide +kernel, by decide +kernel⟩
  rw [Xml.Scanner.startOf_eq "ui" _ htag, hrefused, hreported] at htokens
  have hread : rootElement (Xml.tokens (Form.mk (Node.mk .ui as fs t)).toText) =
      .ok (Xml.Element.take "ui" (.error (.badAttribute (.duplicated start previous))) place
        rest).1 := by
    rw [toText_markup]
    exact (congrArg rootElement htokens).trans (rootElement_gap offset _)
  -- The tag is refused before its content is looked at.
  obtain ⟨h1, h2, h3⟩ := Xml.Element.opens_take "ui"
    (.error (.badAttribute (.duplicated start previous))) place rest
  refine ⟨place, start, previous, ?_⟩
  rw [ofText, hread]
  exact (ofElement_refused _ h1 h2).trans (by rw [h3])

/-! ## Saving and loading -/

/-- A form that was loaded can be saved and loaded again, which gives a form with the same document
and the same flag, unless its flag is given under both spellings: then what is saved is refused for
its repeated attribute. -/
theorem resaved (source : String) (f : Form) (h : (ofText source).2 = .ok f) :
    (f.flaggedTwice = false →
      ∃ g, (ofText f.toText).2 = .ok g ∧ g.toText = f.toText ∧ g.usesSetters = f.usesSetters) ∧
    (f.flaggedTwice = true →
      ∃ offset start previous, (ofText f.toText).2 =
        .error (Failure.locate f.toText
          ⟨offset, .malformed (.badAttribute (.duplicated start previous))⟩)) := by
  obtain ⟨hk, hs⟩ := ofText_sound source f h
  have hw := hs.here.wellFormed
  refine ⟨fun honce => ?_, ofText_flaggedTwice hk hw⟩
  have ho := spelledOnce_of_flagged honce
  have hsame : (Form.mk f.node.canonical).toText = f.toText := by
    rw [toText_markup, toText_markup, markup_canonical f.node hs]
  have hload := ofText_toText ⟨f.node.canonical⟩ (f.node.canonical_kind.trans hk)
    (all_canonical f.node hs ho) ((checkHeader_canonical hw).trans (ofText_checked h))
  rw [hsame] at hload
  exact ⟨_, hload, hsame, usesSetters_canonical hk hw ho⟩

/-- A flag under its older spelling, and a number smaller than its text can show. -/
def olderFlag : String :=
  "<ui stdSetDef='0'><widget><property><double>1e-16</double></property></widget></ui>"

def bothFlags : String := "<ui stdsetdef='1' stdSetDef='0'/>"

theorem resaved_flags :
    (∃ f, (ofText olderFlag).2 = .ok f ∧ f.flaggedTwice = false ∧ f.usesSetters = false ∧
      ∃ g, (ofText f.toText).2 = .ok g ∧ g.toText = f.toText ∧ g.usesSetters = f.usesSetters) ∧
    ∃ f, (ofText bothFlags).2 = .ok f ∧ f.flaggedTwice = true ∧
      ∃ offset start previous, (ofText f.toText).2 =
        .error (Failure.locate f.toText
          ⟨offset, .malformed (.badAttribute (.duplicated start previous))⟩) := by
  have hload : ∀ source twice setters, (ofText source).2.toOption.map
      (fun f => (f.flaggedTwice, f.usesSetters)) = some (twice, setters) →
      ∃ f, (ofText source).2 = .ok f ∧ f.flaggedTwice = twice ∧ f.usesSetters = setters := by
    intro source twice setters h
    cases hf : (ofText source).2 with
    | error e => simp [hf, Except.toOption] at h
    | ok f => exact ⟨f, rfl, by simpa [hf, Except.toOption] using h⟩
  obtain ⟨f, hf, honce, hsetters⟩ := hload olderFlag false false (by decide +kernel)
  obtain ⟨g, hg, htwice, -⟩ := hload bothFlags true true (by decide +kernel)
  exact ⟨⟨f, hf, honce, hsetters, (resaved _ f hf).1 honce⟩,
    g, hg, htwice, (resaved _ g hg).2 htwice⟩

end Form

end FormCompiler.Document
