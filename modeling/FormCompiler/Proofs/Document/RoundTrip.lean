import FormCompiler.Proofs.Document.Written

/-!
# Reading what was written

A node that is written and read again is the same node: the white space that the writer puts between
tags is dropped by the reader, attributes and fields arrive in the order of the schema and are put
behind those that came before, and scalars are read from the texts made of them.
-/

namespace FormCompiler.Document

open Xml (Markup Part Item Located Spells)

namespace Node

/-! ## What is needed of a node -/

/-- The scalars of a node itself: its attributes and its scalar fields. -/
def ownScalars (n : Node) : List Scalar :=
  n.attributes.map Prod.snd ++ n.fields.filterMap Field.scalar?

/-- A floating point value in the node is read from its text as the same value. -/
def FloatsStable (n : Node) : Prop := ∀ v ∈ n.ownScalars, v.isFloat = true → v.Stable

instance (n : Node) : Decidable n.FloatsStable :=
  inferInstanceAs (Decidable (∀ v ∈ n.ownScalars, v.isFloat = true → v.Stable))

/-- The older spelling of an attribute, which is written under the newer one, is not used. -/
def NewSpelling (n : Node) : Prop := n.kind = .ui → n.attribute? "stdSetDef" = none

instance (n : Node) : Decidable n.NewSpelling :=
  inferInstanceAs (Decidable (n.kind = .ui → n.attribute? "stdSetDef" = none))

/-- A node that can be restored, if those below it can. -/
structure Restorable (n : Node) : Prop where
  wellFormed : n.WellFormed
  texted : n.Texted
  newSpelling : n.NewSpelling
  floatsStable : n.FloatsStable

theorem Restorable.attribute_stable {n : Node} (h : n.Restorable) (a : String × Scalar)
    (ha : a ∈ n.attributes) : a.2.Stable :=
  Scalar.stable_of_floats a.2
    (h.floatsStable a.2 (List.mem_append_left _ (List.mem_map_of_mem ha)))

theorem Restorable.field_stable {n : Node} (h : n.Restorable) (f : Field) (hf : f ∈ n.fields)
    (v : Scalar) (hv : f.scalar? = some v) : v.Stable :=
  Scalar.stable_of_floats v
    (h.floatsStable v (List.mem_append_right _ (List.mem_filterMap.mpr ⟨f, hf, hv⟩)))

/-! ## Names -/

theorem writtenTag_spelled {k : Kind} {f : Field} (h : Fitting k f) :
    SpelledAs f.tag (k.writtenTag f.tag) := by
  obtain ⟨spec, hspec, _⟩ := h
  have hs := k.children_spelled spec (List.mem_of_find?_eq_some hspec)
  rw [Kind.child_tag hspec] at hs
  rw [Kind.writtenTag, hspec]
  exact hs

theorem Restorable.attribute_written {n : Node} (h : n.Restorable) (a : String × Scalar)
    (ha : a ∈ n.attributes) : n.kind.writtenAttribute a.1 = a.1 ∧ Lettered a.1 := by
  obtain ⟨spec, hspec, _⟩ := h.wellFormed.attributes a ha
  obtain ⟨hname, hwritten⟩ := n.kind.attributes_spelled spec (List.mem_of_find?_eq_some hspec)
  have hsame := Kind.attribute_name hspec
  rw [hsame] at hname hwritten
  refine ⟨?_, hname⟩
  rw [Kind.writtenAttribute, hspec, Option.map_some, Option.getD_some]
  rcases hwritten with hw | ⟨hk, hold⟩
  · exact hw
  · have hnone := List.lookup_eq_none_iff.mp (h.newSpelling hk) a ha
    rw [hold] at hnone
    simp at hnone

theorem Restorable.attributes_written {n : Node} (h : n.Restorable) :
    (n.attributes.map fun a => (n.kind.writtenAttribute a.1, a.2.format)) =
      n.attributes.map fun a => (a.1, a.2.format) :=
  List.map_congr_left fun a ha => by rw [(h.attribute_written a ha).1]

theorem Restorable.attributes_reported {n : Node} (h : n.Restorable) :
    (n.attributes.map fun a => (a.1, a.2.format)).map Xml.reported =
      n.attributes.map fun a => (a.1, a.2.format) := by
  rw [List.map_map]
  exact List.map_congr_left fun a ha => reported_lettered (h.attribute_written a ha).2 _

theorem WellFormed.names_nodup {n : Node} (h : n.WellFormed) :
    ((n.attributes.map fun a => (a.1, a.2.format)).map Prod.fst).Nodup := by
  rw [List.map_map, List.Nodup, List.pairwise_map]
  refine h.attributesInOrder.imp fun hab he => ?_
  simp only [Function.comp] at he
  rw [he] at hab
  exact Nat.lt_irrefl _ hab

theorem tagFor_spelled {tag written : String} (k : Kind) (h : SpelledAs tag written) :
    tagFor k written = tag := by
  rw [tagFor, isEmpty_lettered h.1, lowercase_spelled h]
  rfl

theorem partsNamed_append_text (ps : List Part) (s : String) (h : Xml.PartsNamed ps) :
    Xml.PartsNamed (ps ++ textParts s) := by
  induction ps with
  | nil =>
    rw [List.nil_append]
    unfold textParts
    split <;> trivial
  | cons p ps ih =>
    cases p with
    | text t => exact ih h
    | element m => exact ⟨h.1, ih h.2⟩

mutual

theorem markup_named (n : Node) (h : All Restorable n) (tag : String)
    (ht : Xml.IsName (tagFor n.kind tag)) : Xml.Named (n.markup tag) := by
  match n with
  | mk kind attributes fields text =>
    have hr := h.here
    have hnames := hr.attributes_written
    have hattr : ∀ a ∈ attributes.map (fun a => (a.1, a.2.format)), Xml.IsName a.1 := by
      intro a ha
      obtain ⟨b, hb, rfl⟩ := List.mem_map.mp ha
      exact isName_of_lettered (hr.attribute_written b hb).2
    rw [markup, Xml.Named]
    simp only [Node.attributes, Node.kind] at hnames
    rw [hnames]
    exact ⟨ht, hattr, hr.wellFormed.names_nodup,
      partsNamed_append_text _ _ (fieldsParts_named fields kind hr.wellFormed.fields h.below)⟩
termination_by structural n

theorem fieldsParts_named (fs : List Field) (k : Kind) (hf : ∀ f ∈ fs, Fitting k f)
    (hb : ∀ f ∈ fs, ∀ m, f.node? = some m → All Restorable m) :
    Xml.PartsNamed (fieldsParts k fs) := by
  match fs with
  | [] => trivial
  | f :: fs =>
    exact ⟨fieldMarkup_named f k (hf f (List.mem_cons_self ..)) (hb f (List.mem_cons_self ..)),
      fieldsParts_named fs k (fun g hg => hf g (List.mem_cons_of_mem f hg))
        (fun g hg => hb g (List.mem_cons_of_mem f hg))⟩
termination_by structural fs

theorem fieldMarkup_named (f : Field) (k : Kind) (hf : Fitting k f)
    (hb : ∀ m, f.node? = some m → All Restorable m) : Xml.Named (fieldMarkup k f) := by
  have hs := writtenTag_spelled hf
  match f with
  | .value tag v =>
    exact ⟨isName_of_lettered hs.1, by simp, .nil, partsNamed_append_text [] _ trivial⟩
  | .node tag n =>
    have htag : tagFor n.kind (k.writtenTag tag) = tag := tagFor_spelled n.kind hs
    refine markup_named n (hb n rfl) _ ?_
    rw [htag]
    exact isName_of_lettered hs.self.1
termination_by structural f

end

/-! ## Attributes and fields arrive in order -/

theorem setAttribute_last (k : Kind) (done : List (String × Scalar)) (fs : List Field) (t : String)
    (name : String) (v : Scalar)
    (h : ∀ a ∈ done, k.attributeRank a.1 < k.attributeRank name) :
    (mk k done fs t).setAttribute name v = mk k (done ++ [(name, v)]) fs t := by
  have hothers : done.filter (·.1 != name) = done := by
    rw [List.filter_eq_self]
    intro a ha
    rw [bne_iff_ne]
    intro he
    have hlt := h a ha
    rw [he] at hlt
    exact Nat.lt_irrefl _ hlt
  have hlast := inserted_last (fun a : String × Scalar => k.attributeRank a.1) done (name, v)
    (fun a ha => Nat.le_of_lt (h a ha))
  simp only [setAttribute, Node.attributes, Node.kind, Node.fields, Node.text, hothers]
  exact congrArg (mk k · fs t) hlast

theorem readAttributes_written (offset : Nat) (k : Kind) (done as : List (String × Scalar))
    (fs : List Field) (t : String) (ha : ∀ a ∈ as, Attribute k a) (hs : ∀ a ∈ as, a.2.Stable)
    (ho : (done ++ as).Pairwise fun a b => k.attributeRank a.1 < k.attributeRank b.1) :
    (readAttributes offset (mk k done fs t) (as.map fun a => (a.1, a.2.format))).node =
        mk k (done ++ as) fs t ∧
      (readAttributes offset (mk k done fs t) (as.map fun a => (a.1, a.2.format))).failure =
        none := by
  induction as generalizing done with
  | nil => exact ⟨by rw [List.append_nil]; rfl, rfl⟩
  | cons a as ih =>
    obtain ⟨spec, hspec, htype⟩ := ha a (List.mem_cons_self ..)
    have hvalue : (Scalar.parse spec.type a.2.format).1 = a.2 :=
      htype ▸ hs a (List.mem_cons_self ..)
    have hlast := setAttribute_last k done fs t a.1 a.2 fun b hb =>
      (List.pairwise_append.mp ho).2.2 b hb a (List.mem_cons_self ..)
    have hrest := ih (done ++ [a]) (fun b hb => ha b (List.mem_cons_of_mem a hb))
      (fun b hb => hs b (List.mem_cons_of_mem a hb)) (by simpa using ho)
    have hstep : readAttributes offset (mk k done fs t)
        ((a :: as).map fun a => (a.1, a.2.format)) =
          (readAttributes offset (mk k (done ++ [a]) fs t)
            (as.map fun a => (a.1, a.2.format))).after
              (Scalar.parse spec.type a.2.format).2 := by
      simp only [List.map_cons, readAttributes, Node.kind, hspec, hvalue, hlast]
    rw [hstep, List.append_cons done a as]
    exact hrest

theorem addField_last (k : Kind) (as : List (String × Scalar)) (done fs : List Field) (f : Field)
    (t t' : String) (h : (mk k as (done ++ f :: fs) t').WellFormed) :
    (mk k as done t).addField f = mk k as (done ++ [f]) t := by
  have hbefore : ∀ g ∈ done, Precedes k g f := fun g hg =>
    (List.pairwise_append.mp h.fieldsInOrder).2.2 g hg f (List.mem_cons_self ..)
  have hlast := inserted_last (fun g : Field => k.childRank g.tag) done f
    (fun g hg => rank_of_precedes (hbefore g hg))
  -- Nothing is dropped: a choice was empty before, and a tag that is not repeated is new.
  have hkept : (if k.schema.isChoice then [] else if (k.child? f.tag).any (·.many) then done
      else done.filter (·.tag != f.tag)) = done := by
    split
    · next hc =>
      have hlen := h.choice hc
      simp only [Node.fields, List.length_append, List.length_cons] at hlen
      exact (List.length_eq_zero_iff.mp (by omega)).symm
    · split
      · rfl
      · next hmany =>
        rw [List.filter_eq_self]
        intro g hg
        rw [bne_iff_ne]
        intro he
        rcases hbefore g hg with hlt | ⟨_, hm⟩
        · rw [he] at hlt
          exact Nat.lt_irrefl _ hlt
        · rw [he] at hm
          exact hmany hm
  have hadd : (mk k as done t).addField f = mk k as (inserted (fun g => k.childRank g.tag)
      (if k.schema.isChoice then [] else if (k.child? f.tag).any (·.many) then done
        else done.filter (·.tag != f.tag)) f) t := rfl
  rw [hadd, hkept]
  exact congrArg (mk k as · t) hlast

/-! ## White space between tags -/

theorem isBlank_lead (level : Nat) (b : Bool) : Text.isBlank (Markup.lead level b) = true := by
  cases b with
  | false => rfl
  | true =>
    rw [Text.isBlank, Markup.lead, if_pos rfl, String.toList_ofList, List.all_cons,
      List.all_replicate]
    split <;> rfl

theorem readContent_gap {g : String} {parts : List Part} {items : List Item} {found : List Located}
    (h : Spells (Markup.gapParts g ++ parts) items found) :
    ∃ items' found', Spells parts items' found' ∧
      ∀ n : Node, n.readContent items =
        (if Text.isBlank g then n else n.addText g).readContent items' := by
  unfold Markup.gapParts at h
  split at h
  · next hg =>
    subst hg
    exact ⟨items, found, h, fun n => rfl⟩
  · obtain ⟨offset, items', found', rfl, hrest⟩ := h.of_text
    exact ⟨items', found', hrest, fun n => by rw [readContent]⟩

theorem addText_empty (k : Kind) (as : List (String × Scalar)) (fs : List Field) (s : String) :
    (mk k as fs "").addText s = mk k as fs s := by
  rw [addText, Node.text, String.empty_append]
  rfl

theorem seen_textElement (tag s : String) (level : Nat) :
    (Markup.mk tag [] (textParts s)).seen level = .mk (Xml.reportedTag tag) [] (textParts s) := by
  unfold textParts
  split
  · rfl
  · next hs =>
    have hne : s ≠ "" := fun he => hs (by rw [he]; rfl)
    have hgap : Markup.gapParts ("" ++ s ++ Markup.lead level false) = [.text s] := by
      simp [Markup.gapParts, Markup.lead, hne]
    simp only [Markup.seen, List.isEmpty_cons, Bool.false_eq_true, if_false, List.map_nil,
      Markup.partsSeen]
    exact congrArg (Markup.mk _ _) hgap

theorem readText_textParts (tag s : String) {items : List Item} {found : List Located}
    (h : Spells (textParts s) items found) : readText tag items = .ok s := by
  unfold textParts at h
  split at h
  · next hs =>
    cases h
    rw [String.isEmpty_iff.mp hs]
    rfl
  · obtain ⟨offset, items', found', rfl, hrest⟩ := h.of_text
    cases hrest
    simp [readText, Except.map]

/-! ## The round trip -/

/-- The content of an element is read by the same lemma whether or not there is any. -/
theorem spells_content {ps : List Part} {level : Nat} {items : List Item} {found : List Located}
    (h : Spells (if ps.isEmpty then [] else Markup.partsSeen (level + 1) true "" ps) items found) :
    ps = [] ∧ items = [] ∨ Spells (Markup.partsSeen (level + 1) true "" ps) items found := by
  split at h
  · next hp =>
    cases h
    exact .inl ⟨List.isEmpty_iff.mp hp, rfl⟩
  · exact .inr h

theorem markup_content_nil {k : Kind} {fs : List Field} {t : String}
    (h : fieldsParts k fs ++ textParts t = []) : fs = [] ∧ t = "" := by
  obtain ⟨h1, h2⟩ := List.append_eq_nil_iff.mp h
  constructor
  · cases fs with
    | nil => rfl
    | cons f fs => simp [fieldsParts] at h1
  · unfold textParts at h2
    split at h2
    · next ht => exact String.isEmpty_iff.mp ht
    · simp at h2

mutual

theorem readElement_written (n : Node) (h : All Restorable n) (tag : String) (level : Nat)
    (e : Xml.Element) (found : List Located)
    (hs : Spells [.element ((n.markup tag).seen level)] [.element e] found) :
    ((empty n.kind).readElement e).node = n ∧ ((empty n.kind).readElement e).failure = none := by
  match n with
  | mk k as fs t =>
    have hr := h.here
    have hwritten := hr.attributes_written
    have hreported := hr.attributes_reported
    simp only [Node.attributes, Node.kind] at hwritten hreported
    rw [markup, Markup.seen, hwritten, hreported] at hs
    obtain ⟨offset, inner, body, rfl, hinner⟩ := hs.of_single
    obtain ⟨h1, h2⟩ := readAttributes_written offset k [] as [] "" hr.wellFormed.attributes
      hr.attribute_stable hr.wellFormed.attributesInOrder
    have hcontent : ((mk k as [] "").readContent inner).node = mk k as fs t ∧
        ((mk k as [] "").readContent inner).failure = none := by
      rcases spells_content hinner with ⟨hnil, rfl⟩ | hinner
      · obtain ⟨rfl, rfl⟩ := markup_content_nil hnil
        exact ⟨rfl, rfl⟩
      · exact readContent_written fs k as [] t (level + 1) inner body hr.wellFormed hr.texted
          hr.field_stable h.below hinner
    simp only [readElement, readTag, Xml.Element.attributes, Xml.Element.offset,
      Xml.Element.content, empty, Node.kind, h1, h2, List.nil_append]
    exact hcontent
termination_by structural n

theorem readContent_written (fs : List Field) (k : Kind) (as : List (String × Scalar))
    (done : List Field) (t : String) (level : Nat) (items : List Item) (found : List Located)
    (hw : (mk k as (done ++ fs) t).WellFormed) (ht : t = "" ∨ Text.isBlank t = false)
    (hv : ∀ f ∈ fs, ∀ v, f.scalar? = some v → v.Stable)
    (hb : ∀ f ∈ fs, ∀ m, f.node? = some m → All Restorable m)
    (hs : Spells (Markup.partsSeen level true "" (fieldsParts k fs ++ textParts t)) items found) :
    ((mk k as done "").readContent items).node = mk k as (done ++ fs) t ∧
      ((mk k as done "").readContent items).failure = none := by
  match fs with
  | [] =>
    rw [List.append_nil]
    rw [fieldsParts, List.nil_append] at hs
    unfold textParts at hs
    split at hs
    · next he =>
      rw [Markup.partsSeen, ← List.append_nil (Markup.gapParts _)] at hs
      obtain ⟨items', found', hrest, hread⟩ := readContent_gap hs
      cases hrest
      rw [hread, String.empty_append, isBlank_lead, String.isEmpty_iff.mp he]
      exact ⟨rfl, rfl⟩
    · next he =>
      have hblank : Text.isBlank t = false := ht.resolve_left fun h => he (by rw [h]; rfl)
      have hgap : "" ++ t ++ Markup.lead (level - 1) false = t := by simp [Markup.lead]
      rw [Markup.partsSeen, Markup.partsSeen, hgap, ← List.append_nil (Markup.gapParts _)] at hs
      obtain ⟨items', found', hrest, hread⟩ := readContent_gap hs
      cases hrest
      rw [hread, hblank]
      exact ⟨addText_empty k as done t, rfl⟩
  | f :: fs =>
    rw [fieldsParts, List.cons_append, Markup.partsSeen, String.empty_append] at hs
    obtain ⟨items1, found1, h1, hgap⟩ := readContent_gap hs
    obtain ⟨e, found2, items2, found3, rfl, hfirst, hrest⟩ := h1.of_element
    obtain ⟨notices, hfield⟩ := readField_written f k (hw.fields f (by simp [Node.fields]))
      (hv f (List.mem_cons_self ..)) (hb f (List.mem_cons_self ..)) level e found2 hfirst
    have hread : (mk k as done "").readContent items =
        ((mk k as (done ++ [f]) "").readContent items2).after notices := by
      rw [hgap, isBlank_lead, if_pos rfl, readContent]
      simp only [Node.kind, hfield, addField_last k as done fs f "" t hw]
    rw [List.append_cons] at hw ⊢
    rw [hread]
    exact readContent_written fs k as (done ++ [f]) t level items2 found3 hw ht
      (fun g hg => hv g (List.mem_cons_of_mem f hg)) (fun g hg => hb g (List.mem_cons_of_mem f hg))
      hrest
termination_by structural fs

theorem readField_written (f : Field) (k : Kind) (hf : Fitting k f)
    (hv : ∀ v, f.scalar? = some v → v.Stable) (hb : ∀ m, f.node? = some m → All Restorable m)
    (level : Nat) (e : Xml.Element) (found : List Located)
    (hs : Spells [.element ((fieldMarkup k f).seen level)] [.element e] found) :
    ∃ notices, readField k e = (notices, .ok f) := by
  have hspelled := writtenTag_spelled hf
  obtain ⟨spec, hspec, hcontent⟩ := hf
  match f with
  | .value tag v =>
    have htag : Xml.reportedTag (k.writtenTag tag) = tag := reportedTag_spelled hspelled
    rw [fieldMarkup, seen_textElement, htag] at hs
    obtain ⟨offset, inner, body, rfl, hinner⟩ := hs.of_single
    have hvalue : (Scalar.parse v.type v.format).1 = v := hv v rfl
    refine ⟨(Scalar.parse v.type v.format).2, ?_⟩
    rw [readField_scalar k v.type tag spec _ _ _ hspec hcontent.symm, readScalar,
      readText_textParts spec.tag v.format hinner]
    simp only [hvalue, Kind.child_tag hspec]
    rfl
  | .node tag n =>
    have hread := readElement_written n (hb n rfl) (k.writtenTag tag) level e found hs
    obtain ⟨kind, as, fs, t⟩ := n
    have htag : tagFor kind (k.writtenTag tag) = tag := tagFor_spelled kind hspelled
    have hlower : Xml.reportedTag tag = tag := reportedTag_spelled hspelled.self
    rw [fieldMarkup, markup, Markup.seen, htag, hlower] at hs
    obtain ⟨offset, inner, body, rfl, _⟩ := hs.of_single
    rw [readField_node k kind tag spec _ _ _ hspec hcontent.symm]
    obtain ⟨h1, h2⟩ := hread
    simp only [Node.kind] at h1 h2
    simp only [h1, h2]
    exact ⟨_, rfl⟩
termination_by structural f

end

theorem firstElement_spelled {m : Markup} {e : Xml.Element} {found : List Located}
    (h : Spells [.element m] [.element e] found) (rest : List Located) :
    firstElement (found ++ rest) = .ok e := by
  cases h with
  | element inside hnil =>
    cases hnil
    rw [List.cons_append, List.append_assoc, List.cons_append, firstElement, inside.forms.take]

theorem ofText_toText (n : Node) (h : All Restorable n) : (ofText n.kind n.toText).2 = .ok n := by
  have hnamed := markup_named n h "" (isName_of_lettered n.kind.tag_lettered)
  obtain ⟨e, found, rest, htokens, hspells⟩ := Xml.tokens_written (n.markup "") hnamed
  obtain ⟨hnode, hfailure⟩ := readElement_written n h "" 0 e found hspells
  rw [ofText, readInto, toText_markup, htokens, firstElement_spelled hspells]
  simp only [hnode, hfailure, Option.map_none]

/-- Writing and reading are inverse on the values of all kinds, with two exceptions: floating point
values that their texts do not determine, and the older spelling of an attribute.  What is read
never has a text of white space only, so the law holds for it. -/
theorem read_written :
    (∀ n : Node, All WellFormed n → All Texted n → All NewSpelling n → All FloatsStable n →
      (ofText n.kind n.toText).2 = .ok n) ∧
    (∀ (k : Kind) (source : String) (n : Node), (ofText k source).2 = .ok n →
      n.kind = k ∧ All WellFormed n ∧ All Texted n) ∧
    (∀ (source : String) (f : Form), (Form.ofText source).2 = .ok f →
      f.node.kind = .ui ∧ All WellFormed f.node ∧ All Texted f.node) := by
  have hsplit : ∀ n, All Sound n → All WellFormed n ∧ All Texted n := fun n h =>
    ⟨fun v hv => (h v hv).1, fun v hv => (h v hv).2⟩
  refine ⟨fun n hw ht hn hf => ?_, fun k source n h => ?_, fun source f h => ?_⟩
  · exact ofText_toText n fun v hv => ⟨hw v hv, ht v hv, hn v hv, hf v hv⟩
  · obtain ⟨hk, hs⟩ := ofText_sound k source n h
    exact ⟨hk, hsplit n hs⟩
  · obtain ⟨hk, hs⟩ := Form.ofText_sound source f h
    exact ⟨hk, hsplit f.node hs⟩

/-- A form with reserved characters, a tag written with a capital letter, a floating point value and
text next to its fields. -/
def sample : Node :=
  mk .ui [("version", .string "4.0")]
    [.value "class" (.string "A<B>"),
      .node "widget" (mk .widget [("class", .string "QWidget"), ("name", .string "a \"b\" & c")]
        [.node "property" (mk .property [("name", .string "cursor")]
            [.value "cursorshape" (.string " ArrowCursor\n")] ""),
          .node "property" (mk .property [("name", .string "ratio")]
            [.value "double" (.float .double (.finite false 4503599627370496 (-53)))] "")]
        " some text ")]
    ""

theorem read_written_sample :
    (All WellFormed sample ∧ All Texted sample ∧ All NewSpelling sample ∧ All FloatsStable sample) ∧
      (ofText .ui sample.toText).2 = .ok sample ∧
      (All WellFormed sample ∧ All Texted sample) ∧
      (Form.ofText "<ui/>").2 = .ok ⟨empty .ui⟩ ∧ All WellFormed (empty .ui) := by
  have hw : All WellFormed sample := by decide +kernel
  have ht : All Texted sample := by decide +kernel
  have hn : All NewSpelling sample := by decide +kernel
  have hf : All FloatsStable sample := by decide +kernel
  have hform : (Form.ofText "<ui/>").2 = .ok ⟨empty .ui⟩ := by rfl
  have hread := read_written.1 sample hw ht hn hf
  exact ⟨⟨hw, ht, hn, hf⟩, hread, (read_written.2.1 .ui sample.toText sample hread).2, hform,
    (read_written.2.2 "<ui/>" ⟨empty .ui⟩ hform).2.1⟩

end Node

end FormCompiler.Document
