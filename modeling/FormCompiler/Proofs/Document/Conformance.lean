import FormCompiler.Proofs.Document.Pulling

/-!
# Reading accepts exactly the schema

`Conforms k m` says which elements are allowed for a kind of nodes, and `violations` lists all the
places at which an element breaks the schema, in document order.  Reading succeeds if and only if
the element conforms, and the failure it reports is the first violation.  A reader of tokens does
the same, and stops right behind the element.
-/

namespace FormCompiler.Document

open Xml (Element Item Located Markup Part Spells)

/-! ## The schema as a relation -/

/-- The element is one that the schema allows for a kind.  Nothing is asked of the attributes of a
child that holds a scalar. -/
inductive Conforms : Kind → Markup → Prop
  | mk {k : Kind} {tag : String} {attributes : List (String × String)} {content : List Part}
      (named : ∀ a ∈ attributes, (k.attribute? a.1).isSome)
      (listed : ∀ m, Part.element m ∈ content → (k.child? m.tag).isSome)
      (scalars : ∀ m spec t, Part.element m ∈ content → k.child? m.tag = some spec →
        spec.content = .scalar t → ∀ m', Part.element m' ∉ m.content)
      (nodes : ∀ m spec k', Part.element m ∈ content → k.child? m.tag = some spec →
        spec.content = .node k' → Conforms k' m) :
      Conforms k (.mk tag attributes content)

/-- What the schema asks of a child element. -/
def ChildConforms (k : Kind) (m : Markup) : Prop :=
  ∃ spec, k.child? m.tag = some spec ∧ match spec.content with
    | .scalar _ => ∀ m', Part.element m' ∉ m.content
    | .node k' => Conforms k' m

theorem conforms_iff (k : Kind) (tag : String) (attributes : List (String × String))
    (content : List Part) :
    Conforms k (.mk tag attributes content) ↔
      (∀ a ∈ attributes, (k.attribute? a.1).isSome) ∧
        ∀ m, Part.element m ∈ content → ChildConforms k m := by
  constructor
  · intro h
    cases h with
    | mk named listed scalars nodes =>
      refine ⟨named, fun m hm => ?_⟩
      obtain ⟨spec, hspec⟩ := Option.isSome_iff_exists.mp (listed m hm)
      refine ⟨spec, hspec, ?_⟩
      split
      · next t ht => exact scalars m spec t hm hspec ht
      · next k' hk => exact nodes m spec k' hm hspec hk
  · rintro ⟨named, hchildren⟩
    refine .mk named (fun m hm => ?_) (fun m spec t hm hspec ht => ?_)
      (fun m spec k' hm hspec hk => ?_)
    · obtain ⟨spec, hspec, _⟩ := hchildren m hm
      rw [hspec]
      rfl
    · obtain ⟨spec', hspec', h⟩ := hchildren m hm
      obtain rfl := Option.some.inj (hspec.symm.trans hspec')
      rw [ht] at h
      exact h
    · obtain ⟨spec', hspec', h⟩ := hchildren m hm
      obtain rfl := Option.some.inj (hspec.symm.trans hspec')
      rw [hk] at h
      exact h

/-! ## Violations -/

/-- The attributes that nodes of a kind cannot have. -/
def tagViolations (k : Kind) (offset : Nat) (attributes : List (String × String)) : List Failure :=
  (attributes.filter fun a => (k.attribute? a.1).isNone).map fun a =>
    ⟨offset, .unexpectedAttribute k.tag a.1⟩

/-- The elements inside an element that may hold text only. -/
def textViolations (tag : String) (items : List Item) : List Failure :=
  items.filterMap fun
    | .element e => some ⟨e.offset, .expectedText tag⟩
    | _ => none

mutual

/-- What is not allowed in the content of a node of a kind, in document order. -/
def contentViolations (k : Kind) : List Item → List Failure
  | [] => []
  | .text _ _ :: rest | .cut _ :: rest => contentViolations k rest
  | .element e :: rest => childViolations k e ++ contentViolations k rest
termination_by structural items => items

/-- What is wrong with a child of a node of a kind. -/
def childViolations (k : Kind) : Element → List Failure
  | .mk tag attributes offset content => match k.child? tag with
    | none => [⟨offset, .unexpectedElement k.tag tag⟩]
    | some spec => match spec.content with
      | .scalar _ => textViolations spec.tag content
      | .node k' =>
        tagViolations k' offset (attributes.toOption.getD []) ++ contentViolations k' content
termination_by structural e => e

end

/-- The places at which an element breaks the schema of a kind, its attributes before its
content. -/
def violations (k : Kind) (e : Element) : List Failure :=
  tagViolations k e.offset (e.attributes.toOption.getD []) ++ contentViolations k e.content

theorem tagViolations_eq_nil (k : Kind) (offset : Nat) (as : List (String × String)) :
    tagViolations k offset as = [] ↔ ∀ a ∈ as, (k.attribute? a.1).isSome := by
  simp [tagViolations, Option.isSome_iff_ne_none]

theorem textViolations_eq_nil (tag : String) {parts : List Part} {items : List Item}
    {found : List Located} (h : Spells parts items found) :
    textViolations tag items = [] ↔ ∀ m, Part.element m ∉ parts := by
  induction h with
  | nil => simp [textViolations]
  | text rest ih => simpa [textViolations] using ih
  | element inside rest _ _ =>
    refine ⟨fun h => ?_, fun h => absurd (List.mem_cons_self ..) (h _)⟩
    simp [textViolations] at h

theorem contentViolations_eq_nil {parts : List Part} {items : List Item} {found : List Located}
    (h : Spells parts items found) (k : Kind) :
    contentViolations k items = [] ↔ ∀ m, Part.element m ∈ parts → ChildConforms k m := by
  induction h generalizing k with
  | nil => simp [contentViolations]
  | text rest ih => simpa [contentViolations] using ih k
  | @element tag as offset stop content parts inner items body tokens inside rest ihInside ih =>
    have hchild : childViolations k (.mk tag (.ok as) offset inner) = [] ↔
        ChildConforms k (.mk tag as content) := by
      rw [ChildConforms, childViolations]
      cases hspec : k.child? tag with
      | none => simp [Markup.tag, hspec]
      | some spec =>
        simp only [Markup.tag, hspec, Option.some.injEq, exists_eq_left']
        cases spec.content with
        | scalar t => exact textViolations_eq_nil spec.tag inside
        | node k' =>
          simp only [List.append_eq_nil_iff]
          rw [conforms_iff, tagViolations_eq_nil, ihInside]
          rfl
    rw [contentViolations, List.append_eq_nil_iff, ih k, hchild]
    simp only [List.mem_cons, Part.element.injEq]
    constructor
    · rintro ⟨h1, h2⟩ m (rfl | hm)
      · exact h1
      · exact h2 m hm
    · exact fun h => ⟨h _ (.inl rfl), fun m hm => h m (.inr hm)⟩

/-! ## Failures -/

namespace Node

theorem readAttributes_failure (offset : Nat) (n : Node) (as : List (String × String)) :
    (readAttributes offset n as).failure = (tagViolations n.kind offset as).head? := by
  induction as generalizing n with
  | nil => rfl
  | cons a as ih =>
    obtain ⟨name, value⟩ := a
    cases hspec : n.kind.attribute? name with
    | none => simp [readAttributes, tagViolations, hspec]
    | some spec =>
      have hrest := ih (n.setAttribute name (Scalar.parse spec.type value).1)
      have hknown : tagViolations n.kind offset ((name, value) :: as) =
          tagViolations n.kind offset as := by
        simp [tagViolations, hspec]
      simp only [readAttributes, hspec, Reading.after, hknown]
      exact hrest

/-- A text-only element is read unless there is an element in it. -/
theorem readText_cases (tag : String) {parts : List Part} {items : List Item}
    {found : List Located} (h : Spells parts items found) :
    (∃ s, readText tag items = .ok s ∧ textViolations tag items = []) ∨
      ∃ failure, readText tag items = .error failure ∧
        (textViolations tag items).head? = some failure := by
  induction h with
  | nil => exact .inl ⟨"", rfl, rfl⟩
  | @text s offset parts items tokens rest ih =>
    rcases ih with ⟨t, ht, hv⟩ | ⟨failure, hf, hv⟩
    · refine .inl ⟨s ++ t, ?_, by simpa [textViolations] using hv⟩
      rw [readText, ht]
      rfl
    · refine .inr ⟨failure, ?_, by simpa [textViolations] using hv⟩
      rw [readText, hf]
      rfl
  | element inside rest _ _ => exact .inr ⟨_, rfl, rfl⟩

theorem readElement_failure (n : Node) (e : Element) :
    (n.readElement e).failure =
      (n.readTag e.attributes e.offset).failure.or
        ((n.readTag e.attributes e.offset).node.readContent e.content).failure := by
  rw [readElement]
  cases h : (n.readTag e.attributes e.offset).failure with
  | none => rfl
  | some failure => simp [h]

/-- A field is read unless its element has violations; the first of them is reported. -/
theorem readContent_failure {parts : List Part} {items : List Item} {found : List Located}
    (h : Spells parts items found) (n : Node) :
    (n.readContent items).failure = (contentViolations n.kind items).head? := by
  induction h generalizing n with
  | nil => rfl
  | text rest ih =>
    rw [readContent, contentViolations, ih]
    split <;> rfl
  | @element tag as offset stop content parts inner items body tokens inside rest ihInside ih =>
    have hnext : ∀ f, ((n.addField f).readContent items).failure =
        (contentViolations n.kind items).head? := fun f => ih (n.addField f)
    rw [readContent, contentViolations, List.head?_append, childViolations]
    cases hspec : n.kind.child? tag with
    | none => simp [readField, hspec]
    | some spec =>
      cases hcontent : spec.content with
      | scalar t =>
        rw [readField_scalar n.kind t tag spec _ _ _ hspec hcontent, readScalar]
        simp only [hcontent]
        rcases readText_cases spec.tag inside with ⟨s, hs, hv⟩ | ⟨failure, hf, hv⟩
        · rw [hs, hv]
          exact hnext _
        · rw [hf, hv]
          rfl
      | node k =>
        have hread : ((empty k).readElement (.mk tag (.ok as) offset inner)).failure =
            (tagViolations k offset as ++ contentViolations k inner).head? := by
          rw [readElement_failure, List.head?_append]
          simp only [Element.attributes, Element.offset, Element.content, readTag]
          rw [readAttributes_failure, ihInside, readAttributes_kind]
          rfl
        rw [readField_node n.kind k tag spec _ _ _ hspec hcontent]
        simp only [hcontent, Except.toOption, Option.getD_some]
        rw [← hread]
        cases hf : ((empty k).readElement (.mk tag (.ok as) offset inner)).failure with
        | none => exact hnext _
        | some failure => rfl

/-- Reading takes the tokens of an element and none behind it, whether they are collected first or
read one by one; it succeeds if and only if the element conforms to the schema, and otherwise
reports the first violation. -/
theorem readElement_exactly (n : Node) (tag : String) (attributes : List (String × String))
    (content : List Part) (items : List Item) (body : List Located)
    (h : Spells content items body) (offset stop : Nat) (rest : List Located) :
    Element.take tag (.ok attributes) offset (body ++ ⟨.stop, stop⟩ :: rest) =
        (.mk tag (.ok attributes) offset items, rest) ∧
      (n.pullElement (.ok attributes) offset (body ++ ⟨.stop, stop⟩ :: rest)).1 =
        n.readElement (.mk tag (.ok attributes) offset items) ∧
      (Conforms n.kind (.mk tag attributes content) →
        (n.pullElement (.ok attributes) offset (body ++ ⟨.stop, stop⟩ :: rest)).2 = rest) ∧
      ((n.readElement (.mk tag (.ok attributes) offset items)).failure = none ↔
        Conforms n.kind (.mk tag attributes content)) ∧
      (n.readElement (.mk tag (.ok attributes) offset items)).failure =
        (violations n.kind (.mk tag (.ok attributes) offset items)).head? := by
  have hfailure : (n.readElement (.mk tag (.ok attributes) offset items)).failure =
      (violations n.kind (.mk tag (.ok attributes) offset items)).head? := by
    rw [readElement_failure, violations, List.head?_append]
    simp only [Element.attributes, Element.offset, Element.content, readTag, Except.toOption,
      Option.getD_some]
    rw [readAttributes_failure, readContent_failure h, readAttributes_kind]
  have hconforms : (n.readElement (.mk tag (.ok attributes) offset items)).failure = none ↔
      Conforms n.kind (.mk tag attributes content) := by
    rw [hfailure, List.head?_eq_none_iff, conforms_iff, ← contentViolations_eq_nil h,
      ← tagViolations_eq_nil n.kind offset, violations, List.append_eq_nil_iff]
    rfl
  have htake := h.forms.take tag (.ok attributes) offset stop rest
  obtain ⟨hread, hleft⟩ :=
    n.pullElement_eq tag (.ok attributes) offset (body ++ ⟨.stop, stop⟩ :: rest)
  rw [htake] at hread hleft
  exact ⟨htake, hread, fun hc => hleft (by rw [hread]; exact hconforms.mpr hc), hconforms, hfailure⟩

/-- A widget in an item, whose attribute does not exist. -/
def tinted : List Part :=
  [.text " ", .element (.mk "item" [("row", "1")] [.element (.mk "widget" [("tint", "")] [])])]

def tintedItems : List Item :=
  [.text (.ok " ") 9, .element (.mk "item" (.ok [("row", "1")]) 22
    [.element (.mk "widget" (.ok [("tint", "")]) 40 [])])]

def tintedTokens : List Located :=
  [⟨.text (.ok " "), 9⟩, ⟨.start "item" (.ok [("row", "1")]), 22⟩,
    ⟨.start "widget" (.ok [("tint", "")]), 40⟩, ⟨.stop, 40⟩, ⟨.stop, 47⟩]

theorem readElement_exactly_nested :
    Spells tinted tintedItems tintedTokens ∧
      ((empty .layout).readElement (.mk "layout" (.ok []) 8 tintedItems)).failure =
        some ⟨40, .unexpectedAttribute "widget" "tint"⟩ ∧
      ((empty .layout).pullElement (.ok []) 8 (tintedTokens ++ [⟨.stop, 56⟩])).1.failure =
        some ⟨40, .unexpectedAttribute "widget" "tint"⟩ ∧
      ¬ Conforms .layout (.mk "layout" [] tinted) := by
  have hspells : Spells tinted tintedItems tintedTokens :=
    .text (.element (.element .nil .nil) .nil)
  obtain ⟨_, hpulled, _, haccepted, hfailure⟩ :=
    readElement_exactly (empty .layout) "layout" [] _ _ _ hspells 8 56 []
  have hfirst : ((empty .layout).readElement (.mk "layout" (.ok []) 8 tintedItems)).failure =
      some ⟨40, .unexpectedAttribute "widget" "tint"⟩ := hfailure.trans rfl
  refine ⟨hspells, hfirst, (congrArg Reading.failure hpulled).trans hfirst, fun hconforms => ?_⟩
  rw [haccepted.mpr hconforms] at hfirst
  cases hfirst

end Node

end FormCompiler.Document
