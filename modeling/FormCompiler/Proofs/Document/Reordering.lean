import FormCompiler.Proofs.Document.Objects

/-!
# The order of attributes and children

A node keeps its attributes and fields in the order of the schema, so it does not remember the order
in which those of different names came.  Two changes of a well-formed node commute if they are about
different names (`setAttribute_comm`, `addField_comm`; the latter is wrong of a choice, where the
last payload wins).  `Rearranged place e e'` relates two elements that differ at one spot, at any
depth: two neighbouring children of different tags have changed places, or the attributes of an
element have.  Reading either into a node gives the same (`Rearranged.outcome`).
-/

namespace FormCompiler.Document

open Xml (Element Item)

/-! ## Inserting in order -/

section Insertion

variable {α : Type} (rank : α → Nat)

theorem inserted_first (l : List α) (x : α) (h : ∀ a ∈ l, rank x < rank a) :
    inserted rank l x = x :: l := by
  cases l with
  | nil => rfl
  | cons a l =>
    have ha := h a (List.mem_cons_self ..)
    rw [inserted_cons, if_neg (by omega)]

/-- Entries of different rank find the same places, whichever comes first. -/
theorem inserted_comm (l : List α) (x y : α) (h : rank x ≠ rank y) :
    inserted rank (inserted rank l x) y = inserted rank (inserted rank l y) x := by
  induction l with
  | nil =>
    show inserted rank [x] y = inserted rank [y] x
    by_cases hxy : rank x ≤ rank y
    · rw [inserted_cons, inserted_cons, if_pos hxy, if_neg (by omega)]
      rfl
    · rw [inserted_cons, inserted_cons, if_neg hxy, if_pos (by omega)]
      rfl
  | cons a l ih =>
    by_cases hx : rank a ≤ rank x
    · by_cases hy : rank a ≤ rank y
      · simp only [inserted_cons, if_pos hx, if_pos hy, ih]
      · have hyx : rank y ≤ rank x := by omega
        simp only [inserted_cons, if_pos hx, if_neg hy, if_pos hyx]
    · by_cases hy : rank a ≤ rank y
      · have hxy : rank x ≤ rank y := by omega
        simp only [inserted_cons, if_neg hx, if_pos hy, if_pos hxy]
      · by_cases hxy : rank x ≤ rank y
        · have hyx : ¬ rank y ≤ rank x := by omega
          simp only [inserted_cons, if_neg hx, if_neg hy, if_pos hxy, if_neg hyx]
        · have hyx : rank y ≤ rank x := by omega
          simp only [inserted_cons, if_neg hx, if_neg hy, if_neg hxy, if_pos hyx]

/-- Dropping other entries does not move the place of a new one, as long as the list is sorted. -/
theorem filter_inserted (p : α → Bool) (l : List α) (x : α) (hx : p x = true)
    (hl : l.Pairwise fun a b => rank a ≤ rank b) :
    (inserted rank l x).filter p = inserted rank (l.filter p) x := by
  induction l with
  | nil => simp [inserted, hx]
  | cons a l ih =>
    obtain ⟨ha, hl⟩ := List.pairwise_cons.mp hl
    by_cases hax : rank a ≤ rank x
    · rw [inserted_cons, if_pos hax]
      by_cases hp : p a = true
      · rw [List.filter_cons_of_pos hp, List.filter_cons_of_pos hp, inserted_cons, if_pos hax,
          ih hl]
      · rw [List.filter_cons_of_neg hp, List.filter_cons_of_neg hp, ih hl]
    · -- everything from `a` on has a greater rank, so `x` comes first before and after
      rw [inserted_cons, if_neg hax, List.filter_cons_of_pos hx, inserted_first]
      intro b hb
      rcases List.mem_cons.mp (List.mem_filter.mp hb).1 with rfl | hb
      · omega
      · have := ha b hb
        omega

end Insertion

namespace Node

/-! ## Changes that commute -/

theorem setAttribute_comm (n : Node) (a b : String) (u v : Scalar) (hn : n.WellFormed)
    (ha : (n.kind.attribute? a).isSome) (hb : (n.kind.attribute? b).isSome) (hab : a ≠ b) :
    (n.setAttribute a u).setAttribute b v = (n.setAttribute b v).setAttribute a u := by
  obtain ⟨k, as, fs, t⟩ := n
  let rank (x : String × Scalar) : Nat := k.attributeRank x.1
  have hrank : rank (a, u) ≠ rank (b, v) := fun h => hab (k.attributeRank_injective a b ha hb h)
  have hsorted : as.Pairwise fun x y => rank x ≤ rank y :=
    hn.attributesInOrder.imp fun h => Nat.le_of_lt h
  have hplace : ∀ (c d : String) (w : Scalar), c ≠ d →
      (inserted rank (as.filter (·.1 != c)) (c, w)).filter (·.1 != d) =
        inserted rank ((as.filter (·.1 != c)).filter (·.1 != d)) (c, w) := by
    intro c d w hcd
    exact filter_inserted rank _ _ _ (by simpa using hcd) (hsorted.sublist List.filter_sublist)
  have hfilters : (as.filter (·.1 != a)).filter (·.1 != b) =
      (as.filter (·.1 != b)).filter (·.1 != a) := by
    simp only [List.filter_filter, Bool.and_comm]
  show mk k (inserted rank ((inserted rank (as.filter (·.1 != a)) (a, u)).filter (·.1 != b)) (b, v))
      fs t =
    mk k (inserted rank ((inserted rank (as.filter (·.1 != b)) (b, v)).filter (·.1 != a)) (a, u))
      fs t
  rw [hplace a b u hab, hplace b a v hab.symm, hfilters, inserted_comm rank _ _ _ hrank]

/-- Whether a field stays when one with a tag is added to a node that is no choice. -/
def keeps (k : Kind) (tag : String) (g : Field) : Bool :=
  (k.child? tag).any (·.many) || g.tag != tag

theorem addField_inserted (k : Kind) (as : List (String × Scalar)) (fs : List Field) (t : String)
    (f : Field) (h : k.schema.isChoice = false) :
    (mk k as fs t).addField f =
      mk k as (inserted (fun g => k.childRank g.tag) (fs.filter (keeps k f.tag)) f) t := by
  have hkept : (if (k.child? f.tag).any (·.many) then fs else fs.filter (·.tag != f.tag)) =
      fs.filter (keeps k f.tag) := by
    by_cases hmany : (k.child? f.tag).any (·.many) = true
    · rw [if_pos hmany, List.filter_eq_self.mpr]
      intro g _
      rw [keeps, hmany, Bool.true_or]
    · rw [if_neg hmany]
      refine List.filter_congr fun g _ => ?_
      rw [keeps, Bool.eq_false_iff.mpr hmany, Bool.false_or]
  rw [← hkept, addField]
  simp only [Node.kind, Node.fields, Node.attributes, Node.text, h, Bool.false_eq_true, if_false]
  rfl

theorem addField_comm (n : Node) (f g : Field) (hn : n.WellFormed)
    (hchoice : n.kind.schema.isChoice = false) (hf : Fitting n.kind f) (hg : Fitting n.kind g)
    (hfg : f.tag ≠ g.tag) : (n.addField f).addField g = (n.addField g).addField f := by
  obtain ⟨k, as, fs, t⟩ := n
  let rank (x : Field) : Nat := k.childRank x.tag
  have hrank : rank f ≠ rank g := fun h =>
    hfg (k.childRank_injective _ _ (isSome_of_fitting hf) (isSome_of_fitting hg) h)
  have hsorted : fs.Pairwise fun x y => rank x ≤ rank y := hn.fieldsInOrder.imp rank_of_precedes
  have htwice : ∀ x y : Field, x.tag ≠ y.tag → ((mk k as fs t).addField x).addField y =
      mk k as (inserted rank
        (inserted rank ((fs.filter (keeps k x.tag)).filter (keeps k y.tag)) x) y) t := by
    intro x y hxy
    have hx : keeps k y.tag x = true := by simp [keeps, hxy]
    rw [addField_inserted k as fs t x hchoice, addField_inserted k as _ t y hchoice,
      filter_inserted _ _ _ _ hx (hsorted.sublist List.filter_sublist)]
  rw [htwice f g hfg, htwice g f hfg.symm, inserted_comm rank _ f g hrank]
  simp only [List.filter_filter, Bool.and_comm]

/-! ## Outcomes of reading -/

end Node

/-- The node that was read, unless the reading stopped early. -/
def Reading.outcome (r : Reading) : Option Node := if r.failure.isNone then some r.node else none

namespace Node

theorem outcome_attribute (offset : Nat) (n : Node) (a : String × String)
    (as : List (String × String)) :
    (readAttributes offset n (a :: as)).outcome = (n.kind.attribute? a.1).bind fun spec =>
      (readAttributes offset (n.setAttribute a.1 (Scalar.parse spec.type a.2).1) as).outcome := by
  rw [readAttributes]
  cases n.kind.attribute? a.1 with
  | none => rfl
  | some spec => rfl

theorem outcome_text (n : Node) (s : String) (offset : Nat) (rest : List Item) :
    (n.readContent (.text (.ok s) offset :: rest)).outcome =
      ((if Text.isBlank s then n else n.addText s).readContent rest).outcome := by
  rw [readContent]

theorem outcome_element (n : Node) (e : Element) (rest : List Item) :
    (n.readContent (.element e :: rest)).outcome = (readField n.kind e).2.toOption.bind fun f =>
      ((n.addField f).readContent rest).outcome := by
  rw [readContent]
  split
  · next hf =>
    rw [hf]
    rfl
  · next hf =>
    rw [hf]
    rfl

theorem outcome_append (n : Node) (as bs : List Item) :
    (n.readContent (as ++ bs)).outcome =
      (n.readContent as).outcome.bind fun m => (m.readContent bs).outcome := by
  induction as generalizing n with
  | nil => rfl
  | cons a as ih =>
    rw [List.cons_append]
    match a with
    | .text (.ok s) offset => rw [outcome_text, outcome_text, ih]
    | .text (.error fault) offset => rfl
    | .cut failure => rfl
    | .element e =>
      rw [outcome_element, outcome_element, Option.bind_assoc]
      simp only [ih]

theorem readElement_outcome (n : Node) (e : Element) :
    (n.readElement e).outcome = (n.readTag e.attributes e.offset).outcome.bind fun m =>
      (m.readContent e.content).outcome := by
  rw [readElement, Reading.outcome.eq_def (n.readTag e.attributes e.offset)]
  cases hf : (n.readTag e.attributes e.offset).failure with
  | none => rfl
  | some failure => simp [Reading.outcome, hf]

theorem readField_node_outcome (k kind : Kind) (spec : ChildSpec) (e : Element)
    (hspec : k.child? e.tag = some spec) (hkind : spec.content = .node kind) :
    (readField k e).2.toOption = ((empty kind).readElement e).outcome.map (.node e.tag) := by
  obtain ⟨tag, attributes, offset, content⟩ := e
  rw [readField_node k kind tag spec attributes offset content hspec hkind]
  cases hf : ((empty kind).readElement (.mk tag attributes offset content)).failure with
  | none => simp [Reading.outcome, hf, Except.toOption, Element.tag]
  | some failure => simp [Reading.outcome, hf, Except.toOption]

theorem readField_scalar_outcome (k : Kind) (t : ScalarType) (spec : ChildSpec) (e : Element)
    (hspec : k.child? e.tag = some spec) (ht : spec.content = .scalar t) :
    (readField k e).2.toOption = (readText spec.tag e.content).toOption.map fun s =>
      .value spec.tag (Scalar.parse t s).1 := by
  obtain ⟨tag, attributes, offset, content⟩ := e
  rw [readField_scalar k t tag spec attributes offset content hspec ht, readScalar,
    Element.content]
  cases readText spec.tag content with
  | error failure => rfl
  | ok s => rfl

theorem readField_unknown (k : Kind) (e : Element) (h : k.child? e.tag = none) :
    (readField k e).2.toOption = none := by
  obtain ⟨tag, attributes, offset, content⟩ := e
  rw [readField, show k.child? tag = none from h]
  rfl

theorem readField_tag (k : Kind) (e : Element) (f : Field)
    (h : (readField k e).2.toOption = some f) : f.tag = e.tag ∧ Fitting k f := by
  have hfit : Fitting k f := by
    cases hr : readField k e with
    | mk notices result =>
      rw [hr] at h
      cases result with
      | error failure => exact absurd h (by simp [Except.toOption])
      | ok g =>
        obtain rfl := Option.some.inj h
        exact (readField_sound e k notices g hr).1
  refine ⟨?_, hfit⟩
  cases hspec : k.child? e.tag with
  | none => rw [readField_unknown k e hspec] at h; simp at h
  | some spec =>
    cases hcontent : spec.content with
    | scalar t =>
      rw [readField_scalar_outcome k t spec e hspec hcontent] at h
      obtain ⟨s, _, rfl⟩ := Option.map_eq_some_iff.mp h
      exact Kind.child_tag hspec
    | node kind =>
      rw [readField_node_outcome k kind spec e hspec hcontent] at h
      obtain ⟨m, _, rfl⟩ := Option.map_eq_some_iff.mp h
      rfl

theorem outcome_eq_some {r : Reading} {m : Node} (h : r.outcome = some m) : r.node = m := by
  rw [Reading.outcome] at h
  split at h
  · exact Option.some.inj h
  · simp at h

theorem outcome_sound {n m : Node} {items : List Item} (hn : All Sound n)
    (h : (n.readContent items).outcome = some m) : All Sound m ∧ m.kind = n.kind := by
  rw [← outcome_eq_some h]
  exact readContent_sound items n hn

/-! ## Attributes in another order -/

theorem readAttributes_perm (offset : Nat) {as bs : List (String × String)} (h : as.Perm bs)
    (n : Node) (hn : All Sound n) (hd : (as.map Prod.fst).Nodup) :
    (readAttributes offset n as).outcome = (readAttributes offset n bs).outcome := by
  induction h generalizing n with
  | nil => rfl
  | cons a h ih =>
    rw [outcome_attribute, outcome_attribute]
    cases hspec : n.kind.attribute? a.1 with
    | none => rfl
    | some spec =>
      exact ih _ (all_setAttribute n a.1 _ hn ⟨spec, hspec, Scalar.parse_type spec.type a.2⟩
        (Scalar.parsed_parse spec.type a.2)) (List.nodup_cons.mp hd).2
  | swap a b l =>
    have hne : b.1 ≠ a.1 := by simpa using List.rel_of_pairwise_cons hd (List.mem_cons_self ..)
    simp only [outcome_attribute]
    have hkind : ∀ name v, (n.setAttribute name v).kind = n.kind := fun _ _ => rfl
    cases ha : n.kind.attribute? a.1 with
    | none => cases n.kind.attribute? b.1 <;> simp [hkind, ha]
    | some spec =>
      cases hb : n.kind.attribute? b.1 with
      | none => simp [hkind, hb]
      | some spec' =>
        simp only [hkind, ha, hb, Option.bind_some]
        rw [setAttribute_comm n b.1 a.1 _ _ hn.here.wellFormed (by rw [hb]; rfl) (by rw [ha]; rfl)
          hne]
  | trans h _ ih ih' => rw [ih n hn hd, ih' n hn ((h.map Prod.fst).nodup_iff.mp hd)]

end Node

/-! ## Rearranged elements -/

/-- The attributes of two start tags that differ in their order at most.  Attributes that cannot be
read count as alike. -/
inductive SameAttributes : Except Xml.Fault (List (String × String)) →
    Except Xml.Fault (List (String × String)) → Prop
  | faulty (fault fault' : Xml.Fault) : SameAttributes (.error fault) (.error fault')
  | permuted {as bs : List (String × String)} (h : as.Perm bs) (hd : (as.map Prod.fst).Nodup) :
      SameAttributes (.ok as) (.ok bs)

/-- The kind of the node that a child element becomes; there is none for a scalar. -/
def Kind.childKind? (k : Kind) (tag : String) : Option Kind :=
  (k.child? tag).bind fun spec => spec.content.kind?

/-- Two elements that differ in the order of two neighbouring children of different tags or of the
attributes of one element, at any depth.  The place is the kind of the node that the elements
become, as far as they become one. -/
inductive Rearranged : Option Kind → Element → Element → Prop
  | children {k : Kind} (hk : k.schema.isChoice = false) (tag : String)
      (attributes : Except Xml.Fault (List (String × String))) (offset : Nat)
      (before : List Item) (x y : Element) (middle after : List Item)
      (hmiddle : ∀ item ∈ middle, ∃ content place, item = .text content place)
      (hxy : x.tag ≠ y.tag) :
      Rearranged (some k)
        (.mk tag attributes offset (before ++ .element x :: (middle ++ .element y :: after)))
        (.mk tag attributes offset (before ++ .element y :: (middle ++ .element x :: after)))
  | attributes {as bs : Except Xml.Fault (List (String × String))} (h : SameAttributes as bs)
      (place : Option Kind) (tag : String) (offset : Nat) (content : List Item) :
      Rearranged place (.mk tag as offset content) (.mk tag bs offset content)
  | inside {place : Option Kind} {e e' : Element}
      (h : Rearranged (place.bind fun k => k.childKind? e.tag) e e') (tag : String)
      (attributes : Except Xml.Fault (List (String × String))) (offset : Nat)
      (before after : List Item) :
      Rearranged place (.mk tag attributes offset (before ++ .element e :: after))
        (.mk tag attributes offset (before ++ .element e' :: after))

namespace Node

theorem readText_text (tag s : String) (offset : Nat) (rest : List Item) :
    (readText tag (.text (.ok s) offset :: rest)).toOption =
      (readText tag rest).toOption.map (s ++ ·) := by
  rw [readText]
  cases readText tag rest with
  | error failure => rfl
  | ok t => rfl

theorem readText_element (tag : String) (before after : List Item) (e : Element) :
    (readText tag (before ++ .element e :: after)).toOption = none := by
  induction before with
  | nil => rfl
  | cons item before ih =>
    rw [List.cons_append]
    match item with
    | .text (.ok s) offset => rw [readText_text, ih, Option.map_none]
    | .text (.error fault) offset => rfl
    | .element e => rfl
    | .cut failure => rfl

theorem readTag_sameAttributes {as bs : Except Xml.Fault (List (String × String))}
    (h : SameAttributes as bs) (n : Node) (hn : All Sound n) (offset : Nat) :
    (n.readTag as offset).outcome = (n.readTag bs offset).outcome := by
  cases h with
  | faulty fault fault' => rfl
  | permuted h hd => exact readAttributes_perm offset h n hn hd

/-- Texts do not care for the fields around them. -/
theorem outcome_texts (n : Node) (f : Field) (items : List Item)
    (h : ∀ item ∈ items, ∃ content place, item = .text content place) :
    ((n.addField f).readContent items).outcome =
      (n.readContent items).outcome.map (·.addField f) := by
  induction items generalizing n with
  | nil => rfl
  | cons item items ih =>
    have hrest := fun i hi => h i (List.mem_cons_of_mem item hi)
    obtain ⟨content, place, rfl⟩ := h item (List.mem_cons_self ..)
    cases content with
    | error fault => rfl
    | ok s =>
      rw [outcome_text, outcome_text, ← ih _ hrest]
      by_cases hs : Text.isBlank s = true
      · simp only [if_pos hs]
      · simp only [if_neg hs]
        rfl

/-- Two neighbouring elements of different tags may change places. -/
theorem outcome_swap (n : Node) (x y : Element) (middle after : List Item) (hn : All Sound n)
    (hk : n.kind.schema.isChoice = false)
    (hmiddle : ∀ item ∈ middle, ∃ content place, item = .text content place)
    (hxy : x.tag ≠ y.tag) :
    (n.readContent (.element x :: (middle ++ .element y :: after))).outcome =
      (n.readContent (.element y :: (middle ++ .element x :: after))).outcome := by
  have hone : ∀ u v : Element,
      (n.readContent (.element u :: (middle ++ .element v :: after))).outcome =
        (readField n.kind u).2.toOption.bind fun f => (n.readContent middle).outcome.bind fun m =>
          (readField n.kind v).2.toOption.bind fun g =>
            (((m.addField f).addField g).readContent after).outcome := by
    intro u v
    rw [outcome_element]
    congr 1
    funext f
    rw [outcome_append, outcome_texts n f middle hmiddle]
    cases hm : (n.readContent middle).outcome with
    | none => rfl
    | some m =>
      have hkind : (m.addField f).kind = n.kind := (outcome_sound hn hm).2
      rw [Option.map_some, Option.bind_some, Option.bind_some, outcome_element, hkind]
  rw [hone x y, hone y x]
  cases hx : (readField n.kind x).2.toOption with
  | none => cases (readField n.kind y).2.toOption <;> simp
  | some f =>
    cases hy : (readField n.kind y).2.toOption with
    | none => simp
    | some g =>
      cases hm : (n.readContent middle).outcome with
      | none => rfl
      | some m =>
        obtain ⟨hsound, hkind⟩ := outcome_sound hn hm
        obtain ⟨htf, hf⟩ := readField_tag n.kind x f hx
        obtain ⟨htg, hg⟩ := readField_tag n.kind y g hy
        rw [← hkind] at hk hf hg
        have hfg : f.tag ≠ g.tag := by rwa [htf, htg]
        simp only [Option.bind_some]
        rw [addField_comm m f g hsound.here.wellFormed hk hf hg hfg]

theorem readElement_behind (n : Node) (tag : String)
    (attributes : Except Xml.Fault (List (String × String))) (offset : Nat)
    (before rest rest' : List Item) (hn : All Sound n)
    (h : ∀ m : Node, m.kind = n.kind → All Sound m →
      (m.readContent rest).outcome = (m.readContent rest').outcome) :
    (n.readElement (.mk tag attributes offset (before ++ rest))).outcome =
      (n.readElement (.mk tag attributes offset (before ++ rest'))).outcome := by
  rw [readElement_outcome, readElement_outcome]
  simp only [Element.attributes, Element.offset, Element.content]
  cases htag : (n.readTag attributes offset).outcome with
  | none => rfl
  | some m =>
    have hm : All Sound m := outcome_eq_some htag ▸ readTag_sound n attributes offset hn
    have hkind : m.kind = n.kind := outcome_eq_some htag ▸ readTag_kind n attributes offset
    rw [Option.bind_some, Option.bind_some, outcome_append, outcome_append]
    cases hbefore : (m.readContent before).outcome with
    | none => rfl
    | some m' =>
      obtain ⟨hsound, hkind'⟩ := outcome_sound hm hbefore
      exact h m' (hkind'.trans hkind) hsound

end Node

namespace Rearranged

open Node

variable {place : Option Kind} {e e' : Element}

theorem tag_eq (h : Rearranged place e e') : e.tag = e'.tag := by
  cases h <;> rfl

theorem readText_eq (h : Rearranged place e e') (tag : String) :
    (readText tag e.content).toOption = (readText tag e'.content).toOption := by
  cases h with
  | children => simp only [Element.content, readText_element]
  | attributes => rfl
  | inside => simp only [Element.content, readText_element]

theorem outcome (h : Rearranged place e e') (n : Node) (hplace : place = some n.kind)
    (hn : All Sound n) : (n.readElement e).outcome = (n.readElement e').outcome := by
  induction h generalizing n with
  | children hk tag attributes offset before x y middle after hmiddle hxy =>
    obtain rfl := Option.some.inj hplace
    refine readElement_behind n tag attributes offset before _ _ hn fun m hkind hm => ?_
    exact outcome_swap m x y middle after hm (hkind ▸ hk) hmiddle hxy
  | attributes h place tag offset content =>
    rw [readElement_outcome, readElement_outcome]
    exact congrArg (Option.bind · _) (readTag_sameAttributes h n hn offset)
  | @inside place e e' h tag attributes offset before after ih =>
    subst hplace
    have hfield : (readField n.kind e).2.toOption = (readField n.kind e').2.toOption := by
      cases hspec : n.kind.child? e.tag with
      | none =>
        rw [readField_unknown _ e hspec, readField_unknown _ e' (h.tag_eq ▸ hspec)]
      | some spec =>
        cases hcontent : spec.content with
        | scalar t =>
          rw [readField_scalar_outcome _ t spec e hspec hcontent, h.readText_eq,
            readField_scalar_outcome _ t spec e' (h.tag_eq ▸ hspec) hcontent]
        | node kind =>
          have hinner : (some n.kind).bind (fun k => k.childKind? e.tag) = some kind := by
            rw [Option.bind_some, Kind.childKind?, hspec, Option.bind_some, hcontent]
            rfl
          rw [readField_node_outcome _ kind spec e hspec hcontent,
            ih (empty kind) hinner (all_empty kind), h.tag_eq,
            readField_node_outcome _ kind spec e' (h.tag_eq ▸ hspec) hcontent]
    refine readElement_behind n tag attributes offset before _ _ hn fun m hkind _ => ?_
    rw [outcome_element, outcome_element, hkind, hfield]

end Rearranged

end FormCompiler.Document
