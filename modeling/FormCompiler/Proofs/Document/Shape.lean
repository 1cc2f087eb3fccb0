import FormCompiler.Document.Walk
import FormCompiler.Proofs.Document.Scalar

/-!
# Well-formed nodes

A node has the shape its kind prescribes if its attributes and fields are known to the schema, hold
what the schema says, stand in the order of the schema, and occur no more often than allowed.
`Node.All` states a property of every node of a tree.  Changing a node by `setAttribute`, `addField`
and `addText` keeps its shape, so everything that is read has it (`readElement_sound`).
-/

namespace FormCompiler.Document

/-! ## Names of a schema -/

namespace Kind

theorem attribute_name {k : Kind} {name : String} {spec : AttributeSpec}
    (h : k.attribute? name = some spec) : spec.name = name := by
  simpa using List.find?_some h

theorem child_tag {k : Kind} {tag : String} {spec : ChildSpec} (h : k.child? tag = some spec) :
    spec.tag = tag := by
  simpa using List.find?_some h

theorem findIdx_injective {α : Type} (name : α → String) (l : List α) (a b : String)
    (ha : (l.find? (name · == a)).isSome) (hb : (l.find? (name · == b)).isSome)
    (h : l.findIdx (name · == a) = l.findIdx (name · == b)) : a = b := by
  have hplace : ∀ c, (l.find? (name · == c)).isSome →
      ∃ x, l[l.findIdx (name · == c)]? = some x ∧ name x = c := by
    intro c hc
    obtain ⟨x, hx, hp⟩ := List.find?_isSome.mp hc
    have hlt : l.findIdx (name · == c) < l.length := List.findIdx_lt_length_of_exists ⟨x, hx, hp⟩
    have hname : (name l[l.findIdx (name · == c)] == c) = true := List.findIdx_getElem (w := hlt)
    exact ⟨_, List.getElem?_eq_getElem hlt, beq_iff_eq.mp hname⟩
  obtain ⟨x, hx, hxa⟩ := hplace a ha
  obtain ⟨y, hy, hyb⟩ := hplace b hb
  rw [h, hy] at hx
  rw [← hxa, ← hyb, Option.some.inj hx]

theorem attributeRank_injective (k : Kind) (a b : String) (ha : (k.attribute? a).isSome)
    (hb : (k.attribute? b).isSome) (h : k.attributeRank a = k.attributeRank b) : a = b :=
  findIdx_injective AttributeSpec.name k.schema.attributes a b ha hb h

theorem childRank_injective (k : Kind) (a b : String) (ha : (k.child? a).isSome)
    (hb : (k.child? b).isSome) (h : k.childRank a = k.childRank b) : a = b :=
  findIdx_injective ChildSpec.tag k.schema.children a b ha hb h

end Kind

/-! ## Inserting in order -/

section Insertion

variable {α : Type} (rank : α → Nat) (R : α → α → Prop) (l : List α) (x : α)

theorem inserted_cons (a : α) :
    inserted rank (a :: l) x =
      if rank a ≤ rank x then a :: inserted rank l x else x :: a :: l := by
  by_cases h : rank a ≤ rank x
  · simp [inserted, h]
  · simp [inserted, h]

theorem mem_inserted {a : α} (h : a ∈ inserted rank l x) : a = x ∨ a ∈ l := by
  rcases List.mem_append.mp h with h | h
  · exact .inr ((List.takeWhile_sublist _).mem h)
  · rcases List.mem_cons.mp h with h | h
    · exact .inl h
    · exact .inr ((List.dropWhile_sublist _).mem h)

theorem pairwise_inserted (hl : l.Pairwise R) (hle : ∀ a b, R a b → rank a ≤ rank b)
    (hbefore : ∀ a ∈ l, rank a ≤ rank x → R a x) (hafter : ∀ b ∈ l, rank x < rank b → R x b) :
    (inserted rank l x).Pairwise R := by
  induction l with
  | nil => exact List.pairwise_singleton ..
  | cons a l ih =>
    obtain ⟨ha, hl⟩ := List.pairwise_cons.mp hl
    have hrest := ih hl (fun b hb => hbefore b (List.mem_cons_of_mem a hb))
      (fun b hb => hafter b (List.mem_cons_of_mem a hb))
    rw [inserted_cons]
    by_cases hax : rank a ≤ rank x
    · rw [if_pos hax, List.pairwise_cons]
      refine ⟨fun b hb => ?_, hrest⟩
      rcases mem_inserted rank l x hb with rfl | hb
      · exact hbefore a (List.mem_cons_self ..) hax
      · exact ha b hb
    · rw [if_neg hax, List.pairwise_cons]
      refine ⟨fun b hb => hafter b hb ?_, List.pairwise_cons.mpr ⟨ha, hl⟩⟩
      rcases List.mem_cons.mp hb with rfl | hb
      · omega
      · have := hle a b (ha b hb)
        omega

theorem inserted_last (h : ∀ a ∈ l, rank a ≤ rank x) : inserted rank l x = l ++ [x] := by
  induction l with
  | nil => rfl
  | cons a l ih =>
    rw [inserted_cons, if_pos (h a (List.mem_cons_self ..)),
      ih fun b hb => h b (List.mem_cons_of_mem a hb), List.cons_append]

end Insertion

/-! ## Shapes -/

/-- What a field holds, in the words of the schema. -/
def Field.content : Field → Content
  | .value _ v => .scalar v.type
  | .node _ n => .node n.kind

namespace Node

/-- An attribute that nodes of a kind can have. -/
def Attribute (k : Kind) (a : String × Scalar) : Prop :=
  ∃ spec, k.attribute? a.1 = some spec ∧ a.2.type = spec.type

instance (k : Kind) (a : String × Scalar) : Decidable (Attribute k a) :=
  decidable_of_iff ((k.attribute? a.1).any fun spec => a.2.type = spec.type) (by
    simp [Attribute, Option.any_eq_true])

/-- A field that nodes of a kind can have. -/
def Fitting (k : Kind) (f : Field) : Prop :=
  ∃ spec, k.child? f.tag = some spec ∧ f.content = spec.content

instance (k : Kind) (f : Field) : Decidable (Fitting k f) :=
  decidable_of_iff ((k.child? f.tag).any fun spec => f.content = spec.content) (by
    simp [Fitting, Option.any_eq_true])

/-- One field may stand before another: the schema lists it earlier, or both have a tag that may be
repeated. -/
def Precedes (k : Kind) (f g : Field) : Prop :=
  k.childRank f.tag < k.childRank g.tag ∨ f.tag = g.tag ∧ (k.child? f.tag).any (·.many) = true

instance (k : Kind) (f g : Field) : Decidable (Precedes k f g) :=
  inferInstanceAs (Decidable (_ ∨ _))

/-- The node itself, apart from those below it, is as its kind prescribes. -/
structure WellFormed (n : Node) : Prop where
  attributes : ∀ a ∈ n.attributes, Attribute n.kind a
  attributesInOrder :
    n.attributes.Pairwise fun a b => n.kind.attributeRank a.1 < n.kind.attributeRank b.1
  fields : ∀ f ∈ n.fields, Fitting n.kind f
  fieldsInOrder : n.fields.Pairwise (Precedes n.kind)
  choice : n.kind.schema.isChoice = true → n.fields.length ≤ 1

instance (n : Node) : Decidable n.WellFormed :=
  decidable_of_iff
    ((∀ a ∈ n.attributes, Attribute n.kind a) ∧
      (n.attributes.Pairwise fun a b => n.kind.attributeRank a.1 < n.kind.attributeRank b.1) ∧
      (∀ f ∈ n.fields, Fitting n.kind f) ∧ n.fields.Pairwise (Precedes n.kind) ∧
      (n.kind.schema.isChoice = true → n.fields.length ≤ 1))
    ⟨fun ⟨h1, h2, h3, h4, h5⟩ => ⟨h1, h2, h3, h4, h5⟩, fun h =>
      ⟨h.attributes, h.attributesInOrder, h.fields, h.fieldsInOrder, h.choice⟩⟩

/-- The text of a node is empty or more than white space. -/
def Texted (n : Node) : Prop := n.text = "" ∨ Text.isBlank n.text = false

instance (n : Node) : Decidable n.Texted := inferInstanceAs (Decidable (_ ∨ _))

/-- All nodes of a tree have a property. -/
def All (P : Node → Prop) (n : Node) : Prop := ∀ v ∈ n.visits [], P v.node

instance (P : Node → Prop) [DecidablePred P] (n : Node) : Decidable (All P n) :=
  inferInstanceAs (Decidable (∀ v ∈ n.visits [], P v.node))

/-! ## Trees -/

mutual

theorem visits_nodes (n : Node) (p q : List Nat) :
    (n.visits p).map Visit.node = (n.visits q).map Visit.node := by
  match n with
  | mk k as fs t =>
    simp only [visits, List.map_cons]
    rw [fieldsVisits_nodes fs p q 0 0]
termination_by structural n

theorem fieldsVisits_nodes (fs : List Field) (p q : List Nat) (i j : Nat) :
    (fieldsVisits p i fs).map Visit.node = (fieldsVisits q j fs).map Visit.node := by
  match fs with
  | [] => rfl
  | f :: fs =>
    simp only [fieldsVisits, List.map_append]
    rw [fieldVisits_nodes f (i :: p) (j :: q), fieldsVisits_nodes fs p q (i + 1) (j + 1)]
termination_by structural fs

theorem fieldVisits_nodes (f : Field) (p q : List Nat) :
    (fieldVisits p f).map Visit.node = (fieldVisits q f).map Visit.node := by
  match f with
  | .value _ _ => rfl
  | .node _ n => exact visits_nodes n p q
termination_by structural f

end

theorem all_iff_nodes (P : Node → Prop) (n : Node) (p : List Nat) :
    All P n ↔ ∀ x ∈ (n.visits p).map Visit.node, P x := by
  rw [visits_nodes n p [], All, List.forall_mem_map]

theorem forall_fieldsVisits (P : Node → Prop) (fs : List Field) (p : List Nat) (i : Nat) :
    (∀ v ∈ fieldsVisits p i fs, P v.node) ↔ ∀ f ∈ fs, ∀ m, f.node? = some m → All P m := by
  induction fs generalizing i with
  | nil => simp [fieldsVisits]
  | cons f fs ih =>
    have hf : (∀ v ∈ fieldVisits (i :: p) f, P v.node) ↔ ∀ m, f.node? = some m → All P m := by
      cases f with
      | value tag v => simp [fieldVisits, Field.node?]
      | node tag n =>
        simp only [fieldVisits, Field.node?, Option.some.injEq, forall_eq']
        rw [all_iff_nodes P n (i :: p), List.forall_mem_map]
    simp only [fieldsVisits, List.forall_mem_append, List.forall_mem_cons, hf, ih]

theorem all_mk (P : Node → Prop) (k : Kind) (as : List (String × Scalar)) (fs : List Field)
    (t : String) :
    All P (mk k as fs t) ↔
      P (mk k as fs t) ∧ ∀ f ∈ fs, ∀ m, f.node? = some m → All P m := by
  rw [All, visits, List.forall_mem_cons, forall_fieldsVisits]

theorem All.here {P : Node → Prop} {n : Node} (h : All P n) : P n := by
  obtain ⟨k, as, fs, t⟩ := n
  exact ((all_mk P k as fs t).mp h).1

theorem All.below {P : Node → Prop} {n : Node} (h : All P n) :
    ∀ f ∈ n.fields, ∀ m, f.node? = some m → All P m := by
  obtain ⟨k, as, fs, t⟩ := n
  exact ((all_mk P k as fs t).mp h).2

theorem all_of {P : Node → Prop} {n : Node} (h : P n)
    (hb : ∀ f ∈ n.fields, ∀ m, f.node? = some m → All P m) : All P n := by
  obtain ⟨k, as, fs, t⟩ := n
  exact (all_mk P k as fs t).mpr ⟨h, hb⟩

mutual

/-- Induction over trees. -/
theorem induction {P : Node → Prop}
    (h : ∀ n : Node, (∀ f ∈ n.fields, ∀ m, f.node? = some m → P m) → P n) (n : Node) : P n := by
  match n with
  | mk k as fs t => exact h (mk k as fs t) (induction_fields h fs)
termination_by structural n

theorem induction_fields {P : Node → Prop}
    (h : ∀ n : Node, (∀ f ∈ n.fields, ∀ m, f.node? = some m → P m) → P n) (fs : List Field) :
    ∀ f ∈ fs, ∀ m, f.node? = some m → P m := by
  match fs with
  | [] => simp
  | f :: fs =>
    intro g hg
    rcases List.mem_cons.mp hg with hf | hg
    · rw [hf]
      exact induction_field h f
    · exact induction_fields h fs g hg
termination_by structural fs

theorem induction_field {P : Node → Prop}
    (h : ∀ n : Node, (∀ f ∈ n.fields, ∀ m, f.node? = some m → P m) → P n) (f : Field) :
    ∀ m, f.node? = some m → P m := by
  match f with
  | .value _ _ => simp [Field.node?]
  | .node _ n =>
    intro m hm
    obtain rfl := Option.some.inj hm
    exact induction h n
termination_by structural f

end

/-! ## Changes -/

/-- A node as it comes out of reading. -/
structure Sound (n : Node) : Prop where
  wellFormed : n.WellFormed
  texted : n.Texted
  attributesParsed : ∀ a ∈ n.attributes, a.2.Parsed
  fieldsParsed : ∀ f ∈ n.fields, ∀ v, f.scalar? = some v → v.Parsed

theorem wellFormed_empty (k : Kind) : (empty k).WellFormed where
  attributes := by simp [empty, Node.attributes]
  attributesInOrder := .nil
  fields := by simp [empty, Node.fields]
  fieldsInOrder := .nil
  choice := fun _ => Nat.zero_le 1

theorem all_empty (k : Kind) : All Sound (empty k) :=
  all_of ⟨wellFormed_empty k, .inl rfl, by simp [empty, Node.attributes],
    by simp [empty, Node.fields]⟩ (by simp [empty, Node.fields])

theorem isSome_of_attribute {k : Kind} {a : String × Scalar} (h : Attribute k a) :
    (k.attribute? a.1).isSome := by
  obtain ⟨spec, hspec, _⟩ := h
  rw [hspec]
  rfl

theorem isSome_of_fitting {k : Kind} {f : Field} (h : Fitting k f) : (k.child? f.tag).isSome := by
  obtain ⟨spec, hspec, _⟩ := h
  rw [hspec]
  rfl

theorem wellFormed_setAttribute (n : Node) (name : String) (v : Scalar) (h : n.WellFormed)
    (ha : Attribute n.kind (name, v)) : (n.setAttribute name v).WellFormed := by
  obtain ⟨k, as, fs, t⟩ := n
  have hkept : ∀ a ∈ as.filter (·.1 != name), Attribute k a :=
    fun a ha => h.attributes a (List.mem_filter.mp ha).1
  refine ⟨fun a hm => ?_, ?_, h.fields, h.fieldsInOrder, h.choice⟩
  · rcases mem_inserted (fun a : String × Scalar => k.attributeRank a.1) _ (name, v) hm
      with rfl | hm
    · exact ha
    · exact hkept a hm
  · refine pairwise_inserted (fun a : String × Scalar => k.attributeRank a.1) _ _ (name, v)
      (h.attributesInOrder.sublist List.filter_sublist) (fun a b hab => Nat.le_of_lt hab)
      (fun a hm hle => ?_) (fun b _ hlt => hlt)
    have hne : a.1 ≠ name := by simpa using (List.mem_filter.mp hm).2
    have hrank : k.attributeRank a.1 ≠ k.attributeRank name := fun he =>
      hne (k.attributeRank_injective a.1 name (isSome_of_attribute (hkept a hm))
        (isSome_of_attribute ha) he)
    exact Nat.lt_of_le_of_ne hle hrank

theorem addField_kept (n : Node) (f : Field) (h : n.WellFormed) (hf : Fitting n.kind f) :
    ∃ kept, kept.Sublist n.fields ∧
      (n.addField f).fields = inserted (fun g => n.kind.childRank g.tag) kept f ∧
      (∀ g ∈ kept, n.kind.childRank g.tag ≤ n.kind.childRank f.tag → Precedes n.kind g f) ∧
      (n.kind.schema.isChoice = true → kept = []) := by
  obtain ⟨k, as, fs, t⟩ := n
  have hrank : ∀ g ∈ fs, k.childRank g.tag ≤ k.childRank f.tag → g.tag ≠ f.tag →
      Precedes k g f := by
    intro g hg hle hne
    refine .inl (Nat.lt_of_le_of_ne hle fun he => hne ?_)
    exact k.childRank_injective _ _ (isSome_of_fitting (h.fields g hg)) (isSome_of_fitting hf) he
  by_cases hchoice : k.schema.isChoice = true
  · exact ⟨[], List.nil_sublist _, by simp [addField, Node.kind, Node.fields, hchoice], by simp,
      fun _ => rfl⟩
  · by_cases hmany : (k.child? f.tag).any (·.many) = true
    · refine ⟨fs, List.Sublist.refl fs, ?_, fun g hg hle => ?_, fun hc => absurd hc hchoice⟩
      · simp [addField, Node.kind, Node.fields, hchoice, hmany]
      · by_cases hne : g.tag = f.tag
        · exact .inr ⟨hne, hne ▸ hmany⟩
        · exact hrank g hg hle hne
    · refine ⟨fs.filter (·.tag != f.tag), List.filter_sublist, ?_, fun g hg hle => ?_,
        fun hc => absurd hc hchoice⟩
      · simp [addField, Node.kind, Node.fields, hchoice, hmany]
      · obtain ⟨hg, hne⟩ := List.mem_filter.mp hg
        exact hrank g hg hle (by simpa using hne)

theorem rank_of_precedes {k : Kind} {f g : Field} (h : Precedes k f g) :
    k.childRank f.tag ≤ k.childRank g.tag := by
  rcases h with h | ⟨h, _⟩
  · exact Nat.le_of_lt h
  · exact Nat.le_of_eq (congrArg k.childRank h)

theorem wellFormed_addField (n : Node) (f : Field) (h : n.WellFormed) (hf : Fitting n.kind f) :
    (n.addField f).WellFormed := by
  obtain ⟨kept, hsub, hfields, hbefore, hchoice⟩ := addField_kept n f h hf
  have hrank : ∀ g ∈ (n.addField f).fields, g = f ∨ g ∈ kept := by
    rw [hfields]
    exact fun g hg => mem_inserted (fun g : Field => n.kind.childRank g.tag) kept f hg
  obtain ⟨k, as, fs, t⟩ := n
  refine ⟨h.attributes, h.attributesInOrder, fun g hg => ?_, ?_, fun hc => ?_⟩
  · rcases hrank g hg with rfl | hg
    · exact hf
    · exact h.fields g (hsub.mem hg)
  · rw [hfields]
    exact pairwise_inserted (fun g : Field => k.childRank g.tag) (Precedes k) kept f
      (h.fieldsInOrder.sublist hsub) (fun _ _ => rank_of_precedes) hbefore (fun _ _ hlt => .inl hlt)
  · rw [hfields, hchoice hc]
    exact Nat.le_refl 1

theorem all_setAttribute (n : Node) (name : String) (v : Scalar) (h : All Sound n)
    (ha : Attribute n.kind (name, v)) (hv : v.Parsed) : All Sound (n.setAttribute name v) := by
  refine all_of ⟨wellFormed_setAttribute n name v h.here.wellFormed ha, h.here.texted,
    fun a hm => ?_, h.here.fieldsParsed⟩ h.below
  rcases mem_inserted (fun a : String × Scalar => n.kind.attributeRank a.1) _ (name, v) hm
    with rfl | hm
  · exact hv
  · exact h.here.attributesParsed a (List.mem_filter.mp hm).1

theorem all_addField (n : Node) (f : Field) (h : All Sound n) (hf : Fitting n.kind f)
    (hv : ∀ v, f.scalar? = some v → v.Parsed) (hb : ∀ m, f.node? = some m → All Sound m) :
    All Sound (n.addField f) := by
  obtain ⟨kept, hsub, hfields, _, _⟩ := addField_kept n f h.here.wellFormed hf
  have hmem : ∀ g ∈ (n.addField f).fields, g = f ∨ g ∈ n.fields := by
    intro g hg
    rw [hfields] at hg
    exact (mem_inserted (fun g : Field => n.kind.childRank g.tag) kept f hg).imp_right
      fun hg => hsub.mem hg
  refine all_of ⟨wellFormed_addField n f h.here.wellFormed hf, h.here.texted,
    h.here.attributesParsed, fun g hg => ?_⟩ (fun g hg => ?_)
  · rcases hmem g hg with rfl | hg
    · exact hv
    · exact h.here.fieldsParsed g hg
  · rcases hmem g hg with rfl | hg
    · exact hb
    · exact h.below g hg

theorem isBlank_append (s t : String) :
    Text.isBlank (s ++ t) = (Text.isBlank s && Text.isBlank t) := by
  simp [Text.isBlank]

theorem all_addText (n : Node) (s : String) (h : All Sound n) (hs : Text.isBlank s = false) :
    All Sound (n.addText s) := by
  have hw : (n.addText s).WellFormed := ⟨h.here.1.attributes, h.here.1.attributesInOrder,
    h.here.1.fields, h.here.1.fieldsInOrder, h.here.1.choice⟩
  have ht : Text.isBlank (n.text ++ s) = false := by rw [isBlank_append, hs, Bool.and_false]
  exact all_of ⟨hw, .inr ht, h.here.attributesParsed, h.here.fieldsParsed⟩ h.below

/-! ## Reading -/

theorem readAttributes_kind (offset : Nat) (n : Node) (as : List (String × String)) :
    (readAttributes offset n as).node.kind = n.kind := by
  induction as generalizing n with
  | nil => rfl
  | cons a as ih =>
    rw [readAttributes]
    split
    · rfl
    · exact ih _

theorem readAttributes_sound (offset : Nat) (n : Node) (as : List (String × String))
    (h : All Sound n) : All Sound (readAttributes offset n as).node := by
  induction as generalizing n with
  | nil => exact h
  | cons a as ih =>
    rw [readAttributes]
    split
    · exact h
    · next spec hspec =>
      exact ih _ (all_setAttribute n a.1 _ h ⟨spec, hspec, Scalar.parse_type spec.type a.2⟩
        (Scalar.parsed_parse spec.type a.2))

theorem readTag_kind (n : Node) (attributes : Except Xml.Fault (List (String × String)))
    (offset : Nat) : (n.readTag attributes offset).node.kind = n.kind := by
  cases attributes with
  | error fault => rfl
  | ok as => exact readAttributes_kind offset n as

theorem readTag_sound (n : Node) (attributes : Except Xml.Fault (List (String × String)))
    (offset : Nat) (h : All Sound n) : All Sound (n.readTag attributes offset).node := by
  cases attributes with
  | error fault => exact h
  | ok as => exact readAttributes_sound offset n as h

theorem readField_node (k kind : Kind) (tag : String) (spec : ChildSpec)
    (attributes : Except Xml.Fault (List (String × String))) (offset : Nat)
    (content : List Xml.Item) (hspec : k.child? tag = some spec)
    (hkind : spec.content = .node kind) :
    readField k (.mk tag attributes offset content) =
      let r := (empty kind).readElement (.mk tag attributes offset content)
      (r.notices, match r.failure with
        | some failure => .error failure
        | none => .ok (.node tag r.node)) := by
  simp only [readField, hspec, hkind, readElement, Xml.Element.attributes, Xml.Element.offset,
    Xml.Element.content]
  cases hr : ((empty kind).readTag attributes offset).failure with
  | some failure => simp only [hr]
  | none =>
    cases hc : (((empty kind).readTag attributes offset).node.readContent content).failure with
    | some failure => simp only [Reading.after, hc]
    | none => simp only [Reading.after, hc]

theorem readField_scalar (k : Kind) (t : ScalarType) (tag : String) (spec : ChildSpec)
    (attributes : Except Xml.Fault (List (String × String))) (offset : Nat)
    (content : List Xml.Item) (hspec : k.child? tag = some spec) (ht : spec.content = .scalar t) :
    readField k (.mk tag attributes offset content) = readScalar spec t content := by
  simp only [readField, hspec, ht]

mutual

/-- What is read into a sound node leaves it sound, even where the reading stops early. -/
theorem readContent_sound (items : List Xml.Item) (n : Node) (h : All Sound n) :
    All Sound (n.readContent items).node ∧ (n.readContent items).node.kind = n.kind := by
  match items with
  | [] => exact ⟨h, rfl⟩
  | .text (.ok s) offset :: rest =>
    rw [readContent]
    split
    · exact readContent_sound rest n h
    · next hs => exact readContent_sound rest _ (all_addText n s h (by simpa using hs))
  | .text (.error fault) offset :: rest => exact ⟨h, rfl⟩
  | .cut failure :: rest => exact ⟨h, rfl⟩
  | .element e :: rest =>
    rw [readContent]
    split
    · exact ⟨h, rfl⟩
    · next notices f hf =>
      obtain ⟨hfit, hparsed, hbelow⟩ := readField_sound e n.kind notices f hf
      exact readContent_sound rest _ (all_addField n f h hfit hparsed hbelow)
termination_by structural items

theorem readField_sound (e : Xml.Element) (k : Kind) (notices : List Notice) (f : Field)
    (h : readField k e = (notices, .ok f)) :
    Fitting k f ∧ (∀ v, f.scalar? = some v → v.Parsed) ∧ ∀ m, f.node? = some m → All Sound m := by
  match e with
  | .mk tag attributes offset content =>
    cases hspec : k.child? tag with
    | none => simp [readField, hspec] at h
    | some spec =>
      have htag := Kind.child_tag hspec
      cases hcontent : spec.content with
      | scalar t =>
        rw [readField_scalar k t tag spec _ _ _ hspec hcontent, readScalar] at h
        split at h
        · exact absurd (congrArg Prod.snd h) (by simp)
        · next s _ =>
          have hf : Except.ok (.value spec.tag (Scalar.parse t s).1) = Except.ok f :=
            congrArg Prod.snd h
          obtain rfl := Except.ok.inj hf
          refine ⟨⟨spec, htag ▸ hspec, ?_⟩, fun v hv => ?_, by simp [Field.node?]⟩
          · rw [Field.content, Scalar.parse_type, hcontent]
          · exact Option.some.inj hv ▸ Scalar.parsed_parse t s
      | node kind =>
        have hread := readContent_sound content
          ((empty kind).readTag attributes offset).node (readTag_sound _ _ _ (all_empty kind))
        rw [readField_node k kind tag spec _ _ _ hspec hcontent] at h
        simp only [readElement, Xml.Element.attributes, Xml.Element.offset, Xml.Element.content]
          at h
        split at h
        · next hr => simp [hr] at h
        · split at h
          · exact absurd (congrArg Prod.snd h) (by simp)
          · obtain ⟨_, hf⟩ := Prod.mk.inj h
            obtain rfl := Except.ok.inj hf
            refine ⟨⟨spec, hspec, ?_⟩, by simp [Field.scalar?], fun m hm => ?_⟩
            · rw [Field.content, hcontent]
              exact congrArg Content.node (hread.2.trans (readTag_kind _ _ _))
            · obtain rfl := Option.some.inj hm
              exact hread.1
termination_by structural e

end

theorem readElement_sound (n : Node) (e : Xml.Element) (h : All Sound n) :
    All Sound (n.readElement e).node ∧ (n.readElement e).node.kind = n.kind := by
  have htag := readTag_sound n e.attributes e.offset h
  have hkind := readTag_kind n e.attributes e.offset
  rw [readElement]
  split
  · exact ⟨htag, hkind⟩
  · obtain ⟨h1, h2⟩ := readContent_sound e.content _ htag
    exact ⟨h1, h2.trans hkind⟩

/-- Every node that is read from a document has the kind asked for, the shape of its kind, scalars
read from texts, and no text of white space only. -/
theorem ofText_sound (k : Kind) (source : String) (n : Node) (h : (ofText k source).2 = .ok n) :
    n.kind = k ∧ All Sound n := by
  simp only [ofText, readInto] at h
  split at h
  · next hread =>
    split at hread
    · simp at hread
    · next e _ =>
      obtain ⟨rfl, _⟩ := Prod.mk.inj hread
      obtain rfl := Except.ok.inj h
      exact (readElement_sound (empty k) e (all_empty k)).symm
  · simp at h

theorem mem_of_attribute {n : Node} {name : String} {v : Scalar} (h : n.attribute? name = some v) :
    (name, v) ∈ n.attributes := by
  obtain ⟨_, _, heq, _⟩ := List.lookup_eq_some_iff.mp h
  rw [heq]
  exact List.mem_append_right _ (List.mem_cons_self ..)

end Node

namespace Form

open Node

theorem ofWidget_sound (w : Node) (hk : w.kind = .widget) (h : All Sound w) :
    (ofWidget w).node.kind = .ui ∧ All Sound (ofWidget w).node := by
  have hwidget : All Sound ((empty .ui).addField (.node "widget" w)) := by
    refine all_addField _ _ (all_empty .ui) ⟨_, rfl, ?_⟩ (by simp [Field.scalar?])
      (fun m hm => Option.some.inj hm ▸ h)
    rw [Field.content, hk]
    rfl
  rw [ofWidget]
  split
  · next name hname =>
    have hmem := mem_of_attribute hname
    have hparsed := h.here.attributesParsed _ hmem
    have hattribute := h.here.wellFormed.attributes _ hmem
    rw [hk] at hattribute
    obtain ⟨spec, hspec, htype⟩ := hattribute
    have hstring : name.type = .string := by
      rw [htype, ← Option.some.inj hspec]
      rfl
    refine ⟨rfl, all_addField _ (.value "class" name) hwidget ⟨_, rfl, ?_⟩
      (fun v hv => Option.some.inj hv ▸ hparsed) (by simp [Field.node?])⟩
    rw [Field.content, hstring]
    rfl
  · exact ⟨rfl, hwidget⟩

/-- A form that is read is what an element gives with a header that passes, or made of a widget. -/
theorem ofText_ok {source : String} {f : Form} (h : (ofText source).2 = .ok f) :
    ∃ e, f.node = ((empty .ui).readElement e).node ∧ checkHeader f.node = .ok () ∨
      f = ofWidget ((empty .widget).readElement e).node := by
  rw [ofText] at h
  split at h
  · simp at h
  · next e _ =>
    refine ⟨e, ?_⟩
    rw [ofElement] at h
    split at h
    · simp only at h
      split at h
      · simp at h
      · cases hc : checkHeader ((empty .ui).readElement e).node with
        | error _ => simp [hc, Except.map] at h
        | ok _ =>
          simp only [hc, Except.map, Except.ok.injEq] at h
          exact .inl (h ▸ ⟨rfl, hc⟩)
    · split at h
      · simp only at h
        split at h
        · simp at h
        · exact .inr (Except.ok.inj h).symm
      · simp at h

theorem ofText_sound (source : String) (f : Form) (h : (ofText source).2 = .ok f) :
    f.node.kind = .ui ∧ All Sound f.node := by
  obtain ⟨e, ⟨he, -⟩ | rfl⟩ := ofText_ok h
  · rw [he]
    exact (readElement_sound (empty .ui) e (all_empty .ui)).symm
  · obtain ⟨hs, hk⟩ := readElement_sound (empty .widget) e (all_empty .widget)
    exact ofWidget_sound _ hk hs

end Form

end FormCompiler.Document
