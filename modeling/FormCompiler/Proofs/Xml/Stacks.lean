import FormCompiler.Proofs.Xml.Markup

/-!
# The stack of open elements

While an element is taken from tokens, the elements around the current spot are open.  What the rest
of the tokens adds to each of them does not depend on what they hold already (`gives_any`), so a
change at the current spot stays where it is in the element that is taken.  Nor do the places of the
tokens matter, which only become the places of the items (`takeFrom_unplaced`).
-/

namespace FormCompiler.Xml

/-! ## What is still to come -/

namespace Frame

/-- The element that a frame becomes when it is closed after some more items. -/
def fill (f : Frame) (more : List Item) : Element :=
  .mk f.tag f.attributes f.offset (f.items.reverse ++ more)

theorem fill_nil (f : Frame) : f.fill [] = f.close := by rw [fill, List.append_nil, close]

theorem fill_add (f : Frame) (item : Item) (more : List Item) :
    (f.add item).fill more = f.fill (item :: more) := by
  simp [fill, add]

end Frame

/-- An element inside the frames around it, innermost first, with what comes after it in each. -/
def assemble (e : Element) : List Frame → List (List Item) → Element
  | outer :: below, more :: mores => assemble (outer.fill (.element e :: more)) below mores
  | _, _ => e

theorem closeAll_assemble (f : Frame) (below : List Frame) :
    f.closeAll below = assemble (f.fill []) below (List.replicate below.length []) := by
  induction below generalizing f with
  | nil => exact f.fill_nil.symm
  | cons outer below ih =>
    rw [Frame.closeAll, ih, Frame.fill_add, List.length_cons, List.replicate_succ, assemble,
      Frame.fill_nil]

/-- What tokens add to the elements that are open, innermost first, and what is left of them,
whatever these elements hold already. -/
def Adds (tokens : List Located) (more : List Item) (mores : List (List Item))
    (left : List Located) : Prop :=
  ∀ (top : Frame) (below : List Frame), below.length = mores.length →
    Element.takeFrom top below tokens = (assemble (top.fill more) below mores, left)

/-- However many elements are open, the innermost one gets items with a property. -/
def Gives (tokens : List Located) (P : List Item → Prop) : Prop :=
  ∀ depth, ∃ more mores left, mores.length = depth ∧ Adds tokens more mores left ∧ P more

section Giving

variable {tokens rest left : List Located} {P Q : List Item → Prop}

theorem gives_cut {failure : Failure}
    (h : ∀ top below, Element.takeFrom top below tokens =
      ((top.add (.cut failure)).closeAll below, left)) (hQ : Q [.cut failure]) :
    Gives tokens Q := by
  intro depth
  refine ⟨_, List.replicate depth [], left, List.length_replicate, fun top below hdepth => ?_, hQ⟩
  rw [List.length_replicate] at hdepth
  rw [h, closeAll_assemble, Frame.fill_add, hdepth]

theorem gives_text {content : Except Fault String} {offset : Nat} (h : Gives rest P)
    (hQ : ∀ more, P more → Q (.text content offset :: more)) :
    Gives (⟨.text content, offset⟩ :: rest) Q := by
  intro depth
  obtain ⟨more, mores, left, hlength, hadds, hP⟩ := h depth
  refine ⟨_, mores, left, hlength, fun top below hdepth => ?_, hQ more hP⟩
  rw [Element.takeFrom, hadds _ _ hdepth, Frame.fill_add]

theorem gives_stop {offset : Nat} (h : Gives rest P) (hQ : Q []) :
    Gives (⟨.stop, offset⟩ :: rest) Q := by
  intro depth
  cases depth with
  | zero =>
    refine ⟨[], [], rest, rfl, fun top below hdepth => ?_, hQ⟩
    rw [List.length_eq_zero_iff.mp hdepth, Element.takeFrom, Frame.fill_nil]
    rfl
  | succ depth =>
    obtain ⟨more, mores, left, hlength, hadds, -⟩ := h depth
    refine ⟨[], more :: mores, left, by rw [List.length_cons, hlength],
      fun top below hdepth => ?_, hQ⟩
    obtain ⟨outer, below, rfl⟩ := List.exists_cons_of_length_eq_add_one hdepth
    rw [Element.takeFrom, hadds _ _ (by simpa using hdepth), Frame.fill_add, assemble,
      Frame.fill_nil]

variable {tag : String} {attributes : Except Fault (List (String × String))} {offset : Nat}

/-- The frame of a new element is on top of those there were. -/
theorem gives_start (h : Gives rest P)
    (hQ : ∀ inner more, P inner → Q (.element (.mk tag attributes offset inner) :: more)) :
    Gives (⟨.start tag attributes, offset⟩ :: rest) Q := by
  intro depth
  obtain ⟨inner, mores, left, hlength, hadds, hP⟩ := h (depth + 1)
  obtain ⟨more, mores, rfl⟩ := List.exists_cons_of_length_eq_add_one hlength
  refine ⟨_, mores, left, by simpa using hlength, fun top below hdepth => ?_, hQ inner more hP⟩
  rw [Element.takeFrom, hadds _ _ (by rw [List.length_cons, hdepth, List.length_cons]), assemble]
  rfl

theorem gives_any (tokens : List Located) : Gives tokens fun _ => True := by
  induction tokens with
  | nil => exact gives_cut (fun _ _ => rfl) trivial
  | cons t rest ih =>
    obtain ⟨token, offset⟩ := t
    cases token with
    | start tag attributes => exact gives_start ih fun _ _ _ => trivial
    | text content => exact gives_text ih fun _ _ => trivial
    | stop => exact gives_stop ih trivial
    | broken fault => exact gives_cut (fun _ _ => rfl) trivial
    | finish => exact gives_cut (fun _ _ => rfl) trivial

theorem Gives.take (h : Gives tokens P) (tag : String)
    (attributes : Except Fault (List (String × String))) (offset : Nat) :
    ∃ items left, Element.take tag attributes offset tokens =
      (.mk tag attributes offset items, left) ∧ P items := by
  obtain ⟨items, mores, left, hlength, hadds, hP⟩ := h 0
  exact ⟨items, left, hadds ⟨tag, attributes, offset, []⟩ [] hlength.symm, hP⟩

/-! ## Up to the end tag -/

/-- The element ends where some tokens are left, and gets items with a property. -/
def Closes (tokens left : List Located) (P : List Item → Prop) : Prop :=
  ∃ items body stop, tokens = body ++ ⟨.stop, stop⟩ :: left ∧ Forms items body ∧ P items

theorem Closes.left_of_take (h : Closes tokens left P) (tag : String)
    (attributes : Except Fault (List (String × String))) (offset : Nat) :
    (Element.take tag attributes offset tokens).2 = left := by
  obtain ⟨items, body, stop, rfl, hforms, -⟩ := h
  rw [hforms.take]

theorem closes_text {content : Except Fault String} {offset : Nat} (h : Closes rest left P)
    (hQ : ∀ more, P more → Q (.text content offset :: more)) :
    Closes (⟨.text content, offset⟩ :: rest) left Q := by
  obtain ⟨items, body, stop, rfl, hforms, hP⟩ := h
  exact ⟨_, _ :: body, stop, rfl, .text hforms, hQ items hP⟩

variable {R : List Item → Prop}

theorem closes_element (hinner : Closes tokens rest R) (h : Closes rest left P)
    (hQ : ∀ inner more, R inner → P more →
      Q (.element (.mk tag attributes offset inner) :: more)) :
    Closes (⟨.start tag attributes, offset⟩ :: tokens) left Q := by
  obtain ⟨inner, body, stop, rfl, hforms, hR⟩ := hinner
  obtain ⟨items, body', stop', rfl, hforms', hP⟩ := h
  refine ⟨_, _ :: (body ++ ⟨.stop, stop⟩ :: body'), stop', ?_, .element hforms hforms',
    hQ inner items hR hP⟩
  simp

theorem gives_element (hinner : Closes tokens rest R) (h : Gives rest P)
    (hQ : ∀ inner more, R inner → P more →
      Q (.element (.mk tag attributes offset inner) :: more)) :
    Gives (⟨.start tag attributes, offset⟩ :: tokens) Q := by
  intro depth
  obtain ⟨inner, body, stop, rfl, hforms, hR⟩ := hinner
  obtain ⟨more, mores, left, hlength, hadds, hP⟩ := h depth
  refine ⟨_, mores, left, hlength, fun top below hdepth => ?_, hQ inner more hR hP⟩
  rw [Element.takeFrom, hforms.takeFrom_items, Element.takeFrom, hadds _ _ hdepth, Frame.fill_add]
  simp [Frame.close]

end Giving

/-! ## Without places -/

/-- A token that has forgotten where it was. -/
def Located.unplaced (t : Located) : Located := ⟨t.token, 0⟩

mutual

/-- An element that has forgotten where it was. -/
def Element.unplaced : Element → Element
  | .mk tag attributes _ content => .mk tag attributes 0 (unplacedItems content)
termination_by structural e => e

def unplacedItems : List Item → List Item
  | [] => []
  | .text content _ :: rest => .text content 0 :: unplacedItems rest
  | .element e :: rest => .element e.unplaced :: unplacedItems rest
  | .cut failure :: rest => .cut ⟨0, failure.cause⟩ :: unplacedItems rest
termination_by structural items => items

end

@[simp] theorem Element.unplaced_tag (e : Element) : e.unplaced.tag = e.tag := by
  obtain ⟨tag, attributes, offset, content⟩ := e
  rfl

theorem Forms.unplaced {items : List Item} {tokens : List Located} (h : Forms items tokens) :
    Forms (unplacedItems items) (tokens.map Located.unplaced) := by
  induction h with
  | nil => exact .nil
  | text _ ih => exact .text ih
  | element _ _ ihInside ih =>
    rw [List.map_cons, List.map_append, List.map_cons]
    exact .element ihInside ih

theorem forms_texts (tokens : List Located)
    (h : ∀ t ∈ tokens, ∃ content, t.token = .text content) :
    ∃ items, Forms items tokens ∧ ∀ item ∈ items, ∃ content place, item = .text content place := by
  induction tokens with
  | nil => exact ⟨[], .nil, by simp⟩
  | cons t tokens ih =>
    obtain ⟨items, hforms, hitems⟩ := ih fun u hu => h u (List.mem_cons_of_mem t hu)
    obtain ⟨token, offset⟩ := t
    obtain ⟨content, rfl⟩ := h ⟨token, offset⟩ (List.mem_cons_self ..)
    refine ⟨.text content offset :: items, .text hforms, ?_⟩
    simpa using hitems

theorem unplacedItems_append (as bs : List Item) :
    unplacedItems (as ++ bs) = unplacedItems as ++ unplacedItems bs := by
  induction as with
  | nil => rfl
  | cons a as ih => cases a <;> simp [unplacedItems, ih]

theorem unplacedItems_reverse (items : List Item) :
    unplacedItems items.reverse = (unplacedItems items).reverse := by
  induction items with
  | nil => rfl
  | cons item items ih => cases item <;> simp [unplacedItems, unplacedItems_append, ih]

namespace Frame

def unplaced (f : Frame) : Frame := ⟨f.tag, f.attributes, 0, unplacedItems f.items⟩

theorem close_unplaced (f : Frame) : f.unplaced.close = f.close.unplaced := by
  simp only [close, unplaced, Element.unplaced, unplacedItems_reverse]

theorem closeAll_unplaced (f : Frame) (below : List Frame) :
    f.unplaced.closeAll (below.map unplaced) = (f.closeAll below).unplaced := by
  induction below generalizing f with
  | nil => exact f.close_unplaced
  | cons outer below ih =>
    rw [List.map_cons, closeAll, closeAll, ← ih, close_unplaced]
    rfl

end Frame

theorem takeFrom_unplaced (tokens : List Located) (top : Frame) (below : List Frame) :
    (Element.takeFrom top.unplaced (below.map Frame.unplaced) (tokens.map Located.unplaced)).1 =
      (Element.takeFrom top below tokens).1.unplaced := by
  induction tokens generalizing top below with
  | nil => exact Frame.closeAll_unplaced (top.add (.cut ⟨0, .endOfDocument⟩)) below
  | cons t rest ih =>
    obtain ⟨token, offset⟩ := t
    rw [List.map_cons, Located.unplaced]
    cases token with
    | start tag attributes => exact ih ⟨tag, attributes, offset, []⟩ (top :: below)
    | text content => exact ih (top.add (.text content offset)) below
    | stop =>
      cases below with
      | nil => exact top.close_unplaced
      | cons outer below =>
        rw [List.map_cons, Element.takeFrom, Element.takeFrom, Frame.close_unplaced]
        exact ih (outer.add (.element top.close)) below
    | broken fault =>
      exact Frame.closeAll_unplaced (top.add (.cut ⟨offset, .malformed fault⟩)) below
    | finish => exact Frame.closeAll_unplaced (top.add (.cut ⟨offset, .endOfDocument⟩)) below

end FormCompiler.Xml
