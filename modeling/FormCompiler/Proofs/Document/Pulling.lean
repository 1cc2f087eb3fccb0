import FormCompiler.Proofs.Document.Shape
import FormCompiler.Proofs.Xml.Stacks

/-!
# Reading from tokens

`Node.pull` reads the content of an element token by token, calls itself for the elements inside and
stops behind the end tag of the element.  It never builds a tree, and gives up at the first token
that is not allowed.  The tokens that an element takes and the reading of that element come to the
same (`pull_agrees`): the same node, notices and failure, and if there is no failure the same place
in the document.
-/

namespace FormCompiler.Document

open Xml (Closes Element Gives Item Located elementText)

/-- What comes out of reading from tokens: the reading, and the tokens that are left. -/
structure Pulled (tokens : List Located) where
  reading : Reading
  left : List Located
  isShorter : left.length ≤ tokens.length

/-- A reading that goes on behind other tokens and notices. -/
def Pulled.after {tokens all : List Located} (p : Pulled tokens) (notices : List Notice)
    (h : tokens.length ≤ all.length) : Pulled all :=
  ⟨p.reading.after notices, p.left, Nat.le_trans p.isShorter h⟩

/-- What is read from tokens into a node is what is read from the items that they give. -/
structure Pulled.Agrees {tokens : List Located} (p : Pulled tokens) (n : Node) : Prop where
  gives : Gives tokens (n.readContent · = p.reading)
  closes : p.reading.failure = none → Closes tokens p.left (n.readContent · = p.reading)

theorem elementText_shorter (tag : String) (tokens : List Located) :
    (elementText tag tokens).2.length ≤ tokens.length := by
  fun_induction elementText tag tokens <;> grind

namespace Node

/-- Reads the content of an element into a node, up to the end tag. -/
def pull (n : Node) (tokens : List Located) : Pulled tokens :=
  match tokens with
  | [] => ⟨⟨n, [], some ⟨0, .endOfDocument⟩⟩, [], Nat.le_refl _⟩
  | ⟨token, offset⟩ :: rest => match token with
    | .stop => ⟨⟨n, [], none⟩, rest, Nat.le_succ _⟩
    | .text (.ok s) =>
      (pull (if Text.isBlank s then n else n.addText s) rest).after [] (Nat.le_succ _)
    | .text (.error fault) => ⟨⟨n, [], some ⟨offset, .malformed fault⟩⟩, rest, Nat.le_succ _⟩
    | .broken fault => ⟨⟨n, [], some ⟨offset, .malformed fault⟩⟩, rest, Nat.le_succ _⟩
    | .finish => ⟨⟨n, [], some ⟨offset, .endOfDocument⟩⟩, [], Nat.zero_le _⟩
    | .start tag attributes => match n.kind.child? tag with
      | none => ⟨⟨n, [], some ⟨offset, .unexpectedElement n.kind.tag tag⟩⟩, rest, Nat.le_succ _⟩
      | some spec => match spec.content with
        | .scalar type =>
          let text := elementText spec.tag rest
          have hshorter := Nat.le_succ_of_le (elementText_shorter spec.tag rest)
          match text.1 with
          | .error failure => ⟨⟨n, [], some failure⟩, text.2, hshorter⟩
          | .ok s =>
            let v := Scalar.parse type s
            (pull (n.addField (.value spec.tag v.1)) text.2).after v.2 hshorter
        | .node k =>
          let r := (empty k).readTag attributes offset
          match r.failure with
          | some failure => ⟨⟨n, r.notices, some failure⟩, rest, Nat.le_succ _⟩
          | none =>
            let inner := pull r.node rest
            let notices := r.notices ++ inner.reading.notices
            have hshorter := Nat.le_succ_of_le inner.isShorter
            match inner.reading.failure with
            | some failure => ⟨⟨n, notices, some failure⟩, inner.left, hshorter⟩
            | none =>
              (pull (n.addField (.node tag inner.reading.node)) inner.left).after notices hshorter
termination_by tokens.length
decreasing_by
  · simp
  · exact Nat.lt_succ_of_le (elementText_shorter _ _)
  · simp
  · exact Nat.lt_succ_of_le inner.isShorter

/-- Reads the element of a start tag into a node. -/
def pullElement (n : Node) (attributes : Except Xml.Fault (List (String × String))) (offset : Nat)
    (tokens : List Located) : Reading × List Located :=
  let r := n.readTag attributes offset
  match r.failure with
  | some _ => (r, tokens)
  | none => (((r.node.pull tokens).reading.after r.notices), (r.node.pull tokens).left)

/-! ## Agreement with trees -/

section Tag

variable {n : Node} {attributes : Except Xml.Fault (List (String × String))} {offset : Nat}
  {tag : String} {content : List Item}

theorem readElement_refused {failure : Failure}
    (h : (n.readTag attributes offset).failure = some failure) :
    n.readElement (.mk tag attributes offset content) = n.readTag attributes offset := by
  simp only [readElement, Element.attributes, Element.offset, h]

theorem readElement_admitted {r : Reading} (h : (n.readTag attributes offset).failure = none)
    (hr : (n.readTag attributes offset).node.readContent content = r) :
    n.readElement (.mk tag attributes offset content) =
      r.after (n.readTag attributes offset).notices := by
  simp only [readElement, Element.attributes, Element.offset, Element.content, h, hr]

end Tag

theorem elementText_gives (tag : String) (tokens : List Located) :
    Gives tokens (readText tag · = (elementText tag tokens).1) := by
  induction tokens with
  | nil => exact Xml.gives_cut (fun _ _ => rfl) rfl
  | cons t rest ih =>
    obtain ⟨token, offset⟩ := t
    cases token with
    | text content =>
      cases content with
      | error fault => exact Xml.gives_text (Xml.gives_any rest) fun _ _ => rfl
      | ok content =>
        exact Xml.gives_text ih fun more hmore => congrArg (Except.map (content ++ ·)) hmore
    | start tag' attributes => exact Xml.gives_start (Xml.gives_any rest) fun _ _ _ => rfl
    | stop => exact Xml.gives_stop (Xml.gives_any rest) rfl
    | broken fault => exact Xml.gives_cut (fun _ _ => rfl) rfl
    | finish => exact Xml.gives_cut (fun _ _ => rfl) rfl

theorem elementText_closes (tag : String) (tokens : List Located) {s : String}
    (h : (elementText tag tokens).1 = .ok s) :
    Closes tokens (elementText tag tokens).2 (readText tag · = .ok s) := by
  fun_induction elementText tag tokens generalizing s with
  | case1 => cases h
  | case2 offset rest content more left hrest ih =>
    rw [hrest] at ih
    cases more with
    | error failure => cases h
    | ok text =>
      refine Xml.closes_text (ih rfl) fun items hitems => ?_
      rw [readText, hitems]
      exact h
  | case3 | case5 | case6 | case7 => cases h
  | case4 offset rest => exact ⟨[], [], offset, rfl, .nil, h⟩

section Child

variable {n : Node} {tag : String} {attributes : Except Xml.Fault (List (String × String))}
  {offset : Nat} {rest left : List Located} {P : List Item → Prop} {notices : List Notice}

/-- Reading stops at a child element, whatever comes behind it. -/
theorem agrees_refused {failure : Failure} (hrest : Gives rest P)
    (hfield : ∀ items, P items →
      readField n.kind (.mk tag attributes offset items) = (notices, .error failure))
    {p : Pulled (⟨.start tag attributes, offset⟩ :: rest)}
    (hp : p.reading = ⟨n, notices, some failure⟩) : p.Agrees n := by
  refine ⟨Xml.gives_start hrest fun items more hitems => ?_, fun h => ?_⟩
  · rw [readContent, hfield items hitems, hp]
  · rw [hp] at h
    cases h

/-- Reading goes on behind a child element that is closed. -/
theorem agrees_admitted {f : Field} (hchild : Closes rest left P)
    (hfield : ∀ items, P items →
      readField n.kind (.mk tag attributes offset items) = (notices, .ok f))
    {p : Pulled left} (hp : p.Agrees (n.addField f)) (h : left.length ≤ rest.length + 1) :
    (p.after notices h : Pulled (⟨.start tag attributes, offset⟩ :: rest)).Agrees n := by
  have hread : ∀ items more, P items → (n.addField f).readContent more = p.reading →
      n.readContent (.element (.mk tag attributes offset items) :: more) =
        p.reading.after notices := by
    intro items more hitems hmore
    rw [readContent, hfield items hitems, ← hmore]
  exact ⟨Xml.gives_element hchild hp.gives hread,
    fun h => Xml.closes_element hchild (hp.closes h) hread⟩

end Child

/-- By the recursion of the reader.  Where it stops, the rest of the element does not matter; where
it goes on behind a child element, that element is closed. -/
theorem pull_agrees (n : Node) (tokens : List Located) : (n.pull tokens).Agrees n := by
  fun_induction pull n tokens with
  | case1 n => exact ⟨Xml.gives_cut (fun _ _ => rfl) rfl, fun h => nomatch h⟩
  | case2 n offset rest =>
    exact ⟨Xml.gives_stop (Xml.gives_any rest) rfl, fun _ => ⟨[], [], offset, rfl, .nil, rfl⟩⟩
  | case3 n offset rest s ih =>
    have hread : ∀ more, (if Text.isBlank s then n else n.addText s).readContent more =
        ((if Text.isBlank s then n else n.addText s).pull rest).reading →
        n.readContent (.text (.ok s) offset :: more) =
          ((if Text.isBlank s then n else n.addText s).pull rest).reading := by
      intro more hmore
      rw [readContent, hmore]
    exact ⟨Xml.gives_text ih.gives hread, fun h => Xml.closes_text (ih.closes h) hread⟩
  | case4 n offset rest fault =>
    exact ⟨Xml.gives_text (Xml.gives_any rest) fun _ _ => rfl, fun h => nomatch h⟩
  | case5 n offset rest fault => exact ⟨Xml.gives_cut (fun _ _ => rfl) rfl, fun h => nomatch h⟩
  | case6 n offset rest => exact ⟨Xml.gives_cut (fun _ _ => rfl) rfl, fun h => nomatch h⟩
  | case7 n offset rest tag attributes hspec =>
    refine agrees_refused (Xml.gives_any rest) (fun items _ => ?_) rfl
    simp only [readField, hspec]
  | case8 n offset rest tag attributes spec hspec type hcontent text hshorter failure htext =>
    refine agrees_refused (elementText_gives spec.tag rest) (fun items hitems => ?_) rfl
    rw [readField_scalar _ _ _ _ _ _ _ hspec hcontent, readScalar, hitems, htext]
  | case9 n offset rest tag attributes spec hspec type hcontent text hshorter s htext v ih =>
    refine agrees_admitted (elementText_closes spec.tag rest htext) (fun items hitems => ?_) ih _
    rw [readField_scalar _ _ _ _ _ _ _ hspec hcontent, readScalar, hitems]
  | case10 n offset rest tag attributes spec hspec k hcontent r failure hr =>
    refine agrees_refused (Xml.gives_any rest) (fun items _ => ?_) rfl
    have hread : (empty k).readElement (.mk tag attributes offset items) = r :=
      readElement_refused hr
    simp only [readField_node _ _ _ _ _ _ _ hspec hcontent, hread, hr]
  | case11 n offset rest tag attributes spec hspec k hcontent r hr inner notices hshorter failure
      hfailure ih =>
    refine agrees_refused ih.gives (fun items hitems => ?_) rfl
    have hread : (empty k).readElement (.mk tag attributes offset items) =
        inner.reading.after r.notices := readElement_admitted hr hitems
    simp only [readField_node _ _ _ _ _ _ _ hspec hcontent, hread, Reading.after, hfailure, notices]
  | case12 n offset rest tag attributes spec hspec k hcontent r hr inner notices hshorter hfailure
      ihInner _ ih =>
    refine agrees_admitted (ihInner.closes hfailure) (fun items hitems => ?_) ih _
    have hread : (empty k).readElement (.mk tag attributes offset items) =
        inner.reading.after r.notices := readElement_admitted hr hitems
    simp only [readField_node _ _ _ _ _ _ _ hspec hcontent, hread, Reading.after, hfailure, notices]

/-- Reading from tokens comes to the same as taking an element from them and reading that. -/
theorem pullElement_eq (n : Node) (tag : String)
    (attributes : Except Xml.Fault (List (String × String))) (offset : Nat)
    (tokens : List Located) :
    let taken := Element.take tag attributes offset tokens
    (n.pullElement attributes offset tokens).1 = n.readElement taken.1 ∧
      ((n.pullElement attributes offset tokens).1.failure = none →
        (n.pullElement attributes offset tokens).2 = taken.2) := by
  intro taken
  cases hr : (n.readTag attributes offset).failure with
  | some failure =>
    obtain ⟨items, left, htaken, -⟩ := (Xml.gives_any tokens).take tag attributes offset
    rw [show taken = _ from htaken]
    simp only [pullElement, hr, readElement_refused hr, reduceCtorEq, false_implies, and_self]
  | none =>
    have hagrees := pull_agrees (n.readTag attributes offset).node tokens
    obtain ⟨items, left, htaken, hitems⟩ := hagrees.gives.take tag attributes offset
    simp only [pullElement, hr]
    refine ⟨?_, fun hread => ((hagrees.closes hread).left_of_take tag attributes offset).symm⟩
    rw [show taken = _ from htaken, readElement_admitted hr hitems]

end Node

end FormCompiler.Document
