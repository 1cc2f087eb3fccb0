import FormCompiler.Proofs.Document.Reordering
import FormCompiler.Proofs.Xml.Pieces
import FormCompiler.Proofs.Xml.Spellings
import FormCompiler.Proofs.Xml.Stacks

/-!
# Rearranged documents

`Rearranges source source'` says in terms of their characters that two documents differ in the order
of two neighbouring children or in the order of the attributes of an element.  The scanner finds the
same tokens in the pieces of both, at other places (`outcome_unplaced`: places do not matter), and
the elements open before the first difference become the same frames (`rootFrom_append`).  So the
root elements are rearranged ones (`outcome_swap`, `outcome_attributes`), and the same form is read
from them (`ofText_rearranges`).
-/

namespace FormCompiler.Document

open Xml (Element Forms Frame Item Located Scanner Token unplacedItems)

/-! ## Places do not matter -/

namespace Node

theorem readAttributes_offset (n : Node) (as : List (String × String)) (o o' : Nat) :
    (readAttributes o n as).outcome = (readAttributes o' n as).outcome := by
  induction as generalizing n with
  | nil => rfl
  | cons a as ih => simp only [outcome_attribute, ih]

theorem readTag_offset (n : Node) (as : Except Xml.Fault (List (String × String))) (o o' : Nat) :
    (n.readTag as o).outcome = (n.readTag as o').outcome := by
  cases as with
  | error fault => rfl
  | ok as => exact readAttributes_offset n as o o'

theorem readText_unplaced (tag : String) (items : List Item) :
    (readText tag (unplacedItems items)).toOption = (readText tag items).toOption := by
  induction items with
  | nil => rfl
  | cons item items ih =>
    match item with
    | .text (.ok s) offset => rw [unplacedItems, readText_text, readText_text, ih]
    | .text (.error fault) offset => rfl
    | .element e => rfl
    | .cut failure => rfl

mutual

theorem readContent_unplaced (items : List Item) (n : Node) :
    (n.readContent (unplacedItems items)).outcome = (n.readContent items).outcome := by
  match items with
  | [] => rfl
  | .text (.ok s) offset :: rest =>
    rw [unplacedItems, outcome_text, outcome_text, readContent_unplaced rest]
  | .text (.error fault) offset :: rest => rfl
  | .cut failure :: rest => rfl
  | .element e :: rest =>
    rw [unplacedItems, outcome_element, outcome_element, readField_unplaced e n.kind]
    congr 1
    funext f
    exact readContent_unplaced rest (n.addField f)
termination_by structural items

theorem readField_unplaced (e : Element) (k : Kind) :
    (readField k e.unplaced).2.toOption = (readField k e).2.toOption := by
  match e with
  | .mk tag attributes offset content =>
    rw [Element.unplaced]
    cases hspec : k.child? tag with
    | none =>
      rw [readField_unknown k (.mk tag attributes 0 (unplacedItems content)) hspec,
        readField_unknown k (.mk tag attributes offset content) hspec]
    | some spec =>
      cases hcontent : spec.content with
      | scalar t =>
        rw [readField_scalar_outcome k t spec (.mk tag attributes 0 (unplacedItems content)) hspec
            hcontent,
          readField_scalar_outcome k t spec (.mk tag attributes offset content) hspec hcontent]
        exact congrArg _ (readText_unplaced spec.tag content)
      | node kind =>
        rw [readField_node_outcome k kind spec (.mk tag attributes 0 (unplacedItems content)) hspec
            hcontent,
          readField_node_outcome k kind spec (.mk tag attributes offset content) hspec hcontent,
          readElement_outcome, readElement_outcome]
        simp only [Element.attributes, Element.offset, Element.content, Element.tag]
        rw [readTag_offset _ _ 0 offset]
        refine congrArg _ (congrArg _ (funext fun m => ?_))
        exact readContent_unplaced content m
termination_by structural e

end

theorem readElement_unplaced (n : Node) (e : Element) :
    (n.readElement e.unplaced).outcome = (n.readElement e).outcome := by
  obtain ⟨tag, attributes, offset, content⟩ := e
  rw [readElement_outcome, readElement_outcome, readTag_offset _ _ _ offset]
  exact congrArg _ (funext fun m => readContent_unplaced content m)

end Node

namespace Form

open Node

/-- The kind of the node that a root element becomes. -/
def rootKind? (tag : String) : Option Kind :=
  if tag = "ui" then some .ui else if tag = "widget" then some .widget else none

/-- The form of a document with the given tokens, if it can be read. -/
def outcome (tokens : List Located) : Option Form :=
  (rootElement tokens).toOption.bind fun e => (ofElement "" e).2.toOption

theorem ofElement_outcome (source : String) (e : Element) :
    (ofElement source e).2.toOption =
      if e.tag = "ui" then
        ((empty .ui).readElement e).outcome.bind fun n => (checkHeader n).toOption.map fun _ => ⟨n⟩
      else if e.tag = "widget" then ((empty .widget).readElement e).outcome.map ofWidget
      else none := by
  rw [ofElement]
  split
  · cases hf : ((empty .ui).readElement e).failure with
    | some failure => simp [Reading.outcome, hf, Except.toOption]
    | none =>
      simp only [Reading.outcome, hf, Option.isNone_none, if_true, Option.bind_some]
      cases checkHeader ((empty .ui).readElement e).node <;> rfl
  · split
    · cases hf : ((empty .widget).readElement e).failure with
      | some failure => simp [Reading.outcome, hf, Except.toOption]
      | none => simp [Reading.outcome, hf, Except.toOption]
    · rfl

theorem ofText_outcome (source : String) :
    (ofText source).2.toOption = outcome (Xml.tokens source) := by
  rw [ofText, outcome]
  cases rootElement (Xml.tokens source) with
  | error failure => rfl
  | ok e => exact (ofElement_outcome source e).trans (ofElement_outcome "" e).symm

theorem ofElement_unplaced (e : Element) :
    (ofElement "" e.unplaced).2.toOption = (ofElement "" e).2.toOption := by
  simp only [ofElement_outcome, readElement_unplaced, Element.unplaced_tag]

theorem rootElement_unplaced (tokens : List Located) :
    (rootElement (tokens.map Located.unplaced)).toOption =
      (rootElement tokens).toOption.map Element.unplaced := by
  induction tokens with
  | nil => rfl
  | cons t rest ih =>
    obtain ⟨token, offset⟩ := t
    rw [List.map_cons, Located.unplaced]
    cases token with
    | start tag attributes =>
      exact congrArg some (Xml.takeFrom_unplaced rest ⟨tag, attributes, offset, []⟩ [])
    | text content =>
      cases content with
      | error fault => rfl
      | ok s =>
        simp only [rootElement]
        split
        · exact ih
        · rfl
    | stop => rfl
    | broken fault => rfl
    | finish => rfl

theorem outcome_unplaced (tokens : List Located) :
    outcome (tokens.map Located.unplaced) = outcome tokens := by
  rw [outcome, rootElement_unplaced, outcome]
  cases (rootElement tokens).toOption with
  | none => rfl
  | some e => exact ofElement_unplaced e

theorem ofElement_rearranged {e e' : Element} (h : Rearranged (rootKind? e.tag) e e') :
    (ofElement "" e).2.toOption = (ofElement "" e').2.toOption := by
  rw [ofElement_outcome, ofElement_outcome, ← h.tag_eq]
  split
  · next htag =>
    rw [htag] at h
    rw [h.outcome (empty .ui) rfl (all_empty .ui)]
  · split
    · next htag =>
      rw [htag] at h
      rw [h.outcome (empty .widget) rfl (all_empty .widget)]
    · rfl

/-! ## Open elements -/

/-- The tags of the open elements after a token, innermost first. -/
def nest (tags : List String) : Token → List String
  | .start tag _ => tag :: tags
  | .stop => tags.tail
  | .text _ | .broken _ | .finish => tags

/-- The tags of the elements that tokens leave open, innermost first. -/
def openTags (tokens : List Token) : List String := tokens.foldl nest []

/-- The kind of the node that the innermost of some open elements becomes. -/
def kindAt : List String → Option Kind
  | [] => none
  | [tag] => rootKind? tag
  | tag :: outer :: rest => (kindAt (outer :: rest)).bind fun k => k.childKind? tag

/-- The root element of a document, where some elements are open already. -/
def rootFrom : List Frame → List Located → Except Failure Element
  | [], tokens => rootElement tokens
  | top :: below, tokens => .ok (Element.takeFrom top below tokens).1

theorem rootFrom_cons (frames : List Frame) (t : Located) :
    (∃ frames', frames'.map Frame.tag = nest (frames.map Frame.tag) t.token ∧
      ∀ rest, rootFrom frames (t :: rest) = rootFrom frames' rest) ∨
    ∃ r, ∀ rest, rootFrom frames (t :: rest) = r := by
  obtain ⟨token, offset⟩ := t
  cases frames with
  | nil =>
    match token with
    | .start tag attributes => exact .inl ⟨[⟨tag, attributes, offset, []⟩], rfl, fun _ => rfl⟩
    | .text (.ok s) =>
      by_cases hs : Text.isBlank s = true
      · exact .inl ⟨[], rfl, fun rest => by simp [rootFrom, rootElement, hs]⟩
      · exact .inr ⟨_, fun rest => by simp only [rootFrom, rootElement, hs]; rfl⟩
    | .text (.error fault) => exact .inr ⟨_, fun _ => rfl⟩
    | .stop => exact .inr ⟨_, fun _ => rfl⟩
    | .broken fault => exact .inr ⟨_, fun _ => rfl⟩
    | .finish => exact .inr ⟨_, fun _ => rfl⟩
  | cons top below =>
    cases token with
    | start tag attributes =>
      exact .inl ⟨⟨tag, attributes, offset, []⟩ :: top :: below, rfl, fun _ => rfl⟩
    | text content => exact .inl ⟨top.add (.text content offset) :: below, rfl, fun _ => rfl⟩
    | stop =>
      cases below with
      | nil => exact .inr ⟨.ok top.close, fun _ => rfl⟩
      | cons outer below =>
        exact .inl ⟨outer.add (.element top.close) :: below, rfl, fun _ => rfl⟩
    | broken fault =>
      exact .inr ⟨.ok ((top.add (.cut ⟨offset, .malformed fault⟩)).closeAll below), fun _ => rfl⟩
    | finish =>
      exact .inr ⟨.ok ((top.add (.cut ⟨offset, .endOfDocument⟩)).closeAll below), fun _ => rfl⟩

theorem rootFrom_append (tokens : List Located) (frames : List Frame) :
    (∃ frames', frames'.map Frame.tag =
        (tokens.map Located.token).foldl nest (frames.map Frame.tag) ∧
      ∀ rest, rootFrom frames (tokens ++ rest) = rootFrom frames' rest) ∨
    ∃ r, ∀ rest, rootFrom frames (tokens ++ rest) = r := by
  induction tokens generalizing frames with
  | nil => exact .inl ⟨frames, rfl, fun _ => rfl⟩
  | cons t tokens ih =>
    rcases rootFrom_cons frames t with ⟨frames', htags, h⟩ | ⟨r, h⟩
    · rw [List.map_cons, List.foldl_cons, ← htags]
      simp only [List.cons_append, h]
      exact ih frames'
    · exact .inr ⟨r, fun rest => h (tokens ++ rest)⟩

/-- A change behind some tokens makes no difference to the form if, with the elements open there, it
leads to a rearranged root element. -/
theorem outcome_behind (tokens rest rest' : List Located)
    (h : ∀ frames : List Frame, frames.map Frame.tag = openTags (tokens.map Located.token) →
      ∃ e e', rootFrom frames rest = .ok e ∧ rootFrom frames rest' = .ok e' ∧
        Rearranged (rootKind? e.tag) e e') :
    outcome (tokens ++ rest) = outcome (tokens ++ rest') := by
  have hroot : ∀ more, rootElement (tokens ++ more) = rootFrom [] (tokens ++ more) := fun _ => rfl
  rcases rootFrom_append tokens [] with ⟨frames, htags, hframes⟩ | ⟨r, hr⟩
  · obtain ⟨e, e', he, he', hrearranged⟩ := h frames htags
    rw [outcome, outcome, hroot, hroot, hframes, hframes, he, he']
    exact ofElement_rearranged hrearranged
  · rw [outcome, outcome, hroot, hroot, hr, hr]

theorem rearranged_assemble (below : List Frame) (mores : List (List Item)) (e e' : Element)
    (hlength : below.length = mores.length)
    (h : Rearranged (kindAt (e.tag :: below.map Frame.tag)) e e') :
    Rearranged (rootKind? (Xml.assemble e below mores).tag) (Xml.assemble e below mores)
      (Xml.assemble e' below mores) := by
  induction below generalizing e e' mores with
  | nil => exact h
  | cons outer below ih =>
    obtain ⟨more, mores, rfl⟩ := List.exists_cons_of_length_eq_add_one hlength.symm
    rw [Xml.assemble, Xml.assemble]
    refine ih mores _ _ (by simpa using hlength) ?_
    exact .inside h outer.tag outer.attributes outer.offset outer.items.reverse more

/-! ## Rearranged tokens -/

theorem outcome_attributes (tokens rest : List Located) (tag : String) (offset : Nat)
    {as bs : Except Xml.Fault (List (String × String))} (h : SameAttributes as bs) :
    outcome (tokens ++ ⟨.start tag as, offset⟩ :: rest) =
      outcome (tokens ++ ⟨.start tag bs, offset⟩ :: rest) := by
  refine outcome_behind tokens _ _ fun frames _ => ?_
  obtain ⟨more, mores, left, hlength, hadds, -⟩ := Xml.gives_any rest frames.length
  have hroot : ∀ cs, rootFrom frames (⟨.start tag cs, offset⟩ :: rest) =
      .ok (Xml.assemble (Frame.fill ⟨tag, cs, offset, []⟩ more) frames mores) := by
    intro cs
    have htaken := congrArg Prod.fst (hadds ⟨tag, cs, offset, []⟩ frames hlength.symm)
    cases frames with
    | nil => exact congrArg Except.ok htaken
    | cons top below => exact congrArg Except.ok htaken
  exact ⟨_, _, hroot as, hroot bs,
    rearranged_assemble frames mores _ _ hlength.symm (.attributes h _ tag offset _)⟩

theorem outcome_swap {x y : Element} {middle : List Item} {xs ms ys : List Located}
    (tokens rest : List Located) (k : Kind) (hx : Forms [.element x] xs) (hm : Forms middle ms)
    (hy : Forms [.element y] ys)
    (hmiddle : ∀ item ∈ middle, ∃ content place, item = .text content place)
    (hxy : x.tag ≠ y.tag) (hk : kindAt (openTags (tokens.map Located.token)) = some k)
    (hchoice : k.schema.isChoice = false) :
    outcome (tokens ++ (xs ++ (ms ++ (ys ++ rest)))) =
      outcome (tokens ++ (ys ++ (ms ++ (xs ++ rest)))) := by
  refine outcome_behind tokens _ _ fun frames htags => ?_
  cases frames with
  | nil =>
    rw [← htags] at hk
    exact absurd hk (by simp [kindAt])
  | cons top below =>
    obtain ⟨more, mores, left, hlength, hadds, -⟩ := Xml.gives_any rest below.length
    have hroot : ∀ {u v : Element} {us vs : List Located}, Forms [.element u] us →
        Forms [.element v] vs → rootFrom (top :: below) (us ++ (ms ++ (vs ++ rest))) =
          .ok (Xml.assemble (.mk top.tag top.attributes top.offset (top.items.reverse ++
            .element u :: (middle ++ .element v :: more))) below mores) := by
      intro u v us vs hu hv
      rw [rootFrom, hu.takeFrom_items, hm.takeFrom_items, hv.takeFrom_items,
        hadds _ below hlength.symm]
      simp [Frame.fill]
    refine ⟨_, _, hroot hx hy, hroot hy hx, rearranged_assemble below mores _ _ hlength.symm ?_⟩
    rw [← htags] at hk
    rw [show kindAt (Element.tag (.mk top.tag _ _ _) :: below.map Frame.tag) = some k from hk]
    exact .children hchoice _ _ _ _ x y middle more hmiddle hxy

end Form

/-! ## Rearranged texts -/

open Xml (Spelling TagName dropByteOrderMark isSpace spelledTag)
open Xml.Scanner (Complete Outside)

/-- A document may go on with markup behind its beginning `before`, since the scanner is outside of
tags there, and the open elements have the given tags, innermost first. -/
def OpensTags (before : List Char) (tags : List String) : Prop :=
  let r := Scanner.feed ⟨.between, 0, []⟩ (dropByteOrderMark before)
  Outside r.1.mode ∧ Form.openTags (r.2.map Located.token) = tags

/-- A piece of a document that is one complete element. -/
def IsElement (cs : List Char) (tag : String) : Prop :=
  ∃ found e, Complete cs found ∧ Forms [.element e] found ∧ e.tag = tag

/-- A piece of a document without tags. -/
def IsText (cs : List Char) : Prop :=
  let r := Scanner.feed ⟨.between, 0, []⟩ cs
  Outside r.1.mode ∧ r.1.names = [] ∧ ∀ t ∈ r.2, ∃ content, t.token = .text content

/-- Two documents that differ in the order of two neighbouring children of different tags, of an
element that is no choice, or in the order of the attributes of an element. -/
inductive Rearranges (source source' : String) : Prop
  | children {before x middle y after : List Char} {tags : List String} {k : Kind}
      {tag tag' : String} (hbefore : OpensTags before tags) (hk : Form.kindAt tags = some k)
      (hchoice : k.schema.isChoice = false) (hx : IsElement x tag) (hmiddle : IsText middle)
      (hy : IsElement y tag') (hxy : tag ≠ tag')
      (hsource : source.toList = before ++ (x ++ (middle ++ (y ++ after))))
      (hsource' : source'.toList = before ++ (y ++ (middle ++ (x ++ after))))
  | attributes {before name blanks closing after : List Char} {tags : List String}
      {as bs : List Spelling} (hbefore : OpensTags before tags) (hname : TagName name)
      (hproper : ∀ a ∈ as, a.Proper) (hdistinct : (as.map Spelling.reportedName).Nodup)
      (hblanks : ∀ c ∈ blanks, isSpace c = true) (hclosing : closing = ['>'] ∨ closing = ['/', '>'])
      (h : as.Perm bs)
      (hsource : source.toList =
        before ++ '<' :: (spelledTag name as blanks ++ (closing ++ after)))
      (hsource' : source'.toList =
        before ++ '<' :: (spelledTag name bs blanks ++ (closing ++ after)))

theorem sameAttributes_of_perm {as bs : List Spelling}
    {A B : Except Xml.Fault (List (String × String))} (h : as.Perm bs)
    (hd : (as.map Spelling.reportedName).Nodup)
    (hA : A.toOption =
      if as.all (·.reported?.isSome) then some (as.filterMap Spelling.reported?) else none)
    (hB : B.toOption =
      if bs.all (·.reported?.isSome) then some (bs.filterMap Spelling.reported?) else none) :
    SameAttributes A B := by
  rw [← h.all_eq] at hB
  by_cases hall : as.all (·.reported?.isSome) = true
  · rw [if_pos hall] at hA hB
    cases A with
    | error fault => exact absurd hA (by simp [Except.toOption])
    | ok A =>
      cases B with
      | error fault => exact absurd hB (by simp [Except.toOption])
      | ok B =>
        rw [Option.some.inj hA, Option.some.inj hB]
        exact .permuted (h.filterMap _) (hd.sublist (Spelling.reported_names as))
  · rw [if_neg hall] at hA hB
    cases A with
    | ok A => exact absurd hA (by simp [Except.toOption])
    | error fault =>
      cases B with
      | ok B => exact absurd hB (by simp [Except.toOption])
      | error fault' => exact .faulty fault fault'

/-- A token that is nowhere in particular. -/
def nowhere (token : Token) : Located := ⟨token, 0⟩

theorem map_unplaced (tokens : List Located) :
    tokens.map Located.unplaced = (tokens.map Located.token).map nowhere := by
  rw [List.map_map]
  rfl

theorem token_nowhere (tokens : List Token) : (tokens.map nowhere).map Located.token = tokens := by
  rw [List.map_map]
  exact List.map_id _

namespace Form

theorem ofText_unplaced (source : String) :
    (ofText source).2.toOption = outcome (((Xml.tokens source).map Located.token).map nowhere) := by
  rw [ofText_outcome, ← outcome_unplaced, map_unplaced]

theorem openTags_unread (tokens : List Token) (mode : Xml.Mode) :
    openTags (tokens ++ Scanner.unread mode) = openTags tokens := by
  rw [openTags, List.foldl_append]
  cases mode <;> rfl

theorem ofText_swap {before x middle y after : List Char} {tags : List String} {k : Kind}
    {tag tag' : String} (hbefore : OpensTags before tags) (hk : kindAt tags = some k)
    (hchoice : k.schema.isChoice = false) (hx : IsElement x tag) (hmiddle : IsText middle)
    (hy : IsElement y tag') (hxy : tag ≠ tag') {source source' : String}
    (hsource : source.toList = before ++ (x ++ (middle ++ (y ++ after))))
    (hsource' : source'.toList = before ++ (y ++ (middle ++ (x ++ after)))) :
    (ofText source).2.toOption = (ofText source').2.toOption := by
  obtain ⟨hmode, rfl⟩ := hbefore
  obtain ⟨xs, ex, hxs, hxforms, rfl⟩ := hx
  obtain ⟨ys, ey, hys, hyforms, rfl⟩ := hy
  obtain ⟨hmode', hnames, htexts⟩ := hmiddle
  generalize hfeed : Scanner.feed _ (dropByteOrderMark before) = r at hmode hk
  generalize hms : Scanner.feed _ middle = r' at hmode' hnames htexts
  obtain ⟨⟨mode, offset, names⟩, found⟩ := r
  obtain ⟨⟨mode', offset', _⟩, ms⟩ := r'
  subst hnames
  have htokens : ∀ {u v : List Char} {us vs : List Located} {s : String}, Complete u us →
      Complete v vs → s.toList = before ++ (u ++ (middle ++ (v ++ after))) →
      (Xml.tokens s).map Located.token =
        (found.map Located.token ++ Scanner.unread mode) ++ (us.map Located.token ++
          ((ms.map Located.token ++ Scanner.unread mode') ++ (vs.map Located.token ++
            (Scanner.run ⟨.between, 0, names⟩ after).map Located.token))) := by
    intro u v us vs s hu hv hs
    obtain ⟨rest, _, hu', _⟩ := id hu
    rw [Xml.tokens_behind hfeed s (rest ++ (middle ++ (v ++ after))) (by rw [hs, hu']; rfl),
      ← List.cons_append, ← hu', Scanner.run_complete offset hmode hu,
      Scanner.run_between hms hmode', Scanner.run_complete 0 hmode' hv]
    simp only [List.append_assoc]
  rw [ofText_unplaced, ofText_unplaced, htokens hxs hys hsource, htokens hys hxs hsource']
  have hsplit : ∀ bs us ms vs as : List Token,
      (bs ++ (us ++ (ms ++ (vs ++ as)))).map nowhere = bs.map nowhere ++ (us.map nowhere ++
        (ms.map nowhere ++ (vs.map nowhere ++ as.map nowhere))) := by
    intro bs us ms vs as
    simp only [List.map_append]
  have hm : ∀ t ∈ (ms.map Located.token ++ Scanner.unread mode').map nowhere,
      ∃ content, t.token = .text content := by
    intro t ht
    obtain ⟨token, htoken, rfl⟩ := List.mem_map.mp ht
    rcases List.mem_append.mp htoken with htoken | htoken
    · obtain ⟨u, hu, rfl⟩ := List.mem_map.mp htoken
      exact htexts u hu
    · rcases hmode' with rfl | ⟨chars, rfl⟩
      · exact absurd htoken List.not_mem_nil
      · exact ⟨_, List.mem_singleton.mp htoken⟩
  obtain ⟨items, hforms, hitems⟩ := Xml.forms_texts _ hm
  rw [hsplit, hsplit]
  have hxforms := hxforms.unplaced
  have hyforms := hyforms.unplaced
  rw [map_unplaced] at hxforms hyforms
  refine outcome_swap _ _ k hxforms hforms hyforms hitems ?_ ?_ hchoice
  · rwa [Element.unplaced_tag, Element.unplaced_tag]
  · rw [token_nowhere, openTags_unread, hk]

theorem ofText_permuted {before name blanks closing after : List Char} {tags : List String}
    {as bs : List Spelling} (hbefore : OpensTags before tags) (hname : TagName name)
    (hproper : ∀ a ∈ as, a.Proper) (hdistinct : (as.map Spelling.reportedName).Nodup)
    (hblanks : ∀ c ∈ blanks, isSpace c = true) (hclosing : closing = ['>'] ∨ closing = ['/', '>'])
    (h : as.Perm bs) {source source' : String}
    (hsource : source.toList = before ++ '<' :: (spelledTag name as blanks ++ (closing ++ after)))
    (hsource' : source'.toList =
      before ++ '<' :: (spelledTag name bs blanks ++ (closing ++ after))) :
    (ofText source).2.toOption = (ofText source').2.toOption := by
  by_cases hne : as = []
  · -- there is nothing to permute
    subst hne
    have hbs : bs = [] := List.nil_perm.mp h
    rw [hbs, ← hsource] at hsource'
    rw [String.toList_inj.mp hsource']
  obtain ⟨hmode, -⟩ := hbefore
  generalize hfeed : Scanner.feed _ (dropByteOrderMark before) = r at hmode
  obtain ⟨⟨mode, offset, names⟩, found⟩ := r
  obtain ⟨more, hmore⟩ := Scanner.run_spelled hmode offset names name hname blanks closing after
    hblanks hclosing
  have hnames : (as.map Spelling.name).Nodup := by
    have hmap : as.map Spelling.reportedName =
        (as.map Spelling.name).map fun name => String.ofList (Xml.localName name) := by
      rw [List.map_map]
      rfl
    rw [hmap] at hdistinct
    refine List.Pairwise.of_map _ (fun name name' hne heq => hne ?_) hdistinct
    rw [heq]
  have htokens : ∀ {cs : List Spelling} {s : String}, as.Perm cs → s.toList =
      before ++ '<' :: (spelledTag name cs blanks ++ (closing ++ after)) →
      ((Xml.tokens s).map Located.token).map nowhere =
        (found.map Located.token ++ Scanner.unread mode).map nowhere ++
          ⟨.start (Text.lowercase (String.ofList (Xml.localName name)))
            (Xml.attributes (spelledTag name cs blanks)), 0⟩ :: more.map nowhere := by
    intro cs s hcs hs
    have hproper : ∀ a ∈ cs, a.Proper := fun a ha => hproper a (hcs.mem_iff.mpr ha)
    have hcsne : cs ≠ [] := fun hnil => hne (hnil ▸ hcs).eq_nil
    rw [Xml.tokens_behind hfeed s _ hs, hmore cs hcsne hproper,
      Scanner.startToken_spelled name hname cs blanks hproper hblanks, ← List.append_assoc,
      List.map_append, List.map_cons]
    rfl
  have hsame : SameAttributes (Xml.attributes (spelledTag name as blanks))
      (Xml.attributes (spelledTag name bs blanks)) :=
    sameAttributes_of_perm h hdistinct
      (Xml.attributes_spelled name hname as blanks hproper hnames hblanks)
      (Xml.attributes_spelled name hname bs blanks (fun a ha => hproper a (h.mem_iff.mpr ha))
        ((h.map Spelling.name).nodup_iff.mp hnames) hblanks)
  rw [ofText_unplaced, ofText_unplaced, htokens (.refl as) hsource, htokens h hsource']
  exact outcome_attributes _ _ _ 0 hsame

/-- A document that is rearranged is read as the same form, or cannot be read either. -/
theorem ofText_rearranges {source source' : String} (h : Rearranges source source') :
    (ofText source).2.toOption = (ofText source').2.toOption := by
  cases h with
  | children hbefore hk hchoice hx hmiddle hy hxy hsource hsource' =>
    exact ofText_swap hbefore hk hchoice hx hmiddle hy hxy hsource hsource'
  | attributes hbefore hname hproper hdistinct hblanks hclosing h hsource hsource' =>
    exact ofText_permuted hbefore hname hproper hdistinct hblanks hclosing h hsource hsource'

end Form

end FormCompiler.Document
