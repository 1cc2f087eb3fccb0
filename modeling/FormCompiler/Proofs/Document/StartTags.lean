import FormCompiler.Proofs.Document.Places
import FormCompiler.Proofs.Xml.Transmission

/-!
# Where the start tags of a form stand

A form is written by a list of commands.  `Node.before` are the commands that come before those of
the node at a path; they grow along the walk of a form, by at least the commands that open a node
(`visits_inOrder`).  A start tag is held back until the next command that is not an attribute, so
its place in the text is known once it is started: `Form.startOffset`.
-/

namespace FormCompiler.Document

open Xml (Command Writer HeldTag attributesText)

/-! ## Writers -/

/-- The commands that end the attributes of a start tag. -/
def ClosesTag (c : Command) : Prop :=
  (∃ tag, c = .start tag) ∨ (∃ s, c = .text s) ∨ c = .stop ∨ ∃ tag s, c = .textElement tag s

theorem run_attributes (w : Writer) (h : HeldTag) (hw : w.held = some h)
    (as : List (String × String)) :
    w.run (as.map fun a => .attribute a.1 a.2) =
      ({ w with held := some ⟨h.tag, h.attributes ++ String.ofList (attributesText as)⟩ }, []) := by
  induction as generalizing w h with
  | nil =>
    obtain ⟨held, tags, level, breakLine⟩ := w
    cases hw
    simp [Writer.run, attributesText]
  | cons a as ih =>
    have hstep := ih (w.addAttribute a.1 a.2) ⟨h.tag, h.attributes ++ " " ++ a.1 ++ "=\"" ++
      Xml.escape a.2 ++ "\""⟩ (by rw [Writer.addAttribute, hw]; rfl)
    rw [List.map_cons, Writer.run]
    simp only [Writer.step, hstep, String.toList_empty, List.nil_append, Prod.mk.injEq, and_true]
    rw [Writer.addAttribute]
    congr 3
    apply String.toList_inj.mp
    simp [attributesText, Xml.toList_escape]

theorem step_closing (w : Writer) (h : HeldTag) (hw : w.held = some h) (c : Command)
    (hc : ClosesTag c) :
    ∃ stop rest, (stop = ['>'] ∨ stop = ['/', '>']) ∧ (w.step c).2.toList =
      w.lead.toList ++ '<' :: h.tag.toList ++ h.attributes.toList ++ stop ++ rest := by
  have hflush : w.flush.2.toList =
      w.lead.toList ++ '<' :: h.tag.toList ++ h.attributes.toList ++ ['>'] := by
    simp [Writer.flush, hw]
  rcases hc with ⟨tag, rfl⟩ | ⟨s, rfl⟩ | rfl | ⟨tag, s, rfl⟩
  · exact ⟨['>'], [], .inl rfl, by simp [Writer.step, Writer.start, hflush]⟩
  · exact ⟨['>'], (Xml.escape s).toList, .inl rfl, by simp [Writer.step, Writer.addText, hflush]⟩
  · exact ⟨['/', '>'], [], .inr rfl, by simp [Writer.step, Writer.stop, hw, Writer.lead]⟩
  · have hout : ((w.step (.textElement tag s)).2.toList) = w.flush.2.toList ++
        ((if s.isEmpty then ((w.start tag).1, "") else (w.start tag).1.addText s).2.toList ++
        ((if s.isEmpty then ((w.start tag).1, "") else
          (w.start tag).1.addText s).1.stop.2.toList)) := by
      simp [Writer.step, Writer.start]
    exact ⟨['>'], _, .inl rfl, by rw [hout, hflush]⟩

theorem run_opened (w : Writer) (tag : String) (as : List (String × String)) (c : Command)
    (hc : ClosesTag c) (more : List Command) :
    ∃ stop rest, (stop = ['>'] ∨ stop = ['/', '>']) ∧
      (w.run (.start tag :: (as.map fun a => .attribute a.1 a.2) ++ c :: more)).2 =
        (w.run [.start tag]).2 ++ (w.run [.start tag]).1.lead.toList ++
          '<' :: tag.toList ++ attributesText as ++ stop ++ rest := by
  have hheld : (w.run [.start tag]).1.held = some ⟨tag, ""⟩ := rfl
  have hsplit : .start tag :: (as.map fun a => Command.attribute a.1 a.2) ++ c :: more =
      [.start tag] ++ ((as.map fun a => Command.attribute a.1 a.2) ++ c :: more) := rfl
  rw [hsplit, Writer.run_append]
  generalize w.run [.start tag] = r at hheld ⊢
  obtain ⟨w1, out⟩ := r
  let w2 : Writer := { w1 with held := some ⟨tag, "" ++ String.ofList (attributesText as)⟩ }
  obtain ⟨stop, rest, hstop, hout⟩ := step_closing w2 _ rfl c hc
  refine ⟨stop, rest ++ ((w2.step c).1.run more).2, hstop, ?_⟩
  rw [Writer.run_append, run_attributes w1 _ hheld as]
  change out ++ ([] ++ ((w2.step c).2.toList ++ ((w2.step c).1.run more).2)) = _
  rw [hout, show w2.lead = w1.lead from rfl]
  simp

/-! ## Commands -/

namespace Node

/-- The attributes of a node as they are written. -/
def writtenAttributes (n : Node) : List (String × String) :=
  n.attributes.map fun a => (n.kind.writtenAttribute a.1, a.2.format)

/-- The commands that open a node under a tag. -/
def opening (tag : String) (n : Node) : List Command :=
  .start (tagFor n.kind tag) :: n.writtenAttributes.map fun a => .attribute a.1 a.2

/-- The commands after the attributes of a node. -/
def inside (n : Node) : List Command :=
  fieldsCommands n.kind n.fields ++ textCommands n.text ++ [.stop]

theorem commands_eq (n : Node) (tag : String) :
    n.commands tag = n.opening tag ++ n.inside := by
  obtain ⟨k, as, fs, t⟩ := n
  simp [commands, opening, inside, writtenAttributes, kind, attributes, fields, text]

theorem inside_closing (n : Node) : ∃ c more, n.inside = c :: more ∧ ClosesTag c := by
  unfold inside
  cases n.fields with
  | nil =>
    rw [fieldsCommands, textCommands]
    split
    · exact ⟨.stop, [], rfl, .inr (.inr (.inl rfl))⟩
    · exact ⟨.text n.text, [.stop], rfl, .inr (.inl ⟨_, rfl⟩)⟩
  | cons f fs =>
    cases f with
    | value tag v => exact ⟨_, _, rfl, .inr (.inr (.inr ⟨_, _, rfl⟩))⟩
    | node tag m =>
      rw [fieldsCommands, fieldCommands, commands_eq]
      exact ⟨_, _, rfl, .inl ⟨_, rfl⟩⟩

theorem fieldsCommands_append (k : Kind) (fs gs : List Field) :
    fieldsCommands k (fs ++ gs) = fieldsCommands k fs ++ fieldsCommands k gs := by
  induction fs with
  | nil => rfl
  | cons f fs ih =>
    rw [List.cons_append, fieldsCommands, fieldsCommands, ih, List.append_assoc]

/-- The tag under which the node at a path is written, with an empty one for the whole tree. -/
def tagAt (n : Node) : List Nat → String
  | [] => ""
  | i :: path => ((n.nodeAt? path).bind fun m =>
      m.fields[i]?.map fun f => m.kind.writtenTag f.tag).getD ""

/-- The commands before those of the node at a path. -/
def before (n : Node) : List Nat → List Command
  | [] => []
  | i :: path => match n.nodeAt? path with
    | some m => n.before path ++ m.opening (n.tagAt path) ++ fieldsCommands m.kind (m.fields.take i)
    | none => []

section Positions

variable {n m : Node} {p : List Nat}

theorem before_cons (h : n.nodeAt? p = some m) (i : Nat) :
    n.before (i :: p) =
      n.before p ++ m.opening (n.tagAt p) ++ fieldsCommands m.kind (m.fields.take i) := by
  rw [before, h]

/-- The commands of a node stand in one piece among those of a node above it. -/
theorem commands_split (h : n.nodeAt? p = some m) (q : List Nat) (x : Node)
    (hx : m.nodeAt? q = some x) :
    ∃ rest, n.before p ++ m.commands (n.tagAt p) =
      n.before (q ++ p) ++ x.commands (n.tagAt (q ++ p)) ++ rest := by
  induction q generalizing x with
  | nil =>
    obtain rfl := Option.some.inj hx
    exact ⟨[], (List.append_nil _).symm⟩
  | cons i q ih =>
    obtain ⟨parent, hparent, hfield⟩ := nodeAt_cons hx
    obtain ⟨rest, hrest⟩ := ih parent hparent
    have hat : n.nodeAt? (q ++ p) = some parent := by
      rw [nodeAt_append, h, Option.bind_some, hparent]
    obtain ⟨f, hf, hfx⟩ := Option.bind_eq_some_iff.mp hfield
    have htag : n.tagAt (i :: q ++ p) = parent.kind.writtenTag f.tag := by
      rw [List.cons_append, tagAt, hat, Option.bind_some, hf, Option.map_some, Option.getD_some]
    have hcommands : fieldCommands parent.kind f = x.commands (parent.kind.writtenTag f.tag) := by
      cases f with
      | value tag v => cases hfx
      | node tag y =>
        obtain rfl := Option.some.inj hfx
        rfl
    have hfields : parent.fields = parent.fields.take i ++ f :: parent.fields.drop (i + 1) := by
      obtain ⟨hlt, rfl⟩ := List.getElem?_eq_some_iff.mp hf
      rw [List.getElem_cons_drop, List.take_append_drop]
    refine ⟨fieldsCommands parent.kind (parent.fields.drop (i + 1)) ++ textCommands parent.text ++
      [.stop] ++ rest, ?_⟩
    rw [hrest, htag, List.cons_append, before_cons hat, commands_eq parent, inside]
    conv => lhs; rw [hfields, fieldsCommands_append, fieldsCommands, hcommands]
    simp only [List.append_assoc]

theorem before_le (q : List Nat) (x : Node) (hx : n.nodeAt? (q ++ p) = some x) :
    (n.before p).length ≤ (n.before (q ++ p)).length := by
  induction q generalizing x with
  | nil => exact Nat.le_refl _
  | cons i q ih =>
    rw [List.cons_append] at hx ⊢
    obtain ⟨parent, hparent, -⟩ := nodeAt_cons hx
    have hle := ih parent hparent
    rw [before_cons hparent, List.length_append, List.length_append]
    omega

/-- The commands before a node met from a node down begin behind those before the latter, and its
own commands end no later. -/
theorem before_bounds (h : n.nodeAt? p = some m) {v : Visit} (hv : v ∈ m.visits p) :
    (n.before p).length ≤ (n.before v.path).length ∧
      (n.before v.path).length + (v.node.opening (n.tagAt v.path)).length ≤
        (n.before p).length + (m.commands (n.tagAt p)).length := by
  obtain ⟨q, hpath, hnode⟩ := (mem_visits_iff m p v).mp hv
  have hat : n.nodeAt? (q ++ p) = some v.node := by rw [nodeAt_append, h, Option.bind_some, hnode]
  rw [hpath]
  refine ⟨before_le q v.node hat, ?_⟩
  obtain ⟨rest, hrest⟩ := commands_split h q v.node hnode
  have hlength := congrArg List.length hrest
  rw [commands_eq v.node] at hlength
  simp only [List.length_append] at hlength
  omega

/-- The node of one visit is opened before that of another begins. -/
def Opened (n : Node) (u v : Visit) : Prop :=
  (n.before u.path).length + (u.node.opening (n.tagAt u.path)).length ≤ (n.before v.path).length

theorem fieldsVisits_inOrder (h : n.nodeAt? p = some m)
    (ih : ∀ f ∈ m.fields, ∀ x, f.node? = some x → ∀ q, n.nodeAt? q = some x →
      (x.visits q).Pairwise n.Opened) (done fs : List Field) (hfs : m.fields = done ++ fs) :
    (fieldsVisits p done.length fs).Pairwise n.Opened := by
  induction fs generalizing done with
  | nil => exact .nil
  | cons f fs ihfs =>
    have hrest := ihfs (done ++ [f]) (by rw [hfs, List.append_assoc, List.singleton_append])
    rw [List.length_append, List.length_singleton] at hrest
    have hf : f ∈ m.fields := hfs ▸ List.mem_append_right _ (List.mem_cons_self ..)
    cases f with
    | value tag s =>
      rw [fieldsVisits, fieldVisits, List.nil_append]
      exact hrest
    | node tag x =>
      have hplace : m.fields[done.length]? = some (.node tag x) := by
        rw [hfs, List.getElem?_append_right (Nat.le_refl _), Nat.sub_self]
        rfl
      have hx : n.nodeAt? (done.length :: p) = some x := by
        rw [nodeAt?, h, Option.bind_some, hplace]
        rfl
      rw [fieldsVisits, fieldVisits, List.pairwise_append]
      refine ⟨ih _ hf x rfl _ hx, hrest, ?_⟩
      -- one node stands in this field and the other in a later one
      intro u hu v hv
      obtain ⟨j, y, hy, hv⟩ := (mem_fieldsVisits fs p (done.length + 1) v).mp hv
      have hyat : n.nodeAt? ((done.length + 1 + j) :: p) = some y := by
        rw [nodeAt?, h, Option.bind_some, hfs, List.getElem?_append_right (by omega),
          show done.length + 1 + j - done.length = j + 1 by omega, List.getElem?_cons_succ, hy]
      have hu' := (before_bounds hx hu).2
      have hv' := (before_bounds hyat hv).1
      have htag : n.tagAt (done.length :: p) = m.kind.writtenTag tag := by
        rw [tagAt, h, Option.bind_some, hplace, Option.map_some, Option.getD_some, Field.tag]
      have htake : m.fields.take (done.length + 1 + j) =
          m.fields.take done.length ++ .node tag x :: fs.take j := by
        rw [hfs, List.take_append_of_le_length (Nat.le_refl _), List.take_length, Nat.add_assoc,
          List.take_length_add_append, Nat.add_comm 1, List.take_succ_cons]
      rw [before_cons h, htag] at hu'
      rw [before_cons h, htake, fieldsCommands_append, fieldsCommands, fieldCommands] at hv'
      simp only [List.length_append] at hu' hv'
      unfold Opened
      omega

/-- Along the walk of a tree, each node is opened before the next begins. -/
theorem visits_inOrder (h : n.nodeAt? p = some m) : (m.visits p).Pairwise n.Opened := by
  induction m using Node.induction generalizing p with
  | h m ih =>
    have hvisits : m.visits p = ⟨p, m⟩ :: fieldsVisits p 0 m.fields := by
      obtain ⟨k, as, fs, t⟩ := m
      rfl
    rw [hvisits, List.pairwise_cons]
    refine ⟨fun v hv => ?_,
      fieldsVisits_inOrder h (fun f hf x hx q => ih f hf x hx) [] m.fields rfl⟩
    obtain ⟨j, x, hx, hv⟩ := (mem_fieldsVisits m.fields p 0 v).mp hv
    rw [Nat.zero_add] at hv
    have hxat : n.nodeAt? (j :: p) = some x := by rw [nodeAt?, h, Option.bind_some, hx]
    have hle := (before_bounds hxat hv).1
    rw [before_cons h, List.length_append, List.length_append] at hle
    change (n.before p).length + (m.opening (n.tagAt p)).length ≤ _
    omega

end Positions

end Node

/-! ## Places in the text -/

namespace Form

/-- The tag under which the node of a visit is written. -/
def tagOf (f : Form) (v : Visit) : String := Node.tagFor v.node.kind (f.node.tagAt v.path)

/-- The start tag of a node, up to its end. -/
def startTag (f : Form) (v : Visit) : List Char :=
  '<' :: (f.tagOf v).toList ++ attributesText v.node.writtenAttributes

/-- The number of characters before the start tag of a node: all that is written until it is
started, and the line break and indentation that will stand in front of it. -/
def startOffset (f : Form) (v : Visit) : Nat :=
  let r := Writer.empty.run (.declaration :: f.node.before v.path ++ [.start (f.tagOf v)])
  r.2.length + r.1.lead.toList.length

theorem run_opening (f : Form) (v : Visit) (c : Command) (hc : ClosesTag c) (more : List Command) :
    ∃ front stop rest, front.length = f.startOffset v ∧ (stop = ['>'] ∨ stop = ['/', '>']) ∧
      (Writer.empty.run (.declaration :: f.node.before v.path ++
        (v.node.opening (f.node.tagAt v.path) ++ c :: more))).2 =
          front ++ f.startTag v ++ stop ++ rest := by
  rw [startOffset, Writer.run_append, Writer.run_append]
  generalize Writer.empty.run (.declaration :: f.node.before v.path) = r
  obtain ⟨stop, rest, hstop, hout⟩ :=
    run_opened r.1 (f.tagOf v) v.node.writtenAttributes c hc more
  refine ⟨r.2 ++ (r.1.run [.start (f.tagOf v)]).2 ++
    (r.1.run [.start (f.tagOf v)]).1.lead.toList, stop, rest, ?_, hstop, ?_⟩
  · simp only [List.length_append]
  · change r.2 ++ (r.1.run (.start (f.tagOf v) :: _ ++ c :: more)).2 = _
    rw [hout, startTag]
    simp only [List.append_assoc, List.cons_append]

theorem commands_visit {f : Form} {v : Visit} (hv : v ∈ f.visits) :
    ∃ rest, f.node.commands "" = f.node.before v.path ++
      (v.node.opening (f.node.tagAt v.path) ++ (v.node.inside ++ rest)) := by
  obtain ⟨rest, hrest⟩ := Node.commands_split (n := f.node) (p := []) rfl v.path v.node
    ((Node.mem_visits f.node v).mp hv)
  rw [List.append_nil, Node.commands_eq v.node] at hrest
  refine ⟨rest, ?_⟩
  rw [← List.append_assoc (v.node.opening _), ← List.append_assoc (f.node.before _)]
  exact hrest

theorem startTag_written {f : Form} {v : Visit} (hv : v ∈ f.visits) :
    ∃ stop rest, (stop = ['>'] ∨ stop = ['/', '>']) ∧
      f.toText.toList.drop (f.startOffset v) = f.startTag v ++ stop ++ rest := by
  obtain ⟨after, hcommands⟩ := commands_visit hv
  obtain ⟨c, more, hinside, hc⟩ := v.node.inside_closing
  rw [hinside, List.cons_append] at hcommands
  obtain ⟨front, stop, rest, hfront, hstop, hout⟩ := f.run_opening v c hc (more ++ after)
  rw [List.cons_append, ← hcommands] at hout
  refine ⟨stop, rest ++ (Writer.empty.run (.declaration :: f.node.commands "")).1.close.toList,
    hstop, ?_⟩
  rw [toText, Xml.toList_write, hout, ← hfront]
  simp only [List.append_assoc, List.drop_left]

/-- A node that is opened before another begins has its start tag in front of the other's. -/
theorem startOffset_lt {f : Form} {u v : Visit} (hu : u ∈ f.visits) (hv : v ∈ f.visits)
    (h : f.node.Opened u v) : f.startOffset u < f.startOffset v := by
  obtain ⟨after, hcommands⟩ := commands_visit hu
  obtain ⟨after', hcommands'⟩ := commands_visit hv
  obtain ⟨c, more, hinside, hc⟩ := u.node.inside_closing
  rw [hinside, List.cons_append, ← List.append_assoc] at hcommands
  obtain ⟨k, hk⟩ : ∃ k, (f.node.before v.path).length + 1 =
      (f.node.before u.path ++ u.node.opening (f.node.tagAt u.path)).length + (k + 1) := by
    refine ⟨(f.node.before v.path).length - ((f.node.before u.path).length +
      (u.node.opening (f.node.tagAt u.path)).length), ?_⟩
    unfold Node.Opened at h
    rw [List.length_append]
    omega
  -- both nodes are started by the commands of the form, the second one later
  have hstart : (f.node.commands "").take ((f.node.before v.path).length + 1) =
      f.node.before v.path ++ [.start (f.tagOf v)] := by
    rw [hcommands', List.take_length_add_append]
    rfl
  rw [hk, hcommands, List.take_length_add_append, List.take_succ_cons] at hstart
  obtain ⟨front, stop, rest, hfront, -, hout⟩ := f.run_opening u c hc ((more ++ after).take k)
  rw [List.cons_append, ← List.append_assoc, hstart] at hout
  have hlength := congrArg List.length hout
  rw [List.length_append, List.length_append, List.length_append, hfront] at hlength
  have hpos : 0 < (f.startTag u).length := Nat.succ_pos _
  have hle : (Writer.empty.run (.declaration :: (f.node.before v.path ++
      [.start (f.tagOf v)]))).2.length ≤ f.startOffset v := Nat.le_add_right _ _
  omega

end Form

end FormCompiler.Document
