import FormCompiler.Proofs.Xml.Scanning

/-!
# From a writer to a scanner

A writer and a scanner are run side by side: what the writer puts out for a command is fed to the
scanner at once.  `flushed` and `held` are the two states the pair can be in, without and with a
start tag that is held back.  `markup_sent` says what the scanner finds in a whole element, by
induction over its tree, and `tokens_written` what it finds in a document.
-/

namespace FormCompiler.Xml

open Markup

/-! ## Writers -/

namespace Writer

/-- The state after some commands, and the characters written for them. -/
def run (w : Writer) : List Command → Writer × List Char
  | [] => (w, [])
  | c :: cs =>
    let r := w.step c
    let q := r.1.run cs
    (q.1, r.2.toList ++ q.2)

theorem run_append (w : Writer) (cs ds : List Command) :
    w.run (cs ++ ds) = (((w.run cs).1.run ds).1, (w.run cs).2 ++ ((w.run cs).1.run ds).2) := by
  induction cs generalizing w with
  | nil => rfl
  | cons c cs ih => simp only [List.cons_append, run, ih, List.append_assoc]

theorem pieces_run (w : Writer) (cs : List Command) :
    (w.pieces cs).flatMap String.toList = (w.run cs).2 ++ (w.run cs).1.close.toList := by
  induction cs generalizing w with
  | nil => simp [pieces, run]
  | cons c cs ih => simp only [pieces, run, List.flatMap_cons, ih, List.append_assoc]

end Writer

theorem toList_write (cs : List Command) :
    (write cs).toList =
      (Writer.empty.run cs).2 ++ (Writer.empty.run cs).1.close.toList := by
  rw [write, String.toList_join, Writer.pieces_run]

/-! ## A writer and a scanner side by side -/

/-- A writer, and a scanner that has read all it has written. -/
structure Line where
  writer : Writer
  scanner : Scanner

/-- The two after some commands, with the tokens found meanwhile. -/
def Line.send (l : Line) (cs : List Command) : Line × List Located :=
  let r := l.writer.run cs
  let q := l.scanner.feed r.2
  (⟨r.1, q.1⟩, q.2)

theorem send_append {l l' l'' : Line} {cs ds : List Command} {found more : List Located}
    (h : l.send cs = (l', found)) (h' : l'.send ds = (l'', more)) :
    l.send (cs ++ ds) = (l'', found ++ more) := by
  have happend : l.send (cs ++ ds) =
      (((l.send cs).1.send ds).1, (l.send cs).2 ++ ((l.send cs).1.send ds).2) := by
    simp only [Line.send, Writer.run_append, Scanner.feed_append]
  rw [happend, h, h']

theorem send_cons {l l' l'' : Line} {c : Command} {cs : List Command} {found more : List Located}
    (h : l.send [c] = (l', found)) (h' : l'.send cs = (l'', more)) :
    l.send (c :: cs) = (l'', found ++ more) := by
  have happend : l.send ([c] ++ cs) = (l'', found ++ more) := send_append h h'
  exact happend

/-- No start tag is held back; `g` is the character data since the last tag. -/
def flushed (tags : List String) (level : Nat) (breakLine : Bool) (g : String) (offset : Nat) :
    Line :=
  ⟨⟨none, tags, level, breakLine⟩, ⟨Scanner.gap g, offset, tags.map String.toList⟩⟩

/-- The start tag of the innermost element is held back with the attributes given so far. -/
def held (tag : String) (as : List (String × String)) (tags : List String) (level : Nat)
    (breakLine : Bool) (g : String) (offset : Nat) : Line :=
  ⟨⟨some ⟨tag, String.ofList (attributesText as)⟩, tag :: tags, level, breakLine⟩,
    ⟨Scanner.gap g, offset, tags.map String.toList⟩⟩

/-! ## Single commands -/

/-- The indentation is not changed by escaping, so it counts as character data. -/
theorem escaped_lead (level : Nat) (b : Bool) :
    escaped (lead level b).toList = (lead level b).toList := by
  have hspaces : ∀ n, escaped (List.replicate n ' ') = List.replicate n ' ' := by
    intro n
    induction n with
    | zero => rfl
    | succ n ih =>
      rw [List.replicate_succ, escaped_cons, ih]
      rfl
  cases b with
  | false => rfl
  | true =>
    rw [lead, if_pos rfl, String.toList_ofList, escaped_cons, hspaces]
    rfl

theorem feed_lead (g : String) (level : Nat) (b : Bool) (off : Nat) (names : List (List Char))
    (cs : List Char) :
    ∃ off' off'', Scanner.feed ⟨Scanner.gap g, off, names⟩ ((lead level b).toList ++ '<' :: cs) =
      ((Scanner.feed ⟨.opened, off', names⟩ cs).1,
        gapTokens (g ++ lead level b) off'' ++ (Scanner.feed ⟨.opened, off', names⟩ cs).2) := by
  have h := Scanner.feed_text g (lead level b) off names
  rw [escaped_lead] at h
  refine ⟨off + Text.byteLength (lead level b).toList + 1,
    off + Text.byteLength (lead level b).toList, ?_⟩
  rw [Scanner.feed_append, h, Scanner.feed_open]
  rfl

section Sent

variable (tag : String) (as : List (String × String)) (tags : List String) (level : Nat) (b : Bool)
  (g : String) (off : Nat)

theorem send_start :
    (flushed tags level b g off).send [.start tag] = (held tag [] tags level b g off, []) := rfl

theorem send_attribute (k v : String) :
    (held tag as tags level b g off).send [.attribute k v] =
      (held tag (as ++ [(k, v)]) tags level b g off, []) := by
  have htext : ∀ as : List (String × String), attributesText (as ++ [(k, v)]) =
      attributesText as ++ ' ' :: k.toList ++ '=' :: '"' :: escaped v.toList ++ ['"'] := by
    intro as
    induction as with
    | nil => simp [attributesText]
    | cons a as ih => simp [attributesText, ih]
  have hrender : String.ofList (attributesText as) ++ " " ++ k ++ "=\"" ++ escape v ++ "\"" =
      String.ofList (attributesText (as ++ [(k, v)])) := by
    apply String.toList_inj.mp
    rw [String.toList_ofList, htext]
    simp [toList_escape]
  simp only [Line.send, held, Writer.run, Writer.step, Writer.addAttribute, Option.map_some,
    hrender, String.toList_empty, List.append_nil, Scanner.feed]

theorem send_attributes (bs : List (String × String)) :
    (held tag as tags level b g off).send (bs.map fun a => .attribute a.1 a.2) =
      (held tag (as ++ bs) tags level b g off, []) := by
  induction bs generalizing as with
  | nil =>
    rw [List.append_nil]
    rfl
  | cons a bs ih =>
    have h := send_cons (send_attribute tag as tags level b g off a.1 a.2) (ih (as ++ [(a.1, a.2)]))
    rw [List.append_assoc] at h
    exact h

theorem send_text (s : String) :
    ∃ off', (flushed tags level b g off).send [.text s] =
      (flushed tags level false (g ++ s) off', []) := by
  refine ⟨off + Text.byteLength (escaped s.toList), ?_⟩
  simp only [Line.send, flushed, Writer.run, Writer.step, Writer.addText, Writer.flush,
    String.empty_append, toList_escape, List.append_nil, Scanner.feed_text]

/-- An element without content is written as one tag. -/
theorem send_stop_held (ht : IsName tag) (hn : ∀ a ∈ as, IsName a.1) :
    ∃ off' o p q, (held tag as tags level b g off).send [.stop] =
      (flushed tags level true "" off',
        gapTokens (g ++ lead level b) o ++ [⟨Scanner.startOf tag as, p⟩, ⟨.stop, q⟩]) := by
  obtain ⟨o1, o2, h1⟩ := feed_lead g level b off (tags.map String.toList)
    (tag.toList ++ attributesText as ++ ['/', '>'])
  obtain ⟨o3, h2⟩ := Scanner.feed_emptyTag tag as o1 (tags.map String.toList) ht hn
  refine ⟨o3, o2, o3, o3, ?_⟩
  have hout : ((held tag as tags level b g off).writer.run [.stop]).2 =
      (lead level b).toList ++ '<' :: (tag.toList ++ attributesText as ++ ['/', '>']) := by
    simp [held, Writer.run, Writer.step, Writer.stop, Writer.lead, lead]
  simp only [Line.send, hout]
  simp only [held, h1, h2]
  rfl

theorem send_stop_flushed (ht : IsName tag) :
    ∃ off' o p, (flushed (tag :: tags) (level + 1) b g off).send [.stop] =
      (flushed tags level true "" off', gapTokens (g ++ lead level b) o ++ [⟨.stop, p⟩]) := by
  obtain ⟨o1, o2, h1⟩ := feed_lead g level b off (tag.toList :: tags.map String.toList)
    ('/' :: tag.toList ++ ['>'])
  obtain ⟨o3, h2⟩ := Scanner.feed_endTag tag o1 (tags.map String.toList) ht
  refine ⟨o3, o2, o3, ?_⟩
  have hout : ((flushed (tag :: tags) (level + 1) b g off).writer.run [.stop]).2 =
      (lead level b).toList ++ '<' :: ('/' :: tag.toList ++ ['>']) := by
    simp [flushed, Writer.run, Writer.step, Writer.stop, Writer.lead, lead]
  simp only [Line.send, hout]
  simp only [flushed, List.map_cons, h1, h2]
  rfl

/-- The start tag held back is written before the first content, be it a text or an element. -/
theorem send_first (ht : IsName tag) (hn : ∀ a ∈ as, IsName a.1) (c : Command)
    (hc : (∃ t, c = .start t) ∨ ∃ s, c = .text s) (cs : List Command) :
    ∃ off' o p, (held tag as tags level b g off).send (c :: cs) =
      (((flushed (tag :: tags) (level + 1) true "" off').send (c :: cs)).1,
        gapTokens (g ++ lead level b) o ++ ⟨Scanner.startOf tag as, p⟩ ::
          ((flushed (tag :: tags) (level + 1) true "" off').send (c :: cs)).2) := by
  obtain ⟨o1, o2, h1⟩ := feed_lead g level b off (tags.map String.toList)
    (tag.toList ++ attributesText as ++ ['>'])
  obtain ⟨o3, h2⟩ := Scanner.feed_startTag tag as o1 (tags.map String.toList) ht hn
  refine ⟨o3, o2, o3, ?_⟩
  -- The writer flushes first and then does what it would have done without a tag held back.
  have hrun : (held tag as tags level b g off).writer.run (c :: cs) =
      (((flushed (tag :: tags) (level + 1) true "" o3).writer.run (c :: cs)).1,
        (lead level b).toList ++ '<' :: (tag.toList ++ attributesText as ++ ['>']) ++
          ((flushed (tag :: tags) (level + 1) true "" o3).writer.run (c :: cs)).2) := by
    rcases hc with ⟨t, rfl⟩ | ⟨s, rfl⟩
    · simp [held, flushed, Writer.run, Writer.step, Writer.start, Writer.flush, Writer.lead, lead]
    · simp [held, flushed, Writer.run, Writer.step, Writer.addText, Writer.flush, Writer.lead, lead]
  simp only [Line.send, hrun]
  rw [Scanner.feed_append]
  simp only [held, h1, h2]
  simp [flushed, Scanner.gap_empty]

end Sent

/-! ## Elements -/

mutual

/-- All names in a tree can be written, and no attribute is given twice. -/
def Named : Markup → Prop
  | .mk tag attributes content =>
    IsName tag ∧ (∀ a ∈ attributes, IsName a.1) ∧ (attributes.map Prod.fst).Nodup ∧
      PartsNamed content

def PartsNamed : List Part → Prop
  | [] => True
  | .text _ :: rest => PartsNamed rest
  | .element m :: rest => Named m ∧ PartsNamed rest

end

theorem Spells.gap (g : String) (offset : Nat) :
    ∃ items, Spells (gapParts g) items (gapTokens g offset) := by
  unfold gapParts gapTokens
  split
  · exact ⟨[], .nil⟩
  · exact ⟨[.text (.ok g) offset], .text .nil⟩

theorem partsCommands_cons (p : Part) (ps : List Part) :
    ∃ c cs, partsCommands (p :: ps) = c :: cs ∧ ((∃ t, c = .start t) ∨ ∃ s, c = .text s) := by
  cases p with
  | text s => exact ⟨_, _, rfl, .inr ⟨s, rfl⟩⟩
  | element m =>
    cases m with
    | mk tag attributes content => exact ⟨_, _, rfl, .inl ⟨tag, rfl⟩⟩

mutual

/-- An element that is written is found by the scanner, with the character data before it. -/
theorem markup_sent (m : Markup) (hm : Named m) (tags : List String) (level : Nat) (b : Bool)
    (g : String) (off : Nat) :
    ∃ off' o e found, (flushed tags level b g off).send m.commands =
        (flushed tags level true "" off', gapTokens (g ++ lead level b) o ++ found) ∧
      Spells [.element (m.seen level)] [.element e] found := by
  match m, hm with
  | .mk tag as content, ⟨ht, hn, hd, hc⟩ =>
    have hopen : (flushed tags level b g off).send
        (.start tag :: as.map fun a => .attribute a.1 a.2) = (held tag as tags level b g off, []) :=
      send_cons (send_start tag tags level b g off) (send_attributes tag [] tags level b g off as)
    have hstart := Scanner.startOf_written tag as ht hn hd
    match content, hc with
    | [], _ =>
      obtain ⟨off', o, p, q, hstop⟩ := send_stop_held tag as tags level b g off ht hn
      have hsend := send_append hopen hstop
      rw [hstart] at hsend
      exact ⟨off', o, _, _, hsend, .element .nil .nil⟩
    | part :: parts, hc =>
      obtain ⟨c, cs, hcs, hfirst⟩ := partsCommands_cons part parts
      obtain ⟨o1, o, p, h1⟩ :=
        send_first tag as tags level b g off ht hn c hfirst (cs ++ [.stop])
      obtain ⟨off', items, found, stop, h2, h3⟩ :=
        parts_sent (part :: parts) hc tag ht tags level true "" o1
      rw [← List.cons_append, ← hcs, h2] at h1
      have hsend := send_append hopen h1
      rw [hstart] at hsend
      exact ⟨off', o, _, _, hsend, .element h3 .nil⟩
termination_by structural m

/-- The content of an element and its end tag are found likewise. -/
theorem parts_sent (parts : List Part) (hp : PartsNamed parts) (tag : String) (ht : IsName tag)
    (tags : List String) (level : Nat) (b : Bool) (g : String) (off : Nat) :
    ∃ off' items found stop,
      (flushed (tag :: tags) (level + 1) b g off).send (partsCommands parts ++ [.stop]) =
        (flushed tags level true "" off', found ++ [⟨.stop, stop⟩]) ∧
      Spells (partsSeen (level + 1) b g parts) items found := by
  match parts, hp with
  | [], _ =>
    obtain ⟨off', o, p, hstop⟩ := send_stop_flushed tag tags level b g off ht
    obtain ⟨items, hgap⟩ := Spells.gap (g ++ lead level b) o
    exact ⟨off', items, _, p, hstop, hgap⟩
  | .text s :: rest, hr =>
    obtain ⟨o1, h1⟩ := send_text (tag :: tags) (level + 1) b g off s
    obtain ⟨off', items, found, stop, h2, h3⟩ :=
      parts_sent rest hr tag ht tags level false (g ++ s) o1
    have hsend := send_cons h1 h2
    exact ⟨off', items, found, stop, hsend, h3⟩
  | .element m :: rest, ⟨hm, hr⟩ =>
    obtain ⟨o1, o, e, found1, h1, h2⟩ := markup_sent m hm (tag :: tags) (level + 1) b g off
    obtain ⟨off', items, found, stop, h3, h4⟩ := parts_sent rest hr tag ht tags level true "" o1
    obtain ⟨gapItems, hgap⟩ := Spells.gap (g ++ lead (level + 1) b) o
    have hsend := send_append h1 h3
    have hparts := hgap.append (h2.append h4)
    refine ⟨off', _, gapTokens (g ++ lead (level + 1) b) o ++ (found1 ++ found), stop, ?_, hparts⟩
    rw [partsCommands, List.append_assoc, hsend]
    simp only [List.append_assoc]
termination_by structural parts

end

/-! ## Documents -/

theorem head_written (w : Writer) (h : HeldTag) (hw : w.held = some h) (hb : w.breakLine = false)
    (cs : List Command) : ∃ rest, (w.run cs).2 ++ (w.run cs).1.close.toList = '<' :: rest := by
  obtain ⟨_, tags, level, _⟩ := w
  subst hw hb
  induction cs generalizing h with
  | nil =>
    refine ⟨h.tag.toList ++ h.attributes.toList ++ ['>', '\n'], ?_⟩
    simp [Writer.run, Writer.close, Writer.flush, Writer.lead]
  | cons c cs ih =>
    have hrun : ∀ w : Writer,
        (w.run (c :: cs)).2 = (w.step c).2.toList ++ ((w.step c).1.run cs).2 :=
      fun _ => rfl
    match c with
    | .attribute k v => exact ih _
    | .declaration | .start t | .text t | .stop | .textElement t s =>
      rw [hrun, List.append_assoc]
      simp [Writer.step, Writer.declaration, Writer.start, Writer.addText, Writer.stop,
        Writer.flush, Writer.lead]

theorem tokens_sent {cs : List Command} {l : Line} {found : List Located} {rest : List Char}
    (hhead : (write cs).toList = '<' :: rest)
    (hsend : (flushed [] 0 false "" 0).send cs = (l, found)) :
    tokens (write cs) = found ++ l.scanner.run (Writer.empty.run cs).1.close.toList := by
  obtain ⟨hline, hfound⟩ := Prod.mk.inj hsend
  have hmark : dropByteOrderMark (write cs).toList = (write cs).toList := by
    rw [hhead]
    rfl
  have h1 : (Scanner.feed ⟨.between, 0, []⟩ (Writer.empty.run cs).2).2 = found := hfound
  have h2 : (Scanner.feed ⟨.between, 0, []⟩ (Writer.empty.run cs).2).1 = l.scanner :=
    congrArg Line.scanner hline
  rw [tokens, hmark, toList_write, Scanner.run_append, h1, h2]

theorem tokens_written (m : Markup) (hm : Named m) :
    ∃ e found rest, tokens (write m.commands) = found ++ rest ∧
      Spells [.element (m.seen 0)] [.element e] found := by
  obtain ⟨off, o, e, found, hsend, hspells⟩ := markup_sent m hm [] 0 false "" 0
  obtain ⟨tag, as, content⟩ := m
  obtain ⟨rest, hhead⟩ := head_written ⟨some ⟨tag, ""⟩, [tag], 0, false⟩ ⟨tag, ""⟩ rfl rfl
    ((as.map fun a => .attribute a.1 a.2) ++ (partsCommands content ++ [.stop]))
  exact ⟨e, found, _, tokens_sent ((toList_write _).trans hhead) hsend, hspells⟩

/-- A declaration holds no token, but the next tag begins a line. -/
theorem send_declaration :
    (flushed [] 0 false "" 0).send [.declaration] = (flushed [] 0 true "" 38, []) := by
  rfl

theorem head_declared (cs : List Command) :
    ∃ rest, (write (.declaration :: cs)).toList = '<' :: rest := by
  rw [toList_write]
  exact ⟨_, rfl⟩

theorem tokens_declared (m : Markup) (hm : Named m) :
    ∃ offset e found rest,
      tokens (write (.declaration :: m.commands)) =
        gapTokens (lead 0 true) offset ++ found ++ rest ∧
      Spells [.element (m.seen 0)] [.element e] found := by
  obtain ⟨off, o, e, found, hsend, hspells⟩ := markup_sent m hm [] 0 true "" 38
  obtain ⟨rest, hhead⟩ := head_declared m.commands
  rw [String.empty_append] at hsend
  have htokens := tokens_sent hhead (send_cons send_declaration hsend)
  exact ⟨o, e, found, _, htokens, hspells⟩

/-- A start tag held back is the next thing to be found, whatever the content. -/
theorem held_sent (tag : String) (as : List (String × String)) (content : List Part)
    (tags : List String) (level : Nat) (b : Bool) (g : String) (off : Nat) (ht : IsName tag)
    (hn : ∀ a ∈ as, IsName a.1) :
    ∃ l o p more, (held tag as tags level b g off).send (partsCommands content ++ [.stop]) =
      (l, gapTokens (g ++ lead level b) o ++ ⟨Scanner.startOf tag as, p⟩ :: more) := by
  match content with
  | [] =>
    obtain ⟨_, o, p, q, hstop⟩ := send_stop_held tag as tags level b g off ht hn
    exact ⟨_, o, p, [⟨.stop, q⟩], hstop⟩
  | part :: parts =>
    obtain ⟨c, cs, hcs, hfirst⟩ := partsCommands_cons part parts
    obtain ⟨_, o, p, hsend⟩ := send_first tag as tags level b g off ht hn c hfirst (cs ++ [.stop])
    rw [hcs]
    exact ⟨_, o, p, _, hsend⟩

/-- The first tag of a document is found even if an attribute is given twice. -/
theorem tokens_root (tag : String) (as : List (String × String)) (content : List Part)
    (ht : IsName tag) (hn : ∀ a ∈ as, IsName a.1) :
    ∃ offset start rest, tokens (write (.declaration :: (mk tag as content).commands)) =
      gapTokens (lead 0 true) offset ++ ⟨Scanner.startOf tag as, start⟩ :: rest := by
  obtain ⟨_, hhead⟩ := head_declared (mk tag as content).commands
  have hopen := send_cons send_declaration
    (send_cons (send_start tag [] 0 true "" 38) (send_attributes tag [] [] 0 true "" 38 as))
  obtain ⟨l, o, p, more, hheld⟩ := held_sent tag as content [] 0 true "" 38 ht hn
  have htokens := tokens_sent hhead (send_append hopen hheld)
  rw [String.empty_append] at htokens
  simp only [List.nil_append, List.append_assoc, List.cons_append] at htokens
  exact ⟨o, p, _, htokens⟩

end FormCompiler.Xml
