import FormCompiler.Proofs.Xml.Transmission
import Mathlib.Data.List.Basic
import Mathlib.Data.List.TakeWhile

/-!
# Commands are read back

What commands call for is said without the writer: `spans` lists the tags in order, each with the
texts written since the tag before it, and an element gets the attributes added before its first
content.  `Transcript` says which tokens render such a list.  A writer and a scanner that are run
side by side are always at a `Stage` of it: one command takes them to the next stage and yields the
tokens for the tags that it completes (`Stage.step`), so a sequence of commands for one element
yields a transcript of them (`transcript_read`).
-/

namespace FormCompiler.Xml

open Markup (lead)

/-! ## What commands call for -/

/-- A tag: of the start of an element with its attributes, or of its end. -/
inductive Mark where
  | opening (tag : String) (attributes : List (String × String))
  | ending

/-- A tag and the texts written between the tag before it and this one. -/
structure Span where
  texts : List String
  mark : Mark

/-- The attributes added before anything else. -/
def addedFirst : List Command → List (String × String)
  | .attribute key value :: cs => (key, value) :: addedFirst cs
  | _ => []

/-- The tags that commands call for, where `texts` were written since the last one. -/
def spans (texts : List String) : List Command → List Span
  | [] => []
  | .start tag :: cs => ⟨texts, .opening tag (addedFirst cs)⟩ :: spans [] cs
  | .text content :: cs => spans (texts ++ [content]) cs
  | .stop :: cs => ⟨texts, .ending⟩ :: spans [] cs
  | .textElement tag content :: cs =>
    ⟨texts, .opening tag []⟩ :: ⟨[content], .ending⟩ :: spans [] cs
  | .attribute .. :: cs | .declaration :: cs => spans texts cs

/-- Whether commands close the elements that are open, of which there are `depth`, and end with the
last of them. -/
def balanced : Nat → List Command → Bool
  | 0, cs => cs.isEmpty
  | _ + 1, [] => false
  | depth + 1, c :: cs => match c with
    | .start _ => balanced (depth + 2) cs
    | .stop => balanced depth cs
    | .attribute .. | .text _ | .textElement .. => balanced (depth + 1) cs
    | .declaration => false

/-- Whether commands write one element. -/
def oneElement : List Command → Bool
  | .start _ :: cs => balanced 1 cs
  | [.textElement ..] => true
  | _ => false

/-- The names can be written, and no attribute is given twice. -/
def Mark.Valid : Mark → Prop
  | opening tag attributes =>
    IsName tag ∧ (∀ a ∈ attributes, IsName a.1) ∧ (attributes.map Prod.fst).Nodup
  | ending => True

instance : (mark : Mark) → Decidable mark.Valid
  | .opening .. => inferInstanceAs (Decidable (_ ∧ _ ∧ _))
  | .ending => inferInstanceAs (Decidable True)

/-! ## What is read -/

/-- The character data between two tags: the texts written there, or without any at most a line
break and an indentation. -/
def Between (texts : List String) (data : String) : Prop :=
  if texts = [] then data = "" ∨ ∃ n, data = String.ofList ('\n' :: List.replicate n ' ')
  else data = String.join texts

theorem between_absent : Between [] "" := .inl rfl

/-- The tokens for character data; there is none if it is empty. -/
def characterData (data : String) : List Token := if data = "" then [] else [.text (.ok data)]

/-- The token for a tag if names are reported by `named`; those of elements are so in lower case. -/
def Mark.token (named : String → String) : Mark → Token
  | opening tag attributes =>
    .start (Text.lowercase (named tag)) (.ok (attributes.map fun a => (named a.1, a.2)))
  | ending => .stop

/-- The tokens are those of the tags, with the character data that belongs between them. -/
inductive Transcript (named : String → String) : List Span → List Token → Prop
  | nil : Transcript named [] []
  | tag {texts : List String} {mark : Mark} {data : String} {rest : List Span} {found : List Token}
      (hdata : Between texts data) (hrest : Transcript named rest found) :
      Transcript named (⟨texts, mark⟩ :: rest) (characterData data ++ mark.token named :: found)

theorem Transcript.append {named : String → String} {spans spans' : List Span}
    {found found' : List Token} (h : Transcript named spans found)
    (h' : Transcript named spans' found') :
    Transcript named (spans ++ spans') (found ++ found') := by
  induction h with
  | nil => exact h'
  | tag hdata _ ih =>
    rw [List.append_assoc, List.cons_append, List.cons_append]
    exact .tag hdata ih

theorem map_gapTokens (g : String) (offset : Nat) :
    (gapTokens g offset).map Located.token = characterData g := by
  rw [gapTokens, characterData]
  split
  · rfl
  · rfl

/-! ## Names -/

/-- A name without its prefix: what follows its first colon, if it has one. -/
def unprefixed (name : String) : String :=
  if ':' ∈ name.toList then String.ofList (name.toList.drop (name.toList.idxOf ':' + 1)) else name

theorem dropWhile_colon (cs : List Char) (h : ':' ∈ cs) :
    cs.dropWhile (· != ':') = ':' :: cs.drop (cs.idxOf ':' + 1) := by
  induction cs with
  | nil => simp at h
  | cons c cs ih =>
    by_cases hc : c = ':'
    · subst hc
      simp
    · have hmem : ':' ∈ cs := (List.mem_cons.mp h).resolve_left (Ne.symm hc)
      have hindex : (c :: cs).idxOf ':' = cs.idxOf ':' + 1 := List.idxOf_cons_ne cs hc
      rw [List.dropWhile_cons, if_pos (bne_iff_ne.mpr hc), ih hmem, hindex, List.drop_succ_cons]

theorem ofList_localName (name : String) :
    String.ofList (localName name.toList) = unprefixed name := by
  rw [unprefixed]
  split
  · rename_i h
    rw [localName, dropWhile_colon _ h]
  · rename_i h
    have hdrop : name.toList.dropWhile (· != ':') = [] := by
      rw [List.dropWhile_eq_nil_iff]
      intro c hc
      exact bne_iff_ne.mpr fun heq => h (heq ▸ hc)
    rw [localName, hdrop, String.ofList_toList]

theorem startOf_eq_token (tag : String) (as : List (String × String))
    (h : (Mark.opening tag as).Valid) :
    Scanner.startOf tag as = (Mark.opening tag as).token unprefixed := by
  obtain ⟨ht, hn, hd⟩ := h
  have hreported : as.map reported = as.map fun a => (unprefixed a.1, a.2) :=
    List.map_congr_left fun a _ => by rw [reported, ofList_localName]
  rw [Scanner.startOf_written tag as ht hn hd, reportedTag, ofList_localName, hreported]
  rfl

/-! ## Character data that is still to be found -/

/-- The character data since the last tag is that of the texts, and the next tag does not begin a
line if there are any. -/
structure Pending (texts : List String) (breakLine : Bool) (g : String) : Prop where
  data : g = String.join texts
  quiet : texts ≠ [] → breakLine = false

theorem pending_nil (b : Bool) : Pending [] b "" := ⟨rfl, fun h => absurd rfl h⟩

theorem join_concat (texts : List String) (s : String) :
    String.join (texts ++ [s]) = String.join texts ++ s := by
  apply String.toList_inj.mp
  simp

theorem Pending.text {texts : List String} {b : Bool} {g : String} (h : Pending texts b g)
    (s : String) : Pending (texts ++ [s]) false (g ++ s) :=
  ⟨by rw [h.data, join_concat], fun _ => rfl⟩

/-- No indentation touches a text. -/
theorem Pending.between {texts : List String} {b : Bool} {g : String} (h : Pending texts b g)
    (level : Nat) : Between texts (g ++ lead level b) := by
  obtain ⟨rfl, hquiet⟩ := h
  rw [Between]
  split
  · rename_i htexts
    subst htexts
    cases b with
    | false => exact .inl rfl
    | true => exact .inr ⟨level, by rw [lead, if_pos rfl]; exact String.empty_append⟩
  · rename_i htexts
    rw [hquiet htexts]
    exact String.append_empty

/-! ## Stages -/

/-- Where a writer and a scanner stand between two commands: the number of open elements, and the
tags that further commands are still to yield.  A start tag held back is among these. -/
inductive Stage : Line → Nat → (List Command → List Span) → Prop
  | flushed {tags texts : List String} {b : Bool} {g : String} {off : Nat}
      (hnames : ∀ tag ∈ tags, IsName tag) (hpending : Pending texts b g)
      (htop : tags = [] → texts = []) :
      Stage (flushed tags tags.length b g off) tags.length (spans texts)
  | held {tag : String} {as : List (String × String)} {tags texts : List String} {b : Bool}
      {g : String} {off : Nat} (hnames : ∀ tag ∈ tags, IsName tag) (hpending : Pending texts b g) :
      Stage (held tag as tags tags.length b g off) (tags.length + 1)
        fun cs => ⟨texts, .opening tag (as ++ addedFirst cs)⟩ :: spans [] cs

/-- A command takes the writer and the scanner to a further stage, and the tokens found meanwhile
are those of the first tags that were to come. -/
def Advances (l : Line) (depth : Nat) (expected : List Command → List Span) (c : Command)
    (cs : List Command) : Prop :=
  ∃ l' found depth' expected' now, l.send [c] = (l', found) ∧ Stage l' depth' expected' ∧
    balanced depth (c :: cs) = balanced depth' cs ∧ expected (c :: cs) = now ++ expected' cs ∧
      Transcript unprefixed now (found.map Located.token)

/-- A text element is a start, a text unless it is empty, and a stop. -/
theorem run_textElement (w : Writer) (tag content : String) :
    w.run [.textElement tag content] =
      w.run (.start tag :: if content = "" then [.stop] else [.text content, .stop]) := by
  by_cases h : content = ""
  · subst h
    simp [Writer.run, Writer.step]
  · have hfilled : content.isEmpty = false := by simpa using h
    simp [Writer.run, Writer.step, h, hfilled]

theorem send_split (l : Line) (tag content : String) :
    l.send [.textElement tag content] =
      l.send (.start tag :: if content = "" then [.stop] else [.text content, .stop]) := by
  simp only [Line.send, run_textElement]

theorem send_textElement {tag : String} (content : String) (hopening : (Mark.opening tag []).Valid)
    {texts : List String} {b : Bool} {g : String} (hpending : Pending texts b g)
    (tags : List String) (level off : Nat) :
    ∃ off' found, (flushed tags level b g off).send [.textElement tag content] =
        (flushed tags level true "" off', found) ∧
      Transcript unprefixed [⟨texts, .opening tag []⟩, ⟨[content], .ending⟩]
        (found.map Located.token) := by
  have hopen := send_start tag tags level b g off
  have hread (o p q r : Nat) : Transcript unprefixed
      [⟨texts, .opening tag []⟩, ⟨[content], .ending⟩]
      (List.map Located.token (gapTokens (g ++ lead level b) o ++ ⟨Scanner.startOf tag [], p⟩ ::
        (gapTokens content q ++ [⟨.stop, r⟩]))) := by
    rw [List.map_append, List.map_cons, List.map_append, map_gapTokens, map_gapTokens,
      startOf_eq_token tag [] hopening]
    exact .tag (hpending.between level) (.tag (join_concat [] content).symm .nil)
  rw [send_split]
  split
  · rename_i hcontent
    obtain ⟨off', o, p, q, hstop⟩ :=
      send_stop_held tag [] tags level b g off hopening.1 hopening.2.1
    have hfound := hread o p q q
    rw [hcontent] at hfound ⊢
    exact ⟨off', _, send_cons hopen hstop, hfound⟩
  · obtain ⟨o1, o, p, hfirst⟩ := send_first tag [] tags level b g off hopening.1 hopening.2.1
      (.text content) (.inr ⟨content, rfl⟩) [.stop]
    obtain ⟨o2, htext⟩ := send_text (tag :: tags) (level + 1) true "" o1 content
    obtain ⟨off', q, r, hstop⟩ :=
      send_stop_flushed tag tags level false ("" ++ content) o2 hopening.1
    have hdata : "" ++ content ++ lead level false = content := by simp [lead]
    rw [send_cons htext hstop, hdata] at hfirst
    exact ⟨off', _, send_cons hopen hfirst, hread o p q r⟩

/-! ## One command -/

section Command

variable (tags : List String) {texts : List String} {b : Bool} {g : String} (off : Nat)

theorem advances_flushed {tag : String} (hnames : ∀ t ∈ tag :: tags, IsName t)
    (hpending : Pending texts b g) (c : Command) (cs : List Command)
    (hbalanced : balanced (tags.length + 1) (c :: cs) = true)
    (hvalid : ∀ span ∈ spans texts (c :: cs), span.mark.Valid) :
    Advances (flushed (tag :: tags) (tags.length + 1) b g off) (tags.length + 1) (spans texts)
      c cs := by
  have hbetween := hpending.between
  match c, hbalanced, hvalid with
  | .start t, _, _ =>
    exact ⟨_, [], _, _, [], send_start t _ _ b g off, .held hnames hpending, rfl, rfl, .nil⟩
  | .attribute key value, _, _ =>
    have hsend : (flushed (tag :: tags) (tags.length + 1) b g off).send [.attribute key value] =
        (flushed (tag :: tags) (tags.length + 1) b g off, []) := rfl
    exact ⟨_, [], _, _, [], hsend, .flushed hnames hpending (by simp), rfl, rfl, .nil⟩
  | .text content, _, _ =>
    obtain ⟨off', hsend⟩ := send_text (tag :: tags) (tags.length + 1) b g off content
    exact ⟨_, [], _, _, [], hsend, .flushed hnames (hpending.text content) (by simp), rfl, rfl,
      .nil⟩
  | .stop, _, _ =>
    obtain ⟨ht, htags⟩ := List.forall_mem_cons.mp hnames
    obtain ⟨off', o, p, hsend⟩ := send_stop_flushed tag tags tags.length b g off ht
    refine ⟨_, _, _, _, [⟨texts, .ending⟩], hsend, .flushed htags (pending_nil true) (fun _ => rfl),
      rfl, rfl, ?_⟩
    rw [List.map_append, map_gapTokens]
    exact .tag (hbetween tags.length) .nil
  | .textElement t content, _, hvalid =>
    obtain ⟨off', found, hsend, hread⟩ := send_textElement content
      (hvalid _ (List.mem_cons_self ..)) hpending (tag :: tags) (tags.length + 1) off
    exact ⟨_, found, _, _, [⟨texts, .opening t []⟩, ⟨[content], .ending⟩], hsend,
      .flushed hnames (pending_nil true) (by simp), rfl, rfl, hread⟩

/-- A text, or an element. -/
def Command.isContent : Command → Bool
  | .start _ | .text _ | .textElement .. => true
  | _ => false

variable {tag : String} {as : List (String × String)}

/-- The start tag held back is written before the first content, which then stands as it would
without a tag held back. -/
theorem send_content (b : Bool) (g : String) (ht : IsName tag) (hn : ∀ a ∈ as, IsName a.1)
    {c : Command} (hc : c.isContent = true) (level : Nat) :
    ∃ off' o p, (held tag as tags level b g off).send [c] =
      (((flushed (tag :: tags) (level + 1) true "" off').send [c]).1,
        gapTokens (g ++ lead level b) o ++ ⟨Scanner.startOf tag as, p⟩ ::
          ((flushed (tag :: tags) (level + 1) true "" off').send [c]).2) := by
  match c, hc with
  | .start t, _ => exact send_first tag as tags level b g off ht hn (.start t) (.inl ⟨t, rfl⟩) []
  | .text content, _ =>
    exact send_first tag as tags level b g off ht hn (.text content) (.inr ⟨content, rfl⟩) []
  | .textElement t content, _ =>
    simp only [send_split]
    exact send_first tag as tags level b g off ht hn (.start t) (.inl ⟨t, rfl⟩) _

theorem addedFirst_content {c : Command} (hc : c.isContent = true) (cs : List Command) :
    addedFirst (c :: cs) = [] := by
  match c, hc with
  | .start _, _ | .text _, _ | .textElement .., _ => rfl

theorem advances_held (hnames : ∀ t ∈ tags, IsName t) (hpending : Pending texts b g) (c : Command)
    (cs : List Command) (hbalanced : balanced (tags.length + 1) (c :: cs) = true)
    (hopening : (Mark.opening tag (as ++ addedFirst (c :: cs))).Valid)
    (hinside : ∀ span ∈ spans [] (c :: cs), span.mark.Valid) :
    Advances (held tag as tags tags.length b g off) (tags.length + 1)
      (fun cs => ⟨texts, .opening tag (as ++ addedFirst cs)⟩ :: spans [] cs) c cs := by
  have hbetween := hpending.between
  by_cases hcontent : c.isContent = true
  · have hadded : as ++ addedFirst (c :: cs) = as := by
      rw [addedFirst_content hcontent, List.append_nil]
    rw [hadded] at hopening
    have htag : ∀ t ∈ tag :: tags, IsName t := List.forall_mem_cons.mpr ⟨hopening.1, hnames⟩
    obtain ⟨off', o, p, hsend⟩ :=
      send_content tags off b g hopening.1 hopening.2.1 hcontent tags.length
    obtain ⟨l', found, depth', expected', now, hnext, hstage, hrest, hsplit, hread⟩ :=
      advances_flushed tags off' htag (pending_nil true) c cs hbalanced hinside
    rw [hnext] at hsend
    refine ⟨l', _, depth', expected', ⟨texts, .opening tag as⟩ :: now, hsend, hstage, hrest, ?_, ?_⟩
    · simp only [hadded, hsplit, List.cons_append]
    · rw [List.map_append, List.map_cons, map_gapTokens, startOf_eq_token tag as hopening]
      exact .tag (hbetween tags.length) hread
  · match c, hbalanced, hopening with
    | .attribute key value, _, _ =>
      refine ⟨_, [], _, _, [], send_attribute tag as tags tags.length b g off key value,
        .held hnames hpending, rfl, ?_, .nil⟩
      simp only [addedFirst, spans, List.append_assoc, List.singleton_append, List.nil_append]
    | .stop, _, hopening =>
      simp only [addedFirst, List.append_nil] at hopening
      obtain ⟨off', o, p, q, hsend⟩ :=
        send_stop_held tag as tags tags.length b g off hopening.1 hopening.2.1
      refine ⟨_, _, _, _, [⟨texts, .opening tag as⟩, ⟨[], .ending⟩], hsend,
        .flushed hnames (pending_nil true) (fun _ => rfl), rfl, ?_, ?_⟩
      · simp only [addedFirst, spans, List.append_nil, List.cons_append, List.nil_append]
      · rw [List.map_append, map_gapTokens, List.map_cons, startOf_eq_token tag as hopening]
        exact .tag (hbetween tags.length) (.tag between_absent .nil)
    | .start _, _, _ | .text _, _, _ | .textElement .., _, _ => exact absurd rfl hcontent

end Command

/-- One command takes a writer and a scanner from stage to stage. -/
theorem Stage.step {l : Line} {depth : Nat} {expected : List Command → List Span}
    (h : Stage l depth expected) (c : Command) (cs : List Command)
    (hbalanced : balanced depth (c :: cs) = true)
    (hvalid : ∀ span ∈ expected (c :: cs), span.mark.Valid) :
    Advances l depth expected c cs := by
  cases h with
  | @flushed tags _ _ _ off hnames hpending _ =>
    cases tags with
    | nil => cases hbalanced
    | cons tag tags => exact advances_flushed tags off hnames hpending c cs hbalanced hvalid
  | @held tag _ tags _ _ _ off hnames hpending =>
    obtain ⟨hopening, hinside⟩ := List.forall_mem_cons.mp hvalid
    exact advances_held tags off hnames hpending c cs hbalanced hopening hinside

/-! ## Documents -/

/-- Commands that close all elements yield the tags that were to come, by induction on them. -/
theorem Stage.run {l : Line} {depth : Nat} {expected : List Command → List Span}
    (h : Stage l depth expected) (cs : List Command) (hbalanced : balanced depth cs = true)
    (hvalid : ∀ span ∈ expected cs, span.mark.Valid) :
    ∃ b off found, l.send cs = (Xml.flushed [] 0 b "" off, found) ∧
      Transcript unprefixed (expected cs) (found.map Located.token) := by
  induction cs generalizing l depth expected with
  | nil =>
    cases h with
    | @flushed tags _ b g off _ hpending htop =>
      cases tags with
      | nil =>
        obtain rfl := htop rfl
        obtain rfl : g = "" := hpending.data
        exact ⟨b, off, [], rfl, .nil⟩
      | cons _ _ => cases hbalanced
    | held _ _ => cases hbalanced
  | cons c cs ih =>
    obtain ⟨l', found, depth', expected', now, hsend, hstage, hrest, hsplit, hread⟩ :=
      h.step c cs hbalanced hvalid
    rw [hrest] at hbalanced
    rw [hsplit] at hvalid ⊢
    obtain ⟨b, off, more, hmore, hreadMore⟩ :=
      ih hstage hbalanced (List.forall_mem_append.mp hvalid).2
    refine ⟨b, off, found ++ more, send_cons hsend hmore, ?_⟩
    rw [List.map_append]
    exact hread.append hreadMore

/-- The document that commands write is read without a fault, and as what they call for, if names
are reported by `named`.  A line break ends it. -/
def ReadBack (named : String → String) (commands : List Command) : Prop :=
  ∃ found, (tokens (write commands)).map Located.token = found ++ [.text (.ok "\n"), .finish] ∧
    Transcript named (spans [] commands) found

/-- Nothing but a line break follows the last tag. -/
theorem readBack_of_sent {commands : List Command} {rest : List Char} {b : Bool} {off : Nat}
    {found : List Located} (hhead : (write commands).toList = '<' :: rest)
    (hsend : (flushed [] 0 false "" 0).send commands = (flushed [] 0 b "" off, found))
    (hread : Transcript unprefixed (spans [] commands) (found.map Located.token)) :
    ReadBack unprefixed commands := by
  have hwriter : (Writer.empty.run commands).1 = ⟨none, [], 0, b⟩ :=
    congrArg (fun r => r.1.writer) hsend
  have hclose : (Writer.close ⟨none, [], 0, b⟩).toList = ['\n'] := by
    simp [Writer.close, Writer.flush]
  have hlast : (flushed [] 0 b "" off).scanner.run ['\n'] =
      [⟨.text (.ok "\n"), off⟩, ⟨.finish, off + 1⟩] := rfl
  refine ⟨found.map Located.token, ?_, hread⟩
  rw [tokens_sent hhead hsend, hwriter, hclose, hlast, List.map_append]
  rfl

/-- Commands that write one element, with names that can be written, no attribute twice in a start
tag, and any texts and values, are read back: the same tags in the same order, each element with the
attributes added before its first content, in order and with their values, and between two tags the
texts written there, or without any at most a line break and an indentation.  The names lose their
prefixes, and those of elements are in lower case. -/
theorem transcript_read (commands : List Command) (hone : oneElement commands = true)
    (hvalid : ∀ span ∈ spans [] commands, span.mark.Valid) : ReadBack unprefixed commands := by
  match commands, hone, hvalid with
  | .start tag :: cs, hbalanced, hvalid =>
    have hstage : Stage (held tag [] [] 0 false "" 0) 1 fun cs =>
        ⟨[], .opening tag ([] ++ addedFirst cs)⟩ :: spans [] cs :=
      .held (by simp) (pending_nil false)
    obtain ⟨b, off, found, hsend, hread⟩ := hstage.run cs hbalanced hvalid
    obtain ⟨rest, hhead⟩ :=
      head_written ⟨some ⟨tag, ""⟩, [tag], 0, false⟩ ⟨tag, ""⟩ rfl rfl cs
    exact readBack_of_sent ((toList_write _).trans hhead)
      (send_cons (send_start tag [] 0 false "" 0) hsend) hread
  | [.textElement tag content], _, hvalid =>
    obtain ⟨off, found, hsend, hread⟩ := send_textElement content
      (hvalid _ (List.mem_cons_self ..)) (pending_nil false) [] 0 0
    obtain ⟨rest, hhead⟩ := head_written ⟨some ⟨tag, ""⟩, [tag], 0, false⟩ ⟨tag, ""⟩ rfl rfl
      (if content = "" then [.stop] else [.text content, .stop])
    have htext : (write [.textElement tag content]).toList = '<' :: rest := by
      rw [toList_write, run_textElement]
      exact hhead
    exact readBack_of_sent htext hsend hread

/-- Attributes before and behind the first content, texts next to tags, and an empty element. -/
theorem transcript_read_mixed :
    let commands : List Command := [.start "a", .attribute "k" "v\"", .start "b", .stop,
      .attribute "k" "late", .textElement "c" "x<y", .text "t", .text "\n u", .stop]
    oneElement commands = true ∧ (∀ span ∈ spans [] commands, span.mark.Valid) ∧
      ReadBack unprefixed commands := by
  intro commands
  have hone : oneElement commands = true := rfl
  have hvalid : ∀ span ∈ spans [] commands, span.mark.Valid := by decide
  exact ⟨hone, hvalid, transcript_read commands hone hvalid⟩

/-- The name in a start tag. -/
def Token.tag? : Token → Option String
  | .start tag _ => some tag
  | _ => none

/-- A name with a prefix is not read as it was written. -/
theorem prefixed_not_read :
    let commands : List Command := [.start "x:a", .attribute "xmlns:x" "urn:x", .stop]
    oneElement commands = true ∧ (∀ span ∈ spans [] commands, span.mark.Valid) ∧
      ¬ ReadBack id commands := by
  intro commands
  refine ⟨rfl, by decide, ?_⟩
  rintro ⟨found, htokens, htranscript⟩
  have htags : ((tokens (write commands)).map Located.token).filterMap Token.tag? = ["a"] := by
    decide +kernel
  rw [htokens] at htags
  cases htranscript with
  | tag hdata hrest =>
    have hmem : Text.lowercase "x:a" ∈ ["a"] := by
      rw [← htags]
      simp [Mark.token, Token.tag?]
    exact absurd hmem (by decide +kernel)

end FormCompiler.Xml
