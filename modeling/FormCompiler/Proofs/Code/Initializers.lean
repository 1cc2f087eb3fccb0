import FormCompiler.Hex
import FormCompiler.Proofs.Code.Literals

/-!
# Reading the initializer of an array of strings

What a compiler makes of the text behind the opening brace of an array of strings: literals with
commas between them, adjacent literals put together, comments and white space skipped.  The reading
of a text is a list of marks, one where a string begins and one for each of its bytes.

A literal is broken into two adjacent ones by a quote, a line feed and a quote.  Whether the text
still reads the same depends on where the reader stands at the break: inside a literal, and not in
the middle of an escape, nothing changes (`read_withBreaks`), and with a break at almost any other
place the text cannot be read or stands for more bytes (`absorbs_of_read_withBreaks`).
-/

namespace FormCompiler.Code.Initializer

/-! ## The rules -/

/-- What stands before a place between literals: nothing, a literal, a comma, the closing brace, or
the semicolon behind it. -/
inductive Gap where
  | start
  | behind
  | comma
  | closed
  | finished
  deriving DecidableEq

inductive Mark where
  | row
  | byte (b : UInt8)
  deriving DecidableEq

/-- Where a reader stands: between literals, in a comment (after the slash that may begin one, in
one up to the end of the line, in one up to a star and a slash, after a star in it), or in a literal
(inside it, after a backslash, in an escape of which it has read some digits). -/
inductive Reader where
  | gap (g : Gap)
  | slash (g : Gap)
  | line (g : Gap)
  | block (g : Gap)
  | star (g : Gap)
  | inside
  | escape
  | octal (count value : Nat)
  | hex (value? : Option Nat)
  | universal (left value : Nat)
  deriving DecidableEq

/-- The marks at the opening quote of a literal: a literal behind another one continues it. -/
def Gap.opening : Gap → Option (List Mark)
  | start | comma => some [.row]
  | behind => some []
  | closed | finished => none

def Gap.next? : Gap → Char → Option Gap
  | behind, ',' => some comma
  | start, '\x7d' | behind, '\x7d' | comma, '\x7d' => some closed
  | closed, ';' => some finished
  | _, _ => none

def charMarks (c : Char) : List Mark := (String.utf8EncodeChar c).map .byte

namespace Reader

/-- A character inside a literal. -/
def plain (c : Char) : Option (List Mark × Reader) :=
  if c = '"' then some ([], gap .behind)
  else if c = '\\' then some ([], escape)
  else if c = '\n' ∨ c = '\r' then none
  else some (charMarks c, inside)

/-- The first character behind the digits of an escape. -/
def leave (value : Nat) (c : Char) : Option (List Mark × Reader) :=
  if value < 256 then (plain c).map fun r => (.byte (UInt8.ofNat value) :: r.1, r.2) else none

/-- Whether a character is one more digit of the escape that a reader is in. -/
def continues : Reader → Char → Bool
  | octal count _, c => count < 3 && (octalDigit? c).isSome
  | hex _, c => (Hex.digit? c).isSome
  | _, _ => false

def step : Reader → Char → Option (List Mark × Reader)
  | gap g, c =>
    if c = '"' then g.opening.map fun marks => (marks, inside)
    else if c = '/' then some ([], slash g)
    else if isSpace c || c = '\r' then some ([], gap g)
    else (g.next? c).map fun g => ([], gap g)
  | slash g, c =>
    if c = '/' then some ([], line g) else if c = '*' then some ([], block g) else none
  -- A backslash could join two lines where that matters, so it is not read there.
  | line g, c =>
    if c = '\n' then some ([], gap g) else if c = '\\' then none else some ([], line g)
  | block g, c => some ([], if c = '*' then star g else block g)
  | star g, c =>
    if c = '/' then some ([], gap g) else if c = '\\' then none
    else some ([], if c = '*' then star g else block g)
  | inside, c => plain c
  | escape, c =>
    if c = 'x' then some ([], hex none)
    else if c = 'u' then some ([], universal 4 0)
    else if c = 'U' then some ([], universal 8 0)
    else match octalDigit? c with
      | some d => some ([], octal 1 d)
      | none => (simpleEscape? c).map fun b => ([.byte b], inside)
  | octal count value, c =>
    if (octal count value).continues c then
      some ([], octal (count + 1) (8 * value + (octalDigit? c).getD 0))
    else leave value c
  | hex value?, c =>
    if (hex value?).continues c then
      some ([], hex (some (16 * value?.getD 0 + (Hex.digit? c).getD 0)))
    else value?.bind fun value => leave value c
  | universal left value, c => (Hex.digit? c).bind fun d =>
    let value := 16 * value + d
    if 1 < left then some ([], universal (left - 1) value)
    else if value.isValidChar then some (charMarks (Char.ofNat value), inside)
    else none

/-- The marks of a text that ends behind the array. -/
def read : Reader → List Char → Option (List Mark)
  | q, [] => if q = gap .finished then some [] else none
  | q, c :: cs => (q.step c).bind fun r => (r.2.read cs).map (r.1 ++ ·)

end Reader

def marks (values : List (List UInt8)) : List Mark :=
  values.flatMap fun value => .row :: value.map .byte

/-- A text is the rest of the declaration of an array of these strings. -/
def Initializes (text : List Char) (values : List (List UInt8)) : Prop :=
  (Reader.gap .start).read text = some (marks values)

/-! ## Breaks -/

/-- What ends a literal and begins the next one on a new line. -/
def rowBreak : List Char := ['"', '\n', '"']

/-- A text in which a break follows the characters that are marked. -/
def withBreaks (text : List (Char × Bool)) : List Char :=
  text.flatMap fun p => p.1 :: if p.2 then rowBreak else []

/-- A condition on every break of a text: on where the reader of the text without the breaks stands
at it, and on the character that follows. -/
def everyBreak (P : Reader → Char → Bool) : Reader → List (Char × Bool) → Bool
  | _, [] => true
  | q, p :: rest => match q.step p.1 with
    | some (_, next) => (!p.2 || rest.head?.any fun follower => P next follower.1) &&
      everyBreak P next rest
    | none => true

namespace Reader

/-- Whether a break changes nothing: in a literal outside the escapes, behind the last digit of an
escape, and in a comment that goes on behind it. -/
def absorbs : Reader → Char → Bool
  | inside, _ | block _, _ => true
  | star _, c => c != '/'
  | octal count value, c => !(octal count value).continues c
  | hex (some value), c => !(hex (some value)).continues c
  | _, _ => false

/-- Whether what a break changes depends on more than the next character: it ends a comment that
goes to the end of the line, or undoes the end of another one. -/
def unsettled : Reader → Char → Bool
  | line _, _ => true
  | star _, c => c == '/'
  | _, _ => false

/-- Whether a character leaves the quotes to the literals and has no part in an escape. -/
def admits : Reader → Char → Bool
  | gap _, _ => true
  | inside, c => c != '\\'
  | _, c => c != '"'

/-- Whether the quotes of a text are those around its literals, and the literals have no escapes. -/
def tame : Reader → List Char → Bool
  | _, [] => true
  | q, c :: cs => q.admits c && match q.step c with
    | some (_, next) => next.tame cs
    | none => true

end Reader

/-! ## Steps -/

namespace Reader

theorem read_cons_eq_some {q : Reader} {c : Char} {cs : List Char} {m : List Mark} :
    q.read (c :: cs) = some m ↔
      ∃ out next m', q.step c = some (out, next) ∧ next.read cs = some m' ∧ m = out ++ m' := by
  simp only [read, Option.bind_eq_some_iff, Option.map_eq_some_iff, Prod.exists]
  constructor
  · rintro ⟨out, next, hstep, m', hread, rfl⟩
    exact ⟨out, next, m', hstep, hread, rfl⟩
  · rintro ⟨out, next, m', hstep, hread, rfl⟩
    exact ⟨out, next, hstep, m', hread, rfl⟩

/-- The value of an escape that may end where the reader stands. -/
def pending? : Reader → Option Nat
  | octal _ value => some value
  | hex value? => value?
  | _ => none

theorem step_of_not_continues {q : Reader} {value : Nat} {c : Char}
    (hvalue : q.pending? = some value) (hc : q.continues c = false) :
    q.step c = leave value c := by
  cases q with
  | octal count v =>
    obtain rfl : v = value := Option.some.inj hvalue
    rw [step, if_neg (by simp [hc])]
  | hex v =>
    obtain rfl : v = some value := hvalue
    rw [step, if_neg (by simp [hc])]
    rfl
  | _ => simp [pending?] at hvalue

theorem step_of_continues {q : Reader} {c : Char} (hc : q.continues c = true) :
    ∃ next, q.step c = some ([], next) ∧ next.pending?.isSome := by
  cases q with
  | octal count v => exact ⟨_, by rw [step, if_pos hc], rfl⟩
  | hex v => exact ⟨_, by rw [step, if_pos hc], rfl⟩
  | _ => simp [continues] at hc

theorem plain_of_continues {q : Reader} {c : Char} (hc : q.continues c = true) :
    plain c = some (charMarks c, inside) := by
  have hne (d : Char) (hoctal : octalDigit? d = none) (hhex : Hex.digit? d = none) : c ≠ d := by
    rintro rfl
    cases q <;> simp [continues, hoctal, hhex] at hc
  rw [plain, if_neg (hne '"' (by decide) (by decide)), if_neg (hne '\\' (by decide) (by decide)),
    if_neg (not_or.mpr ⟨hne '\n' (by decide) (by decide), hne '\r' (by decide) (by decide)⟩)]

theorem length_charMarks_pos (c : Char) : 0 < (charMarks c).length := by
  rw [charMarks, List.length_map, String.length_utf8EncodeChar]
  exact c.utf8Size_pos

/-! ## Breaks that change nothing -/

theorem read_leave {value : Nat} (hvalue : value < 256) (q : Reader) (c : Char) (cs : List Char)
    (hstep : q.step c = leave value c) :
    q.read (c :: cs) = (inside.read (c :: cs)).map (.byte (UInt8.ofNat value) :: ·) := by
  rw [read, read, hstep, leave, if_pos hvalue, step]
  cases plain c <;> simp [Function.comp_def]

theorem read_silent {q next : Reader} {c : Char} (hstep : q.step c = some ([], next))
    (cs : List Char) : q.read (c :: cs) = next.read cs := by
  rw [read, hstep]
  cases h : next.read cs <;> simp [h]

theorem read_inside_rowBreak (cs : List Char) : inside.read (rowBreak ++ cs) = inside.read cs := by
  have hclose : inside.step '"' = some ([], gap .behind) := by decide
  have hline : (gap .behind).step '\n' = some ([], gap .behind) := by decide
  have hopen : (gap .behind).step '"' = some ([], inside) := by decide
  exact (read_silent hclose _).trans ((read_silent hline _).trans (read_silent hopen cs))

theorem step_block {g : Gap} {c : Char} (hc : c ≠ '*') :
    (block g).step c = some ([], block g) := by
  rw [step, if_neg hc]

theorem read_block_rowBreak (g : Gap) (cs : List Char) :
    (block g).read (rowBreak ++ cs) = (block g).read cs :=
  (read_silent (step_block (by decide)) _).trans
    ((read_silent (step_block (by decide)) _).trans (read_silent (step_block (by decide)) cs))

theorem read_star_rowBreak (g : Gap) (cs : List Char) :
    (star g).read (rowBreak ++ cs) = (block g).read cs := by
  rw [← read_block_rowBreak g cs, rowBreak, List.cons_append, read, read,
    show (star g).step '"' = (block g).step '"' from rfl]

theorem continues_quote (q : Reader) : q.continues '"' = false := by
  have hquote : octalDigit? '"' = none ∧ Hex.digit? '"' = none := by decide
  cases q <;> simp [continues, hquote]

theorem read_pending_rowBreak {q : Reader} {value : Nat} (hvalue : q.pending? = some value)
    (cs : List Char) :
    q.read (rowBreak ++ cs) =
      if value < 256 then (inside.read cs).map (.byte (UInt8.ofNat value) :: ·) else none := by
  have hstep := step_of_not_continues hvalue (continues_quote q)
  split
  next hlt => rw [← read_inside_rowBreak cs]; exact read_leave hlt q _ _ hstep
  next hge => simp [rowBreak, read, hstep, leave, hge]

theorem absorbs_pending {q : Reader} {value : Nat} (hvalue : q.pending? = some value) (c : Char) :
    q.absorbs c = !q.continues c := by
  cases q with
  | octal count v => rfl
  | hex v =>
    obtain rfl : v = some value := hvalue
    rfl
  | _ => simp [pending?] at hvalue

/-- Behind the star of a comment that goes on, the reader might as well not have seen the star. -/
theorem step_star {g : Gap} {c : Char} (hstep : ((star g).step c).isSome) (hc : c ≠ '/') :
    (star g).step c = (block g).step c := by
  have hbackslash : c ≠ '\\' := by
    rintro rfl
    simp [step] at hstep
  simp [step, hc, hbackslash]

theorem read_absorbs {q : Reader} {c : Char} {cs : List Char} {m : List Mark}
    (hq : q.absorbs c = true) (hread : q.read (c :: cs) = some m) :
    q.read (rowBreak ++ c :: cs) = some m := by
  obtain ⟨out, next, m', hstep, -, -⟩ := read_cons_eq_some.mp hread
  cases hvalue : q.pending? with
  | some value =>
    have hc : q.continues c = false := by
      rw [absorbs_pending hvalue] at hq
      simpa using hq
    have hleave := step_of_not_continues hvalue hc
    have hlt : value < 256 := by
      rw [hleave, leave] at hstep
      split at hstep
      · assumption
      · cases hstep
    rw [read_pending_rowBreak hvalue, if_pos hlt, ← read_leave hlt q c cs hleave, hread]
  | none =>
    cases q with
    | inside => rw [read_inside_rowBreak, hread]
    | block g => rw [read_block_rowBreak, hread]
    | star g =>
      have heq := step_star (by rw [hstep]; rfl) (by simpa [absorbs] using hq)
      rw [read_star_rowBreak, ← hread, read, read, heq]
    | hex v =>
      obtain rfl : v = none := hvalue
      simp [absorbs] at hq
    | _ => simp [absorbs, pending?] at hq hvalue

end Reader

open Reader

theorem withBreaks_cons (c : Char) (breaks : Bool) (rest : List (Char × Bool)) :
    withBreaks ((c, breaks) :: rest) =
      c :: ((if breaks then rowBreak else []) ++ withBreaks rest) := rfl

theorem everyBreak_cons {P : Reader → Char → Bool} {q next : Reader} {c : Char} {breaks : Bool}
    {rest : List (Char × Bool)} {out : List Mark} (hstep : q.step c = some (out, next)) :
    everyBreak P q ((c, breaks) :: rest) = true ↔
      (breaks = true → ∃ d b more, rest = (d, b) :: more ∧ P next d = true) ∧
        everyBreak P next rest = true := by
  rw [everyBreak, hstep]
  cases rest with
  | nil => simp
  | cons p more =>
    obtain ⟨d, b⟩ := p
    cases breaks <;> simp

theorem everyBreak_unbroken (P : Reader → Char → Bool) (q : Reader) (cs : List Char) :
    everyBreak P q (cs.map (·, false)) = true := by
  induction cs generalizing q with
  | nil => rfl
  | cons c cs ih =>
    rw [List.map_cons, everyBreak]
    split
    next next _ => simp [ih next]
    next => rfl

theorem read_withBreaks {q : Reader} {text : List (Char × Bool)} {m : List Mark}
    (hread : q.read (text.map (·.1)) = some m) (hbreaks : everyBreak absorbs q text = true) :
    q.read (withBreaks text) = some m := by
  induction text generalizing q m with
  | nil => exact hread
  | cons p rest ih =>
    obtain ⟨c, breaks⟩ := p
    obtain ⟨out, next, m', hstep, hrest, rfl⟩ := read_cons_eq_some.mp hread
    obtain ⟨hbreak, hbreaks⟩ := (everyBreak_cons hstep).mp hbreaks
    have hbroken := ih hrest hbreaks
    refine read_cons_eq_some.mpr ⟨out, next, m', hstep, ?_, rfl⟩
    cases breaks with
    | false => exact hbroken
    | true =>
      obtain ⟨d, b, more, rfl, habsorbs⟩ := hbreak rfl
      exact read_absorbs habsorbs hbroken

/-! ## Other breaks -/

namespace Reader

/-- A reader of the text without the breaks, a reader of the text with them, and by how many bytes
the second one is ahead. -/
inductive Lags : Reader → Reader → Nat → Prop
  | same (q : Reader) : Lags q q 0
  | digits {q : Reader} {value : Nat} (hvalue : q.pending? = some value) : Lags q inside 1

/-- Of the digits of an escape that is broken, those behind the break are characters. -/
theorem Lags.step {q q' next next' : Reader} {n : Nat} {c : Char} {out out' : List Mark}
    (h : Lags q q' n) (hstep : q.step c = some (out, next))
    (hstep' : q'.step c = some (out', next')) :
    ∃ n', Lags next next' n' ∧ out.length + n' ≤ out'.length + n ∧
      (out.length + n' = out'.length + n → n = 1 → q.continues c = false) := by
  cases h with
  | same =>
    cases hstep.symm.trans hstep'
    exact ⟨0, .same next, Nat.le_refl _, by simp⟩
  | digits hvalue =>
    by_cases hc : q.continues c = true
    · obtain ⟨next₁, hnext, hpending⟩ := step_of_continues hc
      obtain ⟨value', hvalue'⟩ := Option.isSome_iff_exists.mp hpending
      cases hstep.symm.trans hnext
      cases hstep'.symm.trans (plain_of_continues hc)
      have hpos := length_charMarks_pos c
      exact ⟨1, .digits hvalue', by simp, by simp only [List.length_nil]; omega⟩
    · have hc : q.continues c = false := by simpa using hc
      rw [step_of_not_continues hvalue hc, leave] at hstep
      split at hstep
      · rw [show plain c = some (out', next') from hstep'] at hstep
        cases hstep
        exact ⟨0, .same _, by simp, fun _ _ => hc⟩
      · cases hstep

/-- Where a reader can stand at a break that it gets past. -/
theorem read_rowBreak_cases {q : Reader} {cs : List Char} {m : List Mark}
    (h : q.read (rowBreak ++ cs) = some m) :
    q.pending?.isSome ∨ q = inside ∨ ∃ g, q = block g ∨ q = star g ∨ q = line g := by
  have hquote : octalDigit? '"' = none ∧ Hex.digit? '"' = none ∧ simpleEscape? '"' = some 0x22 := by
    decide
  cases q with
  | inside => exact .inr (.inl rfl)
  | block g => exact .inr (.inr ⟨g, .inl rfl⟩)
  | star g => exact .inr (.inr ⟨g, .inr (.inl rfl)⟩)
  | line g => exact .inr (.inr ⟨g, .inr (.inr rfl)⟩)
  | octal count value => exact .inl rfl
  | hex value? =>
    cases value? with
    | some value => exact .inl rfl
    | none => simp [rowBreak, read, step, continues_quote] at h
  -- Between literals and after a backslash, the line feed is in a literal.
  | gap g => cases g <;> simp [rowBreak, read, step, plain, Gap.opening] at h
  | escape => simp [rowBreak, read, step, plain, hquote] at h
  | slash g => simp [rowBreak, read, step] at h
  | universal left value => simp [rowBreak, read, step, hquote] at h

/-- A reader that gets past a break, and has no comment ended or prolonged by it, stands where it
would without the break, except for the digits of an escape. -/
theorem Lags.rowBreak {q q' : Reader} {n : Nat} {c : Char} {cs : List Char} {m' : List Mark}
    (h : Lags q q' n) (hstep : (q.step c).isSome) (hsettled : q.unsettled c = false)
    (hread : q'.read (rowBreak ++ c :: cs) = some m') :
    ∃ q'' n' m'', Lags q q'' n' ∧ q''.read (c :: cs) = some m'' ∧
      m''.length + n' = m'.length + n ∧ (n' = 0 → q.absorbs c = true) := by
  cases h with
  | digits hvalue =>
    rw [read_inside_rowBreak] at hread
    exact ⟨inside, 1, m', .digits hvalue, hread, rfl, by simp⟩
  | same =>
    obtain hpending | rfl | ⟨g, rfl | rfl | rfl⟩ := read_rowBreak_cases hread
    · obtain ⟨value, hvalue⟩ := Option.isSome_iff_exists.mp hpending
      rw [read_pending_rowBreak hvalue] at hread
      split at hread
      · obtain ⟨m'', hinside, rfl⟩ := Option.map_eq_some_iff.mp hread
        exact ⟨inside, 1, m'', .digits hvalue, hinside, rfl, by simp⟩
      · cases hread
    · rw [read_inside_rowBreak] at hread
      exact ⟨inside, 0, m', .same _, hread, rfl, fun _ => rfl⟩
    · rw [read_block_rowBreak] at hread
      exact ⟨block g, 0, m', .same _, hread, rfl, fun _ => rfl⟩
    · have hc : c ≠ '/' := by simpa [unsettled] using hsettled
      rw [read_star_rowBreak, read, ← step_star hstep hc] at hread
      exact ⟨star g, 0, m', .same _, hread, rfl, fun _ => by simpa [absorbs] using hc⟩
    · cases hsettled

end Reader

/-- With the breaks a text stands for no fewer marks, and for as many of them only where no break
changes anything. -/
theorem length_read_withBreaks {q q' : Reader} {n : Nat} {text : List (Char × Bool)}
    {m m' : List Mark} (h : Lags q q' n) (hread : q.read (text.map (·.1)) = some m)
    (hread' : q'.read (withBreaks text) = some m')
    (hsettled : everyBreak (fun q c => !q.unsettled c) q text = true) :
    m.length ≤ m'.length + n ∧
      (m.length = m'.length + n → everyBreak absorbs q text = true ∧
        (n = 1 → ∀ p ∈ text.head?, q.continues p.1 = false)) := by
  induction text generalizing q q' n m m' with
  | nil =>
    have hm : m = [] := by
      rw [List.map_nil, Reader.read] at hread
      split at hread <;> cases hread
      rfl
    subst hm
    exact ⟨by simp, fun _ => ⟨rfl, by simp⟩⟩
  | cons p rest ih =>
    obtain ⟨c, breaks⟩ := p
    obtain ⟨out, next, m₁, hstep, hrest, rfl⟩ := read_cons_eq_some.mp hread
    rw [withBreaks_cons] at hread'
    obtain ⟨out', next', m₁', hstep', hrest', rfl⟩ := read_cons_eq_some.mp hread'
    obtain ⟨hbreak, hsettledRest⟩ := (everyBreak_cons hstep).mp hsettled
    -- The second reader is ahead by `n` before the character, by `n₁` behind it, and by `n₂` behind
    -- the break, if there is one.
    obtain ⟨n₁, hlag, hle, hlast⟩ := h.step hstep hstep'
    rw [everyBreak_cons hstep]
    simp only [List.length_append, List.head?_cons, Option.mem_some_iff, forall_eq']
    cases breaks with
    | false =>
      obtain ⟨hlength, hall⟩ := ih hlag hrest hrest' hsettledRest
      refine ⟨by omega, fun heq => ⟨⟨by simp, (hall (by omega)).1⟩, hlast (by omega)⟩⟩
    | true =>
      obtain ⟨d, b, more, rfl, hd⟩ := hbreak rfl
      obtain ⟨outd, nextd, m₂, hstepd, -, -⟩ := read_cons_eq_some.mp hrest
      rw [withBreaks_cons] at hrest'
      obtain ⟨q'', n₂, m₂', hlag₂, hread₂, hlen₂, habsorbs⟩ :=
        hlag.rowBreak (by rw [hstepd]; rfl) (by simpa using hd) hrest'
      obtain ⟨hlength, hall⟩ := ih hlag₂ hrest hread₂ hsettledRest
      refine ⟨by omega, fun heq => ?_⟩
      obtain ⟨hbreaks, hcontinues⟩ := hall (by omega)
      refine ⟨⟨fun _ => ⟨d, b, more, rfl, ?_⟩, hbreaks⟩, hlast (by omega)⟩
      cases hlag₂ with
      | same => exact habsorbs rfl
      | digits hvalue =>
        rw [absorbs_pending hvalue, hcontinues rfl (d, b) rfl]
        rfl

/-- A text reads the same with the breaks only where no break changes anything. -/
theorem absorbs_of_read_withBreaks {q : Reader} {text : List (Char × Bool)} {m : List Mark}
    (hread : q.read (text.map (·.1)) = some m) (hread' : q.read (withBreaks text) = some m)
    (hsettled : everyBreak (fun q c => !q.unsettled c) q text = true) :
    everyBreak absorbs q text = true :=
  ((length_read_withBreaks (.same q) hread hread' hsettled).2 rfl).1

/-! ## Quotes -/

/-- Where a reader of a text without escapes can stand. -/
def Reader.unescaped : Reader → Bool
  | escape | octal _ _ | hex _ | universal _ _ => false
  | _ => true

/-- In a tame text a literal begins or ends at each quote and nowhere else. -/
theorem Reader.tame_cons {q next : Reader} {c : Char} {cs : List Char} {out : List Mark}
    (htame : q.tame (c :: cs) = true) (hq : q.unescaped = true)
    (hstep : q.step c = some (out, next)) :
    next.tame cs = true ∧ next.unescaped = true ∧
      (next = inside ↔ if c = '"' then q ≠ inside else q = inside) := by
  rw [tame, hstep, Bool.and_eq_true] at htame
  obtain ⟨hc, htame⟩ := htame
  refine ⟨htame, ?_⟩
  cases q with
  | gap g =>
    rw [step] at hstep
    split at hstep
    · obtain ⟨marks, -, heq⟩ := Option.map_eq_some_iff.mp hstep
      cases heq
      simp [*, unescaped]
    · have hgap : next = slash g ∨ ∃ g', next = gap g' := by grind [Option.map_eq_some_iff]
      rcases hgap with rfl | ⟨g', rfl⟩ <;> simp [*, unescaped]
  | inside =>
    have hbackslash : c ≠ '\\' := by simpa [admits] using hc
    rw [step, plain] at hstep
    split at hstep
    · cases hstep
      simp [*, unescaped]
    · have hinside : next = inside := by grind
      simp [*, unescaped]
  | slash g | line g | block g | star g =>
    have hquote : c ≠ '"' := by simpa [admits] using hc
    have hcomment : next = line g ∨ next = block g ∨ next = star g ∨ next = gap g := by
      grind [step]
    rcases hcomment with rfl | rfl | rfl | rfl <;> simp [hquote, unescaped]
  | _ => simp [unescaped] at hq

end FormCompiler.Code.Initializer
