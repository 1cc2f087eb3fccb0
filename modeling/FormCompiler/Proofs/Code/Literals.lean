import FormCompiler.Code.Literal

/-!
# Reading string literals back

What a compiler makes of adjacent string literals: escapes are decoded, the literals are put
together, and white space between them counts for nothing.  The literals written for bytes stand for
these bytes without the carriage returns (`readLiterals_literal`).
-/

namespace FormCompiler.Code

/-! ## The rules -/

/-- White space in a program. -/
def isSpace (c : Char) : Bool := [' ', '\t', '\n', '\x0b', '\x0c'].contains c

def octalDigit? (c : Char) : Option Nat :=
  if '0' ≤ c ∧ c ≤ '7' then some (c.toNat - '0'.toNat) else none

/-- The byte for which a backslash and a character stand. -/
def simpleEscape? (c : Char) : Option UInt8 :=
  [('n', 0x0a), ('t', 0x09), ('r', 0x0d), ('a', 0x07), ('b', 0x08), ('f', 0x0c), ('v', 0x0b),
    ('\\', 0x5c), ('"', 0x22), (Char.ofNat 0x27, 0x27), ('?', 0x3f)].lookup c

/-- Where a reader of literals stands: before the first one, behind some, inside one, after a
backslash, or in an octal escape of which it has read some digits. -/
inductive Lexer where
  | before
  | behind
  | inside
  | escape
  | octal (count value : Nat)
  deriving DecidableEq

namespace Lexer

/-- A character inside a literal: the bytes for it, and where the reader stands then. -/
def plain (c : Char) : Option (List UInt8 × Lexer) :=
  if c = '"' then some ([], behind)
  else if c = '\\' then some ([], escape)
  else if c = '\n' then none
  else some (String.utf8EncodeChar c, inside)

def step : Lexer → Char → Option (List UInt8 × Lexer)
  | before, c =>
    if c = '"' then some ([], inside) else if isSpace c then some ([], before) else none
  | behind, c =>
    if c = '"' then some ([], inside) else if isSpace c then some ([], behind) else none
  | inside, c => plain c
  | escape, c => match octalDigit? c with
    | some d => some ([], octal 1 d)
    | none => (simpleEscape? c).map fun b => ([b], inside)
  | octal count value, c =>
    -- An octal escape has three digits at most, and its value is that of a byte.
    if count < 3 ∧ (octalDigit? c).isSome then
      some ([], octal (count + 1) (8 * value + (octalDigit? c).getD 0))
    else if value < 256 then (plain c).map fun r => (UInt8.ofNat value :: r.1, r.2)
    else none

/-- The bytes of one or more literals, and the text after them. -/
def read : Lexer → List Char → Option (List UInt8 × List Char)
  | l, [] => if l = behind then some ([], []) else none
  | l, c :: cs => match l.step c with
    | some (out, next) => (next.read cs).map fun r => (out ++ r.1, r.2)
    | none => if l = behind then some ([], c :: cs) else none

end Lexer

/-- The bytes of the literals with which a text begins, and the rest of it. -/
def readLiterals (text : String) : Option (List UInt8 × String) :=
  (Lexer.before.read text.toList).map fun r => (r.1, String.ofList r.2)

/-! ## Octal escapes -/

/-- What literals keep of a byte string. -/
def withoutReturns (bytes : List UInt8) : List UInt8 := bytes.filter (· != 0x0d)

namespace Lexer

/-- A reading with some bytes before it. -/
def after (out : List UInt8) (r : Option (List UInt8 × List Char)) :
    Option (List UInt8 × List Char) :=
  r.map fun r => (out ++ r.1, r.2)

@[simp] theorem after_nil (r : Option (List UInt8 × List Char)) : after [] r = r := by
  cases r <;> rfl

theorem after_after (out out' : List UInt8) (r : Option (List UInt8 × List Char)) :
    after out (after out' r) = after (out ++ out') r := by
  cases r with
  | none => rfl
  | some r => simp [after]

theorem read_step {l next : Lexer} {c : Char} {out : List UInt8} (h : l.step c = some (out, next))
    (cs : List Char) : l.read (c :: cs) = after out (next.read cs) := by
  rw [read, h]
  rfl

theorem read_octal {value : Nat} (hvalue : value < 256) (cs : List Char) :
    (octal 3 value).read cs = after [UInt8.ofNat value] (inside.read cs) := by
  cases cs with
  | nil => rfl
  | cons c cs =>
    have hstep : (octal 3 value).step c =
        (plain c).map fun r => (UInt8.ofNat value :: r.1, r.2) := by
      rw [step, if_neg (by simp), if_pos hvalue]
    rw [read, read, hstep, show inside.step c = plain c from rfl]
    cases plain c with
    | none => rfl
    | some r =>
      rw [Option.map_some]
      cases hrest : r.2.read cs with
      | none => simp [after, hrest]
      | some rest => simp [after, hrest]

theorem octalDigit_digitChar : ∀ d < 8, octalDigit? (Nat.digitChar d) = some d := by decide

theorem read_escape {x y z : Nat} (hx : x < 8) (hy : y < 8) (hz : z < 8)
    (hvalue : 8 * (8 * x + y) + z < 256) (cs : List Char) :
    inside.read ('\\' :: Nat.digitChar x :: Nat.digitChar y :: Nat.digitChar z :: cs) =
      after [UInt8.ofNat (8 * (8 * x + y) + z)] (inside.read cs) := by
  have hdx := octalDigit_digitChar x hx
  have hdy := octalDigit_digitChar y hy
  have hdz := octalDigit_digitChar z hz
  have h1 : inside.step '\\' = some ([], escape) := rfl
  have h2 : escape.step (Nat.digitChar x) = some ([], octal 1 x) := by simp [step, hdx]
  have h3 : (octal 1 x).step (Nat.digitChar y) = some ([], octal 2 (8 * x + y)) := by
    simp [step, hdy]
  have h4 : (octal 2 (8 * x + y)).step (Nat.digitChar z) =
      some ([], octal 3 (8 * (8 * x + y) + z)) := by
    simp [step, hdz]
  rw [read_step h1, read_step h2, read_step h3, read_step h4, read_octal hvalue]
  simp only [after_nil]

end Lexer

theorem octalDigits_of_large {b : UInt8} (hb : 64 ≤ b.toNat) :
    octalDigits b = [Nat.digitChar (b.toNat / 8 / 8), Nat.digitChar (b.toNat / 8 % 8),
      Nat.digitChar (b.toNat % 8)] := by
  have hlt := b.toNat_lt
  rw [octalDigits, Nat.toDigits_of_base_le (by omega) (by omega),
    Nat.toDigits_of_base_le (by omega) (by omega), Nat.toDigits_of_lt_base (by omega)]
  rfl

theorem paddedOctal_eq (b : UInt8) :
    paddedOctal b = ['\\', Nat.digitChar (b.toNat / 8 / 8), Nat.digitChar (b.toNat / 8 % 8),
      Nat.digitChar (b.toNat % 8)] := by
  have hlt := b.toNat_lt
  by_cases h64 : 64 ≤ b.toNat
  · rw [paddedOctal, octalDigits_of_large h64]
    rfl
  · have hhigh : b.toNat / 8 / 8 = 0 := by omega
    have hmiddle : b.toNat / 8 % 8 = b.toNat / 8 := by omega
    rw [paddedOctal, octalDigits, hhigh, hmiddle]
    by_cases h8 : 8 ≤ b.toNat
    · rw [Nat.toDigits_of_base_le (by omega) (by omega), Nat.toDigits_of_lt_base (by omega)]
      rfl
    · have hmiddle : b.toNat / 8 = 0 := by omega
      have hlow : b.toNat % 8 = b.toNat := by omega
      rw [Nat.toDigits_of_lt_base (by omega), hmiddle, hlow]
      rfl

namespace Lexer

theorem read_octalByte (b : UInt8) (cs : List Char) :
    inside.read (['\\', Nat.digitChar (b.toNat / 8 / 8), Nat.digitChar (b.toNat / 8 % 8),
      Nat.digitChar (b.toNat % 8)] ++ cs) = after [b] (inside.read cs) := by
  have hlt := b.toNat_lt
  have hvalue : 8 * (8 * (b.toNat / 8 / 8) + b.toNat / 8 % 8) + b.toNat % 8 = b.toNat := by omega
  have hread := read_escape (x := b.toNat / 8 / 8) (y := b.toNat / 8 % 8) (z := b.toNat % 8)
    (by omega) (by omega) (by omega) (by omega) cs
  rw [hvalue, UInt8.ofNat_toNat] at hread
  exact hread

theorem plain_ascii {n : Nat} (hn : n < 0x80) (h : n ≠ 0x5c ∧ n ≠ 0x22 ∧ n ≠ 0x0a) :
    plain (Char.ofNat n) = some ([UInt8.ofNat n], inside) := by
  have hascii : ∀ n < 0x80, n ≠ 0x5c ∧ n ≠ 0x22 ∧ n ≠ 0x0a →
      (Char.ofNat n ≠ '"' ∧ Char.ofNat n ≠ '\\' ∧ Char.ofNat n ≠ '\n') ∧
        String.utf8EncodeChar (Char.ofNat n) = [UInt8.ofNat n] := by decide +kernel
  obtain ⟨⟨hquote, hbackslash, hline⟩, hbytes⟩ := hascii n hn h
  rw [plain, if_neg hquote, if_neg hbackslash, if_neg hline, hbytes]

theorem read_simple {c : Char} {b : UInt8} (hc : octalDigit? c = none)
    (hb : simpleEscape? c = some b) (cs : List Char) :
    inside.read ('\\' :: c :: cs) = after [b] (inside.read cs) := by
  have h1 : inside.step '\\' = some ([], escape) := rfl
  have h2 : escape.step c = some ([b], inside) := by simp [step, hc, hb]
  rw [read_step h1, read_step h2, after_nil]

/-! ## Literals side by side -/

theorem step_space {c : Char} (hc : isSpace c = true) :
    before.step c = some ([], before) ∧ behind.step c = some ([], behind) := by
  have hquote : c ≠ '"' := by
    rintro rfl
    cases hc
  simp [step, hquote, hc]

section Space

variable {space : List Char} (hspace : ∀ c ∈ space, isSpace c = true)

include hspace

theorem read_space {l : Lexer} (hl : ∀ c, isSpace c = true → l.step c = some ([], l))
    (cs : List Char) : l.read (space ++ cs) = l.read cs := by
  induction space with
  | nil => rfl
  | cons c space ih =>
    rw [List.cons_append, read_step (hl c (hspace c (List.mem_cons_self ..))), after_nil]
    exact ih fun d hd => hspace d (List.mem_cons_of_mem c hd)

theorem read_joint (cs : List Char) :
    inside.read ('"' :: space ++ '"' :: cs) = inside.read cs := by
  have hend : inside.step '"' = some ([], behind) := rfl
  have hbegin : behind.step '"' = some ([], inside) := rfl
  rw [List.cons_append, read_step hend, after_nil, read_space hspace fun _ hc => (step_space hc).2,
    read_step hbegin, after_nil]

end Space

/-! ## Escaped bytes -/

theorem read_escapeByte (b : UInt8) (cs : List Char) :
    inside.read (escapeByte b ++ cs) = after (withoutReturns [b]) (inside.read cs) := by
  have hnat : ∀ {n : UInt8}, b ≠ n → b.toNat ≠ n.toNat := fun h heq => h (UInt8.toNat_inj.mp heq)
  have hkept : b ≠ 0x0d → withoutReturns [b] = [b] := fun h => by simp [withoutReturns, h]
  unfold escapeByte
  split
  · subst b
    exact read_simple rfl rfl cs
  · split
    · subst b
      exact read_simple rfl rfl cs
    · split
      · subst b
        exact (after_nil _).symm
      · rw [hkept ‹_›]
        split
        · -- A line feed ends the literal, and another one begins on the next line.
          subst b
          refine (read_simple rfl rfl _).trans (congrArg (after _) ?_)
          exact @read_joint ['\n'] (List.forall_mem_singleton.mpr rfl) cs
        · split
          · rename_i hlarge
            have hlarge : 0x80 ≤ b.toNat := hlarge
            rw [octalDigits_of_large (by omega)]
            exact read_octalByte b cs
          · split
            · rw [paddedOctal_eq]
              exact read_octalByte b cs
            · rename_i hbackslash hquote _ hline hlarge _
              have hsmall : b.toNat < 0x80 := Nat.lt_of_not_le hlarge
              have hstep := plain_ascii hsmall ⟨hnat hbackslash, hnat hquote, hnat hline⟩
              rw [UInt8.ofNat_toNat] at hstep
              exact read_step (l := inside) hstep cs

theorem read_escaped (bytes : List UInt8) (cs : List Char) :
    inside.read (bytes.flatMap escapeByte ++ cs) =
      after (withoutReturns bytes) (inside.read cs) := by
  induction bytes with
  | nil => exact (after_nil _).symm
  | cons b bytes ih =>
    rw [List.flatMap_cons, List.append_assoc, read_escapeByte, ih, after_after]
    exact congrArg (after · _) (List.filter_append [b] bytes).symm

/-! ## Segments -/

variable {space : List Char} (hspace : ∀ c ∈ space, isSpace c = true)

include hspace

/-- The segments are read as their bytes.  By induction on the bytes that are left, where `done` are
those in the segment begun. -/
theorem read_segments (bytes done : List UInt8) (cs : List Char) :
    inside.read (List.intercalate ('"' :: space ++ ['"'])
        (segmentsFrom (done.flatMap escapeByte) bytes) ++ '"' :: cs) =
      after (withoutReturns (done ++ bytes)) (behind.read cs) := by
  have hstep : inside.step '"' = some ([], behind) := rfl
  have hend : ∀ cs, inside.read ('"' :: cs) = behind.read cs :=
    fun cs => (read_step hstep cs).trans (after_nil _)
  induction bytes generalizing done with
  | nil =>
    have hlast : List.intercalate ('"' :: space ++ ['"'])
        (segmentsFrom (done.flatMap escapeByte) []) = done.flatMap escapeByte := by
      rw [segmentsFrom]
      split
      · rename_i hempty
        rw [List.isEmpty_iff.mp hempty]
        rfl
      · simp [List.intercalate]
    rw [hlast, read_escaped, hend, List.append_nil]
  | cons b bytes ih =>
    have hgrown : done.flatMap escapeByte ++ escapeByte b = (done ++ [b]).flatMap escapeByte := by
      simp
    have hsplit : withoutReturns (done ++ b :: bytes) =
        withoutReturns (done ++ [b]) ++ withoutReturns bytes := by
      rw [List.append_cons]
      exact List.filter_append _ _
    rw [segmentsFrom, hgrown]
    split
    · have hrest := ih []
      rw [List.flatMap_nil, List.nil_append] at hrest
      rw [hsplit, ← after_after, ← hrest]
      cases segmentsFrom [] bytes with
      | nil =>
        rw [List.intercalate_singleton, read_escaped]
        rfl
      | cons next rest =>
        rw [List.intercalate_cons_cons, List.append_assoc, List.append_assoc, read_escaped]
        simp only [List.cons_append, List.append_assoc, List.nil_append]
        rw [← List.cons_append, read_joint hspace]
    · rw [ih, List.append_assoc]
      rfl

end Lexer

/-- The literals for a byte string, on a line of their own and up to the end of a statement. -/
theorem readLiterals_literal (bytes : List UInt8) {indent : String}
    (hindent : ∀ c ∈ indent.toList, isSpace c = true) (rest : String) :
    readLiterals ("\n" ++ indent ++ literal bytes indent ++ (";" ++ rest)) =
      some (withoutReturns bytes, ";" ++ rest) := by
  have hmargin : ∀ c ∈ '\n' :: indent.toList, isSpace c = true :=
    List.forall_mem_cons.mpr ⟨rfl, hindent⟩
  have hspace : ∀ c ∈ '\n' :: indent.toList ++ indent.toList, isSpace c = true :=
    List.forall_mem_append.mpr ⟨hmargin, hindent⟩
  have htext : ("\n" ++ indent ++ literal bytes indent ++ (";" ++ rest)).toList =
      '\n' :: indent.toList ++ ('"' :: (List.intercalate
        ('"' :: ('\n' :: indent.toList ++ indent.toList) ++ ['"'])
          (segmentsFrom ([].flatMap escapeByte) bytes) ++ '"' :: ';' :: rest.toList)) := by
    simp [literal, segments]
  have hbegin : Lexer.before.step '"' = some ([], .inside) := rfl
  have hstop : Lexer.behind.read (';' :: rest.toList) = some ([], ';' :: rest.toList) := rfl
  rw [readLiterals, htext, Lexer.read_space hmargin fun _ hc => (Lexer.step_space hc).1,
    Lexer.read_step hbegin, Lexer.after_nil, Lexer.read_segments hspace, hstop]
  simp [Lexer.after, String.ofList_cons]

end FormCompiler.Code
