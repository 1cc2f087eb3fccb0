import FormCompiler.Document.Scalar

/-!
# Scalars come back from their texts

Reading the text of a scalar gives the scalar again.  For texts and flags there is nothing to do;
a numeral has no white space that reading would trim, and its digits stand for the number they were
made from.  For floating point values the law depends on the value, since a text has a fixed number
of places: `Stable` singles out the scalars for which it holds.
-/

namespace FormCompiler.Number

/-! ## Numerals -/

theorem digitsValue_decimal (n : Nat) : digitsValue (decimalDigits n) = n :=
  Nat.ofDigitChars_ten_toDigits

theorem decimal_ne_nil (n : Nat) : decimalDigits n ≠ [] := Nat.toDigits_ne_nil

theorem decimal_isDigit (n : Nat) (c : Char) (hc : c ∈ decimalDigits n) : c.isDigit = true :=
  Nat.isDigit_of_mem_toDigits (by decide) (by decide) hc

theorem decimal_injective {m n : Nat} (h : decimalDigits m = decimalDigits n) : m = n := by
  rw [← digitsValue_decimal m, h, digitsValue_decimal]

theorem readDigits_decimal (n : Nat) : readDigits? (decimalDigits n) = some n := by
  have hall : (decimalDigits n).all Char.isDigit = true :=
    List.all_eq_true.mpr (decimal_isDigit n)
  rw [readDigits?, if_pos ⟨decimal_ne_nil n, hall⟩, digitsValue_decimal]

theorem value_self (t : IntType) (v : t.Value) : t.value? v.val = some v := by
  rw [IntType.value?, dif_pos ⟨v.least_le, v.le_greatest⟩]

/-- The unsigned widths have no negative values, so a numeral with a minus sign has a width that
reads it. -/
theorem isSigned_of_negative (t : IntType) (v : t.Value) (n : Nat) (h : v.val = Int.negSucc n) :
    t.isSigned = true := by
  have hl := v.least_le
  rw [h] at hl
  cases t with
  | int32 => rfl
  | int64 => rfl
  | uint32 => exact absurd hl (by simp [IntType.least])
  | uint64 => exact absurd hl (by simp [IntType.least])

theorem readInteger_natText (t : IntType) (n : Nat) :
    readInteger? t (natText n) = t.value? (n : Int) := by
  have hd := decimal_isDigit n
  have hr := readDigits_decimal n
  rw [readInteger?, natText, String.toList_ofList]
  generalize decimalDigits n = ds at hd hr
  split
  · exact absurd (hd '+' (List.mem_cons_self ..)) (by decide)
  · exact absurd (hd '-' (List.mem_cons_self ..)) (by decide)
  · rw [hr]
    rfl

theorem readInteger_intText (t : IntType) (v : t.Value) :
    readInteger? t (intText v.val) = some v := by
  have hv := value_self t v
  cases h : v.val with
  | ofNat n =>
    rw [h] at hv
    rw [intText, readInteger_natText]
    exact hv
  | negSucc n =>
    rw [h] at hv
    rw [intText, readInteger?, String.toList_ofList]
    simp only [isSigned_of_negative t v n h, if_true, readDigits_decimal, Option.bind_some]
    exact hv

/-- The characters of numerals. -/
def isNumeral (c : Char) : Bool := c.isDigit || c == '-'

theorem intText_numeral (i : Int) : ∀ c ∈ (intText i).toList, isNumeral c = true := by
  intro c hc
  cases i with
  | ofNat n =>
    rw [intText, natText, String.toList_ofList] at hc
    rw [isNumeral, decimal_isDigit n c hc, Bool.true_or]
  | negSucc n =>
    rw [intText, String.toList_ofList] at hc
    rcases List.mem_cons.mp hc with rfl | hc
    · rfl
    · rw [isNumeral, decimal_isDigit (n + 1) c hc, Bool.true_or]

theorem intText_injective {i j : Int} (h : intText i = intText j) : i = j := by
  have hsign : ∀ m n : Nat, decimalDigits m ≠ '-' :: decimalDigits n := by
    intro m n heq
    have hdigit := decimal_isDigit m '-' (heq ▸ List.mem_cons_self ..)
    exact absurd hdigit (by decide)
  cases i with
  | ofNat m =>
    cases j with
    | ofNat n => rw [decimal_injective (String.ofList_injective h)]
    | negSucc n => exact absurd (String.ofList_injective h) (hsign m (n + 1))
  | negSucc m =>
    cases j with
    | ofNat n => exact absurd (String.ofList_injective h).symm (hsign n (m + 1))
    | negSucc n =>
      have hdigits := List.tail_eq_of_cons_eq (String.ofList_injective h)
      have heq := decimal_injective hdigits
      rw [show m = n by omega]

theorem intText_ends {i j : Int} {c d : Char} {r r' : List Char} (hc : isNumeral c = false)
    (hd : isNumeral d = false) (h : (intText i).toList ++ c :: r = (intText j).toList ++ d :: r') :
    i = j ∧ c :: r = d :: r' := by
  have htexts := congrArg (List.takeWhile isNumeral) h
  rw [List.takeWhile_append_of_pos (intText_numeral i), List.takeWhile_cons_of_neg (by simp [hc]),
    List.takeWhile_append_of_pos (intText_numeral j), List.takeWhile_cons_of_neg (by simp [hd]),
    List.append_nil, List.append_nil] at htexts
  have heq := intText_injective (String.toList_inj.mp htexts)
  rw [heq] at h
  exact ⟨heq, List.append_cancel_left h⟩

end FormCompiler.Number

namespace FormCompiler.Document.Scalar

open Number

/-! ## White space -/

theorem isWhite_digit (c : Char) (h : c.isDigit = true) : Text.isWhite c = false := by
  simp only [Char.isDigit, Bool.and_eq_true, decide_eq_true_eq, ge_iff_le,
    UInt32.le_iff_toNat_le] at h
  change 48 ≤ c.toNat ∧ c.toNat ≤ 57 at h
  simp only [Text.isWhite, Bool.or_eq_false_iff, Bool.and_eq_false_iff, decide_eq_false_iff_not,
    beq_eq_false_iff_ne]
  omega

theorem dropWhile_eq_self (p : Char → Bool) (cs : List Char) (h : ∀ c ∈ cs, p c = false) :
    cs.dropWhile p = cs := by
  cases cs with
  | nil => rfl
  | cons c cs => rw [List.dropWhile_cons, h c (List.mem_cons_self ..)]; rfl

theorem trim_eq_self (s : String) (h : ∀ c ∈ s.toList, Text.isWhite c = false) :
    Text.trim s = s := by
  rw [Text.trim, Text.trimLeft, dropWhile_eq_self _ _ h, Text.trimRight,
    dropWhile_eq_self _ _ (fun c hc => h c (List.mem_reverse.mp hc)), List.reverse_reverse,
    String.ofList_toList]

theorem trim_intText (i : Int) : Text.trim (intText i) = intText i := by
  apply trim_eq_self
  intro c hc
  have hnumeral := intText_numeral i c hc
  rw [isNumeral, Bool.or_eq_true, beq_iff_eq] at hnumeral
  rcases hnumeral with hdigit | rfl
  · exact isWhite_digit c hdigit
  · decide

/-! ## Reading what was written -/

deriving instance DecidableEq for Scalar

def isFloat : Scalar → Bool
  | float _ _ => true
  | _ => false

/-- The text of the value is read as the value itself. -/
def Stable (v : Scalar) : Prop := (parse v.type v.format).1 = v

instance (v : Scalar) : Decidable v.Stable := inferInstanceAs (Decidable (_ = _))

theorem parse_type (t : ScalarType) (s : String) : (parse t s).1.type = t := by
  cases t with
  | string => rfl
  | bool => rfl
  | int t =>
    simp only [parse]
    split <;> rfl
  | float t =>
    simp only [parse]
    split <;> rfl

/-- The value was read from some text. -/
def Parsed (v : Scalar) : Prop := ∃ text, (parse v.type text).1 = v

theorem parsed_parse (t : ScalarType) (s : String) : (parse t s).1.Parsed :=
  ⟨s, by rw [parse_type]⟩

theorem stable_string (s : String) : Stable (.string s) := rfl

theorem stable_bool (b : Bool) : Stable (.bool b) := by
  cases b with
  | false => simp [Stable, parse, type, format]
  | true => simp [Stable, parse, type, format]

theorem stable_int (t : IntType) (v : t.Value) : Stable (.int t v) := by
  simp only [Stable, parse, type, format, trim_intText, readInteger_intText]

/-- Only a floating point value may change when it is written and read. -/
theorem stable_of_floats (v : Scalar) (h : v.isFloat = true → v.Stable) : v.Stable := by
  cases v with
  | string s => exact stable_string s
  | bool b => exact stable_bool b
  | int t v => exact stable_int t v
  | float t b => exact h rfl

end FormCompiler.Document.Scalar
