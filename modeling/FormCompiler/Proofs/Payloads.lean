import FormCompiler.Hex

/-!
# Payloads are read back

A rendering of bytes has two hexadecimal digits for each of them, in either case (`Digits`), and
white space wherever one likes (`Spaced`).  White space is dropped before the digits are paired, so
it cannot shift them.  `decode_recovers` says that the bytes come back from every rendering, and
that no payload, however it was written, makes two digits overflow their byte.
-/

namespace FormCompiler.Hex

/-! ## Renderings -/

/-- The character is a digit of the given value, in either case. -/
def IsDigit (n : Nat) (c : Char) : Prop :=
  "0123456789abcdef".toList[n]? = some c ∨ "0123456789ABCDEF".toList[n]? = some c

instance (n : Nat) (c : Char) : Decidable (IsDigit n c) := inferInstanceAs (Decidable (_ ∨ _))

/-- Two digits for each byte, the high one first. -/
inductive Digits : List UInt8 → List Char → Prop
  | nil : Digits [] []
  | byte {b : UInt8} {bytes : List UInt8} {high low : Char} {digits : List Char}
      (hhigh : IsDigit (b.toNat / 16) high) (hlow : IsDigit (b.toNat % 16) low)
      (rest : Digits bytes digits) : Digits (b :: bytes) (high :: low :: digits)

/-- The second text is the first with white space put in. -/
inductive Spaced : List Char → List Char → Prop
  | nil : Spaced [] []
  | white {c : Char} {digits text : List Char} (hc : Text.isWhite c = true)
      (rest : Spaced digits text) : Spaced digits (c :: text)
  | keep {c : Char} {digits text : List Char} (rest : Spaced digits text) :
      Spaced (c :: digits) (c :: text)

/-- The value a character counts for: zero, unless it is a digit. -/
def value (c : Char) : Nat := (digit? c).getD 0

/-! ## Single digits -/

theorem IsDigit.lt {n : Nat} {c : Char} (h : IsDigit n c) : n < 16 := by
  rcases h with h | h
  · exact (List.getElem?_eq_some_iff.mp h).1
  · exact (List.getElem?_eq_some_iff.mp h).1

theorem IsDigit.read {n : Nat} {c : Char} (h : IsDigit n c) :
    value c = n ∧ Text.isWhite c = false := by
  have hall : ∀ n < 16, ∀ digits ∈ ["0123456789abcdef".toList, "0123456789ABCDEF".toList],
      digits[n]?.map (fun c => (value c, Text.isWhite c)) = some (n, false) := by decide
  have hdigit : some (value c, Text.isWhite c) = some (n, false) := by
    rcases h with hc | hc
    · rw [← hall n (IsDigit.lt (.inl hc)) _ (List.mem_cons_self ..), hc, Option.map_some]
    · rw [← hall n (IsDigit.lt (.inr hc)) _ (List.mem_cons_of_mem _ (List.mem_cons_self ..)), hc,
        Option.map_some]
  exact Prod.mk.inj (Option.some.inj hdigit)

theorem value_lt (c : Char) : value c < 16 := by
  rw [value, digit?]
  split
  · rename_i hc
    have hle : c.toNat - '0'.toNat ≤ '9'.toNat - '0'.toNat := Nat.sub_le_sub_right hc.2 _
    exact Nat.lt_of_le_of_lt hle (by decide)
  split
  · rename_i hc
    have hle : c.toNat - 'a'.toNat ≤ 'f'.toNat - 'a'.toNat := Nat.sub_le_sub_right hc.2 _
    exact Nat.lt_of_le_of_lt (Nat.add_le_add_right hle 10) (by decide)
  split
  · rename_i hc
    have hle : c.toNat - 'A'.toNat ≤ 'F'.toNat - 'A'.toNat := Nat.sub_le_sub_right hc.2 _
    exact Nat.lt_of_le_of_lt (Nat.add_le_add_right hle 10) (by decide)
  · exact Nat.zero_lt_succ 15

/-! ## White space -/

theorem Digits.not_white {bytes : List UInt8} {digits : List Char} (h : Digits bytes digits) :
    ∀ c ∈ digits, Text.isWhite c = false := by
  induction h with
  | nil => simp
  | byte hhigh hlow _ ih =>
    exact List.forall_mem_cons.mpr ⟨hhigh.read.2, List.forall_mem_cons.mpr ⟨hlow.read.2, ih⟩⟩

theorem Spaced.filter {digits text : List Char} (h : Spaced digits text)
    (hdigits : ∀ c ∈ digits, Text.isWhite c = false) :
    text.filter (!Text.isWhite ·) = digits := by
  induction h with
  | nil => rfl
  | white hc _ ih => rw [List.filter_cons, if_neg (by simp [hc]), ih hdigits]
  | keep _ ih =>
    obtain ⟨hc, hrest⟩ := List.forall_mem_cons.mp hdigits
    rw [List.filter_cons, if_pos (by simp [hc]), ih hrest]

/-! ## Pairs -/

/-- Bytes are read one after the other; what follows them is read by itself. -/
theorem Digits.pairs {bytes : List UInt8} {digits : List Char} (h : Digits bytes digits)
    (rest : List Nat) : Hex.pairs (digits.map value ++ rest) = bytes ++ Hex.pairs rest := by
  induction h with
  | nil => rfl
  | @byte b bytes high low digits hhigh hlow _ ih =>
    have hb : 16 * (b.toNat / 16) + b.toNat % 16 = b.toNat := Nat.div_add_mod b.toNat 16
    rw [List.map_cons, List.map_cons, hhigh.read.1, hlow.read.1, List.cons_append,
      List.cons_append, Hex.pairs, ih, hb, UInt8.ofNat_toNat, List.cons_append]

theorem length_pairs (values : List Nat) : (pairs values).length = values.length / 2 := by
  induction values using pairs.induct with
  | case1 high low rest ih =>
    rw [pairs, List.length_cons, List.length_cons, List.length_cons, ih]
    omega
  | case2 values hshort =>
    match values with
    | [] => rfl
    | [_] => simp [pairs]
    | high :: low :: rest => exact absurd rfl (hshort high low rest)

/-- A byte is made of the two values at its place, which it has room for. -/
theorem pairs_place (chars : List Char) (i : Nat) (high low : Char)
    (hhigh : chars[2 * i]? = some high) (hlow : chars[2 * i + 1]? = some low) :
    (pairs (chars.map value))[i]?.map UInt8.toNat = some (16 * value high + value low) := by
  induction i generalizing chars with
  | zero =>
    match chars with
    | [] => simp at hhigh
    | [_] => simp at hlow
    | c :: d :: rest =>
      obtain rfl : c = high := Option.some.inj hhigh
      obtain rfl : d = low := Option.some.inj hlow
      have hroom : 16 * value c + value d < 256 := by
        have hc := value_lt c
        have hd := value_lt d
        omega
      rw [List.map_cons, List.map_cons, pairs, List.getElem?_cons_zero, Option.map_some,
        UInt8.toNat_ofNat_of_lt' hroom]
  | succ i ih =>
    match chars with
    | [] => simp at hhigh
    | [_] => simp at hlow
    | c :: d :: rest =>
      rw [List.map_cons, List.map_cons, pairs, List.getElem?_cons_succ]
      exact ih rest hhigh hlow

/-! ## Main result -/

theorem decode_eq (text : String) :
    decode text = pairs ((text.toList.filter (!Text.isWhite ·)).map value) := rfl

/-- Decoding undoes every rendering of a byte string: with digits in either case, white space
anywhere, also between the two digits of a byte, and a digit too many at the end or none.  Any text
at all gives a byte for every two characters that are no white space, and its value is made of
theirs without a loss. -/
theorem decode_recovers :
    (∀ (bytes : List UInt8) (digits : List Char) (extra : Option Char) (text : String),
      Digits bytes digits → (∀ c ∈ extra, ∃ n, IsDigit n c) →
        Spaced (digits ++ extra.toList) text.toList → decode text = bytes) ∧
    ∀ text : String,
      let chars := text.toList.filter (!Text.isWhite ·)
      (decode text).length = chars.length / 2 ∧
        ∀ (i : Nat) (high low : Char), chars[2 * i]? = some high → chars[2 * i + 1]? = some low →
          (decode text)[i]?.map UInt8.toNat = some (16 * value high + value low) := by
  constructor
  · intro bytes digits extra text hdigits hextra hspaced
    have hwhite : ∀ c ∈ digits ++ extra.toList, Text.isWhite c = false := by
      refine List.forall_mem_append.mpr ⟨hdigits.not_white, fun c hc => ?_⟩
      obtain ⟨n, hn⟩ := hextra c (Option.mem_toList.mp hc)
      exact hn.read.2
    have hlast : pairs (extra.toList.map value) = [] := by
      cases extra with
      | none => rfl
      | some c => rfl
    rw [decode_eq, hspaced.filter hwhite, List.map_append, hdigits.pairs, hlast, List.append_nil]
  · intro text chars
    refine ⟨?_, fun i high low hhigh hlow => ?_⟩
    · rw [decode_eq, length_pairs, List.length_map]
    · rw [decode_eq]
      exact pairs_place chars i high low hhigh hlow

/-- White space inside a byte, both cases, and a digit too many. -/
theorem decode_recovers_signature :
    Digits [0x89, 0x5e] ['8', '9', '5', 'E'] ∧ IsDigit 12 'c' ∧
      decode "8 9\n5\u2009E c\t" = [0x89, 0x5e] := by
  have hdigits : Digits [0x89, 0x5e] ['8', '9', '5', 'E'] :=
    .byte (by decide) (by decide) (.byte (by decide) (by decide) .nil)
  have hextra : IsDigit 12 'c' := by decide
  refine ⟨hdigits, hextra, ?_⟩
  refine decode_recovers.1 _ _ (some 'c') _ hdigits (fun c hc => ⟨12, ?_⟩) ?_
  · rwa [← Option.mem_some_iff.mp hc]
  · exact .keep (.white rfl (.keep (.white rfl (.keep (.white rfl (.keep (.white rfl (.keep
      (.white rfl .nil)))))))))

end FormCompiler.Hex
