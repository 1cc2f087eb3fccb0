import FormCompiler.Number.Binary
import Mathlib.Algebra.Order.Field.Power
import Mathlib.Algebra.Order.Ring.Rat
import Mathlib.Tactic.Linarith
import Mathlib.Tactic.Positivity
import Mathlib.Tactic.Ring

/-!
# Nearest values

`Rounds x n` says that `n` is an integer nearest to `x`, and the even one of two.  It determines
`n`, and it still holds when `x` moves closer to `n` (`Rounds.of_nearer`).  The value of a format
that `Binary.ofQuotient` picks is at least as near to the quotient as every other value of the
format (`Binary.ofQuotient_nearest`).
-/

namespace FormCompiler.Number

/-! ## Integers -/

/-- An integer nearest to a number; a tie goes to the even one. -/
structure Rounds (x : ℚ) (n : ℕ) : Prop where
  near : |x - n| ≤ 1 / 2
  tie : |x - n| = 1 / 2 → n % 2 = 0

namespace Rounds

/-- Two neighbours cannot both be chosen: the number is half way, and one of them is odd. -/
theorem not_succ {x : ℚ} {n : ℕ} (h : Rounds x n) : ¬ Rounds x (n + 1) := by
  intro h'
  have h1 := abs_le.mp h.near
  have h2 := abs_le.mp h'.near
  push_cast at h2
  have hx : x - n = 1 / 2 := by linarith
  have heven := h.tie (by rw [hx]; norm_num)
  have heven' := h'.tie (by push_cast; rw [show x - (n + 1) = -(1 / 2) by linarith]; norm_num)
  omega

theorem le {x : ℚ} {n m : ℕ} (h : Rounds x n) (h' : Rounds x m) : n ≤ m := by
  by_contra hlt
  have h1 := abs_le.mp h.near
  have h2 := abs_le.mp h'.near
  have hle : (n : ℚ) ≤ m + 1 := by linarith
  have hle' : n ≤ m + 1 := by exact_mod_cast hle
  obtain rfl : n = m + 1 := by omega
  exact h'.not_succ h

theorem unique {x : ℚ} {n m : ℕ} (h : Rounds x n) (h' : Rounds x m) : n = m :=
  Nat.le_antisymm (h.le h') (h'.le h)

theorem of_nearer {x y : ℚ} {n : ℕ} (h : Rounds x n) (hy : |y - n| ≤ |x - n|) : Rounds y n where
  near := hy.trans h.near
  tie := fun he => h.tie (le_antisymm h.near (he ▸ hy))

theorem nearest {x : ℚ} {n : ℕ} (h : Rounds x n) (m : ℕ) : |x - n| ≤ |x - m| := by
  rcases eq_or_ne n m with rfl | hne
  · exact le_rfl
  · have hone : (1 : ℚ) ≤ |(n : ℚ) - m| := by
      have hz : (1 : ℤ) ≤ |(n : ℤ) - m| := Int.one_le_abs (by omega)
      exact_mod_cast hz
    have htri := abs_sub_le (n : ℚ) x m
    rw [abs_sub_comm (n : ℚ) x] at htri
    have := h.near
    linarith

end Rounds

theorem roundQuotient_rounds (num den : ℕ) (hd : 0 < den) :
    Rounds ((num : ℚ) / den) (roundQuotient num den) := by
  have hden : (0 : ℚ) < den := by exact_mod_cast hd
  have hsplit : (num : ℚ) / den = (num / den : ℕ) + (num % den : ℕ) / (den : ℚ) := by
    have h : (den : ℚ) * (num / den : ℕ) + (num % den : ℕ) = num := by
      exact_mod_cast Nat.div_add_mod num den
    rw [div_eq_iff hden.ne', add_mul, div_mul_cancel₀ _ hden.ne']
    linarith
  have hr := Nat.mod_lt num hd
  rw [hsplit, roundQuotient]
  generalize num / den = q, num % den = r at hr
  have hr0 : (0 : ℚ) ≤ r / den := by positivity
  split
  · next hlow =>
    have hhalf : (r : ℚ) / den < 1 / 2 := by
      rw [div_lt_div_iff₀ hden two_pos]
      exact_mod_cast (by omega : r * 2 < 1 * den)
    have habs : |(q : ℚ) + r / den - q| = r / den := by rw [add_sub_cancel_left, abs_of_nonneg hr0]
    exact ⟨by rw [habs]; exact hhalf.le, fun he => absurd he (by rw [habs]; exact hhalf.ne)⟩
  · split
    · next hhigh =>
      have hhalf : 1 / 2 < (r : ℚ) / den := by
        rw [div_lt_div_iff₀ two_pos hden]
        exact_mod_cast (by omega : 1 * den < r * 2)
      have hone : (r : ℚ) / den < 1 := (div_lt_one hden).mpr (by exact_mod_cast hr)
      have habs : |(q : ℚ) + r / den - (q + 1 : ℕ)| = 1 - r / den := by
        rw [abs_of_nonpos (by push_cast; linarith)]
        push_cast
        ring
      exact ⟨by rw [habs]; linarith, fun he => by rw [habs] at he; linarith⟩
    · next hlow hhigh =>
      have hhalf : (r : ℚ) / den = 1 / 2 := by
        rw [div_eq_div_iff hden.ne' two_ne_zero]
        exact_mod_cast (by omega : r * 2 = 1 * den)
      rw [hhalf]
      rcases Nat.mod_two_eq_zero_or_one q with hq | hq
      · rw [hq]
        exact ⟨by simp, fun _ => hq⟩
      · rw [hq]
        refine ⟨?_, fun _ => by omega⟩
        rw [abs_of_nonpos (by push_cast; linarith)]
        push_cast
        linarith

/-! ## Powers -/

theorem scaleQuotient_pos (base num den : ℕ) (k : ℤ) (hb : 0 < base) (hd : 0 < den) :
    0 < (scaleQuotient base num den k).2 := by
  cases k with
  | ofNat n => exact hd
  | negSucc n => exact Nat.mul_pos hd (Nat.pow_pos hb)

theorem scaleQuotient_num_pos (base num den : ℕ) (k : ℤ) (hb : 0 < base) (hn : 0 < num) :
    0 < (scaleQuotient base num den k).1 := by
  cases k with
  | ofNat n => exact Nat.mul_pos hn (Nat.pow_pos hb)
  | negSucc n => exact hn

theorem scaleQuotient_value (base num den : ℕ) (k : ℤ) (hb : 0 < base) :
    ((scaleQuotient base num den k).1 : ℚ) / (scaleQuotient base num den k).2 =
      num / den * (base : ℚ) ^ k := by
  have hbase : (base : ℚ) ≠ 0 := by exact_mod_cast hb.ne'
  cases k with
  | ofNat n =>
    simp only [scaleQuotient, Nat.pow_eq, Int.ofNat_eq_natCast, zpow_natCast]
    push_cast
    ring
  | negSucc n =>
    simp only [scaleQuotient, Nat.pow_eq, zpow_negSucc]
    push_cast
    rw [div_mul_eq_div_div, div_eq_mul_inv _ ((base : ℚ) ^ (n + 1))]

theorem zpow_two_le {a b : ℤ} (h : a ≤ b) : (2 : ℚ) ^ a ≤ 2 ^ b :=
  zpow_le_zpow_right₀ one_le_two h

/-- An exponent that is right or one too great is settled by one comparison. -/
theorem settleExponent_spec (num den : ℕ) (k : ℤ) (hd : 0 < den)
    (hlow : (2 : ℚ) ^ (k - 1) ≤ num / den) (hhigh : (num : ℚ) / den < 2 ^ (k + 1)) :
    (2 : ℚ) ^ settleExponent 2 num den k ≤ num / den ∧
      (num : ℚ) / den < 2 ^ (settleExponent 2 num den k + 1) := by
  have hpos := scaleQuotient_pos 2 num den (-k) two_pos hd
  have hvalue := scaleQuotient_value 2 num den (-k) two_pos
  have hden : (0 : ℚ) < (scaleQuotient 2 num den (-k)).2 := by exact_mod_cast hpos
  have hk : (0 : ℚ) < 2 ^ k := by positivity
  have hscaled : ((scaleQuotient 2 num den (-k)).1 : ℚ) / (scaleQuotient 2 num den (-k)).2 =
      num / den / 2 ^ k := by
    rw [hvalue, Nat.cast_ofNat, zpow_neg, div_eq_mul_inv _ ((2 : ℚ) ^ k)]
  have hiff : (scaleQuotient 2 num den (-k)).2 ≤ (scaleQuotient 2 num den (-k)).1 ↔
      (2 : ℚ) ^ k ≤ num / den := by
    rw [← one_le_div hk, ← hscaled, one_le_div hden, Nat.cast_le]
  simp only [settleExponent]
  split
  · next h => exact ⟨hiff.mp h, hhigh⟩
  · next h =>
    rw [sub_add_cancel]
    exact ⟨hlow, lt_of_not_ge fun hle => h (hiff.mpr hle)⟩

theorem binaryOrder_spec (num den : ℕ) (hn : 0 < num) (hd : 0 < den) :
    (2 : ℚ) ^ binaryOrder num den ≤ num / den ∧
      (num : ℚ) / den < 2 ^ (binaryOrder num den + 1) := by
  have hbounds : ∀ n : ℕ, 0 < n →
      (2 : ℚ) ^ (n.log2 : ℤ) ≤ n ∧ (n : ℚ) < 2 ^ ((n.log2 : ℤ) + 1) := by
    intro n hn
    have h1 := Nat.log2_self_le hn.ne'
    have h2 := Nat.lt_log2_self (n := n)
    rw [← Nat.cast_succ, zpow_natCast, zpow_natCast]
    exact ⟨by exact_mod_cast h1, by exact_mod_cast h2⟩
  obtain ⟨hn1, hn2⟩ := hbounds num hn
  obtain ⟨hd1, hd2⟩ := hbounds den hd
  have hden : (0 : ℚ) < den := by exact_mod_cast hd
  have hpow : ∀ a b : ℤ, (2 : ℚ) ^ (a - b) * 2 ^ b = 2 ^ a := fun a b => by
    rw [← zpow_add₀ two_ne_zero, sub_add_cancel]
  apply settleExponent_spec num den _ hd
  · rw [le_div_iff₀ hden]
    calc (2 : ℚ) ^ ((num.log2 : ℤ) - den.log2 - 1) * den
        ≤ 2 ^ ((num.log2 : ℤ) - den.log2 - 1) * 2 ^ ((den.log2 : ℤ) + 1) := by gcongr
      _ = 2 ^ (num.log2 : ℤ) := by rw [sub_sub, hpow]
      _ ≤ num := hn1
  · rw [div_lt_iff₀ hden]
    calc (num : ℚ) < 2 ^ ((num.log2 : ℤ) + 1) := hn2
      _ = 2 ^ ((num.log2 : ℤ) + 1 - den.log2) * 2 ^ (den.log2 : ℤ) := (hpow _ _).symm
      _ = 2 ^ ((num.log2 : ℤ) - den.log2 + 1) * 2 ^ (den.log2 : ℤ) := by
        rw [add_sub_right_comm]
      _ ≤ 2 ^ ((num.log2 : ℤ) - den.log2 + 1) * den := by gcongr

/-! ## Values of a format -/

theorem FloatType.precision_pos (t : FloatType) : 0 < t.precision := by
  cases t <;> decide

/-- A magnitude that a format has, but for the bound on its exponent. -/
structure FloatType.Fits (t : FloatType) (m : ℕ) (e : ℤ) : Prop where
  mantissa_lt : m < 2 ^ t.precision
  least_le : t.leastExponent ≤ e

namespace Binary

/-- The number that a finite value stands for, without its sign. -/
def magnitude (m : ℕ) (e : ℤ) : ℚ := m * 2 ^ e

theorem quotient_pos (m : ℕ) (e : ℤ) : 0 < (quotient m e).2 :=
  scaleQuotient_pos 2 m 1 e two_pos one_pos

theorem quotient_value (m : ℕ) (e : ℤ) :
    ((quotient m e).1 : ℚ) / (quotient m e).2 = magnitude m e := by
  rw [quotient, scaleQuotient_value 2 m 1 e two_pos, Nat.cast_one, div_one, Nat.cast_ofNat,
    magnitude]

theorem magnitude_shift (m : ℕ) {e f : ℤ} (h : e ≤ f) :
    magnitude m f = magnitude (m * 2 ^ (f - e).toNat) e := by
  have hpow : ((2 ^ (f - e).toNat : ℕ) : ℚ) = 2 ^ (f - e) := by
    rw [Nat.cast_pow, Nat.cast_ofNat, ← zpow_natCast, Int.toNat_of_nonneg (by omega)]
  rw [magnitude, magnitude, Nat.cast_mul, hpow, mul_assoc, ← zpow_add₀ two_ne_zero,
    sub_add_cancel]

theorem magnitude_carry (t : FloatType) (e : ℤ) :
    magnitude (2 ^ (t.precision - 1)) (e + 1) = magnitude (2 ^ t.precision) e := by
  rw [magnitude, magnitude, zpow_add_one₀ two_ne_zero, Nat.cast_pow, Nat.cast_pow, Nat.cast_ofNat,
    ← mul_assoc, mul_right_comm, ← pow_succ, Nat.sub_add_cancel t.precision_pos]

section Units

variable (t : FloatType) (num den : ℕ)

/-- The exponent of the unit in which a quotient is counted. -/
def unitExponent : ℤ := max t.leastExponent (binaryOrder num den - (t.precision - 1))

/-- The number of units nearest to a quotient. -/
def units : ℕ :=
  roundQuotient (scaleQuotient 2 num den (-unitExponent t num den)).1
    (scaleQuotient 2 num den (-unitExponent t num den)).2

variable {den} (hd : 0 < den)

include hd in
theorem units_rounds :
    Rounds (num / den * 2 ^ (-unitExponent t num den)) (units t num den) := by
  have h := roundQuotient_rounds (scaleQuotient 2 num den (-unitExponent t num den)).1 _
    (scaleQuotient_pos 2 num den (-unitExponent t num den) two_pos hd)
  rw [scaleQuotient_value 2 num den _ two_pos, Nat.cast_ofNat] at h
  exact h

include hd in
/-- Of all multiples of the unit, the one chosen is nearest. -/
theorem units_nearest (m : ℕ) :
    |(num : ℚ) / den - magnitude (units t num den) (unitExponent t num den)| ≤
      |(num : ℚ) / den - magnitude m (unitExponent t num den)| := by
  have hunit : (0 : ℚ) < 2 ^ unitExponent t num den := by positivity
  have hscale : ∀ n : ℕ, |(num : ℚ) / den - magnitude n (unitExponent t num den)| =
      |(num : ℚ) / den * 2 ^ (-unitExponent t num den) - n| * 2 ^ unitExponent t num den := by
    intro n
    calc |(num : ℚ) / den - magnitude n (unitExponent t num den)|
        = |((num : ℚ) / den * 2 ^ (-unitExponent t num den) - n) * 2 ^ unitExponent t num den| := by
          rw [sub_mul, mul_assoc, ← zpow_add₀ two_ne_zero, neg_add_cancel, zpow_zero, mul_one,
            magnitude]
      _ = _ := by rw [abs_mul, abs_of_pos hunit]
  rw [hscale, hscale]
  exact mul_le_mul_of_nonneg_right ((units_rounds t num hd).nearest m) hunit.le

variable {num} (hn : 0 < num)

include hn hd in
theorem scaled_lt : (num : ℚ) / den * 2 ^ (-unitExponent t num den) < 2 ^ t.precision := by
  have hunit : binaryOrder num den - (t.precision - 1) ≤ unitExponent t num den := le_max_right ..
  calc (num : ℚ) / den * 2 ^ (-unitExponent t num den)
      < 2 ^ (binaryOrder num den + 1) * 2 ^ (-unitExponent t num den) := by
        gcongr
        exact (binaryOrder_spec num den hn hd).2
    _ = 2 ^ (binaryOrder num den + 1 + -unitExponent t num den) := (zpow_add₀ two_ne_zero _ _).symm
    _ ≤ 2 ^ (t.precision : ℤ) := zpow_two_le (by omega)
    _ = 2 ^ t.precision := zpow_natCast _ _

include hn hd in
theorem le_scaled (h : t.leastExponent < unitExponent t num den) :
    (2 : ℚ) ^ (t.precision - 1) ≤ num / den * 2 ^ (-unitExponent t num den) := by
  have hunit : unitExponent t num den = binaryOrder num den - (t.precision - 1) :=
    (max_choice _ _).resolve_left h.ne'
  have hp := t.precision_pos
  calc (2 : ℚ) ^ (t.precision - 1) = 2 ^ ((t.precision - 1 : ℕ) : ℤ) := (zpow_natCast _ _).symm
    _ = 2 ^ (binaryOrder num den + -unitExponent t num den) := by
        congr 1
        omega
    _ = 2 ^ binaryOrder num den * 2 ^ (-unitExponent t num den) := zpow_add₀ two_ne_zero _ _
    _ ≤ num / den * 2 ^ (-unitExponent t num den) := by
        gcongr
        exact (binaryOrder_spec num den hn hd).1

include hn hd in
theorem units_le : units t num den ≤ 2 ^ t.precision := by
  have hnear := abs_le.mp (units_rounds t num hd).near
  have hlt := scaled_lt t hd hn
  have hle : (units t num den : ℚ) < (2 ^ t.precision : ℕ) + 1 := by
    push_cast
    linarith
  have : units t num den < 2 ^ t.precision + 1 := by exact_mod_cast hle
  omega

include hn hd in
theorem le_units (h : t.leastExponent < unitExponent t num den) :
    2 ^ (t.precision - 1) ≤ units t num den := by
  have hnear := abs_le.mp (units_rounds t num hd).near
  have hle := le_scaled t hd hn h
  have hlt : ((2 ^ (t.precision - 1) : ℕ) : ℚ) < units t num den + 1 := by
    push_cast
    linarith
  have : 2 ^ (t.precision - 1) < units t num den + 1 := by exact_mod_cast hlt
  omega

include hn hd in
/-- Of all values of the format, too: those that are no multiples of the unit are below the greatest
power of two that is at most the quotient, and this power is a multiple. -/
theorem fits_nearest {m : ℕ} {e : ℤ} (h : t.Fits m e) :
    |(num : ℚ) / den - magnitude (units t num den) (unitExponent t num den)| ≤
      |(num : ℚ) / den - magnitude m e| := by
  rcases le_or_gt (unitExponent t num den) e with he | he
  · rw [magnitude_shift m he]
    exact units_nearest t num hd _
  · have hunit : unitExponent t num den = binaryOrder num den - (t.precision - 1) :=
      (max_choice _ _).resolve_left (lt_of_le_of_lt h.least_le he).ne'
    have hp := t.precision_pos
    have horder := (binaryOrder_spec num den hn hd).1
    have hpower : magnitude (2 ^ (t.precision - 1)) (unitExponent t num den) =
        2 ^ binaryOrder num den := by
      rw [magnitude, Nat.cast_pow, Nat.cast_ofNat, ← zpow_natCast, ← zpow_add₀ two_ne_zero]
      congr 1
      omega
    have hbelow : magnitude m e ≤ 2 ^ binaryOrder num den := by
      have hm : (m : ℚ) ≤ 2 ^ (t.precision : ℤ) := by
        rw [zpow_natCast]
        exact_mod_cast h.mantissa_lt.le
      calc magnitude m e ≤ 2 ^ (t.precision : ℤ) * 2 ^ e := by
            rw [magnitude]
            gcongr
        _ = 2 ^ (t.precision + e) := (zpow_add₀ two_ne_zero _ _).symm
        _ ≤ 2 ^ binaryOrder num den := zpow_two_le (by omega)
    have hnearest := units_nearest t num hd (2 ^ (t.precision - 1))
    rw [hpower, abs_of_nonneg (sub_nonneg.mpr horder)] at hnearest
    rw [abs_of_nonneg (sub_nonneg.mpr (hbelow.trans horder))]
    linarith

include hn hd in
/-- The value picked for a quotient is nearest among those of the format; it is infinite only if its
exponent is too great. -/
theorem ofQuotient_nearest (negative : Bool) :
    ∃ m e, t.Fits m e ∧ (t.leastExponent < e → 2 ^ (t.precision - 1) ≤ m) ∧
      ofQuotient t negative num den =
        (if t.greatestExponent < e then infinite negative else finite negative m e) ∧
      ∀ m' e', t.Fits m' e' →
        |(num : ℚ) / den - magnitude m e| ≤ |(num : ℚ) / den - magnitude m' e'| := by
  have hleast : t.leastExponent ≤ unitExponent t num den := le_max_left ..
  have heq : ofQuotient t negative num den =
      let carried := if units t num den = 2 ^ t.precision
        then (2 ^ (t.precision - 1), unitExponent t num den + 1)
        else (units t num den, unitExponent t num den)
      if t.greatestExponent < carried.2 then infinite negative
      else finite negative carried.1 carried.2 := by
    rw [ofQuotient, if_neg hn.ne']
    rfl
  by_cases hcarry : units t num den = 2 ^ t.precision
  · have hp := t.precision_pos
    refine ⟨2 ^ (t.precision - 1), unitExponent t num den + 1, ⟨?_, by omega⟩, fun _ => le_rfl, ?_,
      fun m' e' h => ?_⟩
    · exact Nat.pow_lt_pow_right (by omega) (by omega)
    · rw [heq, if_pos hcarry]
    · have hsame : magnitude (2 ^ (t.precision - 1)) (unitExponent t num den + 1) =
          magnitude (units t num den) (unitExponent t num den) := by
        rw [hcarry, magnitude_carry]
      rw [hsame]
      exact fits_nearest t hd hn h
  · refine ⟨units t num den, unitExponent t num den, ⟨?_, hleast⟩, le_units t hd hn, ?_,
      fun m' e' h => fits_nearest t hd hn h⟩
    · exact lt_of_le_of_ne (units_le t hd hn) hcarry
    · rw [heq, if_neg hcarry]

end Units

/-! ## Values within the range of a format -/

/-- A value that a format has. -/
def Representable (t : FloatType) : Binary → Prop
  | finite _ m e => t.Fits m e ∧ e ≤ t.greatestExponent
  | _ => True

theorem representable_zero (t : FloatType) (negative : Bool) :
    (finite negative 0 t.leastExponent).Representable t :=
  ⟨⟨Nat.two_pow_pos _, le_rfl⟩, by cases t <;> decide⟩

theorem ofQuotient_representable (t : FloatType) (negative : Bool) (num den : ℕ) (hd : 0 < den) :
    (ofQuotient t negative num den).Representable t := by
  rcases Nat.eq_zero_or_pos num with rfl | hn
  · exact representable_zero t negative
  · obtain ⟨m, e, hfits, _, heq, _⟩ := ofQuotient_nearest t hd hn negative
    rw [heq]
    split
    · trivial
    · next h => exact ⟨hfits, not_lt.mp h⟩

/-- Beyond the range of a format the values are larger than all within it, by a step at least. -/
theorem magnitude_gap {t : FloatType} {m m' : ℕ} {e e' : ℤ} (h : t.Fits m e)
    (he : e ≤ t.greatestExponent) (he' : t.greatestExponent < e')
    (hm' : 2 ^ (t.precision - 1) ≤ m') : magnitude m e + 2 ≤ magnitude m' e' := by
  have hstep : (2 : ℚ) ≤ 2 ^ t.greatestExponent := by
    have := zpow_two_le (show (1 : ℤ) ≤ t.greatestExponent by cases t <;> decide)
    rwa [zpow_one] at this
  have hm : (m : ℚ) ≤ 2 ^ t.precision - 1 := by
    have : (m : ℚ) + 1 ≤ 2 ^ t.precision := by exact_mod_cast h.mantissa_lt
    linarith
  have hlow : magnitude m e + 2 ≤ magnitude (2 ^ t.precision) t.greatestExponent := by
    have hle : magnitude m e ≤ (2 ^ t.precision - 1) * 2 ^ t.greatestExponent :=
      mul_le_mul hm (zpow_two_le he) (by positivity) (le_trans (Nat.cast_nonneg m) hm)
    simp only [magnitude, Nat.cast_pow, Nat.cast_ofNat] at hle ⊢
    linarith
  calc magnitude m e + 2 ≤ magnitude (2 ^ t.precision) t.greatestExponent := hlow
    _ = magnitude (2 ^ (t.precision - 1)) (t.greatestExponent + 1) := (magnitude_carry t _).symm
    _ ≤ magnitude m' e' :=
      mul_le_mul (by exact_mod_cast hm') (zpow_two_le he') (by positivity) (Nat.cast_nonneg m')

theorem ofQuotient_finite (t : FloatType) (negative : Bool) {num den : ℕ} (hn : 0 < num)
    (hd : 0 < den) {m : ℕ} {e : ℤ} (hfits : t.Fits m e) (he : e ≤ t.greatestExponent)
    (hclose : |(num : ℚ) / den - magnitude m e| ≤ 1 / 2) :
    ∃ m' e', ofQuotient t negative num den = finite negative m' e' ∧
      |(num : ℚ) / den - magnitude m' e'| ≤ |(num : ℚ) / den - magnitude m e| := by
  obtain ⟨m', e', hfits', hnormal, heq, hnearest⟩ := ofQuotient_nearest t hd hn negative
  have hnear := hnearest m e hfits
  rcases le_or_gt e' t.greatestExponent with hle | hgt
  · exact ⟨m', e', by rw [heq, if_neg (not_lt.mpr hle)], hnear⟩
  · exfalso
    have hgap := magnitude_gap hfits he hgt (hnormal (lt_trans (by cases t <;> decide) hgt))
    have h1 := abs_le.mp hclose
    have h2 := abs_le.mp (hnear.trans hclose)
    linarith

end Binary

end FormCompiler.Number
