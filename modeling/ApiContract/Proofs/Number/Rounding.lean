import ApiContract.Number.Shortest
import Mathlib.Algebra.Order.Field.Basic
import Mathlib.Algebra.Order.Field.Power
import Mathlib.Data.Rat.Cast.Order
import Mathlib.Tactic.Linarith
import Mathlib.Tactic.NormNum
import Mathlib.Tactic.Positivity
import Mathlib.Tactic.Ring

/-! # Rounding to floats

A ratio of naturals is rounded once. Its exponent is the one at which 53 bits are filled, and its significand
is the nearest integer there; both are determined by the value of the ratio. So a ratio rounds to a float as
soon as it lies in the interval of the float.

* `Binary64.IsCanonical`: the one form in which a float is kept; `isCanonical_of_ofRatio?`: what is rounded has it.
* `Binary64.Fills`, `fills_exponentOf`: the exponent of a ratio.
* `Binary64.IsNearest`, `isNearest_roundDiv`: the integer nearest to a ratio, a half going to the even one.
* `Binary64.Reach.Contains`, `ofRatio?_of_contains`: a ratio in the interval of a float rounds to the float. -/

set_option autoImplicit false

namespace ApiContract

namespace Binary64

/-- The one form in which a float is kept: the significand fills 53 bits unless the exponent is the least one. -/
structure IsCanonical (x : Binary64) : Prop where
  significand_lt : x.significand < 2 ^ 53
  filled : 2 ^ 52 ≤ x.significand ∨ x.exponent = leastExponent
  least_le : leastExponent ≤ x.exponent
  le_greatest : x.exponent ≤ greatestExponent

instance (x : Binary64) : Decidable x.IsCanonical :=
  decidable_of_iff (x.significand < 2 ^ 53 ∧ (2 ^ 52 ≤ x.significand ∨ x.exponent = leastExponent) ∧
      leastExponent ≤ x.exponent ∧ x.exponent ≤ greatestExponent)
    ⟨fun ⟨hlt, hfilled, hleast, hgreatest⟩ => ⟨hlt, hfilled, hleast, hgreatest⟩,
      fun ⟨hlt, hfilled, hleast, hgreatest⟩ => ⟨hlt, hfilled, hleast, hgreatest⟩⟩

theorem isCanonical_zero (negative : Bool) : (zero negative).IsCanonical := by
  cases negative <;> decide

/-! ## Powers as ratios -/

section

variable {b : Nat} (hb : 0 < b) (num den : Nat) (e : ℤ)

include hb

/-- A power divides in the denominator, or multiplies in the numerator when its exponent is negative. -/
theorem div_zpow_eq_ratio : (num : ℚ) / den / b ^ e =
    (if 0 ≤ e then num else num * b ^ (-e).toNat : Nat) / (if 0 ≤ e then den * b ^ e.toNat else den : Nat) := by
  have hb' : (b : ℚ) ≠ 0 := by exact_mod_cast hb.ne'
  split
  · next h =>
    obtain ⟨k, rfl⟩ := Int.eq_ofNat_of_zero_le h
    simp [div_div]
  · next h =>
    obtain ⟨k, hk⟩ := Int.eq_ofNat_of_zero_le (show 0 ≤ -e by omega)
    obtain rfl : e = -(k : ℤ) := by omega
    simp [div_mul_eq_mul_div]

/-- A power multiplies in the numerator, or divides in the denominator when its exponent is negative. -/
theorem mul_zpow_eq_ratio : (num : ℚ) * b ^ e =
    (if 0 ≤ e then num * b ^ e.toNat else num : Nat) / (if 0 ≤ e then 1 else b ^ (-e).toNat : Nat) := by
  have hb' : (b : ℚ) ≠ 0 := by exact_mod_cast hb.ne'
  split
  · next h =>
    obtain ⟨k, rfl⟩ := Int.eq_ofNat_of_zero_le h
    simp
  · next h =>
    obtain ⟨k, hk⟩ := Int.eq_ofNat_of_zero_le (show 0 ≤ -e by omega)
    obtain rfl : e = -(k : ℤ) := by omega
    simp [div_eq_mul_inv]

end

/-! ## Exponents -/

/-- An exponent at which a value has a significand of 53 bits, or the least exponent if the value has fewer. -/
structure Fills (value : ℚ) (e : ℤ) : Prop where
  least_le : leastExponent ≤ e
  lt : value < 2 ^ 53 * 2 ^ e
  filled : 2 ^ 52 * 2 ^ e ≤ value ∨ e = leastExponent

section

variable {num den : Nat} {e f : ℤ} {value : ℚ}

theorem Fills.le (h : Fills value e) (h' : Fills value f) : e ≤ f := by
  by_contra hlt
  rcases h.filled with hfilled | hleast
  · have hpow : (2 : ℚ) ^ (f + 1) ≤ 2 ^ e := zpow_le_zpow_right₀ (by norm_num) (by omega)
    rw [zpow_add_one₀ (by norm_num)] at hpow
    linarith [h'.lt]
  · have := h'.least_le
    omega

theorem Fills.unique (h : Fills value e) (h' : Fills value f) : e = f := le_antisymm (h.le h') (h'.le h)

theorem scaleDown_snd_pos (hden : 0 < den) : 0 < (scaleDown num den e).2 := by
  unfold scaleDown
  split
  · exact Nat.mul_pos hden (Nat.pow_pos (by decide))
  · exact hden

/-- Scaling down divides the value. -/
theorem scaleDown_value (num den : Nat) (e : ℤ) :
    ((scaleDown num den e).1 : ℚ) / (scaleDown num den e).2 = num / den / 2 ^ e := by
  have h := div_zpow_eq_ratio (b := 2) (by decide) num den e
  rw [Nat.cast_ofNat] at h
  rw [h, scaleDown]
  split <;> rfl

/-- A natural number lies between the powers of two that its bits give. -/
theorem log2_bounds {n : Nat} (hn : n ≠ 0) : (2 : ℚ) ^ (n.log2 : ℤ) ≤ n ∧ (n : ℚ) < 2 * 2 ^ (n.log2 : ℤ) := by
  have hlow : 2 ^ n.log2 ≤ n := Nat.log2_self_le hn
  have hhigh : n < 2 ^ (n.log2 + 1) := Nat.lt_log2_self
  rw [pow_succ'] at hhigh
  rw [zpow_natCast]
  exact ⟨by exact_mod_cast hlow, by exact_mod_cast hhigh⟩

/-- The guess is at most one too high. -/
theorem guess_bounds (hnum : num ≠ 0) (hden : den ≠ 0) :
    2 ^ 51 * 2 ^ ((num.log2 : ℤ) - den.log2 - 52) < (num / den : ℚ) ∧
      (num / den : ℚ) < 2 ^ 53 * 2 ^ ((num.log2 : ℤ) - den.log2 - 52) := by
  obtain ⟨hnumLow, hnumHigh⟩ := log2_bounds hnum
  obtain ⟨hdenLow, hdenHigh⟩ := log2_bounds hden
  have hden' : (0 : ℚ) < den := by exact_mod_cast Nat.pos_of_ne_zero hden
  have hsplit : (2 : ℚ) ^ ((num.log2 : ℤ) - den.log2 - 52) = 2 ^ (num.log2 : ℤ) / 2 ^ (den.log2 : ℤ) / 2 ^ 52 := by
    rw [zpow_sub₀ (by norm_num), zpow_sub₀ (by norm_num)]
    norm_num
  have hpos : (0 : ℚ) < 2 ^ (den.log2 : ℤ) := by positivity
  have hposNum : (0 : ℚ) < 2 ^ (num.log2 : ℤ) := by positivity
  rw [hsplit]
  generalize (2 : ℚ) ^ (num.log2 : ℤ) = a at *
  generalize (2 : ℚ) ^ (den.log2 : ℤ) = b at *
  constructor
  · rw [lt_div_iff₀ hden', show 2 ^ 51 * (a / b / 2 ^ 52) * (den : ℚ) = a * (den / (2 * b)) by ring]
    have hhalf : (den : ℚ) / (2 * b) < 1 := by rw [div_lt_one (by positivity)]; exact hdenHigh
    nlinarith
  · rw [div_lt_iff₀ hden', show 2 ^ 53 * (a / b / 2 ^ 52) * (den : ℚ) = 2 * a * (den / b) by ring]
    have hone : 1 ≤ (den : ℚ) / b := by rw [one_le_div hpos]; exact hdenLow
    nlinarith

/-- The exponent of a ratio is the one at which 53 bits are filled. -/
theorem fills_exponentOf (hnum : num ≠ 0) (hden : den ≠ 0) : Fills (num / den) (exponentOf num den) := by
  obtain ⟨hlow, hhigh⟩ := guess_bounds hnum hden
  simp only [exponentOf]
  generalize hguess : (num.log2 : ℤ) - den.log2 - 52 = guess at hlow hhigh ⊢
  have hpos := Nat.pos_of_ne_zero hden
  have hpos' : (0 : ℚ) < (scaleDown num den guess).2 := by exact_mod_cast scaleDown_snd_pos hpos
  have hcompare : (scaleDown num den guess).1 < (scaleDown num den guess).2 * Nat.pow 2 52 ↔
      (num / den : ℚ) < 2 ^ 52 * 2 ^ guess := by
    rw [← div_lt_iff₀ (by positivity), ← scaleDown_value, div_lt_iff₀ hpos', mul_comm]
    exact_mod_cast Iff.rfl
  have hexact : ∀ exact : ℤ, 2 ^ 52 * 2 ^ exact ≤ (num / den : ℚ) → (num / den : ℚ) < 2 ^ 53 * 2 ^ exact →
      Fills (num / den) (max exact leastExponent) := by
    intro exact hfull hlt
    refine ⟨le_max_right _ _, lt_of_lt_of_le hlt ?_, ?_⟩
    · exact mul_le_mul_of_nonneg_left (zpow_le_zpow_right₀ (by norm_num) (le_max_left _ _)) (by norm_num)
    · rcases le_total exact leastExponent with hle | hle
      · exact .inr (max_eq_right hle)
      · exact .inl (by rwa [max_eq_left hle])
  split
  · next hbelow =>
    refine hexact _ ?_ ?_
    · rw [zpow_sub_one₀ (by norm_num)]
      linarith
    · rw [zpow_sub_one₀ (by norm_num)]
      linarith [hcompare.1 hbelow]
  · next hbelow => exact hexact _ (not_lt.1 fun h => hbelow (hcompare.2 h)) hhigh

end

/-! ## Nearest integers -/

/-- The integer nearest to a value; of two the even one. -/
structure IsNearest (value : ℚ) (m : Nat) : Prop where
  near : |value - m| ≤ 1 / 2
  even : |value - m| = 1 / 2 → m % 2 = 0

section

variable {num den m n : Nat} {value : ℚ}

theorem IsNearest.le (h : IsNearest value m) (h' : IsNearest value n) : m ≤ n := by
  by_contra hlt
  have hsucc : (n : ℚ) + 1 ≤ m := by exact_mod_cast Nat.lt_of_not_le hlt
  have hm := abs_le.1 h.near
  have hn := abs_le.1 h'.near
  have hvalue : value = n + 1 / 2 := by linarith
  have hm' : (m : ℚ) = n + 1 := by linarith
  have hevenN := h'.even (by rw [hvalue]; norm_num)
  have hevenM := h.even (by rw [hvalue, hm']; norm_num)
  have : m = n + 1 := by exact_mod_cast hm'
  omega

theorem IsNearest.unique (h : IsNearest value m) (h' : IsNearest value n) : m = n := le_antisymm (h.le h') (h'.le h)

theorem isNearest_floor (hnonneg : 0 ≤ value) (h : value < 1 / 2) : IsNearest (n + value) n := by
  constructor <;> rw [add_sub_cancel_left, abs_of_nonneg hnonneg]
  · exact h.le
  · exact fun heq => absurd heq h.ne

theorem isNearest_ceiling (h : 1 / 2 < value) (hlt : value < 1) : IsNearest (n + value) (n + 1) := by
  have hbelow : (n : ℚ) + value - ((n + 1 : Nat) : ℚ) = -(1 - value) := by push_cast; ring
  have hdistance : 1 - value < 1 / 2 := by linarith
  constructor <;> rw [hbelow, abs_neg, abs_of_nonneg (by linarith)]
  · exact hdistance.le
  · exact fun heq => absurd heq hdistance.ne

theorem isNearest_half (hm : m = n ∨ m = n + 1) (heven : m % 2 = 0) : IsNearest (n + 1 / 2) m := by
  refine ⟨?_, fun _ => heven⟩
  rcases hm with rfl | rfl
  · norm_num
  · push_cast
    norm_num

/-- The quotient is the integer nearest to the ratio. -/
theorem isNearest_roundDiv (hden : 0 < den) : IsNearest (num / den) (roundDiv num den) := by
  have hden' : (0 : ℚ) < den := by exact_mod_cast hden
  have hvalue : (num / den : ℚ) = (num / den : Nat) + (num % den : Nat) / (den : ℚ) := by
    have h : (num : ℚ) = (den : ℚ) * (num / den : Nat) + (num % den : Nat) := by
      exact_mod_cast (Nat.div_add_mod num den).symm
    rw [h, add_div, mul_div_cancel_left₀ _ hden'.ne']
  have hrest : (num % den : Nat) / (den : ℚ) < 1 := by
    rw [div_lt_one hden']
    exact_mod_cast Nat.mod_lt num hden
  have hnonneg : (0 : ℚ) ≤ (num % den : Nat) / (den : ℚ) := by positivity
  have hless : 2 * (num % den) < den ↔ (num % den : Nat) / (den : ℚ) < 1 / 2 := by
    rw [div_lt_iff₀ hden', one_div, inv_mul_eq_div, lt_div_iff₀ (by norm_num)]
    rw [mul_comm]
    exact_mod_cast Iff.rfl
  have hmore : den < 2 * (num % den) ↔ 1 / 2 < (num % den : Nat) / (den : ℚ) := by
    rw [lt_div_iff₀ hden', one_div, inv_mul_eq_div, div_lt_iff₀ (by norm_num)]
    rw [mul_comm]
    exact_mod_cast Iff.rfl
  rw [hvalue]
  simp only [roundDiv, hless, hmore]
  split
  · next h => exact isNearest_floor hnonneg h
  · next h =>
    split
    · next h' => exact isNearest_ceiling h' hrest
    · next h' =>
      rw [le_antisymm (not_lt.1 h') (not_lt.1 h)]
      split
      · next heven => exact isNearest_half (.inl rfl) heven
      · next hodd => exact isNearest_half (.inr rfl) (by omega)

theorem isNearest_scaled (num : Nat) (e : ℤ) (hden : 0 < den) :
    IsNearest (num / den / 2 ^ e) (roundDiv (scaleDown num den e).1 (scaleDown num den e).2) := by
  rw [← scaleDown_value]
  exact isNearest_roundDiv (scaleDown_snd_pos hden)

end

/-! ## Rounding -/

section

variable {num den : Nat} {negative : Bool} {x : Binary64}

/-- At its exponent a value is rounded to a significand of 53 bits, or to the next power of two. -/
theorem Fills.significand {value : ℚ} {e : ℤ} {m : Nat} (h : Fills value e) (hm : IsNearest (value / 2 ^ e) m) :
    m ≤ 2 ^ 53 ∧ (2 ^ 52 ≤ m ∨ e = leastExponent) := by
  have hpow : (0 : ℚ) < 2 ^ e := by positivity
  have hlt : value / 2 ^ e < 2 ^ 53 := by rw [div_lt_iff₀ hpow]; exact h.lt
  have hbounds := abs_le.1 hm.near
  constructor
  · have hbelow : (m : ℚ) < (2 ^ 53 + 1 : Nat) := by push_cast; linarith
    exact Nat.lt_succ_iff.1 (by exact_mod_cast hbelow)
  · refine h.filled.imp_left fun hfull => ?_
    rw [← le_div_iff₀ hpow] at hfull
    have habove : ((2 ^ 52 : Nat) : ℚ) < (m + 1 : Nat) := by push_cast; linarith
    exact Nat.lt_succ_iff.1 (by exact_mod_cast habove)

/-- What is rounded is in its form. -/
theorem isCanonical_of_ofRatio? (hden : 0 < den) (h : ofRatio? negative num den = some x) : x.IsCanonical := by
  rw [ofRatio?] at h
  split at h
  · obtain rfl := Option.some.inj h
    exact isCanonical_zero negative
  · next hnum =>
    have hfills := fills_exponentOf hnum hden.ne'
    obtain ⟨hle, hfilled⟩ := hfills.significand (isNearest_scaled num (exponentOf num den) hden)
    have hleast := hfills.least_le
    simp only [Nat.pow_eq] at h
    generalize exponentOf num den = e at *
    generalize roundDiv (scaleDown num den e).1 (scaleDown num den e).2 = m at *
    by_cases hcarry : m = 2 ^ 53
    · simp only [if_pos hcarry] at h
      split at h
      · cases h
      · obtain rfl := Option.some.inj h
        exact ⟨Nat.pow_lt_pow_right (by decide) (by decide), .inl le_rfl, by simp only; omega, by simp only; omega⟩
    · simp only [if_neg hcarry] at h
      split at h
      · cases h
      · obtain rfl := Option.some.inj h
        exact ⟨lt_of_le_of_ne hle hcarry, hfilled, hleast, by simp only; omega⟩

end

/-! ## Intervals -/

/-- The value of a positive float. -/
def size (x : Binary64) : ℚ := x.significand * 2 ^ x.exponent

/-- Whether a value lies in an interval. -/
def Reach.Contains (r : Reach) (value : ℚ) : Prop :=
  if r.closed then (r.low : ℚ) / r.den ≤ value ∧ value ≤ r.high / r.den
  else (r.low : ℚ) / r.den < value ∧ value < r.high / r.den

/-- How far the interval of a float goes below it, in units of its last place. -/
def slack (x : Binary64) : ℚ := if x.significand = 2 ^ 52 ∧ leastExponent < x.exponent then 1 / 4 else 1 / 2

section

variable {num den : Nat} {x : Binary64} {value : ℚ}

/-- The lower end of the interval of a float, in quarters of its last place. -/
def lowEnd (x : Binary64) : Nat :=
  if (decide (x.significand = Nat.pow 2 52) && decide (leastExponent < x.exponent)) = true then 4 * x.significand - 1
  else 4 * x.significand - 2

/-- The numerator and the denominator of a number of quarters of the last place of a float. -/
def quarters (x : Binary64) (n : Nat) : Nat × Nat :=
  if 0 ≤ x.exponent - 2 then (n * Nat.pow 2 (x.exponent - 2).natAbs, 1) else (n, Nat.pow 2 (x.exponent - 2).natAbs)

theorem reach_eq (x : Binary64) : x.reach = ⟨(x.quarters x.lowEnd).1, (x.quarters (4 * x.significand)).1,
    (x.quarters (4 * x.significand + 2)).1, (x.quarters 0).2, x.significand % 2 == 0⟩ := by
  simp only [reach, quarters, lowEnd]
  split <;> rfl

theorem quarters_snd (n : Nat) : (x.quarters n).2 = (x.quarters 0).2 := by
  unfold quarters
  split <;> rfl

theorem reach_den_pos (x : Binary64) : 0 < x.reach.den := by
  rw [reach]
  split
  · exact Nat.one_pos
  · exact Nat.pow_pos (by decide)

theorem quarters_value (x : Binary64) (n : Nat) :
    ((x.quarters n).1 : ℚ) / (x.quarters n).2 = n / 4 * 2 ^ x.exponent := by
  have hratio := mul_zpow_eq_ratio (b := 2) (by decide) n (x.exponent - 2)
  rw [Nat.cast_ofNat, zpow_sub₀ (by norm_num)] at hratio
  rw [show (n : ℚ) / 4 * 2 ^ x.exponent = n * (2 ^ x.exponent / 2 ^ (2 : ℤ)) by ring, hratio, quarters]
  split
  · rw [show (x.exponent - 2).natAbs = (x.exponent - 2).toNat by omega]
    rfl
  · rw [show (x.exponent - 2).natAbs = (-(x.exponent - 2)).toNat by omega]
    rfl

theorem slack_le (x : Binary64) : x.slack ≤ 1 / 2 := by
  unfold slack
  split <;> norm_num

theorem lowEnd_eq (hpos : 0 < x.significand) : (x.lowEnd : ℚ) = 4 * (x.significand - x.slack) := by
  simp only [lowEnd, slack, Bool.and_eq_true, decide_eq_true_eq, Nat.pow_eq]
  split
  · rw [Nat.cast_sub (by omega)]
    push_cast
    ring
  · rw [Nat.cast_sub (by omega)]
    push_cast
    ring

/-- The three ratios of the interval of a positive float. -/
theorem reach_values (hpos : 0 < x.significand) :
    (x.reach.low : ℚ) / x.reach.den = (x.significand - x.slack) * 2 ^ x.exponent ∧
      (x.reach.value : ℚ) / x.reach.den = x.size ∧
      (x.reach.high : ℚ) / x.reach.den = (x.significand + 1 / 2) * 2 ^ x.exponent := by
  have hratio : ∀ n : Nat, ((x.quarters n).1 : ℚ) / (x.quarters 0).2 = n / 4 * 2 ^ x.exponent := fun n => by
    rw [← quarters_snd n, quarters_value]
  rw [reach_eq]
  simp only [hratio, lowEnd_eq hpos, size]
  push_cast
  refine ⟨?_, ?_, ?_⟩ <;> ring

/-- The interval in units of the last place. -/
theorem contains_reach (hpos : 0 < x.significand) (h : x.reach.Contains value) :
    x.significand - x.slack ≤ value / 2 ^ x.exponent ∧ value / 2 ^ x.exponent ≤ x.significand + 1 / 2 ∧
      (x.significand - x.slack = value / 2 ^ x.exponent ∨ value / 2 ^ x.exponent = x.significand + 1 / 2 →
        x.significand % 2 = 0) := by
  obtain ⟨hlow, -, hhigh⟩ := reach_values hpos
  have hpow : (0 : ℚ) < 2 ^ x.exponent := by positivity
  have hclosed : x.reach.closed = (x.significand % 2 == 0) := by rw [reach_eq]
  unfold Reach.Contains at h
  rw [hlow, hhigh, hclosed, ← le_div_iff₀ hpow, ← div_le_iff₀ hpow, ← lt_div_iff₀ hpow, ← div_lt_iff₀ hpow] at h
  split at h
  · next heven => exact ⟨h.1, h.2, fun _ => by simpa using heven⟩
  · exact ⟨h.1.le, h.2.le, fun hend => hend.elim (fun heq => absurd heq h.1.ne) fun heq => absurd heq h.2.ne⟩

/-- Where the bits of a float are filled, so are those of a value in its interval, and the float is nearest. -/
theorem fills_of_filled (hx : x.IsCanonical) (hpos : 0 < x.significand) (h : x.reach.Contains value)
    (hfilled : 2 ^ 52 ≤ value / 2 ^ x.exponent ∨ x.exponent = leastExponent) :
    Fills value x.exponent ∧ IsNearest (value / 2 ^ x.exponent) x.significand := by
  obtain ⟨hlow, hhigh, heven⟩ := contains_reach hpos h
  have hpow : (0 : ℚ) < 2 ^ x.exponent := by positivity
  have hslack := x.slack_le
  have hmax : (x.significand : ℚ) + 1 ≤ 2 ^ 53 := by exact_mod_cast hx.significand_lt
  refine ⟨⟨hx.least_le, ?_, ?_⟩, abs_le.2 ⟨by linarith, by linarith⟩, fun hhalf => heven ?_⟩
  · rw [← div_lt_iff₀ hpow]
    linarith
  · exact hfilled.imp_left (le_div_iff₀ hpow).1
  · rcases (abs_eq (by norm_num)).1 hhalf with hup | hdown
    · exact .inr (by linarith)
    · -- what is filled and half a place below a float is not below a power of two
      have hwide : x.slack = 1 / 2 := by
        unfold slack
        refine if_neg fun hnarrow => ?_
        have hm : (x.significand : ℚ) = 2 ^ 52 := by exact_mod_cast hnarrow.1
        rcases hfilled with hfilled | hleast
        · linarith
        · exact hnarrow.2.ne' hleast
      exact .inl (by rw [hwide]; linarith)

/-- Below a power of two the floats are closer together. What lies there in the interval of the power has the next
smaller exponent, and is rounded up to the power. -/
theorem fills_of_not_filled (hx : x.IsCanonical) (hpos : 0 < x.significand) (h : x.reach.Contains value)
    (hlt : value / 2 ^ x.exponent < 2 ^ 52) (hne : x.exponent ≠ leastExponent) :
    x.significand = 2 ^ 52 ∧ Fills value (x.exponent - 1) ∧ IsNearest (value / 2 ^ (x.exponent - 1)) (2 ^ 53) := by
  obtain ⟨hlow, -, -⟩ := contains_reach hpos h
  have hpow : (0 : ℚ) < 2 ^ x.exponent := by positivity
  have hleast : leastExponent < x.exponent := lt_of_le_of_ne hx.least_le (Ne.symm hne)
  have hm : x.significand = 2 ^ 52 := by
    have hslack := x.slack_le
    have hbelow : (x.significand : ℚ) < (2 ^ 52 + 1 : Nat) := by push_cast; linarith
    exact le_antisymm (Nat.lt_succ_iff.1 (by exact_mod_cast hbelow)) (hx.filled.resolve_right hne)
  have hslack : x.slack = 1 / 4 := if_pos ⟨hm, hleast⟩
  have hm' : (x.significand : ℚ) = 2 ^ 52 := by exact_mod_cast hm
  rw [hslack, hm'] at hlow
  have hhalf : (2 : ℚ) ^ (x.exponent - 1) = 2 ^ x.exponent / 2 := by
    rw [zpow_sub_one₀ (by norm_num)]
    ring
  have hdouble : value / 2 ^ (x.exponent - 1) = 2 * (value / 2 ^ x.exponent) := by
    rw [hhalf]
    ring
  have hpow' : (0 : ℚ) < 2 ^ (x.exponent - 1) := by positivity
  refine ⟨hm, ⟨by omega, ?_, .inl ?_⟩, ?_⟩
  · rw [← div_lt_iff₀ hpow', hdouble]
    linarith
  · rw [← le_div_iff₀ hpow', hdouble]
    linarith
  · rw [hdouble]
    refine ⟨abs_le.2 ⟨?_, ?_⟩, fun _ => by decide⟩ <;> push_cast <;> linarith

/-- A ratio in the interval of a float rounds to the float. -/
theorem ofRatio?_of_contains (hx : x.IsCanonical) (hpos : 0 < x.significand) (hnum : num ≠ 0) (hden : 0 < den)
    (h : x.reach.Contains (num / den)) : ofRatio? x.negative num den = some x := by
  have hround : ∀ {e : ℤ} {m : Nat}, Fills (num / den) e → IsNearest (num / den / 2 ^ e) m →
      exponentOf num den = e ∧ roundDiv (scaleDown num den e).1 (scaleDown num den e).2 = m := by
    exact fun hfills hnear =>
      ⟨(fills_exponentOf hnum hden.ne').unique hfills, (isNearest_scaled num _ hden).unique hnear⟩
  have hgreatest := hx.le_greatest
  by_cases hfilled : 2 ^ 52 ≤ (num / den / 2 ^ x.exponent : ℚ) ∨ x.exponent = leastExponent
  · obtain ⟨hfills, hnear⟩ := fills_of_filled hx hpos h hfilled
    obtain ⟨he, hdiv⟩ := hround hfills hnear
    simp only [ofRatio?, if_neg hnum, he, hdiv, Nat.pow_eq, if_neg hx.significand_lt.ne, if_neg (not_lt.2 hgreatest)]
  · rw [not_or, not_le] at hfilled
    obtain ⟨hm, hfills, hnear⟩ := fills_of_not_filled hx hpos h hfilled.1 hfilled.2
    obtain ⟨he, hdiv⟩ := hround hfills hnear
    simp only [ofRatio?, if_neg hnum, he, hdiv, Nat.pow_eq, if_true, sub_add_cancel, if_neg (not_lt.2 hgreatest)]
    rw [← hm]

end

end Binary64

end ApiContract
