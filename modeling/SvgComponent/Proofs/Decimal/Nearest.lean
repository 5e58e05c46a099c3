/-
  SvgComponent.Proofs.Decimal.Nearest — rounding finds the nearest multiple, and of two the one farther from zero.

  A number is rounded to a multiple of a power of ten if no multiple is nearer and none as near is farther from zero
  (`IsRounded`). The quotient that rounding divides for has a remainder of at most half the divisor
  (`roundDiv_away_bounds`), and that is enough (`abs_sub_mul_le`, `abs_le_of_tie`).
-/

import Mathlib.Tactic.Linarith
import Mathlib.Tactic.Positivity
import SvgComponent.Proofs.Decimal.Numerals

namespace SvgComponent

/-- `y` is the multiple of the `p`-th negative power of ten that `x` is rounded to: the nearest one, and of two that are
    as near the one farther from zero. -/
structure IsRounded (p : Nat) (x y : ℚ) : Prop where
  multiple : ∃ k : ℤ, y = k / 10 ^ p
  nearest : ∀ k : ℤ, |x - y| ≤ |x - k / 10 ^ p|
  away : ∀ k : ℤ, |x - k / 10 ^ p| = |x - y| → |(k / 10 ^ p : ℚ)| ≤ |y|

/-! ## Division -/

/-- The remainder is at most half the divisor, and on the side of zero less than half. -/
theorem Tie.roundDiv_away_bounds (n : Nat) {d : Nat} (hd : 0 < d) :
    2 * (Tie.away.roundDiv n d * d) ≤ 2 * n + d ∧ 2 * n < 2 * (Tie.away.roundDiv n d * d) + d := by
  have hdiv : n / d * d + n % d = n := Nat.div_add_mod' n d
  have hmod : n % d < d := Nat.mod_lt n hd
  unfold Tie.roundDiv
  dsimp only
  split
  · rename_i hup
    rw [Nat.succ_mul (n / d) d]
    omega
  · rename_i hdown
    simp only [true_or, and_true, not_or] at hdown
    omega

section

variable {q d n : ℤ} (hlow : 2 * (q * d) ≤ 2 * n + d) (hhigh : 2 * n < 2 * (q * d) + d)

include hlow hhigh

theorem two_mul_abs_sub_le : 2 * |n - q * d| ≤ d := by
  rcases abs_cases (n - q * d) with ⟨h, _⟩ | ⟨h, _⟩ <;> linarith

/-- Two multiples are a divisor apart, so only one of them is less than half a divisor away. -/
theorem abs_sub_mul_le (hd : 0 < d) (k : ℤ) : |n - q * d| ≤ |n - k * d| := by
  rcases eq_or_ne k q with rfl | hne
  · exact le_rfl
  · have hhalf := two_mul_abs_sub_le hlow hhigh
    have hapart : d ≤ |(n - k * d) - (n - q * d)| := by
      rw [sub_sub_sub_cancel_left, ← sub_mul, abs_mul, abs_of_pos hd]
      exact le_mul_of_one_le_left hd.le (Int.one_le_abs (sub_ne_zero.mpr hne.symm))
    have hsum := abs_sub (n - k * d) (n - q * d)
    linarith

/-- A quotient that is as near lies between zero and the one that is chosen. -/
theorem abs_le_of_tie (hd : 0 < d) (hn : 0 ≤ n) {k : ℤ} (htie : |n - k * d| = |n - q * d|) : |k| ≤ |q| := by
  have hhalf := two_mul_abs_sub_le hlow hhigh
  have hupper : k ≤ q := by
    by_contra hk
    have hstep : 0 ≤ (k - q - 1) * d := mul_nonneg (by omega) hd.le
    have := neg_le_abs (n - k * d)
    linarith
  have hlower : 0 ≤ k := by
    by_contra hk
    have hstep : 0 ≤ (-k - 1) * d := mul_nonneg (by omega) hd.le
    have := le_abs_self (n - k * d)
    linarith
  rw [abs_of_nonneg hlower, abs_of_nonneg (hlower.trans hupper)]
  exact hupper

end

/-! ## Fractions -/

/-- Rounding does not depend on the sign. -/
theorem IsRounded.neg {p : Nat} {x y : ℚ} (h : IsRounded p x y) : IsRounded p (-x) (-y) := by
  have habs (z : ℚ) : |-x - z| = |x - -z| := by rw [← abs_neg, neg_sub, sub_neg_eq_add, sub_neg_eq_add, add_comm]
  have hneg (k : ℤ) : -(k / 10 ^ p : ℚ) = (-k : ℤ) / 10 ^ p := by rw [Int.cast_neg, neg_div]
  refine ⟨?_, fun k => ?_, fun k htie => ?_⟩
  · obtain ⟨k, rfl⟩ := h.multiple
    exact ⟨-k, hneg k⟩
  · rw [habs, habs, neg_neg, hneg]
    exact h.nearest (-k)
  · rw [habs, habs, neg_neg, hneg] at htie
    rw [abs_neg, ← abs_neg (k / 10 ^ p : ℚ), hneg]
    exact h.away (-k) htie

/-- Units of a place are rounded to units of an earlier place by dividing them. -/
theorem isRounded_roundDiv (units p m : Nat) :
    IsRounded p (units / 10 ^ (p + m)) (Tie.away.roundDiv units (10 ^ m) / 10 ^ p) := by
  obtain ⟨hlow, hhigh⟩ := Tie.roundDiv_away_bounds units (Nat.pow_pos (by decide) : 0 < 10 ^ m)
  generalize Tie.away.roundDiv units (10 ^ m) = q at hlow hhigh ⊢
  zify at hlow hhigh
  have hpos : (0 : ℤ) < 10 ^ m := by positivity
  have hp : (0 : ℚ) < 10 ^ p := by positivity
  -- Distances are compared in units of the last place.
  have hdistance (k : ℤ) : |(units / 10 ^ (p + m) - k / 10 ^ p : ℚ)| = |(units - k * 10 ^ m : ℤ)| / 10 ^ (p + m) := by
    rw [← abs_of_pos (by positivity : (0 : ℚ) < 10 ^ (p + m)), Int.cast_abs, ← abs_div,
      abs_of_pos (by positivity : (0 : ℚ) < 10 ^ (p + m)), pow_add]
    push_cast
    congr 1
    field_simp
  have hq : (q / 10 ^ p : ℚ) = (q : ℤ) / 10 ^ p := rfl
  refine ⟨⟨q, hq⟩, fun k => ?_, fun k htie => ?_⟩
  · rw [hq, hdistance, hdistance, div_le_div_iff_of_pos_right (by positivity), Int.cast_le]
    exact abs_sub_mul_le hlow hhigh hpos k
  · rw [hq, hdistance, hdistance, div_left_inj' (by positivity), Int.cast_inj] at htie
    rw [hq, abs_div, abs_div, div_le_div_iff_of_pos_right (by positivity), ← Int.cast_abs, ← Int.cast_abs, Int.cast_le]
    exact abs_le_of_tie hlow hhigh hpos (Int.natCast_nonneg _) htie

namespace Decimal

variable {p : Nat} {x : Decimal}

theorem places_round (h : p < x.places) : (x.round .away p).places = p := by
  rw [round, if_pos h]

/-- A fraction with too many places is rounded as its number is. -/
theorem isRounded_round (h : p < x.places) : IsRounded p x.value (x.round .away p).value := by
  have hrounded : IsRounded p (x.units / 10 ^ (p + (x.places - p)))
      (Tie.away.roundDiv x.units (Nat.pow 10 (x.places - p)) / 10 ^ p) := isRounded_roundDiv x.units p (x.places - p)
  rw [Nat.add_sub_cancel' h.le] at hrounded
  rw [round, if_pos h]
  unfold value
  cases x.negative with
  | true => simpa only [if_true, neg_one_mul] using hrounded.neg
  | false => simpa only [Bool.false_eq_true, if_false, one_mul] using hrounded

end Decimal

end SvgComponent
