/-
  SvgComponent.Proofs.Text.Kinds — letters, digits and blanks.

  Letters and digits are not blank (`isBlank_of_isAlphanum`), and numbers are written in digits (`isDigit_natDigits`). That
  no mark is of a kind is checked one by one, so a character of the kind is none of the marks (`not_mem_of_forall`).
-/

import Mathlib.Data.List.Basic
import SvgComponent.Text.Blank
import SvgComponent.Text.Digits

namespace SvgComponent.Text

variable {c : Char}

theorem not_mem_of_forall {p : Char → Bool} (marks : List Char) (hmarks : ∀ m ∈ marks, p m = false) (hc : p c = true) :
    c ∉ marks := by
  intro hmem
  rw [hmarks c hmem] at hc
  cases hc

theorem isAlphanum_of_isUpper (h : c.isUpper = true) : c.isAlphanum = true := by
  show ((c.isUpper || c.isLower) || c.isDigit) = true
  rw [h]
  rfl

theorem isAlphanum_of_isDigit (h : c.isDigit = true) : c.isAlphanum = true := by
  show (c.isAlpha || c.isDigit) = true
  rw [h, Bool.or_true]

theorem isBlank_of_isAlphanum (h : c.isAlphanum = true) : isBlank c = false := by
  delta Char.isAlphanum Char.isAlpha Char.isUpper Char.isLower Char.isDigit at h
  simp only [Bool.or_eq_true, Bool.and_eq_true, decide_eq_true_eq, UInt32.le_iff_toNat_le, ge_iff_le] at h
  change (((65 ≤ c.toNat ∧ c.toNat ≤ 90) ∨ (97 ≤ c.toNat ∧ c.toNat ≤ 122)) ∨ (48 ≤ c.toNat ∧ c.toNat ≤ 57)) at h
  simp [isBlank]
  omega

theorem toUpper_eq_or_isUpper (c : Char) : c.toUpper = c ∨ c.toUpper.isUpper = true := by
  delta Char.toUpper Char.isUpper
  split
  · rename_i h
    right
    simp [UInt32.le_iff_toNat_le] at h
    simp [UInt32.le_iff_toNat_le, UInt32.toNat_add]
    omega
  · exact Or.inl rfl

theorem isDigit_natDigits {n : Nat} (hc : c ∈ natDigits n) : c.isDigit = true :=
  Nat.isDigit_of_mem_toDigits (by decide) (by decide) hc

/-- The digits tell the number. -/
theorem natDigits_injective {n m : Nat} (h : natDigits n = natDigits m) : n = m := by
  have hdigits : Nat.toDigits 10 n = Nat.toDigits 10 m := h
  rw [← Nat.ofDigitChars_ten_toDigits (n := n), hdigits, Nat.ofDigitChars_ten_toDigits]

theorem isDigit_padDigits {width n : Nat} (hc : c ∈ padDigits width n) : c.isDigit = true := by
  rcases List.mem_append.mp hc with hc | hc
  · rw [(List.mem_replicate.mp hc).2]
    decide
  · exact isDigit_natDigits hc

end SvgComponent.Text
