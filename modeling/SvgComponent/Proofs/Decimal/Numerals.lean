/-
  SvgComponent.Proofs.Decimal.Numerals — the rational numbers that numerals spell.

  A numeral is an optional minus, digits and, behind a point, further digits. Fractions are read from just the numerals
  that have a point (`parse?_eq_some_iff`). What is written of a fraction is a numeral too (`text_numeral`), of the same
  value (`value_numeral`), with a decimal for each place and without zeros in front that say nothing.
-/

import Mathlib.Algebra.Order.Field.Rat
import Mathlib.Tactic.FieldSimp
import Mathlib.Tactic.Ring
import SvgComponent.Proofs.Decimal.Places

namespace SvgComponent

namespace Text

/-! ## Digits -/

theorem digitsValue_eq_ofDigitChars (s : List Char) : digitsValue s = Nat.ofDigitChars 10 s 0 := by
  rw [digitsValue, Nat.ofDigitChars_eq_foldl]
  congr
  funext n c
  rw [Nat.mul_comm]

theorem digitsValue_append (s t : List Char) :
    digitsValue (s ++ t) = digitsValue s * 10 ^ t.length + digitsValue t := by
  simp only [digitsValue_eq_ofDigitChars]
  rw [Nat.ofDigitChars_append, Nat.ofDigitChars_eq_ofDigitChars_zero, Nat.mul_comm]

theorem digitsValue_natDigits (n : Nat) : digitsValue (natDigits n) = n := by
  rw [digitsValue_eq_ofDigitChars]
  exact Nat.ofDigitChars_ten_toDigits

theorem digitsValue_padDigits (width n : Nat) : digitsValue (padDigits width n) = n := by
  rw [padDigits, digitsValue_append, digitsValue_natDigits, digitsValue_eq_ofDigitChars,
    Nat.ofDigitChars_replicate_zero, Nat.mul_zero, Nat.zero_mul, Nat.zero_add]

theorem natDigits_ne_nil (n : Nat) : natDigits n ≠ [] := Nat.toDigits_ne_nil

/-- The digits of a number begin with a zero only if that is the number. -/
theorem natDigits_eq_zero_or_head?_ne (n : Nat) : natDigits n = ['0'] ∨ (natDigits n).head? ≠ some '0' := by
  induction n using Nat.strongRecOn with
  | ind n ih =>
    unfold natDigits at ih ⊢
    by_cases hn : n < 10
    · rw [Nat.toDigits_of_lt_base hn]
      by_cases hzero : n.digitChar = '0'
      · exact Or.inl (by rw [hzero])
      · exact Or.inr fun h => hzero (Option.some.inj h)
    · -- The first digit is that of the number without its last one, which is not zero either.
      right
      have hpos : 0 < n / 10 := Nat.div_pos (Nat.le_of_not_lt hn) (by decide)
      rw [Nat.toDigits_of_base_le (by decide) (Nat.le_of_not_lt hn),
        List.head?_append_of_ne_nil _ Nat.toDigits_ne_nil]
      rcases ih (n / 10) (Nat.div_lt_self (by omega) (by decide)) with hzero | hhead
      · have := digitsValue_natDigits (n / 10)
        rw [natDigits, hzero] at this
        rw [← this] at hpos
        exact absurd hpos (by decide)
      · exact hhead

theorem isNumeral_iff {s : List Char} : isNumeral s = true ↔ s ≠ [] ∧ ∀ c ∈ s, c.isDigit = true := by
  rw [isNumeral, Bool.and_eq_true, List.all_eq_true]
  cases s <;> simp

theorem isNumeral_natDigits (n : Nat) : isNumeral (natDigits n) = true :=
  isNumeral_iff.mpr ⟨natDigits_ne_nil n, fun _ hc => isDigit_natDigits hc⟩

end Text

/-! ## Numerals -/

/-- An optional minus, digits, and the digits behind a point. -/
structure Numeral where
  minus : Bool
  whole : List Char
  decimals : List Char
  isNumeral_whole : Text.isNumeral whole = true
  isDigit_decimals : ∀ c ∈ decimals, c.isDigit = true

namespace Numeral

/-- There is no point without digits behind it. -/
def text (n : Numeral) : List Char :=
  (if n.minus then ['-'] else []) ++ n.whole ++ (if n.decimals = [] then [] else '.' :: n.decimals)

/-- The number that a numeral spells, exactly. -/
def value (n : Numeral) : ℚ :=
  (if n.minus then -1 else 1) *
    (Text.digitsValue n.whole + Text.digitsValue n.decimals / 10 ^ n.decimals.length)

/-- A zero stands in front only as the one digit before the point. -/
def IsPlain (n : Numeral) : Prop := n.whole = ['0'] ∨ n.whole.head? ≠ some '0'

/-- What is read from a numeral with a point. -/
def decimal (n : Numeral) : Decimal :=
  ⟨n.minus, Text.digitsValue (n.whole ++ n.decimals), n.decimals.length⟩

theorem point_not_mem_whole (n : Numeral) : '.' ∉ n.whole := fun h => by
  have := (Text.isNumeral_iff.mp n.isNumeral_whole).2 '.' h
  cases this

theorem head?_whole_append_ne_minus (n : Numeral) (s : List Char) : (n.whole ++ s).head? ≠ some '-' := by
  obtain ⟨hne, hdigits⟩ := Text.isNumeral_iff.mp n.isNumeral_whole
  rw [List.head?_append_of_ne_nil _ hne]
  intro h
  have := hdigits '-' (List.mem_of_mem_head? h)
  cases this

end Numeral

namespace Decimal

/-- The number that a fraction stands for. -/
def value (x : Decimal) : ℚ := (if x.negative then -1 else 1) * (x.units / 10 ^ x.places)

theorem value_decimal (n : Numeral) : n.decimal.value = n.value := by
  have hpow : (10 : ℚ) ^ n.decimals.length ≠ 0 := pow_ne_zero _ (by decide)
  rw [value, Numeral.value, Numeral.decimal]
  dsimp only
  rw [Text.digitsValue_append]
  congr 1
  push_cast
  field_simp

/-! ## Reading -/

theorem parse?_text (n : Numeral) (hdecimals : n.decimals ≠ []) : parse? n.text = some n.decimal := by
  have hcut := Text.cutAt_append n.point_not_mem_whole n.decimals
  have hsign : n.text.head? = some '-' ↔ n.minus = true := by
    cases hminus : n.minus with
    | true => simp [Numeral.text, hminus]
    | false =>
      have := n.head?_whole_append_ne_minus ('.' :: n.decimals)
      simpa [Numeral.text, hminus, hdecimals] using this
  have hrest : (if n.minus = true then n.text.drop 1 else n.text) = n.whole ++ '.' :: n.decimals := by
    cases hminus : n.minus <;> simp [Numeral.text, hminus, hdecimals]
  have hnumeral : Text.isNumeral n.decimals = true := Text.isNumeral_iff.mpr ⟨hdecimals, n.isDigit_decimals⟩
  unfold parse?
  simp only [hsign, Bool.decide_eq_true, hrest, hcut, n.isNumeral_whole, hnumeral, Bool.and_self, if_true]
  rfl

/-- A fraction is read from a text just if the text is a numeral with a point. -/
theorem parse?_eq_some_iff {s : List Char} {x : Decimal} :
    parse? s = some x ↔ ∃ n : Numeral, n.decimals ≠ [] ∧ n.text = s ∧ n.decimal = x := by
  constructor
  · intro h
    unfold parse? at h
    dsimp only at h
    split at h
    · rename_i whole decimals hcut
      split at h
      · rename_i hnumerals
        cases h
        obtain ⟨hwhole, hdecimals⟩ := Bool.and_eq_true_iff.mp hnumerals
        obtain ⟨hne, hdigits⟩ := Text.isNumeral_iff.mp hdecimals
        refine ⟨⟨decide (s.head? = some '-'), whole, decimals, hwhole, hdigits⟩, hne, ?_, rfl⟩
        have hrest := Text.cutAt_eq_some hcut
        by_cases hhead : s.head? = some '-'
        · obtain ⟨t, rfl⟩ : ∃ t, s = '-' :: t := by
            cases s with
            | nil => cases hhead
            | cons c t => exact ⟨t, by rw [Option.some.inj hhead]⟩
          have ht : t = whole ++ '.' :: decimals := hrest
          simp [Numeral.text, hne, ht]
        · simp only [hhead, if_false] at hrest
          rw [Numeral.text]
          simp only [hhead, decide_false, Bool.false_eq_true, if_false, hne, List.nil_append]
          exact hrest.symm
      · cases h
    · cases h
  · rintro ⟨n, hdecimals, rfl, rfl⟩
    exact parse?_text n hdecimals

/-! ## Writing -/

/-- The decimals that a fraction is written with. -/
def decimals (x : Decimal) : List Char :=
  if x.places = 0 then [] else Text.padDigits x.places (x.units % 10 ^ x.places)

theorem length_decimals (x : Decimal) : x.decimals.length = x.places := by
  unfold decimals
  split
  · rename_i h
    exact h.symm
  · rename_i h
    exact Text.length_padDigits (Nat.pos_of_ne_zero h) (Nat.mod_lt _ (Nat.pow_pos (by decide)))

theorem digitsValue_decimals (x : Decimal) : Text.digitsValue x.decimals = x.units % 10 ^ x.places := by
  unfold decimals
  split
  · rename_i h
    rw [h, Nat.pow_zero, Nat.mod_one]
    rfl
  · exact Text.digitsValue_padDigits _ _

theorem isDigit_decimals (x : Decimal) : ∀ c ∈ x.decimals, c.isDigit = true := by
  intro c hc
  unfold decimals at hc
  split at hc
  · cases hc
  · exact Text.isDigit_padDigits hc

/-- The numeral that a fraction is written as. -/
def numeral (x : Decimal) : Numeral where
  minus := x.negative && x.units != 0
  whole := Text.natDigits (x.units / 10 ^ x.places)
  decimals := x.decimals
  isNumeral_whole := Text.isNumeral_natDigits _
  isDigit_decimals := x.isDigit_decimals

theorem text_numeral (x : Decimal) : x.numeral.text = x.text := by
  have hmagnitude : x.numeral.whole ++ (if x.numeral.decimals = [] then [] else '.' :: x.numeral.decimals) =
      x.magnitude := by
    rw [magnitude]
    congr 1
    show (if x.decimals = [] then [] else '.' :: x.decimals) = _
    have hnil : x.decimals = [] ↔ x.places = 0 := by
      rw [← List.length_eq_zero_iff, length_decimals]
    simp only [hnil]
    split
    · rfl
    · rename_i hplaces
      rw [decimals, if_neg hplaces]
      rfl
  rw [Numeral.text, List.append_assoc, hmagnitude, text]
  cases hsign : x.negative && x.units != 0 <;> simp [numeral, hsign]

theorem isPlain_numeral (x : Decimal) : x.numeral.IsPlain := Text.natDigits_eq_zero_or_head?_ne _

/-- What is written stands for the same number. -/
theorem value_numeral (x : Decimal) : x.numeral.value = x.value := by
  have hunits : x.numeral.decimal.units = x.units := by
    show Text.digitsValue (Text.natDigits (x.units / 10 ^ x.places) ++ x.decimals) = x.units
    rw [Text.digitsValue_append, Text.digitsValue_natDigits, digitsValue_decimals, length_decimals]
    exact Nat.div_add_mod' x.units (10 ^ x.places)
  have hplaces : x.numeral.decimal.places = x.places := x.length_decimals
  rw [← value_decimal, value, value, hunits, hplaces]
  by_cases hzero : x.units = 0
  · rw [hzero, Nat.cast_zero, zero_div, mul_zero, mul_zero]
  · have hsign : x.numeral.decimal.negative = x.negative := by simp [Numeral.decimal, numeral, hzero]
    rw [hsign]

theorem value_eq_zero_iff {x : Decimal} : x.value = 0 ↔ x.units = 0 := by
  have hpow : (10 : ℚ) ^ x.places ≠ 0 := pow_ne_zero _ (by decide)
  rw [value, mul_eq_zero, div_eq_zero_iff, Nat.cast_eq_zero]
  cases x.negative <;> simp [hpow]

/-- A fraction is negative if it has the sign and is not zero. -/
theorem value_neg_iff {x : Decimal} : x.value < 0 ↔ x.negative = true ∧ x.units ≠ 0 := by
  have hmagnitude : (0 : ℚ) ≤ x.units / 10 ^ x.places := div_nonneg (Nat.cast_nonneg _) (pow_nonneg (by decide) _)
  rw [Ne, ← value_eq_zero_iff, value]
  cases x.negative with
  | true =>
    simp only [if_true, neg_one_mul, neg_eq_zero, neg_lt_zero, true_and]
    exact lt_iff_le_and_ne.trans ⟨fun h => h.2.symm, fun h => ⟨hmagnitude, Ne.symm h⟩⟩
  | false => simpa using hmagnitude

end Decimal

end SvgComponent
