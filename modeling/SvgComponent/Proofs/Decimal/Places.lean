/-
  SvgComponent.Proofs.Decimal.Places — the places of a fraction and those of its text.

  A fraction is written with as many digits behind the point as it has places (`parse?_text_places`), and a rounded one
  has no more places than were asked for, so a value that was rounded is not rounded again
  (`roundedValue?_roundedValue?`).
-/

import Mathlib.Data.Nat.Digits.Defs
import SvgComponent.Clean.Rounding
import SvgComponent.Proofs.Text.Cut
import SvgComponent.Proofs.Text.Kinds

namespace SvgComponent

namespace Text

theorem length_padDigits {width n : Nat} (hwidth : 0 < width) (hn : n < 10 ^ width) :
    (padDigits width n).length = width := by
  have hlength : (natDigits n).length ≤ width := Nat.toDigits_length 10 n width hwidth hn
  rw [padDigits, List.length_append, List.length_replicate]
  omega

end Text

namespace Decimal

/-- The digits of a fraction, with the point among them. -/
theorem mem_magnitude {x : Decimal} {c : Char} (hc : c ∈ x.magnitude) : c.isDigit = true ∨ c = '.' := by
  rcases List.mem_append.mp hc with hc | hc
  · exact Or.inl (Text.isDigit_natDigits hc)
  · split at hc
    · cases hc
    · rcases List.mem_cons.mp hc with rfl | hc
      · exact Or.inr rfl
      · exact Or.inl (Text.isDigit_padDigits hc)

theorem not_mem_natDigits {c : Char} (hc : c.isDigit = false) (n : Nat) : c ∉ Text.natDigits n := by
  intro hmem
  rw [Text.isDigit_natDigits hmem] at hc
  cases hc

/-- Behind the point there is one digit for each place. -/
theorem cutAt_magnitude {x : Decimal} {whole decimals : List Char}
    (h : Text.cutAt '.' x.magnitude = some (whole, decimals)) : decimals.length = x.places := by
  unfold magnitude at h
  split at h
  · rw [List.append_nil] at h
    have hmem : '.' ∈ Text.natDigits (x.units / Nat.pow 10 x.places) := by
      rw [Text.cutAt_eq_some h]
      simp
    exact absurd hmem (not_mem_natDigits rfl _)
  · rename_i hplaces
    rw [Text.cutAt_append (not_mem_natDigits rfl _)] at h
    cases h
    exact Text.length_padDigits (Nat.pos_of_ne_zero hplaces) (Nat.mod_lt _ (Nat.pow_pos (by decide)))

/-- What is read from the text of a fraction has its places. -/
theorem parse?_text_places {x y : Decimal} (h : parse? x.text = some y) : y.places = x.places := by
  have hunsigned : (if x.text.head? = some '-' then x.text.drop 1 else x.text) = x.magnitude := by
    unfold text
    split
    · rfl
    · refine if_neg fun hhead => ?_
      rcases mem_magnitude (List.mem_of_mem_head? hhead) with hdigit | hpoint
      · cases hdigit
      · cases hpoint
  unfold parse? at h
  simp only [hunsigned] at h
  split at h
  · rename_i whole decimals hcut
    split at h
    · cases h
      exact cutAt_magnitude hcut
    · cases h
  · cases h

end Decimal

namespace Markup

/-- A rounded value has no more places than were asked for. -/
theorem roundedValue?_roundedValue? {places : Nat} {value v : String} (h : roundedValue? places value = some v) :
    roundedValue? places v = none := by
  unfold roundedValue? at h
  split at h
  · rename_i x _
    split at h
    · rename_i hplaces
      cases h
      have hround : (x.round .away places).places = places := by
        unfold Decimal.round
        rw [if_pos hplaces]
      unfold roundedValue?
      rw [String.toList_ofList]
      split
      · rename_i y hy
        rw [if_neg]
        rw [Decimal.parse?_text_places hy, hround]
        exact Nat.lt_irrefl places
      · rfl
    · cases h
  · cases h

end Markup

end SvgComponent
