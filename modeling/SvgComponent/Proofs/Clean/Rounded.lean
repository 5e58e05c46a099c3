/-
  SvgComponent.Proofs.Clean.Rounded — which attribute values are rounded, and to what.

  A value is rewritten just if it is a numeral with more decimals than asked for. The new value is a numeral with as
  many decimals as asked for, and its number is the old one rounded, ties away from zero; its digits are the old ones
  with one carried into them where they are cut off (`Rounds`, `rounds_roundedValue?`). The pass does that to every
  attribute of every attached element and nothing else to an element (`content_roundValues`).
-/

import SvgComponent.Proofs.Clean.Editing
import SvgComponent.Proofs.Decimal.Carry
import SvgComponent.Proofs.Decimal.Nearest
import SvgComponent.Proofs.Markup.Reading

namespace SvgComponent

namespace Decimal

/-- A fraction is written with a minus just if it is negative. -/
theorem minus_numeral {x : Decimal} : x.numeral.minus = true ↔ x.value < 0 := by
  rw [value_neg_iff, numeral, Bool.and_eq_true, bne_iff_ne]

theorem value_round_eq_zero {p : Nat} {x : Decimal} (h : p < x.places) (hx : x.value = 0) :
    (x.round .away p).value = 0 := by
  have hnearest := (isRounded_round h).nearest 0
  rw [hx, Int.cast_zero, zero_div, sub_zero, abs_zero, zero_sub, abs_neg] at hnearest
  exact abs_nonpos_iff.mp hnearest

/-- Rounding keeps the sign, unless the result is zero. -/
theorem value_round_neg_iff {p : Nat} {x : Decimal} (h : p < x.places) :
    (x.round .away p).value < 0 ↔ x.value < 0 ∧ (x.round .away p).value ≠ 0 := by
  have hsign : (x.round .away p).negative = x.negative := by rw [round, if_pos h]
  rw [value_neg_iff, hsign, value_neg_iff, Ne, Ne, ← value_eq_zero_iff, ← value_eq_zero_iff]
  constructor
  · rintro ⟨hneg, hne⟩
    exact ⟨⟨hneg, fun hx => hne (value_round_eq_zero h hx)⟩, hne⟩
  · rintro ⟨⟨hneg, _⟩, hne⟩
    exact ⟨hneg, hne⟩

end Decimal

namespace Markup

/-- What rounding to `p` decimals makes of the value `v`. -/
structure Rounds (p : Nat) (v w : String) : Prop where
  rewritten_iff : w ≠ v ↔ ∃ n : Numeral, n.text = v.toList ∧ p < n.decimals.length
  rounded : ∀ n : Numeral, n.text = v.toList → p < n.decimals.length →
    ∃ m : Numeral, m.text = w.toList ∧ IsRounded p n.value m.value ∧ m.decimals.length = p ∧ m.IsPlain ∧
      (m.minus = true ↔ n.value < 0 ∧ m.value ≠ 0)
  carried : ∀ n : Numeral, n.text = v.toList → p < n.decimals.length →
    w.toList = Decimal.roundedText n.minus p n.whole n.decimals

variable {p : Nat} {v : String}

theorem roundedValue?_text {n : Numeral} (hn : n.text = v.toList) (hp : p < n.decimals.length) :
    roundedValue? p v = some (String.ofList (n.decimal.round .away p).text) := by
  have hdecimals : n.decimals ≠ [] := List.ne_nil_of_length_pos (Nat.zero_lt_of_lt hp)
  rw [roundedValue?, ← hn, Decimal.parse?_text n hdecimals]
  exact if_pos hp

theorem exists_numeral_of_roundedValue? {w : String} (h : roundedValue? p v = some w) :
    ∃ n : Numeral, n.text = v.toList ∧ p < n.decimals.length := by
  unfold roundedValue? at h
  split at h
  · rename_i x hx
    obtain ⟨n, _, hn, rfl⟩ := Decimal.parse?_eq_some_iff.mp hx
    split at h
    · rename_i hp
      exact ⟨n, hn, hp⟩
    · cases h
  · cases h

theorem rounds_roundedValue? (p : Nat) (v : String) : Rounds p v ((roundedValue? p v).getD v) where
  rewritten_iff := by
    constructor
    · intro hne
      cases h : roundedValue? p v with
      | none =>
        rw [h] at hne
        exact absurd rfl hne
      | some w => exact exists_numeral_of_roundedValue? h
    · rintro ⟨n, hn, hp⟩ heq
      -- A rounded value is not rounded again, so it is another one.
      have h := roundedValue?_text hn hp
      rw [h, Option.getD_some] at heq
      have hagain := roundedValue?_roundedValue? h
      rw [heq, h] at hagain
      cases hagain
  rounded := by
    intro n hn hp
    have hplaces : p < n.decimal.places := hp
    refine ⟨(n.decimal.round .away p).numeral, ?_, ?_, ?_, Decimal.isPlain_numeral _, ?_⟩
    · rw [roundedValue?_text hn hp, Option.getD_some, String.toList_ofList, Decimal.text_numeral]
    · rw [Decimal.value_numeral, ← Decimal.value_decimal]
      exact Decimal.isRounded_round hplaces
    · exact (Decimal.length_decimals _).trans (Decimal.places_round hplaces)
    · rw [Decimal.minus_numeral, Decimal.value_numeral, ← Decimal.value_decimal]
      exact Decimal.value_round_neg_iff hplaces
  carried := by
    intro n hn hp
    rw [roundedValue?_text hn hp, Option.getD_some, String.toList_ofList, Decimal.text_round n hp]

/-- Rounding leaves an element with its name and its attributes, in their order, each with its value rounded. -/
theorem Document.content_roundValues (p : Nat) {d : Document} {i : Nat} {e : Element} (hi : d.isAttached i = true)
    (he : d.content i = .element e) :
    ∃ e', (d.roundValues p).1.content i = .element e' ∧ e'.name = e.name ∧
      List.Forall₂ (fun a a' => a'.name = a.name ∧ Rounds p a.value a'.value) e.attributes e'.attributes := by
  have hcontent := content_edited_of_below (f := Element.replaceValues fun a => roundedValue? p a.value)
    (isAttached_iff.mp hi)
  rw [he] at hcontent
  refine ⟨_, hcontent, rfl, ?_⟩
  dsimp only [Element.replaceValues]
  rw [List.forall₂_map_right_iff, List.forall₂_same]
  intro a _
  have hrounds := rounds_roundedValue? p a.value
  cases h : roundedValue? p a.value with
  | none =>
    rw [h] at hrounds
    exact ⟨rfl, hrounds⟩
  | some w =>
    rw [h] at hrounds
    exact ⟨rfl, hrounds⟩

/-- A carry through the point, a sign that goes with the last digit, a value that is no numeral, and a tie. -/
theorem Document.content_roundValues_carry :
    ∃ d, Document.parse "<svg viewBox=\"0 0 1 1\"><a b=\"9.996\" c=\"-0.004\" d=\"-.5\" e=\"-00.125\"/></svg>" = .ok d ∧
      ∃ e ∈ d.element? 1, e.attributes.map (·.value) = ["9.996", "-0.004", "-.5", "-00.125"] ∧
        ∃ e' ∈ (d.roundValues 2).1.element? 1, e'.attributes.map (·.value) = ["10.00", "0.00", "-.5", "-0.13"] ∧
          List.Forall₂ (fun a a' => a'.name = a.name ∧ Rounds 2 a.value a'.value) e.attributes e'.attributes := by
  obtain ⟨d, hd, h1, e, he, hold, e', he', hnew⟩ : ∃ d, Document.parse
      "<svg viewBox=\"0 0 1 1\"><a b=\"9.996\" c=\"-0.004\" d=\"-.5\" e=\"-00.125\"/></svg>" = .ok d ∧
      d.isAttached 1 = true ∧
      ∃ e ∈ d.element? 1, e.attributes.map (·.value) = ["9.996", "-0.004", "-.5", "-00.125"] ∧
        ∃ e' ∈ (d.roundValues 2).1.element? 1, e'.attributes.map (·.value) = ["10.00", "0.00", "-.5", "-0.13"] := by
    decide +kernel
  obtain ⟨edited, hedited, _, hrounds⟩ := content_roundValues 2 h1 (Change.element?_eq_some.mp he)
  rw [Change.element?_eq_some.mp he'] at hedited
  cases hedited
  exact ⟨d, hd, e, he, hold, e', he', hnew, hrounds⟩

end Markup

end SvgComponent
