/-
  SvgComponent.Proofs.Clean.Values — the values that passes write refer to nothing.

  A reference needs a parenthesis or a number sign at its beginning. Rounded values have neither, and a color begins
  with a number sign but stands where only the first kind counts.
-/

import SvgComponent.Analysis.Reference
import SvgComponent.Clean.Colors
import SvgComponent.Proofs.Decimal.Places
import SvgComponent.Proofs.Text.Blank

namespace SvgComponent.Markup

open Analysis (attributeReferences)

/-! ## Texts without parentheses -/

theorem targets_eq_nil {s : List Char} (h : '(' ∉ s) : Analysis.targets s = [] := by
  unfold Analysis.targets
  split
  · rfl
  · rename_i a after hcut
    refine absurd ?_ h
    rw [Text.cutBefore_eq_some hcut]
    simp

theorem references_eq_nil {s : List Char} (h : '(' ∉ s) : Analysis.references (String.ofList s) = [] := by
  rw [Analysis.references, String.toList_ofList, targets_eq_nil h, List.map_nil]

theorem fragment?_eq_none {s : List Char} (h : '#' ∉ s) : Analysis.fragment? (Text.trim s) = none := by
  unfold Analysis.fragment?
  split
  · rename_i id heq
    exact absurd (Text.trimWhile_subset _ _ (heq ▸ List.mem_cons_self)) h
  · rfl

/-! ## Rounded values -/

/-- The text of a fraction has digits, a point and a sign. -/
theorem mem_text {x : Decimal} {c : Char} (hc : c ∈ x.text) : c.isDigit = true ∨ c = '.' ∨ c = '-' := by
  unfold Decimal.text at hc
  split at hc
  · rcases List.mem_cons.mp hc with rfl | hc
    · exact Or.inr (Or.inr rfl)
    · exact (Decimal.mem_magnitude hc).imp_right Or.inl
  · exact (Decimal.mem_magnitude hc).imp_right Or.inl

theorem roundedValue_refers_not {places : Nat} {value v : String} (h : roundedValue? places value = some v)
    (name : Name) : attributeReferences ⟨name, v⟩ = [] := by
  obtain ⟨x, rfl⟩ : ∃ x : Decimal, v = String.ofList x.text := by
    unfold roundedValue? at h
    split at h
    · split at h
      · exact ⟨_, (Option.some.inj h).symm⟩
      · cases h
    · cases h
  have hparen : '(' ∉ x.text := fun hc => by rcases mem_text hc with h | h | h <;> revert h <;> decide
  have hsign : '#' ∉ x.text := fun hc => by rcases mem_text hc with h | h | h <;> revert h <;> decide
  unfold attributeReferences
  rw [references_eq_nil hparen, String.toList_ofList, fragment?_eq_none hsign]
  simp

/-! ## Colors -/

theorem hexPair_ne {n : Nat} {c : Char} (hn : n ≤ 255) (hc : c ∈ Text.hexPair n) : c ≠ '(' := by
  have digit : ∀ m : Fin 16, Text.hexDigit m ≠ '(' := by decide
  rcases List.mem_cons.mp hc with rfl | hc
  · exact digit ⟨n / 16, by omega⟩
  · obtain rfl := List.mem_singleton.mp hc
    exact digit ⟨n % 16, by omega⟩

theorem channel?_le {s : List Char} {n : Nat} (h : channel? s = some n) : n ≤ 255 := by
  unfold channel? at h
  dsimp only at h
  split at h
  · rename_i hn
    cases h
    exact hn.2
  · cases h

theorem rgbToHex?_ne {s t : List Char} (h : rgbToHex? s = some t) : '(' ∉ t := by
  unfold rgbToHex? at h
  rw [Option.bind_eq_bind, Option.bind_eq_some_iff] at h
  obtain ⟨inner, _, h⟩ := h
  split at h
  · rename_i r g b _
    simp only [Option.bind_eq_bind, Option.bind_eq_some_iff, Option.pure_def, Option.some.injEq] at h
    obtain ⟨r, hr, g, hg, b, hb, rfl⟩ := h
    intro hc
    simp only [List.mem_cons, List.mem_append, List.cons_append] at hc
    rcases hc with hc | (hc | hc) | hc
    · cases hc
    · exact hexPair_ne (channel?_le hr) hc rfl
    · exact hexPair_ne (channel?_le hg) hc rfl
    · exact hexPair_ne (channel?_le hb) hc rfl
  · cases h

theorem hexColor_refers_not {a : Attribute} {v : String} (h : a.hexColor? = some v) :
    attributeReferences { a with value := v } = [] := by
  unfold Attribute.hexColor? at h
  split at h
  · rename_i hname
    obtain ⟨t, ht, rfl⟩ := Option.map_eq_some_iff.mp h
    have hbase : a.name.base ≠ "href" := by
      rw [Bool.or_eq_true] at hname
      simp only [Name.is, Bool.and_eq_true, beq_iff_eq] at hname
      rcases hname with ⟨_, h⟩ | ⟨_, h⟩ <;> rw [h] <;> decide
    unfold attributeReferences
    rw [references_eq_nil (rgbToHex?_ne ht), if_neg hbase]
    simp
  · cases h

end SvgComponent.Markup
