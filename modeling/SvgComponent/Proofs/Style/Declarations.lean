/-
  SvgComponent.Proofs.Style.Declarations — what the declarations of a style attribute are made of.

  Splitting and trimming only take characters away (`subset_of_mem_parseDeclarations`). The class that a style is
  extracted to has nothing of it, only letters, digits and underscores (`mem_extractedClass`).
-/

import SvgComponent.Proofs.Text.Blank
import SvgComponent.Proofs.Text.Kinds
import SvgComponent.Style.Sheet

namespace SvgComponent.Style

theorem eq_or_eq_cons_of_mem_modifyHead {c : Char} {t : List Char} {ps : List (List Char)}
    (h : t ∈ ps.modifyHead (c :: ·)) : ∃ u ∈ ps, t = u ∨ t = c :: u := by
  cases ps with
  | nil => cases h
  | cons u ps =>
    rcases List.mem_cons.mp h with rfl | h
    · exact ⟨u, List.mem_cons_self, Or.inr rfl⟩
    · exact ⟨t, List.mem_cons_of_mem u h, Or.inl rfl⟩

theorem subset_of_mem_splitFrom {q : Option Char} {n : Nat} {s t : List Char} (h : t ∈ splitFrom q n s) : t ⊆ s := by
  induction s generalizing q n t with
  | nil =>
    rw [splitFrom, List.mem_singleton] at h
    exact h ▸ List.Subset.refl _
  | cons c s ih =>
    have hkeep : ∀ q' n', t ∈ (splitFrom q' n' s).modifyHead (c :: ·) → t ⊆ c :: s := by
      intro q' n' h
      obtain ⟨u, hu, rfl | rfl⟩ := eq_or_eq_cons_of_mem_modifyHead h
      · exact List.Subset.trans (ih hu) (List.subset_cons_self c s)
      · exact List.cons_subset_cons c (ih hu)
    unfold splitFrom at h
    split at h
    · exact hkeep _ _ h
    · split_ifs at h
      · rcases List.mem_cons.mp h with rfl | h
        · exact List.nil_subset _
        · exact List.Subset.trans (ih h) (List.subset_cons_self c s)
      all_goals exact hkeep _ _ h

theorem subset_of_parse? {s : List Char} {d : Declaration} (h : Declaration.parse? s = some d) :
    d.property ++ d.value ⊆ s := by
  unfold Declaration.parse? at h
  split at h
  · rename_i property value hcut
    dsimp only at h
    split at h
    · cases h
    · cases h
      rw [Text.cutAt_eq_some hcut]
      apply List.append_subset.mpr
      refine ⟨?_, ?_⟩
      · exact List.Subset.trans (Text.trimWhile_subset _ property) (List.subset_append_left _ _)
      · have hvalue := List.Subset.trans (Text.trimWhile_subset Text.isBlank value) (List.subset_cons_self ':' value)
        exact List.Subset.trans hvalue (List.subset_append_right _ _)
  · cases h

/-- Properties and values hold characters of the attribute only. -/
theorem subset_of_mem_parseDeclarations {s : String} {d : Declaration} (h : d ∈ parseDeclarations s) :
    d.property ++ d.value ⊆ s.toList := by
  obtain ⟨t, ht, hd⟩ := List.mem_filterMap.mp h
  exact List.Subset.trans (subset_of_parse? hd) (subset_of_mem_splitFrom ht)

theorem mem_extractedClass {k : Nat} {c : Char} (hc : c ∈ extractedClass k) : c.isAlphanum = true ∨ c = '_' := by
  rcases List.mem_append.mp hc with hc | hc
  · exact (show ∀ c ∈ ['s', 'v', 'g', '_', 'e', 'l', 'e', 'm', 'e', 'n', 't', '_'], c.isAlphanum = true ∨ c = '_' by
      decide) c hc
  · exact Or.inl (Text.isAlphanum_of_isDigit (Text.isDigit_natDigits hc))

end SvgComponent.Style
