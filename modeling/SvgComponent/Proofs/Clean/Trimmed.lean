/-
  SvgComponent.Proofs.Clean.Trimmed — what trimming the texts of a document leaves.

  Every attached text is trimmed where it stands, and goes with all below it if that leaves nothing
  (`content_trimTexts`, `below_trimTexts_iff`). Two texts are passed over. A text that is empty already has nothing to
  trim, and stays; the root cannot be detached, so a blank text that was put in its place stays as it is. With
  `trimTexts_tight` these are the only ones: all texts left are tight if there is no blank root, and no empty text but
  below a blank one. Nothing else is lost of what hangs below elements only.
-/

import SvgComponent.Proofs.Clean.Accounting
import SvgComponent.Proofs.Clean.Unused

namespace SvgComponent.Markup

/-- A text that is not empty, and has a blank neither first nor last. -/
structure IsTight (s : String) : Prop where
  filled : s ≠ ""
  first : ∀ c ∈ s.toList.head?, Text.isBlank c = false
  last : ∀ c ∈ s.toList.getLast?, Text.isBlank c = false

/-- A text of nothing but blanks, and some. -/
def Content.IsBlank (c : Content) : Prop := ∃ s, c = .text s ∧ s ≠ "" ∧ Text.allBlank s = true

/-- What becomes of the content of a node that is trimmed; what is left empty is detached as it is. -/
def Content.settled (c : Content) : Content := if c.vanishes then c else c.trimmed

/-! ## Texts -/

theorem isTight_iff {s : String} : IsTight s ↔ s ≠ "" ∧ Text.trimmed s = s := by
  have htrimmed : Text.trimmed s = s ↔ Text.trim s.toList = s.toList := by
    rw [Text.trimmed, ← String.toList_inj, String.toList_ofList]
  rw [htrimmed, Text.trim, Text.trimWhile_eq_self_iff, Text.Stops, Text.Stops, List.head?_reverse]
  exact ⟨fun h => ⟨h.filled, h.first, h.last⟩, fun h => ⟨h.1, h.2.1, h.2.2⟩⟩

theorem trimmed_eq_empty_iff {s : String} : Text.trimmed s = "" ↔ Text.allBlank s = true := by
  rw [← Text.isEmpty_trim, List.isEmpty_iff, Text.trimmed, ← String.toList_inj, String.toList_ofList]
  rfl

theorem vanishes_iff {c : Content} : c.vanishes = true ↔ c.IsBlank := by
  cases c with
  | text s =>
    simp only [Content.vanishes, Content.trimmed, Content.IsBlank, Bool.and_eq_true, bne_iff_ne, beq_iff_eq, ne_eq,
      Content.text.injEq, exists_eq_left']
    rw [← trimmed_eq_empty_iff]
    constructor
    · intro h
      exact ⟨fun hs => h.1 (h.2.trans hs.symm), h.2⟩
    · intro h
      exact ⟨fun hs => h.1 (hs.symm.trans h.2), h.2⟩
  | _ => simp [Content.vanishes, Content.trimmed, Content.IsBlank]

theorem Content.IsBlank.isElement {c : Content} (h : c.IsBlank) : c.isElement = false := by
  obtain ⟨s, rfl, -⟩ := h
  rfl

theorem not_isBlank_empty : ¬ (Content.text "").IsBlank := by
  rintro ⟨s, hs, hne, -⟩
  exact hne (Content.text.inj hs).symm

theorem not_isTight_of_isBlank {s : String} (h : (Content.text s).IsBlank) : ¬ IsTight s := by
  obtain ⟨t, hst, hne, hblank⟩ := h
  cases hst
  intro htight
  exact hne ((isTight_iff.mp htight).2.symm.trans (trimmed_eq_empty_iff.mpr hblank))

/-- What is trimmed and not empty is tight. -/
theorem isTight_trimmed {s : String} (h : ¬ (Content.text s).IsBlank) (hne : s ≠ "") : IsTight (Text.trimmed s) :=
  isTight_iff.mpr ⟨fun hs => h ⟨s, rfl, hne, trimmed_eq_empty_iff.mp hs⟩, Text.trimmed_trimmed s⟩

theorem Content.settled_of_isBlank {c : Content} (h : c.IsBlank) : c.settled = c := if_pos (vanishes_iff.mpr h)

theorem Content.settled_of_not_isBlank {c : Content} (h : ¬ c.IsBlank) : c.settled = c.trimmed :=
  if_neg fun hv => h (vanishes_iff.mp hv)

/-- Only texts become texts. -/
theorem Content.settled_eq_text {c : Content} {s : String} (h : c.settled = .text s) : ∃ t, c = .text t := by
  unfold Content.settled at h
  cases c with
  | text t => exact ⟨t, rfl⟩
  | _ =>
    split at h
    · cases h
    · cases h

namespace Document

variable {d : Document} {i : Nat}

/-! ## Nodes -/

theorem content_trimText_settled (d : Document) (i j : Nat) :
    (d.trimText i).1.content j = if j = i then (d.content j).settled else d.content j := by
  split
  · rename_i hji
    subst hji
    rw [trimText_eq, Content.settled, Content.vanishes]
    by_cases hsame : (d.content j).trimmed = d.content j
    · simp [hsame]
    · by_cases hempty : (d.content j).trimmed = .text ""
      · rw [if_neg hsame, if_pos hempty, content_detach, hempty, if_pos]
        rw [Bool.and_eq_true, bne_iff_ne]
        exact ⟨hempty ▸ hsame, beq_self_eq_true _⟩
      · have hsize : j < d.size := by
          apply lt_size_of_ne
          intro hc
          rw [hc] at hsame
          exact hsame rfl
        have hstays : ((d.content j).trimmed == .text "") = false := beq_eq_false_iff_ne.mpr hempty
        rw [if_neg hsame, if_neg hempty, hstays, Bool.and_false, if_neg Bool.false_ne_true]
        exact (Forest.content_setContent hsize _ j).trans (if_pos rfl)
  · rename_i hji
    exact content_trimText (Ne.symm hji) d

/-- Every attached node is settled once. -/
theorem content_trimTexts (hi : d.Below 0 i) : d.trimTexts.1.content i = (d.content i).settled := by
  have h := content_forEach (d.nodup_descendants 0) content_trimText_settled d i
  rwa [if_pos (mem_descendants_iff.mpr hi)] at h

/-- A blank text goes with all below it, and nothing else does; but the root stays. -/
theorem below_trimTexts_iff : d.trimTexts.1.Below 0 i ↔
    d.Below 0 i ∧ ∀ a, a ≠ 0 → d.Below a i → ¬ (d.content a).IsBlank := by
  have ht := takes_trimTexts d
  constructor
  · intro hi
    refine ⟨ht.below hi, fun a ha hai hblank => ?_⟩
    have hattached : d.trimTexts.1.Below 0 a := hi.of_attached (ht.below_of_attached hi hai)
    apply Cuts.parent?_ne_none hattached ha
    rw [parent?_trimTexts, if_pos]
    exact List.mem_filter.mpr ⟨mem_descendants_iff.mpr (ht.below hattached), vanishes_iff.mpr hblank⟩
  · rintro ⟨hi, hkept⟩
    induction hi with
    | refl => exact .refl _ 0
    | @tail p c hp hc ih =>
      refine (ih fun a ha hap => hkept a ha (hap.child hc)).child ?_
      have hne : c ≠ 0 := Nat.ne_of_gt (Nat.zero_lt_of_lt (d.linked.lt_of_mem_children hc))
      rw [d.trimTexts.1.linked.mem_children_iff, parent?_trimTexts, if_neg]
      · exact (d.linked.mem_children_iff p c).mp hc
      · intro hmem
        exact hkept c hne (.refl d c) (vanishes_iff.mp (List.mem_filter.mp hmem).2)

/-- A text that stays attached is trimmed, unless it is blank and stands in the place of the root. -/
theorem text_trimTexts {s : String} (hi : d.trimTexts.1.Below 0 i) (hs : d.trimTexts.1.content i = .text s) :
    ∃ t, d.content i = .text t ∧
      (¬ (d.content i).IsBlank ∧ s = Text.trimmed t ∨ i = 0 ∧ s = t ∧ (d.content 0).IsBlank) := by
  obtain ⟨hbefore, hkept⟩ := below_trimTexts_iff.mp hi
  rw [content_trimTexts hbefore] at hs
  obtain ⟨t, ht⟩ := Content.settled_eq_text hs
  refine ⟨t, ht, ?_⟩
  by_cases hblank : (d.content i).IsBlank
  · have hroot : i = 0 := by
      by_contra hne
      exact hkept i hne (.refl d i) hblank
    subst hroot
    rw [Content.settled_of_isBlank hblank, ht] at hs
    exact Or.inr ⟨rfl, (Content.text.inj hs).symm, hblank⟩
  · rw [Content.settled_of_not_isBlank hblank, ht] at hs
    exact Or.inl ⟨hblank, (Content.text.inj hs).symm⟩

theorem attached_of_elements (hi : d.Below 0 i) (hother : ∀ s, d.content i ≠ .text s)
    (habove : ∀ a ∈ d.ancestors i, (d.content a).isElement = true) :
    d.trimTexts.1.Below 0 i ∧ d.trimTexts.1.content i = d.content i := by
  have hself : ¬ (d.content i).IsBlank := fun ⟨s, hs, _⟩ => hother s hs
  refine ⟨below_trimTexts_iff.mpr ⟨hi, fun a _ ha hblank => ?_⟩, ?_⟩
  · by_cases heq : a = i
    · exact hself (heq ▸ hblank)
    · have helement := habove a (mem_ancestors_iff.mpr ⟨heq, ha⟩)
      rw [hblank.isElement] at helement
      cases helement
  · rw [content_trimTexts hi, Content.settled_of_not_isBlank hself]
    cases hc : d.content i with
    | text s => exact absurd hc (hother s)
    | _ => rfl

/-- An empty text goes only with a blank one above it. -/
theorem attached_of_empty (hi : d.Below 0 i) (hempty : d.content i = .text "")
    (habove : ¬ ∃ a ∈ d.ancestors i, a ≠ 0 ∧ (d.content a).IsBlank) :
    d.trimTexts.1.Below 0 i ∧ d.trimTexts.1.content i = .text "" := by
  have hself : ¬ (d.content i).IsBlank := hempty ▸ not_isBlank_empty
  refine ⟨below_trimTexts_iff.mpr ⟨hi, fun a hne ha hblank => ?_⟩, ?_⟩
  · by_cases heq : a = i
    · exact hself (heq ▸ hblank)
    · exact habove ⟨a, mem_ancestors_iff.mpr ⟨heq, ha⟩, hne, hblank⟩
  · rw [content_trimTexts hi, Content.settled_of_not_isBlank hself, hempty]
    rfl

/-- The texts that are left are tight exactly if the root is no blank text, and every empty text goes with a blank one
    above it. Of what hangs below elements only, nothing but texts goes, and a text that stays is trimmed. -/
theorem trimTexts_tight (d : Document) :
    ((∀ i s, d.trimTexts.1.isAttached i = true → d.trimTexts.1.content i = .text s → IsTight s) ↔
      ¬ (d.content 0).IsBlank ∧ ∀ i, d.isAttached i = true → d.content i = .text "" →
        ∃ a ∈ d.ancestors i, a ≠ 0 ∧ (d.content a).IsBlank) ∧
    (∀ i, d.isAttached i = true → (∀ s, d.content i ≠ .text s) → (∀ a ∈ d.ancestors i, (d.content a).isElement = true) →
      d.trimTexts.1.isAttached i = true ∧ d.trimTexts.1.content i = d.content i) ∧
    ∀ i s, d.trimTexts.1.isAttached i = true → d.trimTexts.1.content i = .text s → ∃ t, d.content i = .text t ∧
      (s = Text.trimmed t ∨ i = 0 ∧ s = t ∧ (d.content 0).IsBlank) := by
  simp only [isAttached_iff]
  refine ⟨⟨fun htight => ⟨fun hblank => ?_, fun i hi hempty => ?_⟩, ?_⟩, fun i => attached_of_elements, ?_⟩
  · obtain ⟨s, hs, -⟩ := id hblank
    have hafter : d.trimTexts.1.content 0 = .text s := by
      rw [content_trimTexts (.refl d 0), Content.settled_of_isBlank hblank, hs]
    exact not_isTight_of_isBlank (hs ▸ hblank) (htight 0 s (.refl _ 0) hafter)
  · by_contra habove
    obtain ⟨hkept, hafter⟩ := attached_of_empty hi hempty habove
    exact (htight i "" hkept hafter).filled rfl
  · rintro ⟨hroot, hempty⟩ i s hi hs
    obtain ⟨t, ht, ⟨hblank, rfl⟩ | ⟨-, -, hblank⟩⟩ := text_trimTexts hi hs
    · refine isTight_trimmed (ht ▸ hblank) ?_
      rintro rfl
      obtain ⟨hbefore, hkept⟩ := below_trimTexts_iff.mp hi
      obtain ⟨a, ha, hne, habove⟩ := hempty i hbefore ht
      exact hkept a hne (mem_ancestors_iff.mp ha).2 habove
    · exact absurd hblank hroot
  · intro i s hi hs
    obtain ⟨t, ht, ⟨-, htrimmed⟩ | hroot⟩ := text_trimTexts hi hs
    · exact ⟨t, ht, Or.inl htrimmed⟩
    · exact ⟨t, ht, Or.inr hroot⟩

/-- An empty text stays, and so does a blank one in the place of the root; the pass counts the second, though. -/
theorem trimTexts_passes_over :
    (((single (.element (.named "svg"))).append 0 (.text "")).trimTexts.1.isAttached 1 = true ∧
      ((single (.element (.named "svg"))).append 0 (.text "")).trimTexts.1.content 1 = .text "") ∧
    (((single (.element (.named "svg"))).setContent 0 (.text " ")).trimTexts.1.content 0 = .text " " ∧
      ((single (.element (.named "svg"))).setContent 0 (.text " ")).trimTexts.2 = 1) := by
  decide +kernel

end Document

end SvgComponent.Markup
