/-
  SvgComponent.Proofs.Component.Hollow — the pass over groups that takes away those without content.

  Groups are judged from the last to the first, when what they hold has been judged already. So a group is empty at its
  turn just if from the beginning of the pass there was nothing below it but groups and blank text
  (`CutOff.isEmptyGroup_iff`), and one pass is enough (`cutOff_forEach`).
-/

import SvgComponent.Proofs.Component.Leftovers

namespace SvgComponent.Markup

/-- A group or definitions, without a namespace. -/
def Content.isGroup : Content → Bool
  | .element e => e.is "g" || e.is "defs"
  | _ => false

theorem Content.isGroup_edited (c : Content) : (c.edited Element.tidy).isGroup = c.isGroup := by
  cases c <;> rfl

theorem Content.isBlankText_edited (c : Content) : (c.edited Element.tidy).isBlankText = c.isBlankText := by
  cases c <;> rfl

theorem Content.isElement_of_isBlankText {c : Content} (h : c.isBlankText = true) : c.isElement = false := by
  cases c <;> first | rfl | cases h

namespace Document

/-- Nodes that are not elements have no children. -/
def OnlyElementsHold (d : Document) : Prop :=
  ∀ i ∈ d.descendants 0, (d.content i).isElement = false → d.children i = []

instance (d : Document) : Decidable d.OnlyElementsHold :=
  inferInstanceAs (Decidable (∀ i ∈ d.descendants 0, (d.content i).isElement = false → d.children i = []))

/-- A group that has nothing below but groups and blank text. -/
def IsBarren (d : Document) (i : Nat) : Prop :=
  (d.content i).isGroup = true ∧
    ∀ m, d.Below i m → (d.content m).isGroup = true ∨ (d.content m).isBlankText = true

variable {d : Document} {i : Nat}

theorem OnlyElementsHold.eq_of_below (h : d.OnlyElementsHold) (hi : d.Below 0 i)
    (helement : (d.content i).isElement = false) {m : Nat} (hm : d.Below i m) : m = i := by
  cases hm.cases_head with
  | inl heq => exact heq.symm
  | inr hc =>
    obtain ⟨c, hc, _⟩ := hc
    rw [h i (mem_descendants_iff.mpr hi) helement] at hc
    cases hc

theorem isEmptyGroup_iff : d.isEmptyGroup i = true ↔
    (d.content i).isGroup = true ∧ ∀ c ∈ d.children i, (d.content c).isBlankText = true := by
  rw [isEmptyGroup, isHollow, Bool.and_eq_true, List.all_eq_true, Forest.element?]
  cases d.content i <;> simp [Content.isGroup, Content.element?]

/-- A group is barren if its children are. -/
theorem isBarren_iff (h : d.OnlyElementsHold) (hi : d.Below 0 i) : d.IsBarren i ↔
    (d.content i).isGroup = true ∧ ∀ c ∈ d.children i, d.IsBarren c ∨ (d.content c).isBlankText = true := by
  constructor
  · rintro ⟨hgroup, hbelow⟩
    refine ⟨hgroup, fun c hc => ?_⟩
    refine (hbelow c (below_of_mem_children hc)).imp_left fun hcgroup => ⟨hcgroup, fun m hm => ?_⟩
    exact hbelow m ((below_of_mem_children hc).trans hm)
  · rintro ⟨hgroup, hchildren⟩
    refine ⟨hgroup, fun m hm => ?_⟩
    cases hm.cases_head with
    | inl heq => exact Or.inl (heq ▸ hgroup)
    | inr hc =>
      obtain ⟨c, hc, hcm⟩ := hc
      rcases hchildren c hc with hbarren | hblank
      · exact hbarren.2 m hcm
      · have heq := h.eq_of_below (hi.child hc) (Content.isElement_of_isBlankText hblank) hcm
        exact Or.inr (heq ▸ hblank)

end Document

/-! ## The pass over groups -/

section

variable {d d' : Document} {visited : List Nat} {i : Nat}

/-- When the children of a group have been visited, it is empty just if it was barren at first. -/
theorem CutOff.isEmptyGroup_iff (h : CutOff (fun v => v ≠ 0 ∧ d.IsBarren v) visited d d')
    (hcontent : ∀ j, d'.content j = d.content j) (hleaf : d.OnlyElementsHold) (hi : d'.Below 0 i)
    (hvisited : ∀ c ∈ d.children i, c ∈ visited) : d'.isEmptyGroup i = true ↔ d.IsBarren i := by
  rw [Document.isEmptyGroup_iff, Document.isBarren_iff hleaf (h.takes.below hi), hcontent]
  refine and_congr_right fun _ => ⟨fun hblank c hc => ?_, fun hbarren c hc => ?_⟩
  · by_cases hcbarren : d.IsBarren c
    · exact Or.inl hcbarren
    · have := hblank c ((h.mem_children hi).mpr ⟨hc, fun hcut => hcbarren hcut.2.2⟩)
      exact Or.inr (hcontent c ▸ this)
  · obtain ⟨hc, hnot⟩ := (h.mem_children hi).mp hc
    have hne : c ≠ 0 := Nat.ne_of_gt (Nat.zero_lt_of_lt (d.linked.lt_of_mem_children hc))
    rw [hcontent]
    exact (hbarren c hc).resolve_left fun hcbarren => hnot ⟨hvisited c hc, hne, hcbarren⟩

theorem CutOff.visit (h : CutOff (fun v => v ≠ 0 ∧ d.IsBarren v) visited d d')
    (hcontent : ∀ j, d'.content j = d.content j) (hleaf : d.OnlyElementsHold)
    (hvisited : d'.Below 0 i → ∀ c ∈ d.children i, c ∈ visited) :
    CutOff (fun v => v ≠ 0 ∧ d.IsBarren v) (visited ++ [i]) d (d'.dropEmptyGroup i).1 := by
  have hempty := fun hi => h.isEmptyGroup_iff hcontent hleaf hi (hvisited hi)
  unfold Document.dropEmptyGroup Document.prune
  split_ifs with hgroup hprune
  · exact h.cut hprune.2 ⟨hprune.2, (hempty (Document.isAttached_iff.mp hprune.1)).mp hgroup⟩
  · exact h.skip fun hi hbarren => hprune ⟨Document.isAttached_iff.mpr hi, hbarren.1⟩
  · exact h.skip fun hi hbarren => hgroup ((hempty hi).mpr hbarren.2)

theorem content_dropEmptyGroup (d : Document) (i j : Nat) : (d.dropEmptyGroup i).1.content j = d.content j := by
  unfold Document.dropEmptyGroup Document.prune
  split_ifs
  · exact Document.content_detach d i j
  · rfl
  · rfl

/-- Visited from the last to the first, the barren groups are cut off, the root aside, and nothing is edited. -/
theorem cutOff_forEach (ids : List Nat) (hleaf : d.OnlyElementsHold) (hids : ∀ j, d.Below 0 j → j ∈ ids)
    (horder : ids.Pairwise fun a b => ¬ d.Below b a) :
    CutOff (fun v => v ≠ 0 ∧ d.IsBarren v) ids.reverse d (d.forEach Document.dropEmptyGroup ids.reverse).1 ∧
      ∀ j, (d.forEach Document.dropEmptyGroup ids.reverse).1.content j = d.content j := by
  rw [Change.fst_forEach]
  refine foldl_visited (I := fun visited d' => CutOff (fun v => v ≠ 0 ∧ d.IsBarren v) visited d d' ∧
    ∀ j, d'.content j = d.content j) ⟨.refl _ d, fun _ => rfl⟩ ?_
  intro visited i rest d' hsplit hinv
  obtain ⟨h, hcontent⟩ := hinv
  refine ⟨h.visit hcontent hleaf fun hi c hc => ?_, fun j => (content_dropEmptyGroup d' i j).trans (hcontent j)⟩
  -- A child comes after its parent in document order, so in reverse it has been visited.
  rw [← List.pairwise_reverse, hsplit, List.pairwise_append, List.pairwise_cons] at horder
  have hmem : c ∈ ids.reverse := List.mem_reverse.mpr (hids c ((h.takes.below hi).child hc))
  rw [hsplit, List.mem_append, List.mem_cons] at hmem
  rcases hmem with hmem | rfl | hmem
  · exact hmem
  · exact absurd (d.linked.lt_of_mem_children hc) (Nat.lt_irrefl c)
  · exact absurd (Document.below_of_mem_children hc) (horder.2.1.1 c hmem)

end

end SvgComponent.Markup
