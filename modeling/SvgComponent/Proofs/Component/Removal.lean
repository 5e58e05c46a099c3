/-
  SvgComponent.Proofs.Component.Removal — what tidying removes, and that nothing is left for it to do afterwards.

  The first pass cuts off leftover nodes with what they hold, and the second one groups without content. In the
  document as it was, a group is without content if there is nothing below it but groups, comments and blank text,
  aside from what is below a vendor element (`SweptOff.isBarren_iff`). What is left is known node by node (`Tidied`),
  so that neither pass finds anything to do again (`Tidied.tidy_eq_self`). `tidy_removes` says which elements went.
-/

import SvgComponent.Analysis.Metrics
import SvgComponent.Proofs.Component.Hollow
import SvgComponent.Proofs.Markup.Reading

namespace SvgComponent.Markup

/-- An element that a vendor named. -/
def Content.isVendor : Content → Bool
  | .element e => e.name.isVendor
  | _ => false

def Content.isComment : Content → Bool
  | .comment _ => true
  | _ => false

theorem Content.isLeftover_iff {c : Content} : c.isLeftover = true ↔ c.isVendor = true ∨ c.isComment = true := by
  cases c <;> simp [isLeftover, isVendor, isComment]

theorem Content.isElement_of_isComment {c : Content} (h : c.isComment = true) : c.isElement = false := by
  cases c <;> first | rfl | cases h

theorem Content.isElement_edited (c : Content) : (c.edited Element.tidy).isElement = c.isElement := by
  cases c <;> rfl

namespace Document

/-- A group that has nothing below, aside from what is below a vendor element, but groups, comments and blank text. -/
def HoldsNothing (d : Document) (i : Nat) : Prop :=
  (d.content i).isGroup = true ∧
    ∀ m, d.Below i m → (∃ v, d.Below i v ∧ d.Below v m ∧ (d.content v).isVendor = true) ∨
      (d.content m).isGroup = true ∨ (d.content m).isComment = true ∨ (d.content m).isBlankText = true

/-- Nothing is attached that tidying takes away. -/
structure IsTidy (d : Document) : Prop where
  comments : ∀ i s, d.isAttached i = true → d.content i ≠ .comment s
  names : ∀ i e, d.isAttached i = true → d.content i = .element e → e.name.isVendor = false
  attributes : ∀ i e, d.isAttached i = true → d.content i = .element e → ∀ a ∈ e.attributes,
    a.name.isData = false ∧ a.name.isVendor = false ∧ a.name.declaresVendor = false
  groups : ∀ i, d.isAttached i = true → i ≠ 0 → (d.content i).isGroup = true →
    ∃ c ∈ d.children i, (d.content c).isBlankText = false

end Document

/-! ## Between the passes -/

namespace SweptOff

variable {d d' : Document} {i : Nat}

theorem content_eq (h : SweptOff (d.descendants 0) d d') (hi : d'.Below 0 i) :
    d'.content i = (d.content i).edited Element.tidy := by
  rw [h.content i hi, if_pos (Document.mem_descendants_iff.mpr (h.cutOff.takes.below hi))]

/-- What is attached has no leftover node at it or above it, and the reverse. -/
theorem attached_iff (h : SweptOff (d.descendants 0) d d') :
    d'.Below 0 i ↔ d.Below 0 i ∧ ∀ v, d.Below v i → (d.content v).isLeftover = false := by
  rw [h.cutOff.attached]
  refine and_congr_right fun hi => ⟨fun hvisited v hvi => ?_, fun hnone v _ hv hvi => ?_⟩
  · rw [← Bool.not_eq_true]
    exact fun hv => hvisited v (Document.mem_descendants_iff.mpr (hi.of_attached hvi)) hv hvi
  · rw [hnone v hvi] at hv
    cases hv

theorem onlyElementsHold (h : SweptOff (d.descendants 0) d d') (hleaf : d.OnlyElementsHold) : d'.OnlyElementsHold := by
  intro j hj helement
  have hj' := Document.mem_descendants_iff.mp hj
  rw [h.content_eq hj', Content.isElement_edited] at helement
  have hnil := hleaf j (Document.mem_descendants_iff.mpr (h.cutOff.takes.below hj')) helement
  exact List.sublist_nil.mp (hnil ▸ h.cutOff.takes.children j)

/-- What was below an attached node still is, or a leftover node below that one took it away. -/
theorem attached_or_leftover (h : SweptOff (d.descendants 0) d d') (hi : d'.Below 0 i) {m : Nat} (hm : d.Below i m) :
    d'.Below 0 m ∨ ∃ v, d.Below i v ∧ d.Below v m ∧ (d.content v).isLeftover = true := by
  obtain ⟨hdi, hnone⟩ := h.attached_iff.mp hi
  by_cases hleft : ∃ v, d.Below v m ∧ (d.content v).isLeftover = true
  · obtain ⟨v, hvm, hv⟩ := hleft
    refine Or.inr ⟨v, (hm.comparable hvm).resolve_right fun hvi => ?_, hvm, hv⟩
    rw [hnone v hvi] at hv
    cases hv
  · push Not at hleft
    exact Or.inl (h.attached_iff.mpr ⟨hdi.trans hm, fun v hv => Bool.eq_false_iff.mpr (hleft v hv)⟩)

/-- An attached group is barren without the leftovers just if it held nothing with them. -/
theorem isBarren_iff (h : SweptOff (d.descendants 0) d d') (hleaf : d.OnlyElementsHold) (hi : d'.Below 0 i) :
    d'.IsBarren i ↔ d.HoldsNothing i := by
  unfold Document.IsBarren Document.HoldsNothing
  rw [h.content_eq hi, Content.isGroup_edited]
  refine and_congr_right fun _ => ⟨fun hbarren m hm => ?_, fun hholds m hm => ?_⟩
  · rcases h.attached_or_leftover hi hm with hattached | ⟨v, hiv, hvm, hv⟩
    · have := hbarren m (h.cutOff.takes.below_of_attached hattached hm)
      rw [h.content_eq hattached, Content.isGroup_edited, Content.isBlankText_edited] at this
      exact Or.inr (this.imp_right Or.inr)
    · rcases Content.isLeftover_iff.mp hv with hvendor | hcomment
      · exact Or.inl ⟨v, hiv, hvm, hvendor⟩
      · have hv0 := (h.cutOff.takes.below hi).trans hiv
        have heq := hleaf.eq_of_below hv0 (Content.isElement_of_isComment hcomment) hvm
        exact Or.inr (Or.inr (Or.inl (heq ▸ hcomment)))
  · have hattached := hi.trans hm
    have hclear {v : Nat} (hv : d.Below v m) : (d.content v).isLeftover ≠ true :=
      Bool.eq_false_iff.mp ((h.attached_iff.mp hattached).2 v hv)
    rw [h.content_eq hattached, Content.isGroup_edited, Content.isBlankText_edited]
    rcases hholds m (h.cutOff.takes.below hm) with ⟨v, _, hvm, hvendor⟩ | hgroup | hcomment | hblank
    · exact absurd (Content.isLeftover_iff.mpr (Or.inl hvendor)) (hclear hvm)
    · exact Or.inl hgroup
    · exact absurd (Content.isLeftover_iff.mpr (Or.inr hcomment)) (hclear (.refl d m))
    · exact Or.inr hblank

end SweptOff

namespace Document

variable {d : Document} {e : Element} {i : Nat}

/-! ## Both passes -/

/-- What is left of a document with an `svg` at its root: each node that stays is tidied, and no group is empty. -/
structure Tidied (d d' : Document) : Prop where
  attached : ∀ i, d'.Below 0 i ↔ d.Below 0 i ∧ (∀ v, d.Below v i → (d.content v).isLeftover = false) ∧
    ∀ g, g ≠ 0 → d.Below g i → ¬ d.HoldsNothing g
  content : ∀ i, d'.Below 0 i → d'.content i = (d.content i).edited Element.tidy
  groups : ∀ i, d'.Below 0 i → i ≠ 0 → d'.isEmptyGroup i = false

/-- The root of an image is not left over. -/
theorem isLeftover_root (hroot : d.rootElement? = some e) (hsvg : e.is "svg" = true) :
    (d.content 0).isLeftover = false := by
  have hspace : e.name.space = none := by
    rw [Element.is, Name.is, Bool.and_eq_true, Option.isNone_iff_eq_none] at hsvg
    exact hsvg.1
  rw [Change.element?_eq_some.mp hroot, Content.isLeftover, Name.isVendor, hspace]
  rfl

/-- The leftover nodes are cut off first, and then the groups that are barren without them. -/
theorem tidied_of_cutOff {d₁ d₂ : Document} (hswept : SweptOff (d.descendants 0) d d₁) (hleaf : d.OnlyElementsHold)
    (hcut : CutOff (fun v => v ≠ 0 ∧ d₁.IsBarren v) (d.descendants 0).reverse d₁ d₂)
    (hcontent : ∀ i, d₂.content i = d₁.content i) : Tidied d d₂ := by
  have hmem {v : Nat} (hv : d₁.Below 0 v) : v ∈ (d.descendants 0).reverse :=
    List.mem_reverse.mpr (mem_descendants_iff.mpr (hswept.cutOff.takes.below hv))
  refine ⟨fun i => (hcut.attached i).trans ?_, fun i hi => ?_, fun i hi hne => ?_⟩
  · rw [← and_assoc, ← hswept.attached_iff]
    refine and_congr_right fun hi => ⟨fun hvisited g hne hgi hholds => ?_, fun hnone v _ hv hvi => ?_⟩
    · have hgi' := hswept.cutOff.takes.below_of_attached hi hgi
      have hg := hi.of_attached hgi'
      exact hvisited g (hmem hg) ⟨hne, (hswept.isBarren_iff hleaf hg).mpr hholds⟩ hgi'
    · have hholds := (hswept.isBarren_iff hleaf (hi.of_attached hvi)).mp hv.2
      exact hnone v hv.1 (hswept.cutOff.takes.below hvi) hholds
  · exact (hcontent i).trans (hswept.content_eq (hcut.takes.below hi))
  · rw [← Bool.not_eq_true]
    intro hempty
    have hi' := hcut.takes.below hi
    have hbarren := (hcut.isEmptyGroup_iff hcontent (hswept.onlyElementsHold hleaf) hi fun c hc =>
      hmem (hi'.child hc)).mp hempty
    exact ((hcut.attached i).mp hi).2 i (hmem hi') ⟨hne, hbarren⟩ (.refl _ i)

theorem tidied_tidy (hroot : d.rootElement? = some e) (hsvg : e.is "svg" = true) (hleaf : d.OnlyElementsHold) :
    Tidied d d.tidy.1 := by
  have hswept := sweptOff_forEach (isLeftover_root hroot hsvg)
  obtain ⟨hcut, hcontent⟩ := cutOff_forEach (d.descendants 0) (hswept.onlyElementsHold hleaf)
    (fun i hi => mem_descendants_iff.mpr (hswept.cutOff.takes.below hi))
    ((pairwise_descendants d 0).imp fun hab hba => hab (hswept.cutOff.takes.below hba))
  exact tidied_of_cutOff hswept hleaf hcut hcontent

namespace Tidied

variable {d' : Document}

theorem isLeftover_eq_false (h : Tidied d d') (hi : d'.Below 0 i) : (d'.content i).isLeftover = false := by
  rw [h.content i hi, Content.isLeftover_edited]
  exact ((h.attached i).mp hi).2.1 i (.refl d i)

theorem exists_tidy (h : Tidied d d') (hi : d'.Below 0 i) (he : d'.content i = .element e) :
    ∃ e' : Element, e'.tidy.1 = e := by
  rw [h.content i hi] at he
  obtain ⟨e', _, htidy⟩ := Content.edited_eq_element he
  exact ⟨e', htidy⟩

theorem isTidy (h : Tidied d d') : d'.IsTidy := by
  refine ⟨fun i s hi hs => ?_, fun i e hi he => ?_, fun i e hi he a ha => ?_, fun i hi hne hgroup => ?_⟩
  · have hleftover := h.isLeftover_eq_false (isAttached_iff.mp hi)
    rw [hs] at hleftover
    cases hleftover
  · have hleftover := h.isLeftover_eq_false (isAttached_iff.mp hi)
    rwa [he] at hleftover
  · obtain ⟨e', rfl⟩ := h.exists_tidy (isAttached_iff.mp hi) he
    have hleftover := (List.mem_filter.mp ha).2
    simpa [Attribute.isLeftover, and_assoc] using hleftover
  · have hempty := h.groups i (isAttached_iff.mp hi) hne
    rw [← Bool.not_eq_true, isEmptyGroup_iff] at hempty
    push Not at hempty
    obtain ⟨c, hc, hblank⟩ := hempty hgroup
    exact ⟨c, hc, Bool.eq_false_iff.mpr hblank⟩

/-- There is nothing left to tidy. -/
theorem tidy_eq_self (h : Tidied d d') : d'.tidy = (d', 0) := by
  have hnodes : d'.forEach tidyNode (d'.descendants 0) = (d', 0) := by
    refine forEach_eq_self fun i hi => ?_
    have hbelow := mem_descendants_iff.mp hi
    rw [tidyNode, if_pos (isAttached_iff.mpr hbelow), h.isLeftover_eq_false hbelow, if_neg Bool.false_ne_true]
    refine editElement_eq_self fun e he => ?_
    obtain ⟨e', rfl⟩ := h.exists_tidy hbelow he
    exact e'.tidy_tidy
  have hgroups : d'.forEach dropEmptyGroup (d'.descendants 0).reverse = (d', 0) := by
    refine forEach_eq_self fun i hi => ?_
    have hbelow := mem_descendants_iff.mp (List.mem_reverse.mp hi)
    unfold dropEmptyGroup
    split
    · rename_i hempty
      refine if_neg fun hprune => ?_
      rw [h.groups i hbelow hprune.2] at hempty
      cases hempty
    · rfl
  rw [tidy]
  simp only [hnodes, hgroups]

end Tidied

/-- What is said of the design tool when nothing is left of it. -/
theorem IsTidy.vendor_metrics (h : d.IsTidy) : d.metrics.vendor = false := by
  rw [metrics]
  dsimp only
  rw [List.any_eq_false]
  intro e he
  obtain ⟨t, ht, hte⟩ := List.mem_filterMap.mp he
  obtain ⟨j, hj, rfl⟩ := mem_subtrees_iff.mp ht
  have hattached := isAttached_iff.mpr hj
  have hcontent : d.content j = .element e := by
    rw [Tree.element?, content_tree] at hte
    exact Change.element?_eq_some.mp hte
  rw [Element.isVendor, h.names j e hattached hcontent, Bool.false_or, List.any_eq_true]
  rintro ⟨a, ha, hvendor⟩
  obtain ⟨hdata, hname, _⟩ := h.attributes j e hattached hcontent a ha
  rw [hdata, hname] at hvendor
  cases hvendor

/-- In a document with an `svg` at its root, in which only elements hold others, tidying leaves nothing to tidy: no
    comments, no trace of a design tool, and no group that is empty; and tidying again changes nothing. An element
    goes just if it is a vendor element or below one, or if it is a group that holds nothing, or below one; and what
    stays is as it was, but for the leftover attributes. -/
theorem tidy_removes (hroot : d.rootElement? = some e) (hsvg : e.is "svg" = true) (hleaf : d.OnlyElementsHold) :
    d.tidy.1.IsTidy ∧ d.tidy.1.metrics.vendor = false ∧ d.tidy.1.tidy = (d.tidy.1, 0) ∧
      (∀ i ∈ d.elementIds, d.tidy.1.isAttached i = false ↔
        (∃ v, d.Below v i ∧ (d.content v).isVendor = true) ∨ ∃ g, g ≠ 0 ∧ d.Below g i ∧ d.HoldsNothing g) ∧
      ∀ i, d.tidy.1.isAttached i = true → d.tidy.1.content i = (d.content i).edited Element.tidy := by
  have h := tidied_tidy hroot hsvg hleaf
  refine ⟨h.isTidy, h.isTidy.vendor_metrics, h.tidy_eq_self, fun i hi => ?_, fun i hi =>
    h.content i (isAttached_iff.mp hi)⟩
  obtain ⟨hi, e', he'⟩ := mem_elementIds.mp hi
  -- A leftover node at or above an element is an element itself: comments hold nothing.
  have hvendor {v : Nat} (hv : d.Below v i) : (d.content v).isLeftover = true ↔ (d.content v).isVendor = true := by
    rw [Content.isLeftover_iff]
    refine or_iff_left fun hcomment => ?_
    have heq := hleaf.eq_of_below (hi.of_attached hv) (Content.isElement_of_isComment hcomment) hv
    rw [← heq, he'] at hcomment
    cases hcomment
  rw [← Bool.not_eq_true, isAttached_iff, h.attached]
  constructor
  · intro hnot
    by_contra hno
    push Not at hno
    refine hnot ⟨hi, fun v hv => ?_, hno.2⟩
    rw [← Bool.not_eq_true, hvendor hv]
    exact hno.1 v hv
  · rintro (⟨v, hv, hvvendor⟩ | ⟨g, hne, hg, hholds⟩) ⟨_, hnone, hgroups⟩
    · rw [← hvendor hv, hnone v hv] at hvvendor
      cases hvvendor
    · exact hgroups g hne hg hholds

/-- A group that has a group and a vendor element in it goes with both. -/
theorem tidy_removes_nested :
    ∃ d, Document.parse "<svg viewBox=\"0 0 1 1\"><!----><g><g> </g><serif:b><a/></serif:b></g><g data-x=\"1\"><a/></g></svg>" = .ok d ∧
      d.tidy.2 = 5 ∧ d.tidy.1.markup = "<svg viewBox=\"0 0 1 1\"><g><a/></g></svg>" ∧
      d.tidy.1.IsTidy ∧ d.tidy.1.metrics.vendor = false ∧ d.tidy.1.tidy = (d.tidy.1, 0) ∧
      ∀ i ∈ [2, 3, 5, 6], (∃ v, d.Below v i ∧ (d.content v).isVendor = true) ∨
        ∃ g, g ≠ 0 ∧ d.Below g i ∧ d.HoldsNothing g := by
  obtain ⟨d, hd, e, hroot, hsvg, hleaf, hcount, hmarkup, hgone⟩ : ∃ d, Document.parse
      "<svg viewBox=\"0 0 1 1\"><!----><g><g> </g><serif:b><a/></serif:b></g><g data-x=\"1\"><a/></g></svg>" = .ok d ∧
      ∃ e ∈ d.rootElement?, e.is "svg" = true ∧ d.OnlyElementsHold ∧
        d.tidy.2 = 5 ∧ d.tidy.1.markup = "<svg viewBox=\"0 0 1 1\"><g><a/></g></svg>" ∧
        ∀ i ∈ [2, 3, 5, 6], i ∈ d.elementIds ∧ d.tidy.1.isAttached i = false := by
    decide +kernel
  obtain ⟨htidy, hvendor, hagain, hiff, _⟩ := tidy_removes hroot hsvg hleaf
  exact ⟨d, hd, hcount, hmarkup, htidy, hvendor, hagain, fun i hi => (hiff i (hgone i hi).1).mp (hgone i hi).2⟩

end Document

end SvgComponent.Markup
