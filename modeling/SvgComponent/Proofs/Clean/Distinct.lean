/-
  SvgComponent.Proofs.Clean.Distinct — after duplicates are removed no two attached elements have one form.

  For every document the sweeps come to an end, the root is never found to be a duplicate, and the forms that are left
  are distinct: the last sweep met each of them once (`forms_of_sweep`). Of a document that was read every id stays
  on some element, and if its names are plain and no tag is empty, every form of a leaf stays too. Then what is written
  alike holds the same leaves (`shared_leaf`), and no sweep changes a leaf.
  An element with an empty name and nothing else is written `</>` or begins with `<>`, so that two different elements
  have one form, and a leaf of the second goes (`removeDuplicates_loses_leaf`).
-/

import Mathlib.Data.List.Nodup
import SvgComponent.Proofs.Clean.Resolvable
import SvgComponent.Proofs.Markup.Unambiguous

namespace SvgComponent.Markup

open Change (cutting)
open Document (DuplicateSweep)

variable {d d' : Document}

/-! ## Distinct forms -/

/-- What a sweep cuts off is not the root. -/
theorem ne_root_of_meets {visited rest : List Nat} {i : Nat} (hids : d.elementIds = visited ++ i :: rest)
    (h : (visited.foldl DuplicateSweep.visit ⟨d, [], 0⟩).Meets i) : i ≠ 0 := by
  intro h0
  subst h0
  rw [visited_eq_nil hids] at h
  exact List.not_mem_nil h.2

theorem cuts_le_foldl (ids : List Nat) (s : DuplicateSweep) :
    s.cuts ≤ (ids.foldl DuplicateSweep.visit s).cuts := by
  induction ids generalizing s with
  | nil => exact Nat.le_refl _
  | cons i ids ih =>
    refine Nat.le_trans ?_ (ih (s.visit i))
    unfold DuplicateSweep.visit
    split
    · dsimp only
      split
      · exact Nat.le_add_right _ _
      · exact Nat.le_refl _
    · exact Nat.le_refl _

/-- A sweep that has visited elements and cut none of them off. -/
def untouched (d : Document) (visited : List Nat) : DuplicateSweep := ⟨d, (visited.map d.nodeMarkup).reverse, 0⟩

theorem visit_untouched {visited rest : List Nat} {i : Nat} (hids : d.elementIds = visited ++ i :: rest)
    (h : ((untouched d visited).visit i).cuts = 0) :
    d.nodeMarkup i ∉ visited.map d.nodeMarkup ∧ (untouched d visited).visit i = untouched d (visited ++ [i]) := by
  have hattached : d.isAttached i = true :=
    Document.isAttached_iff.mpr (Document.mem_elementIds.mp (mem_of_next hids)).1
  by_cases hmet : d.nodeMarkup i ∈ visited.map d.nodeMarkup
  · have hne : i ≠ 0 := by
      intro h0
      subst h0
      rw [visited_eq_nil hids] at hmet
      cases hmet
    rw [visit_of_meets ⟨hattached, List.mem_reverse.mpr hmet⟩ hne] at h
    cases h
  · refine ⟨hmet, ?_⟩
    rw [visit_of_new hattached fun hmem => hmet (List.mem_reverse.mp hmem), untouched, untouched, List.map_append,
      List.reverse_append]
    rfl

theorem foldl_untouched {visited rest : List Nat} (hids : d.elementIds = visited ++ rest)
    (hnodup : (visited.map d.nodeMarkup).Nodup)
    (h : (rest.foldl DuplicateSweep.visit (untouched d visited)).cuts = 0) :
    (d.elementIds.map d.nodeMarkup).Nodup ∧
      rest.foldl DuplicateSweep.visit (untouched d visited) = untouched d d.elementIds := by
  induction rest generalizing visited with
  | nil =>
    rw [List.append_nil] at hids
    rw [hids]
    exact ⟨hnodup, rfl⟩
  | cons i rest ih =>
    rw [List.foldl_cons] at h ⊢
    have hle := cuts_le_foldl rest ((untouched d visited).visit i)
    obtain ⟨hnew, hvisit⟩ := visit_untouched hids (Nat.le_zero.mp (h ▸ hle))
    rw [hvisit] at h ⊢
    refine ih (by rw [hids, List.append_cons]) ?_ h
    rw [List.map_append, List.map_singleton]
    exact List.Nodup.append hnodup (by simp) (by simpa using hnew)

/-- A sweep that cuts nothing leaves the document alone, and met every form once. -/
theorem forms_of_sweep (h : d.duplicateSweep.cuts = 0) :
    d.duplicateSweep.document = d ∧ (d.elementIds.map d.nodeMarkup).Nodup := by
  obtain ⟨hnodup, hsweep⟩ := foldl_untouched (List.nil_append _).symm List.nodup_nil h
  refine ⟨?_, hnodup⟩
  show (d.elementIds.foldl DuplicateSweep.visit (untouched d [])).document = d
  rw [hsweep]
  rfl

/-! ## Leaves -/

/-- Names are plain in every tag of the document. -/
def Document.IsPlain (d : Document) : Prop := ∀ i ∈ d.elementIds, ∀ e ∈ d.element? i, e.IsPlain

instance (d : Document) : Decidable d.IsPlain :=
  inferInstanceAs (Decidable (∀ i ∈ d.elementIds, ∀ e ∈ d.element? i, e.IsPlain))

/-- Every tag of the document says something. -/
def Document.IsNamed (d : Document) : Prop := ∀ i ∈ d.elementIds, ∀ e ∈ d.element? i, ¬ e.IsBare

instance (d : Document) : Decidable d.IsNamed :=
  inferInstanceAs (Decidable (∀ i ∈ d.elementIds, ∀ e ∈ d.element? i, ¬ e.IsBare))

/-- Each tag of the outline has plain names, and says something. -/
def Speaks : Content → List Outline → Prop
  | .element e, _ => e.IsPlain ∧ ¬ e.IsBare
  | _, _ => True

theorem readable_of_speaks {c : Content} {ts : List Outline} (hr : WasRead c ts) (hs : Speaks c ts) : Readable c ts := by
  refine readable_of_legible hr ?_
  cases c with
  | element e => exact isLegible_of_plain hs.1 hs.2 ts.isEmpty
  | _ => trivial

theorem speaks_root (hp : d.IsPlain) (hn : d.IsNamed) : d.root.outline.All Speaks := by
  refine (Document.all_outline_iff_below (d := d) (i := 0)).mpr fun j hj => ?_
  cases hc : d.content j with
  | element e =>
    have hmem := Document.mem_elementIds.mpr ⟨hj, e, hc⟩
    have he := Change.element?_eq_some.mpr hc
    exact ⟨hp j hmem e he, hn j hmem e he⟩
  | _ => trivial

section Alike

variable {i j : Nat} {e e' : Element}

/-- Elements that are written alike hold the same elements, but for where text is cut. -/
theorem elements_of_same_form (hr : (d.outline i).All WasRead) (hr' : (d'.outline j).All WasRead)
    (hs : (d.outline i).All Speaks) (hs' : (d'.outline j).All Speaks) (he : d.content i = .element e)
    (he' : d'.content j = .element e') (h : d.nodeMarkup i = d'.nodeMarkup j) :
    (d.outline i).elements.map Outline.joined = (d'.outline j).elements.map Outline.joined := by
  have hform := congrArg String.toList h
  rw [form_eq_written, form_eq_written, Event.written_joinTexts, Event.written_joinTexts] at hform
  rw [Document.outline_eq, he] at hr hs hform ⊢
  rw [d'.outline_eq, he'] at hr' hs' hform ⊢
  have hjoined := joined_of_written (hr.and hs fun _ _ => readable_of_speaks)
    (hr'.and hs' fun _ _ => readable_of_speaks) hform
  rw [← Outline.elements_joined hr, ← Outline.elements_joined hr', hjoined]

/-- Elements that differ in where text is cut are written alike. -/
theorem form_of_joined (hr : (d.outline i).All WasRead) (hr' : (d'.outline j).All WasRead)
    (he : d.content i = .element e) (he' : d'.content j = .element e')
    (h : (d.outline i).joined = (d'.outline j).joined) : d.nodeMarkup i = d'.nodeMarkup j := by
  rw [← String.toList_inj, form_eq_written, form_eq_written]
  rw [Document.outline_eq, he] at hr h ⊢
  rw [d'.outline_eq, he'] at hr' h ⊢
  rw [← events_joined hr, ← events_joined hr', h]

theorem isLeaf_of_joined (hr : (d.outline i).All WasRead) (hr' : (d'.outline j).All WasRead)
    (he : d.content i = .element e) (he' : d'.content j = .element e')
    (h : (d.outline i).joined = (d'.outline j).joined) (hleaf : d.IsLeaf i) : d'.IsLeaf j := by
  rw [Document.isLeaf_iff (by rw [he]; rfl), Document.outline_eq, he] at hleaf
  rw [Document.isLeaf_iff (by rw [he']; rfl), d'.outline_eq, he']
  rw [Document.outline_eq, he] at hr h
  rw [d'.outline_eq, he'] at hr' h
  rw [← List.length_map Outline.joined, ← Outline.elements_joined hr', ← h, Outline.elements_joined hr, List.length_map,
    hleaf]

end Alike

/-- An attached leaf with a given form. -/
structure Document.HasLeaf (d : Document) (form : String) (k : Nat) : Prop where
  attached : k ∈ d.elementIds
  leaf : d.IsLeaf k
  form : d.nodeMarkup k = form

/-- What is written alike holds leaves with the same forms. -/
theorem shared_leaf (hr : d.root.outline.All WasRead) (hs : d.root.outline.All Speaks) (form : String) :
    Shared d (d.HasLeaf form) := by
  refine ⟨fun hk => hk.attached, ?_⟩
  intro i j k hi hj hform hik hk
  obtain ⟨hi, e, he⟩ := Document.mem_elementIds.mp hi
  obtain ⟨hj, e', he'⟩ := Document.mem_elementIds.mp hj
  obtain ⟨hk0, f, hf⟩ := Document.mem_elementIds.mp hk.attached
  have helements := elements_of_same_form (all_below hr hi) (all_below hr hj) (all_below hs hi) (all_below hs hj)
    he he' hform
  have hmem : (d.outline k).joined ∈ (d.outline i).elements.map Outline.joined :=
    List.mem_map_of_mem (Document.mem_elements_outline.mpr ⟨k, hik, f, hf, rfl⟩)
  -- the counterpart of `k` below `j`
  rw [helements, List.mem_map] at hmem
  obtain ⟨o, ho, hjoined⟩ := hmem
  obtain ⟨k', hjk, f', hf', rfl⟩ := Document.mem_elements_outline.mp ho
  have hk' := hj.trans hjk
  refine ⟨k', hjk, Document.mem_elementIds.mpr ⟨hk', f', hf'⟩, ?_, ?_⟩
  · exact isLeaf_of_joined (all_below hr hk0) (all_below hr hk') hf hf' hjoined.symm hk.leaf
  · exact (form_of_joined (all_below hr hk') (all_below hr hk0) hf' hf hjoined).trans hk.form

/-- Nothing is cut off a leaf. -/
theorem hasLeaf_of_cutting (h : (cutting fun _ => True).Takes d d') {form : String} {k : Nat}
    (hk : d.HasLeaf form k) (hk' : d'.Below 0 k) : d'.HasLeaf form k := by
  have htree : d'.tree k = d.tree k := tree_of_cutting h fun c hc hne hcut =>
    hne (hk.leaf c (Document.mem_descendants_iff.mpr hc) hcut.1).symm
  refine ⟨?_, ?_, ?_⟩
  · obtain ⟨_, e, he⟩ := Document.mem_elementIds.mp hk.attached
    exact Document.mem_elementIds.mpr ⟨hk', e, (h.content k).trans he⟩
  · intro m hm hme
    rw [Document.descendants, htree] at hm
    rw [show d'.content m = d.content m from h.content m] at hme
    exact hk.leaf m hm hme
  · rw [← hk.form, Document.nodeMarkup, htree, Document.nodeMarkup]

theorem speaks_of_cutting (h : (cutting fun _ => True).Takes d d') (hs : d.root.outline.All Speaks) :
    d'.root.outline.All Speaks := by
  refine (Document.all_outline_iff_below (d := d') (i := 0)).mpr fun j hj => ?_
  have := Document.all_outline_iff_below.mp hs j (h.below hj)
  rw [show d'.content j = d.content j from h.content j]
  revert this
  cases d.content j <;> exact id

/-- Removing duplicates leaves each form of a leaf. -/
theorem hasLeaf_removeDuplicates (hr : d.root.outline.All WasRead) (hs : d.root.outline.All Speaks) {form : String}
    {k : Nat} (hk : d.HasLeaf form k) : ∃ k', d.removeDuplicates.1.HasLeaf form k' := by
  have h := Change.exhaust_keeps (p := Document.duplicatePruning)
    (P := fun d' => (cutting fun _ => True).Takes d d' ∧ ∃ k', d'.HasLeaf form k') ?_ d ⟨Change.takes_refl _ d, k, hk⟩
  · exact h.2
  · intro d' hinv
    obtain ⟨ht, k', hk'⟩ := hinv
    have hsweep := Change.takes_duplicateSweep d'
    obtain ⟨k'', hattached, hk''⟩ := kept_duplicateSweep (wasRead_outline (takes_naming_of_cutting ht) hr)
      (shared_leaf (wasRead_outline (takes_naming_of_cutting ht) hr) (speaks_of_cutting ht hs) form) hk'
    exact ⟨ht.trans hsweep, k'', hasLeaf_of_cutting hsweep hk'' hattached⟩

/-! ## The whole run -/

instance (s : DuplicateSweep) (i : Nat) : Decidable (s.Meets i) :=
  inferInstanceAs (Decidable (s.document.isAttached i = true ∧ s.document.nodeMarkup i ∈ s.met))

namespace Document

/-- What a number of sweeps leave. -/
def swept (n : Nat) (d : Document) : Document := (fun d => d.duplicateSweep.document)^[n] d

theorem removeDuplicates_eq_swept (d : Document) : ∃ n ≤ d.linkCount,
    (d.swept n).duplicateSweep.cuts = 0 ∧ d.removeDuplicates.1 = d.swept n := by
  obtain ⟨n, hn, hcuts, hend⟩ := Change.exhaust_eq_iterate duplicatePruning d
  refine ⟨n, hn, hcuts, ?_⟩
  rw [Function.iterate_succ_apply'] at hend
  exact hend.trans (forms_of_sweep hcuts).1

theorem carries_removeDuplicates (hr : d.root.outline.All WasRead) (x : String) :
    d.removeDuplicates.1.Carries x ↔ d.Carries x := by
  have ht := Change.takes_removeDuplicates d
  rw [carries_iff, carries_iff]
  constructor
  · intro h
    obtain ⟨k, hk, hx⟩ := h
    exact ⟨k, ht.below hk, (idOf_of_cutting ht k).symm.trans hx⟩
  · intro h
    obtain ⟨k, hk, hx⟩ := h
    obtain ⟨k', hk', hx'⟩ := carried_removeDuplicates hr hk hx
    exact ⟨k', hk', (idOf_of_cutting ht k').trans hx'⟩

/-- Removing duplicates ends, spares the root and leaves distinct forms. Of a document that was read with plain names
    it leaves every id, and every form of a leaf if no tag is empty. -/
theorem distinct_removeDuplicates (d : Document) :
    (∃ n ≤ d.linkCount, (d.swept n).duplicateSweep.cuts = 0 ∧ d.removeDuplicates.1 = d.swept n) ∧
    (∀ n visited i rest, (d.swept n).elementIds = visited ++ i :: rest →
      (visited.foldl DuplicateSweep.visit ⟨d.swept n, [], 0⟩).Meets i → i ≠ 0) ∧
    (d.removeDuplicates.1.elementIds.map d.removeDuplicates.1.nodeMarkup).Nodup ∧
    ∀ svg, Document.parse svg = .ok d → d.IsPlain →
      (∀ x, d.removeDuplicates.1.Carries x ↔ d.Carries x) ∧
      (d.IsNamed → ∀ i ∈ d.elementIds, d.IsLeaf i →
        ∃ j ∈ d.removeDuplicates.1.elementIds, d.removeDuplicates.1.nodeMarkup j = d.nodeMarkup i) := by
  obtain ⟨n, hn, hcuts, hend⟩ := d.removeDuplicates_eq_swept
  refine ⟨⟨n, hn, hcuts, hend⟩, fun n visited i rest => ne_root_of_meets, ?_, ?_⟩
  · rw [hend]
    exact (forms_of_sweep hcuts).2
  · intro svg hparse hplain
    have hr := wasRead_of_parse hparse
    refine ⟨carries_removeDuplicates hr, ?_⟩
    intro hnamed i hi hleaf
    obtain ⟨j, hj⟩ := hasLeaf_removeDuplicates hr (speaks_root hplain hnamed) ⟨hi, hleaf, rfl⟩
    exact ⟨j, hj.attached, hj.form⟩

/-- The second of two equal elements goes with what is inside it. -/
theorem distinct_removeDuplicates_nested :
    ∃ d, Document.parse "<svg viewBox=\"0 0 1 1\"><g><a id=\"x\"/></g><g><a id=\"x\"/></g></svg>" = .ok d ∧
      3 ≠ 0 ∧ d.removeDuplicates.1.Carries "x" ∧
      ∃ j ∈ d.removeDuplicates.1.elementIds, d.removeDuplicates.1.nodeMarkup j = "<a id=\"x\"/>" := by
  obtain ⟨d, hd, hplain, hnamed, hids, hmeets, hx, hmem, hleaf, hform⟩ : ∃ d, Document.parse
      "<svg viewBox=\"0 0 1 1\"><g><a id=\"x\"/></g><g><a id=\"x\"/></g></svg>" = .ok d ∧ d.IsPlain ∧ d.IsNamed ∧
      (d.swept 0).elementIds = [0, 1, 2] ++ 3 :: [4] ∧
      ([0, 1, 2].foldl DuplicateSweep.visit ⟨d.swept 0, [], 0⟩).Meets 3 ∧ d.Carries "x" ∧ 4 ∈ d.elementIds ∧
      d.IsLeaf 4 ∧ d.nodeMarkup 4 = "<a id=\"x\"/>" := by decide +kernel
  obtain ⟨_, hroot, _, hread⟩ := distinct_removeDuplicates d
  obtain ⟨hcarries, hleaves⟩ := hread _ hd hplain
  refine ⟨d, hd, hroot 0 _ 3 _ hids hmeets, (hcarries "x").mpr hx, ?_⟩
  rw [← hform]
  exact hleaves hnamed 4 hmem hleaf

/-- Two elements with empty names are written alike, and the leaf of the second goes. -/
theorem removeDuplicates_loses_leaf :
    ∃ d, Document.parse "<svg viewBox=\"0 0 1 1\"><g>< >t< /></></g><g>< >t</>< /></g></svg>" = .ok d ∧ d.IsPlain ∧
      ∃ i ∈ d.elementIds, d.IsLeaf i ∧
        ∀ j ∈ d.removeDuplicates.1.elementIds, d.removeDuplicates.1.nodeMarkup j ≠ d.nodeMarkup i := by
  decide +kernel

end Document

end SvgComponent.Markup
