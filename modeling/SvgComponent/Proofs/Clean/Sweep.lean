/-
  SvgComponent.Proofs.Clean.Sweep — one sweep for duplicates loses nothing that equal forms share.

  A property is `Shared` if elements with one form hold it alike. `Sweeping` is the invariant of one sweep: only what was
  visited may be gone, every form that was met is the form of an element visited before, and a shared property that
  some element has, some attached element has.
  - Nothing below the next element was visited, so its form is the one that it had when the sweep began
    (`form_of_not_visited`).
  - When it is cut off, the element whose form it has was visited with all that is below it, since the cut one cannot
    hang below it (`not_below_met`). So what goes is found where no later cut reaches (`kept_detach`).
  Ids are shared, so removing duplicates leaves an element with every id (`carried_removeDuplicates`).
-/

import Mathlib.Data.List.Perm.Subperm
import SvgComponent.Proofs.Clean.Forms

namespace SvgComponent.Markup

open Change (cutting)
open Document (DuplicateSweep)

/-- The id that a node carries, if it is an element. -/
def Document.idOf? (d : Document) (i : Nat) : Option String := (d.element? i).bind (·.get? "id")

variable {d d' : Document}

theorem idOf_eq_some {i : Nat} {x : String} :
    d.idOf? i = some x ↔ ∃ e, d.content i = .element e ∧ e.get? "id" = some x := by
  unfold Document.idOf?
  rw [Option.bind_eq_some_iff]
  simp only [Change.element?_eq_some]

theorem idOf_of_cutting (h : (cutting fun _ => True).Takes d d') (i : Nat) : d'.idOf? i = d.idOf? i := by
  unfold Document.idOf? Forest.element?
  rw [show d'.content i = d.content i from h.content i]

/-- A node of which nothing is cut off has the tree that it had. -/
theorem tree_of_cutting {t : Nat → Prop} (h : (cutting t).Takes d d') {i : Nat}
    (hkept : ∀ c, d.Below i c → i ≠ c → ¬ ((d.content c).isElement = true ∧ t c)) : d'.tree i = d.tree i := by
  refine Document.tree_congr fun j hj => ⟨h.content j, ?_⟩
  have hsubset : d.children j ⊆ d'.children j := by
    intro c hc
    have hlt := d.linked.lt_of_mem_children hc
    have hle := hj.le
    exact h.kept j c hc (hkept c (hj.child hc) (by omega))
  exact (h.children j).eq_of_length_le ((d.linked.nodup j).subperm hsubset).length_le

/-! ## Visits -/

/-- The sweep comes upon an attached element in a form that it has met. -/
def Document.DuplicateSweep.Meets (s : DuplicateSweep) (i : Nat) : Prop :=
  s.document.isAttached i = true ∧ s.document.nodeMarkup i ∈ s.met

section Visit

variable {s : DuplicateSweep} {i : Nat}

theorem visit_of_detached (h : ¬ s.document.isAttached i = true) : s.visit i = s := if_neg h

theorem visit_of_meets (h : s.Meets i) (hne : i ≠ 0) :
    s.visit i = ⟨s.document.detach i, s.met, s.cuts + 1⟩ := by
  have hprune : s.document.prune i = (s.document.detach i, 1) := if_pos ⟨h.1, hne⟩
  rw [DuplicateSweep.visit, if_pos h.1]
  dsimp only
  rw [if_pos (List.contains_iff_mem.mpr h.2), hprune]

theorem visit_of_new (hi : s.document.isAttached i = true) (h : s.document.nodeMarkup i ∉ s.met) :
    s.visit i = ⟨s.document, s.document.nodeMarkup i :: s.met, s.cuts⟩ := by
  rw [DuplicateSweep.visit, if_pos hi]
  dsimp only
  rw [if_neg fun hmet => h (List.contains_iff_mem.mp hmet)]

end Visit

/-! ## One sweep -/

/-- A property of elements that is found below each of two elements with one form, or below none. -/
structure Shared (d : Document) (P : Nat → Prop) : Prop where
  element : ∀ {k}, P k → k ∈ d.elementIds
  found : ∀ {i j k}, i ∈ d.elementIds → j ∈ d.elementIds → d.nodeMarkup i = d.nodeMarkup j → d.Below i k → P k →
    ∃ k', d.Below j k' ∧ P k'

/-- A sweep of `d` that has visited the elements of `visited`. -/
structure Sweeping (P : Nat → Prop) (d : Document) (visited : List Nat) (s : DuplicateSweep) : Prop where
  takes : (cutting (· ∈ visited)).Takes d s.document
  met : ∀ form ∈ s.met, ∃ j ∈ visited, d.nodeMarkup j = form
  kept : ∀ k, P k → s.document.Below 0 k ∨ ∃ k' ∈ visited, s.document.Below 0 k' ∧ P k'

variable {P : Nat → Prop}

theorem Sweeping.mono {visited visited' : List Nat} {s : DuplicateSweep} (h : Sweeping P d visited s)
    (hsub : visited ⊆ visited') : Sweeping P d visited' s := by
  refine ⟨h.takes.of_cutting fun _ _ hc hi => ⟨hc, hsub hi⟩, ?_, ?_⟩
  · intro form hform
    obtain ⟨j, hj, hrest⟩ := h.met form hform
    exact ⟨j, hsub hj, hrest⟩
  · intro k hk
    rcases h.kept k hk with h | ⟨k', hk', hrest⟩
    · exact Or.inl h
    · exact Or.inr ⟨k', hsub hk', hrest⟩

section Visit

variable {visited rest : List Nat} {i : Nat} {s : DuplicateSweep}

theorem mem_of_visited (hids : d.elementIds = visited ++ i :: rest) {k : Nat} (hk : k ∈ visited) : k ∈ d.elementIds := by
  rw [hids]
  exact List.mem_append_left _ hk

theorem mem_of_next (hids : d.elementIds = visited ++ i :: rest) : i ∈ d.elementIds := by
  rw [hids]
  exact List.mem_append_right _ List.mem_cons_self

/-- What was visited does not hang below what is visited next. -/
theorem not_below_visited (hids : d.elementIds = visited ++ i :: rest) {k : Nat} (hk : k ∈ visited) :
    ¬ d.Below i k := by
  have horder := (d.pairwise_descendants 0).sublist d.elementIds_sublist
  rw [hids, List.pairwise_append] at horder
  exact horder.2.2 k hk i List.mem_cons_self

/-- Nothing is visited before the root. -/
theorem visited_eq_nil (hids : d.elementIds = visited ++ 0 :: rest) : visited = [] := by
  rw [List.eq_nil_iff_forall_not_mem]
  intro k hk
  exact not_below_visited hids hk (Document.mem_elementIds.mp (mem_of_visited hids hk)).1

/-- What hangs below a visited element was visited, or the element that is visited next hangs below it too. -/
theorem visited_of_below (hids : d.elementIds = visited ++ i :: rest) {j k : Nat} (hj : j ∈ visited)
    (hk : k ∈ d.elementIds) (hjk : d.Below j k) : k ∈ visited ∨ d.Below j i := by
  rw [hids, List.mem_append, List.mem_cons] at hk
  rcases hk with hk | rfl | hk
  · exact Or.inl hk
  · exact Or.inr hjk
  · right
    have hsub : [j, i, k].Sublist d.elementIds := by
      rw [hids]
      exact (List.singleton_sublist.mpr hj).append ((List.singleton_sublist.mpr hk).cons_cons i)
    exact Document.below_of_between (hsub.trans d.elementIds_sublist) hjk

/-- What is visited next has the form that it had when the sweep began. -/
theorem form_of_not_visited (hids : d.elementIds = visited ++ i :: rest)
    (h : (cutting (· ∈ visited)).Takes d d') : d'.nodeMarkup i = d.nodeMarkup i := by
  unfold Document.nodeMarkup
  rw [tree_of_cutting h fun c hc _ hcut => not_below_visited hids hcut.2 hc]

/-- What has a form that was met does not hang below the element that had it. -/
theorem not_below_met (hr : d.root.outline.All WasRead) (hids : d.elementIds = visited ++ i :: rest) {j : Nat}
    (hj : j ∈ visited) (hform : d.nodeMarkup j = d.nodeMarkup i) : ¬ d.Below j i := by
  intro hji
  have hj0 := (Document.mem_elementIds.mp (mem_of_visited hids hj)).1
  have hne : j ≠ i := by
    intro heq
    subst heq
    exact not_below_visited hids hj (.refl d j)
  have hlt := length_form_lt (all_below hr hj0) hji hne
  rw [hform] at hlt
  exact Nat.lt_irrefl _ hlt

/-- Cutting off an element whose form was met leaves something of each kind that equal forms share. -/
theorem kept_detach (hr : d.root.outline.All WasRead) (hP : Shared d P) (hids : d.elementIds = visited ++ i :: rest)
    (h : Sweeping P d visited s) (hmet : s.document.nodeMarkup i ∈ s.met) {k : Nat} (hk : P k) :
    (s.document.detach i).Below 0 k ∨ ∃ k' ∈ visited, (s.document.detach i).Below 0 k' ∧ P k' := by
  have stays : ∀ k' ∈ visited, s.document.Below 0 k' → (s.document.detach i).Below 0 k' := fun k' hk' hb =>
    Document.below_detach hb fun hik => not_below_visited hids hk' (h.takes.below hik)
  rcases h.kept k hk with hb | ⟨k', hk', hb, hx⟩
  · by_cases hik : s.document.Below i k
    · right
      rw [form_of_not_visited hids h.takes] at hmet
      obtain ⟨j, hj, hform⟩ := h.met _ hmet
      -- the counterpart of `k` below the element that had the form
      obtain ⟨k₁, hk₁, hx₁⟩ := hP.found (mem_of_next hids) (mem_of_visited hids hj) hform.symm (h.takes.below hik) hk
      rcases h.kept k₁ hx₁ with hb₁ | ⟨k', hk', hb', hx'⟩
      · have hvisited := (visited_of_below hids hj (hP.element hx₁) hk₁).resolve_right
          (not_below_met hr hids hj hform)
        exact ⟨k₁, hvisited, stays k₁ hvisited hb₁, hx₁⟩
      · exact ⟨k', hk', stays k' hk' hb', hx'⟩
    · exact Or.inl (Document.below_detach hb hik)
  · exact Or.inr ⟨k', hk', stays k' hk' hb, hx⟩

/-- An element whose form was met is cut off. -/
theorem sweeping_detach (hr : d.root.outline.All WasRead) (hP : Shared d P)
    (hids : d.elementIds = visited ++ i :: rest) (h : Sweeping P d visited s)
    (hmet : s.document.nodeMarkup i ∈ s.met) {n : Nat} :
    Sweeping P d (visited ++ [i]) ⟨s.document.detach i, s.met, n⟩ := by
  have hmono := h.mono (List.subset_append_left visited [i])
  have hcut : (cutting (· ∈ visited ++ [i])).Takes s.document (s.document.detach i) := by
    refine Change.takes_detach ⟨?_, List.mem_append_right _ List.mem_cons_self⟩
    rw [show s.document.content i = d.content i from h.takes.content i]
    exact Change.isElement_of_mem_elementIds (mem_of_next hids)
  refine ⟨hmono.takes.trans hcut, hmono.met, ?_⟩
  intro k hk
  rcases kept_detach hr hP hids h hmet hk with hb | ⟨k', hk', hrest⟩
  · exact Or.inl hb
  · exact Or.inr ⟨k', List.mem_append_left _ hk', hrest⟩

theorem sweeping_visit (hr : d.root.outline.All WasRead) (hP : Shared d P)
    (hids : d.elementIds = visited ++ i :: rest) (h : Sweeping P d visited s) :
    Sweeping P d (visited ++ [i]) (s.visit i) := by
  have hmono := h.mono (List.subset_append_left visited [i])
  by_cases hi : s.document.isAttached i = true
  · by_cases hmet : s.document.nodeMarkup i ∈ s.met
    · -- something was visited before, so this is not the root
      have hne : i ≠ 0 := by
        intro h0
        subst h0
        obtain ⟨j, hj, _⟩ := h.met _ hmet
        rw [visited_eq_nil hids] at hj
        cases hj
      rw [visit_of_meets ⟨hi, hmet⟩ hne]
      exact sweeping_detach hr hP hids h hmet
    · rw [visit_of_new hi hmet]
      refine ⟨hmono.takes, ?_, hmono.kept⟩
      intro form hform
      rcases List.mem_cons.mp hform with rfl | hform
      · exact ⟨i, List.mem_append_right _ List.mem_cons_self, (form_of_not_visited hids h.takes).symm⟩
      · exact hmono.met form hform
  · rw [visit_of_detached hi]
    exact hmono

end Visit

theorem sweeping_foldl (hr : d.root.outline.All WasRead) (hP : Shared d P) {rest visited : List Nat}
    {s : DuplicateSweep} (hids : d.elementIds = visited ++ rest) (h : Sweeping P d visited s) :
    Sweeping P d d.elementIds (rest.foldl DuplicateSweep.visit s) := by
  induction rest generalizing visited s with
  | nil =>
    rw [List.append_nil] at hids
    rwa [hids]
  | cons i rest ih =>
    rw [List.foldl_cons]
    exact ih (by rw [hids, List.append_cons]) (sweeping_visit hr hP hids h)

/-- One sweep leaves something of each kind that equal forms share. -/
theorem kept_duplicateSweep (hr : d.root.outline.All WasRead) (hP : Shared d P) {k : Nat} (hk : P k) :
    ∃ k', d.duplicateSweep.document.Below 0 k' ∧ P k' := by
  have hstart : Sweeping P d [] ⟨d, [], 0⟩ :=
    ⟨Change.takes_refl _ d, fun _ hform => (List.not_mem_nil hform).elim,
      fun _ hk => Or.inl (Document.mem_elementIds.mp (hP.element hk)).1⟩
  rcases (sweeping_foldl hr hP (List.nil_append _).symm hstart).kept k hk with h | ⟨k', _, h, hx⟩
  · exact ⟨k, h, hk⟩
  · exact ⟨k', h, hx⟩

/-! ## Ids -/

theorem shared_id (hr : d.root.outline.All WasRead) (x : String) :
    Shared d fun k => d.Below 0 k ∧ d.idOf? k = some x := by
  constructor
  · intro k hk
    obtain ⟨hk, hx⟩ := hk
    obtain ⟨e, he, _⟩ := idOf_eq_some.mp hx
    exact Document.mem_elementIds.mpr ⟨hk, e, he⟩
  · intro i j k hi hj hform hik hk
    obtain ⟨e, he, hid⟩ := idOf_eq_some.mp hk.2
    have hne : e.attributes ≠ [] := by
      intro hnil
      rw [Element.get?, hnil] at hid
      cases hid
    have hi := (Document.mem_elementIds.mp hi).1
    have hj := (Document.mem_elementIds.mp hj).1
    obtain ⟨k', e', hk', he', has⟩ := exists_same_tag (all_below hr hi) (all_below hr hj) hform hik he hne
    exact ⟨k', hk', hj.trans hk', idOf_eq_some.mpr ⟨e', he', by rw [Element.get?, has]; exact hid⟩⟩

/-- Removing duplicates leaves a carrier of each id. -/
theorem carried_removeDuplicates (hr : d.root.outline.All WasRead) {k : Nat} {x : String} (hk : d.Below 0 k)
    (hx : d.idOf? k = some x) : ∃ k', d.removeDuplicates.1.Below 0 k' ∧ d.idOf? k' = some x := by
  have h := Change.exhaust_keeps (p := Document.duplicatePruning)
    (P := fun d' => (cutting fun _ => True).Takes d d' ∧ ∃ k', d'.Below 0 k' ∧ d.idOf? k' = some x) ?_ d
    ⟨Change.takes_refl _ d, k, hk, hx⟩
  · exact h.2
  · intro d' hinv
    obtain ⟨ht, k', hk', hx'⟩ := hinv
    have hr' := wasRead_outline (takes_naming_of_cutting ht) hr
    obtain ⟨k'', hk'', _, hx''⟩ := kept_duplicateSweep hr' (shared_id hr' x) ⟨hk', (idOf_of_cutting ht k').trans hx'⟩
    exact ⟨ht.trans (Change.takes_duplicateSweep d'), k'', hk'', (idOf_of_cutting ht k'').symm.trans hx''⟩

end SvgComponent.Markup
