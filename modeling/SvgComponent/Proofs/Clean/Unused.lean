/-
  SvgComponent.Proofs.Clean.Unused — removing unused definitions does not depend on the order.

  `Document.Unused` says what the pass looks for, `Discards` is the removal of one of them. What is attached only
  becomes less, and with it what is referred to and what hangs below a definition; so a definition that is unused
  stays unused while it is there (`Unused.mono`), and none of them survives in a document without unused ones
  (`below_of_discards`). Hence
  - a sweep, which looks for all at once, removes what one removal after the other may remove (`discards_sweep`), and
  - every order of removals that leaves nothing unused ends in one and the same tree (`root_eq_of_discards`).

  `removeUnusedDefinitions_fixpoint` puts this together for documents that were read.
-/

import Mathlib.Data.List.Sort
import SvgComponent.Proofs.Clean.Resolvable

namespace SvgComponent.Markup

open Change (cutting)
open Relation (ReflTransGen)

namespace Document

variable {d d₁ d₂ d' : Document} {i j : Nat} {x : String}

/-! ## Ancestors -/

theorem mem_ancestors_iff {i j : Nat} : j ∈ d.ancestors i ↔ j ≠ i ∧ d.Below j i := by
  rw [ancestors_eq]
  cases hp : d.parent? i with
  | none =>
    refine ⟨fun h => absurd h List.not_mem_nil, fun h => ?_⟩
    rcases ReflTransGen.cases_tail h.2 with heq | ⟨p, _, hpi⟩
    · exact absurd heq.symm h.1
    · rw [d.linked.mem_children_iff, hp] at hpi
      cases hpi
  | some p =>
    have hlt := d.linked.parent_lt i p hp
    have hpi := (d.linked.mem_children_iff p i).mpr hp
    have ih : j ∈ d.ancestors p ↔ j ≠ p ∧ d.Below j p := mem_ancestors_iff
    simp only [List.mem_cons, ih]
    constructor
    · rintro (rfl | ⟨-, h⟩)
      · exact ⟨Nat.ne_of_lt hlt, below_of_mem_children hpi⟩
      · have hle := h.le
        exact ⟨by omega, h.child hpi⟩
    · rintro ⟨hne, h⟩
      have hjp := h.parent hne hp
      by_cases heq : j = p
      · exact Or.inl heq
      · exact Or.inr ⟨heq, hjp⟩
termination_by i

theorem hasAncestor_iff {name : String} : d.hasAncestor i name = true ↔
    ∃ a e, a ≠ i ∧ d.Below a i ∧ d.content a = .element e ∧ e.is name = true := by
  rw [hasAncestor, List.any_eq_true]
  simp only [mem_ancestors_iff, Option.any_eq_true, Change.element?_eq_some]
  exact ⟨fun ⟨a, ⟨hne, h⟩, e, he, hname⟩ => ⟨a, e, hne, h, he, hname⟩,
    fun ⟨a, e, hne, h, he, hname⟩ => ⟨a, ⟨hne, h⟩, e, he, hname⟩⟩

/-! ## Unused definitions -/

/-- An attached element with an id and below `defs`, in which nothing has an id that is referred to. -/
structure Unused (d : Document) (i : Nat) : Prop where
  attached : i ∈ d.elementIds
  id : ∃ x, d.idOf? i = some x
  defs : d.hasAncestor i "defs" = true
  unreferenced : ∀ j x, d.Below i j → d.idOf? j = some x → x ∉ d.references

theorem mem_unused_iff : i ∈ d.unused ↔ d.Unused i := by
  have hid : (d.element? i).any (·.has "id") = true ↔ ∃ x, d.idOf? i = some x := by
    rw [← Option.isSome_iff_exists, idOf?]
    cases d.element? i with
    | none => rfl
    | some e => rfl
  have htree : (d.tree i).carriesAny d.references = false ↔
      ∀ j x, d.Below i j → d.idOf? j = some x → x ∉ d.references := by
    have hcarries : (d.tree i).carriesAny d.references = true ↔
        ∃ j x, d.Below i j ∧ d.idOf? j = some x ∧ x ∈ d.references := by
      simp only [Tree.carriesAny, List.any_eq_true, mem_subtrees_iff, Option.any_eq_true, List.contains_iff_mem]
      constructor
      · rintro ⟨_, ⟨j, hj, rfl⟩, x, hx, href⟩
        rw [Tree.element?, content_tree] at hx
        exact ⟨j, x, hj, hx, href⟩
      · rintro ⟨j, x, hj, hx, href⟩
        refine ⟨_, ⟨j, hj, rfl⟩, x, ?_, href⟩
        rw [Tree.element?, content_tree]
        exact hx
    rw [← Bool.not_eq_true, hcarries]
    simp only [not_exists, not_and]
  rw [unused, List.mem_filter, isUnused, Bool.and_eq_true, Bool.and_eq_true, hid, Bool.not_eq_true', htree]
  constructor
  · rintro ⟨hi, ⟨hx, hdefs⟩, hall⟩
    exact ⟨hi, hx, hdefs, hall⟩
  · intro h
    exact ⟨h.attached, ⟨h.id, h.defs⟩, h.unreferenced⟩

theorem Unused.below (h : d.Unused i) : d.Below 0 i := (mem_elementIds.mp h.attached).1

theorem Unused.ne_root (h : d.Unused i) : i ≠ 0 := by
  rintro rfl
  obtain ⟨a, _, hne, ha, _⟩ := hasAncestor_iff.mp h.defs
  exact hne (Nat.le_zero.mp ha.le)

/-- Removes one unused definition. -/
def Discards (d d' : Document) : Prop := ∃ i, d.Unused i ∧ d' = d.detach i

theorem takes_discards (h : Discards d d') : (cutting fun _ => True).Takes d d' := by
  obtain ⟨i, hi, rfl⟩ := h
  exact Change.takes_detach ⟨Change.isElement_of_mem_elementIds hi.attached, trivial⟩

theorem takes_of_discards (h : ReflTransGen Discards d d') : (cutting fun _ => True).Takes d d' := by
  induction h with
  | refl => exact Change.takes_refl _ d
  | tail _ hstep ih => exact ih.trans (takes_discards hstep)

theorem linkCount_discards (h : Discards d d') : d'.linkCount < d.linkCount := by
  obtain ⟨i, hi, rfl⟩ := h
  have hparent := parent?_isSome_of_isAttached (isAttached_iff.mpr hi.below) hi.ne_root
  have := linkCount_detach hparent
  omega

/-- No removal goes on forever. -/
theorem not_discards_forever {run : Nat → Document} (h : ∀ n, Discards (run n) (run (n + 1))) : False := by
  have hcount : ∀ n, (run n).linkCount + n ≤ (run 0).linkCount := by
    intro n
    induction n with
    | zero => exact Nat.le_refl _
    | succ n ih =>
      have := linkCount_discards (h n)
      omega
  have := hcount ((run 0).linkCount + 1)
  omega

/-! ## Less is attached, less is referred to -/

section Cut

variable (hf : d.Flat) (h₁ : (cutting fun _ => True).Takes d d₁) (h₂ : (cutting fun _ => True).Takes d d₂)
  (hsub : ∀ i, d₂.Below 0 i → d₁.Below 0 i)

include hf h₁ in
/-- Where elements were cut off, the references are those of the elements that are left. -/
theorem mem_references_cut : x ∈ d₁.references ↔ ∃ i e, d₁.Below 0 i ∧ d.content i = .element e ∧
    (e.is "style" = true ∧ x ∈ Analysis.references (d.textContent i) ∨
      x ∈ e.attributes.flatMap Analysis.attributeReferences) := by
  rw [mem_references_iff]
  refine exists_congr fun i => exists_congr fun e => and_congr_right fun hi => ?_
  rw [show d₁.content i = d.content i from h₁.content i]
  refine and_congr_right fun he => or_congr_left (and_congr_right fun hs => ?_)
  rw [textContent_of_pruning (x := x) (h₁.of_cutting fun _ _ hc _ => hc) hf hi he hs]

include hf h₁ h₂ hsub in
theorem references_subset : d₂.references ⊆ d₁.references := by
  intro y hy
  obtain ⟨i, e, hi, hrest⟩ := (mem_references_cut hf h₂).mp hy
  exact (mem_references_cut hf h₁).mpr ⟨i, e, hsub i hi, hrest⟩

include hf h₁ h₂ hsub in
/-- A definition that is unused is unused where less is attached, as long as it is attached itself. -/
theorem Unused.mono (hi : d₁.Unused i) (hi₂ : d₂.Below 0 i) : d₂.Unused i := by
  have hcontent : ∀ j, d₂.content j = d₁.content j := fun j =>
    (h₂.content j : d₂.content j = d.content j).trans (h₁.content j : d₁.content j = d.content j).symm
  obtain ⟨hi₁, e, he⟩ := mem_elementIds.mp hi.attached
  refine ⟨mem_elementIds.mpr ⟨hi₂, e, (hcontent i).trans he⟩, ?_, ?_, ?_⟩
  · obtain ⟨x, hx⟩ := hi.id
    exact ⟨x, ((idOf_of_cutting h₂ i).trans (idOf_of_cutting h₁ i).symm).trans hx⟩
  · obtain ⟨a, e, hne, ha, he, hname⟩ := hasAncestor_iff.mp hi.defs
    exact hasAncestor_iff.mpr ⟨a, e, hne, h₂.below_of_attached hi₂ (h₁.below ha), (hcontent a).trans he, hname⟩
  · intro j x hj hx href
    have hj₁ := h₁.below_of_attached (hsub j (hi₂.trans hj)) (h₂.below hj)
    have hx₁ := ((idOf_of_cutting h₁ j).trans (idOf_of_cutting h₂ j).symm).trans hx
    exact hi.unreferenced j x hj₁ hx₁ (references_subset hf h₁ h₂ hsub href)

end Cut

/-! ## Any order -/

/-- Whatever is removed on the way, what is attached where nothing is unused any more is still attached. -/
theorem below_of_discards (hf : d.Flat) (h₁ : ReflTransGen Discards d d₁) (h₂ : ReflTransGen Discards d d₂)
    (hend : ∀ i, ¬ d₂.Unused i) (hj : d₂.Below 0 j) : d₁.Below 0 j := by
  have ht₂ := takes_of_discards h₂
  induction h₁ generalizing j with
  | refl => exact ht₂.below hj
  | @tail d₁ d₁' h₁ hstep ih =>
    have ht₁ := takes_of_discards h₁
    obtain ⟨i, hi, rfl⟩ := hstep
    -- were `j` below what is removed, that would be unused at the end too
    refine below_detach (ih hj) fun hij => hend i ?_
    have hi₂ := hj.of_attached (ht₂.below_of_attached hj (ht₁.below hij))
    exact hi.mono hf ht₁ ht₂ (fun m hm => ih hm) hi₂

/-- A child of an attached node is attached exactly if it is still a child. -/
theorem mem_children_cut (h : (cutting fun _ => True).Takes d d') (hi : d'.Below 0 i) :
    j ∈ d'.children i ↔ j ∈ d.children i ∧ d'.Below 0 j := by
  constructor
  · exact fun hj => ⟨(h.children i).subset hj, hi.child hj⟩
  · rintro ⟨hj, hj'⟩
    rcases ReflTransGen.cases_tail hj' with rfl | ⟨p, _, hp⟩
    · exact absurd (d.linked.lt_of_mem_children hj) (Nat.not_lt_zero i)
    · have hpj := (d.linked.mem_children_iff p j).mp ((h.children p).subset hp)
      rw [(d.linked.mem_children_iff i j).mp hj, Option.some.injEq] at hpj
      exact hpj ▸ hp

theorem tree_eq_of_below (h₁ : (cutting fun _ => True).Takes d d₁) (h₂ : (cutting fun _ => True).Takes d d₂)
    (hsame : ∀ j, d₁.Below 0 j ↔ d₂.Below 0 j) (hi : d₂.Below 0 i) : d₁.tree i = d₂.tree i := by
  refine tree_congr fun j hj => ⟨?_, ?_⟩
  · exact (h₁.content j : d₁.content j = d.content j).trans (h₂.content j : d₂.content j = d.content j).symm
  · have hj₂ := hi.trans hj
    refine List.Pairwise.eq_of_mem_iff (d₁.linked.sorted j) (d₂.linked.sorted j) fun m => ?_
    rw [mem_children_cut h₁ ((hsame j).mpr hj₂), mem_children_cut h₂ hj₂, hsame]

/-- However definitions are removed until none is unused, the same tree is left. -/
theorem root_eq_of_discards (hf : d.Flat) (h₁ : ReflTransGen Discards d d₁) (hend₁ : ∀ i, ¬ d₁.Unused i)
    (h₂ : ReflTransGen Discards d d₂) (hend₂ : ∀ i, ¬ d₂.Unused i) : d₁.root = d₂.root :=
  tree_eq_of_below (takes_of_discards h₁) (takes_of_discards h₂)
    (fun _ => ⟨below_of_discards hf h₂ h₁ hend₁, below_of_discards hf h₁ h₂ hend₂⟩) (.refl d₂ 0)

/-! ## The pass -/

/-- A sweep removes one unused definition after the other. -/
theorem discards_sweep (hf : d.Flat) : ReflTransGen Discards d (d.pruneAll d.unused).1 := by
  rw [pruneAll, Change.fst_forEach]
  refine List.foldlRecOn d.unused (fun d i => (d.prune i).1) (motive := ReflTransGen Discards d) .refl ?_
  intro d' hd' i hi
  unfold prune
  split
  · rename_i hattached
    have ht := takes_of_discards hd'
    have hunused := (mem_unused_iff.mp hi).mono hf (Change.takes_refl _ d) ht (fun _ hj => ht.below hj)
      (isAttached_iff.mp hattached.1)
    exact hd'.tail ⟨i, hunused, rfl⟩
  · exact hd'

theorem discards_removeUnusedDefinitions (hf : d.Flat) : ReflTransGen Discards d d.removeUnusedDefinitions.1 := by
  refine Change.exhaust_keeps (p := definitionPruning) (P := ReflTransGen Discards d) ?_ d .refl
  intro d' hd'
  exact hd'.trans (discards_sweep (hf.takes (takes_naming_of_cutting (takes_of_discards hd'))))

/-- A sweep that removes nothing has found nothing. -/
theorem unused_of_sweep (h : (d.pruneAll d.unused).2 = 0) : d.unused = [] := by
  cases hu : d.unused with
  | nil => rfl
  | cons i rest =>
    have hi := mem_unused_iff.mp (hu ▸ List.mem_cons_self : i ∈ d.unused)
    have hcount := linkCount_pruneAll d.unused d
    have hcut : (d.prune i).1.linkCount < d.linkCount := by
      rw [prune, if_pos ⟨isAttached_iff.mpr hi.below, hi.ne_root⟩]
      exact linkCount_discards ⟨i, hi, rfl⟩
    have hrest := linkCount_pruneAll rest (d.prune i).1
    have hsplit : (d.pruneAll (i :: rest)).1 = ((d.prune i).1.pruneAll rest).1 := by
      rw [pruneAll, pruneAll, Change.fst_forEach, Change.fst_forEach, List.foldl_cons]
    rw [h, hu, hsplit] at hcount
    omega

theorem sweep_eq_self (h : (d.pruneAll d.unused).2 = 0) : (d.pruneAll d.unused).1 = d := by
  rw [unused_of_sweep h]
  rfl

theorem not_unused_removeUnusedDefinitions (d : Document) : ∀ i, ¬ d.removeUnusedDefinitions.1.Unused i := by
  obtain ⟨n, -, hrun, hend⟩ := Change.exhaust_eq_iterate definitionPruning d
  rw [Function.iterate_succ_apply'] at hend
  intro i hi
  rw [removeUnusedDefinitions, hend.trans (sweep_eq_self hrun), ← mem_unused_iff, unused_of_sweep hrun] at hi
  cases hi

/-- In a document that was read and whose style elements hold no elements: the sweeps end, no definition is left
    unused, every order of removals leads to the tree that is left, none of them goes on forever, and what was
    attached under an id that is referred to at the end is attached. -/
theorem removeUnusedDefinitions_fixpoint {svg : String} (h : parse svg = .ok d) (hs : d.StylesHoldText) :
    (∃ n ≤ d.linkCount, d.removeUnusedDefinitions.1 = (fun d => (d.pruneAll d.unused).1)^[n + 1] d) ∧
      (∀ i, ¬ d.removeUnusedDefinitions.1.Unused i) ∧
      ReflTransGen Discards d d.removeUnusedDefinitions.1 ∧
      (∀ d', ReflTransGen Discards d d' → (∀ i, ¬ d'.Unused i) → d'.root = d.removeUnusedDefinitions.1.root) ∧
      (¬ ∃ run : Nat → Document, run 0 = d ∧ ∀ n, Discards (run n) (run (n + 1))) ∧
      ∀ i x, i ∈ d.elementIds → d.idOf? i = some x → x ∈ d.removeUnusedDefinitions.1.references →
        i ∈ d.removeUnusedDefinitions.1.elementIds := by
  have hf := flat_of_wasRead (wasRead_of_parse h) hs
  have hdiscards := discards_removeUnusedDefinitions hf
  have hend := not_unused_removeUnusedDefinitions d
  refine ⟨?_, hend, hdiscards, fun d' hd' hend' => root_eq_of_discards hf hd' hend' hdiscards hend, ?_, ?_⟩
  · obtain ⟨n, hn, -, heq⟩ := Change.exhaust_eq_iterate definitionPruning d
    exact ⟨n, hn, heq⟩
  · rintro ⟨run, -, hrun⟩
    exact not_discards_forever hrun
  · intro i x hi hx href
    obtain ⟨hi, e, he⟩ := mem_elementIds.mp hi
    refine mem_elementIds.mpr ⟨below_removeUnusedDefinitions hf hi hx href, e, ?_⟩
    exact ((takes_of_discards hdiscards).content i : _ = d.content i).trans he

/-- `b` is referred to from `a` only and goes after it; what refers to `c` is no definition. -/
theorem removeUnusedDefinitions_fixpoint_chain :
    ∃ d, parse "<svg viewBox=\"0 0 1 1\"><defs><g id=\"b\"/><g id=\"a\" fill=\"url(#b)\"/><g id=\"c\"/></defs><rect fill=\"url(#c)\"/></svg>" = .ok d ∧
      d.StylesHoldText ∧
      d.removeUnusedDefinitions.1.markup =
        "<svg viewBox=\"0 0 1 1\"><defs><g id=\"c\"/></defs><rect fill=\"url(#c)\"/></svg>" ∧
      (∀ i, ¬ d.removeUnusedDefinitions.1.Unused i) ∧
      ∀ d', ReflTransGen Discards d d' → (∀ i, ¬ d'.Unused i) → d'.root = d.removeUnusedDefinitions.1.root := by
  obtain ⟨d, hd, hs, hmarkup⟩ : ∃ d, parse "<svg viewBox=\"0 0 1 1\"><defs><g id=\"b\"/><g id=\"a\" fill=\"url(#b)\"/><g id=\"c\"/></defs><rect fill=\"url(#c)\"/></svg>" = .ok d ∧
      d.StylesHoldText ∧ d.removeUnusedDefinitions.1.markup =
        "<svg viewBox=\"0 0 1 1\"><defs><g id=\"c\"/></defs><rect fill=\"url(#c)\"/></svg>" := by
    decide +kernel
  obtain ⟨-, hend, -, horder, -, -⟩ := removeUnusedDefinitions_fixpoint hd hs
  exact ⟨d, hd, hs, hmarkup, hend, horder⟩

end Document

end SvgComponent.Markup
