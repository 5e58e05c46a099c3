/-
  SvgComponent.Proofs.Clean.Cuts — the elements that a pass cuts off are those it counts.

  An element counts as cut off if it was attached and has no parent any more. Below it others may go with it, and those
  keep their parents. `Cuts d d' n` says that `n` elements were cut off on the way from `d` to `d'` and that nothing
  else was cut off but what was attached. Counts add up from pass to pass (`Cuts.trans`), because what is cut off is
  attached no longer and cannot be cut off again. A pass that looks at all nodes of the document as it was
  at the beginning, though what it does may take away some of them, is judged by the parents it leaves
  (`cuts_of_detached`): so are empty style elements within others and paths within merged ones.
-/

import SvgComponent.Proofs.Clean.Repetition

namespace SvgComponent.Markup

/-- The attached elements that have no parent in the other document, the root aside. -/
def Document.cutElements (d d' : Document) : List Nat :=
  d.elementIds.filter fun i => i != 0 && (d'.parent? i).isNone

/-- Between the two documents so many elements are cut off, and nothing that was not attached. -/
structure Cuts (d d' : Document) (n : Nat) : Prop where
  elements : ∀ i, (d'.content i).isElement = (d.content i).isElement
  parents : ∀ i, d'.parent? i = d.parent? i ∨ d'.parent? i = none ∧ d.Below 0 i
  count : (d.cutElements d').length = n

namespace Cuts

variable {d d' d'' : Document} {n m : Nat}

theorem mem_cutElements {i : Nat} :
    i ∈ d.cutElements d' ↔ d.Below 0 i ∧ (d.content i).isElement = true ∧ i ≠ 0 ∧ d'.parent? i = none := by
  simp [Document.cutElements, Document.mem_elementIds, isElement_iff, and_assoc]

theorem nodup_cutElements (d d' : Document) : (d.cutElements d').Nodup := d.nodup_elementIds.filter _

/-- What is attached, the root aside, has a parent. -/
theorem parent?_ne_none {i : Nat} (h : d.Below 0 i) (hi : i ≠ 0) : d.parent? i ≠ none :=
  Option.isSome_iff_ne_none.mp (Document.parent?_isSome_of_isAttached (Document.isAttached_iff.mpr h) hi)

theorem below (h : Cuts d d' n) {i : Nat} (hi : d'.Below 0 i) : d.Below 0 i := by
  induction hi with
  | refl => exact .refl d 0
  | @tail p c _ hc ih =>
    rw [d'.linked.mem_children_iff] at hc
    rcases h.parents c with hparent | ⟨hparent, _⟩
    · exact ih.child ((d.linked.mem_children_iff p c).mpr (hparent ▸ hc))
    · rw [hparent] at hc
      cases hc

/-! ## Counts add up -/

/-- What is cut off first is attached no longer, so the second cannot cut it off again. -/
theorem cutElements_trans (h : Cuts d d' n) (h' : Cuts d' d'' m) :
    (d.cutElements d'').Perm (d.cutElements d' ++ d'.cutElements d'') := by
  refine (List.perm_ext_iff_of_nodup (nodup_cutElements d d'') ?_).mpr fun i => ?_
  · refine List.nodup_append.mpr ⟨nodup_cutElements d d', nodup_cutElements d' d'', ?_⟩
    rintro i hi _ hi' rfl
    obtain ⟨_, _, hne, hnone⟩ := mem_cutElements.mp hi
    exact parent?_ne_none (mem_cutElements.mp hi').1 hne hnone
  · rw [List.mem_append, mem_cutElements, mem_cutElements, mem_cutElements, h.elements]
    constructor
    · rintro ⟨hi, he, hne, hnone⟩
      rcases h'.parents i with hparent | ⟨_, hi'⟩
      · exact .inl ⟨hi, he, hne, hparent ▸ hnone⟩
      · exact .inr ⟨hi', he, hne, hnone⟩
    · rintro (⟨hi, he, hne, hnone⟩ | ⟨hi', he, hne, hnone⟩)
      · refine ⟨hi, he, hne, ?_⟩
        rcases h'.parents i with hparent | ⟨hparent, _⟩
        · rw [hparent, hnone]
        · exact hparent
      · exact ⟨h.below hi', he, hne, hnone⟩

theorem trans (h : Cuts d d' n) (h' : Cuts d' d'' m) : Cuts d d'' (n + m) := by
  refine ⟨fun i => (h'.elements i).trans (h.elements i), fun i => ?_, ?_⟩
  · rcases h'.parents i with hparent | ⟨hparent, hi⟩
    · rw [hparent]
      exact h.parents i
    · exact .inr ⟨hparent, h.below hi⟩
  · rw [(cutElements_trans h h').length_eq, List.length_append, h.count, h'.count]

/-! ## Judged by the parents that are left -/

/-- If the parents that are left are known, the elements among the nodes that lost theirs are those that are cut off. -/
theorem of_detached {l : List Nat} (hl : l.Nodup) (hattached : ∀ i ∈ l, d.Below 0 i ∧ i ≠ 0)
    (helements : ∀ i, (d'.content i).isElement = (d.content i).isElement)
    (hparents : ∀ i, d'.parent? i = if i ∈ l then none else d.parent? i) :
    Cuts d d' (l.countP fun i => (d.content i).isElement) := by
  refine ⟨helements, fun i => ?_, ?_⟩
  · rw [hparents]
    split
    · rename_i hi
      exact .inr ⟨rfl, (hattached i hi).1⟩
    · exact .inl rfl
  · rw [List.countP_eq_length_filter]
    refine List.Perm.length_eq ((List.perm_ext_iff_of_nodup (nodup_cutElements d d') (hl.filter _)).mpr fun i => ?_)
    rw [mem_cutElements, List.mem_filter, hparents]
    constructor
    · rintro ⟨hi, he, hne, hnone⟩
      by_cases hmem : i ∈ l
      · exact ⟨hmem, he⟩
      · rw [if_neg hmem] at hnone
        exact absurd hnone (parent?_ne_none hi hne)
    · rintro ⟨hmem, he⟩
      exact ⟨(hattached i hmem).1, he, (hattached i hmem).2, if_pos hmem⟩

theorem of_elements {l : List Nat} (hl : l.Nodup) (hattached : ∀ i ∈ l, i ∈ d.elementIds ∧ i ≠ 0)
    (helements : ∀ i, (d'.content i).isElement = (d.content i).isElement)
    (hparents : ∀ i, d'.parent? i = if i ∈ l then none else d.parent? i) : Cuts d d' l.length := by
  have hcount : (l.countP fun i => (d.content i).isElement) = l.length :=
    List.countP_eq_length.mpr fun i hi => Change.isElement_of_mem_elementIds (hattached i hi).1
  rw [← hcount]
  exact of_detached hl (fun i hi => ⟨(Document.mem_elementIds.mp (hattached i hi).1).1, (hattached i hi).2⟩) helements
    hparents

theorem of_parents (helements : ∀ i, (d'.content i).isElement = (d.content i).isElement)
    (hparents : ∀ i, d'.parent? i = d.parent? i) : Cuts d d' 0 :=
  of_elements .nil (fun _ h => absurd h List.not_mem_nil) helements hparents

theorem refl (d : Document) : Cuts d d 0 := of_parents (fun _ => rfl) fun _ => rfl

end Cuts

/-! ## One node after the other -/

section Steps

variable {d : Document} {step : Document → Nat → Document × Nat} {ids : List Nat}

/-- If what a step counts at a node is not changed by steps at others, the count is that of all nodes as they were. -/
theorem snd_forEach (hids : ids.Nodup) (h : ∀ d i j, i ≠ j → (step (step d i).1 j).2 = (step d j).2) (d : Document) :
    (d.forEach step ids).2 = (ids.map fun i => (step d i).2).sum := by
  suffices ∀ n, (ids.foldl (fun (s : Document × Nat) i => ((step s.1 i).1, s.2 + (step s.1 i).2)) (d, n)).2 =
      n + (ids.map fun i => (step d i).2).sum by
    rw [Document.forEach, this 0, Nat.zero_add]
  induction ids generalizing d with
  | nil => exact fun n => rfl
  | cons i ids ih =>
    intro n
    rw [List.nodup_cons] at hids
    have hsame : (ids.map fun j => (step (step d i).1 j).2) = ids.map fun j => (step d j).2 :=
      List.map_congr_left fun j hj => h d i j fun hij => hids.1 (hij ▸ hj)
    rw [List.foldl_cons, ih hids.2, hsame, List.map_cons, List.sum_cons, Nat.add_assoc]

/-- If which nodes a step detaches is not changed by steps at others, those lose their parents that a step at some node
    would detach at once. -/
theorem parent?_forEach (cut : Document → Nat → List Nat) (hids : ids.Nodup)
    (h : ∀ d i j, i ≠ j → cut (step d i).1 j = cut d j)
    (hstep : ∀ d i j, (step d i).1.parent? j = if j ∈ cut d i then none else d.parent? j) (d : Document) (j : Nat) :
    (d.forEach step ids).1.parent? j = if j ∈ ids.flatMap (cut d) then none else d.parent? j := by
  rw [Change.fst_forEach]
  induction ids generalizing d with
  | nil => rfl
  | cons i ids ih =>
    rw [List.nodup_cons] at hids
    have hsame : ids.flatMap (cut (step d i).1) = ids.flatMap (cut d) :=
      List.flatMap_congr fun j hj => h d i j fun hij => hids.1 (hij ▸ hj)
    rw [List.foldl_cons, ih hids.2, hsame, hstep, List.flatMap_cons]
    by_cases hj : j ∈ cut d i <;> simp [hj]

/-- What each step cuts off, all steps cut off together. -/
theorem cuts_forEach
    (h : ∀ d' i, i ∈ ids → (d'.content i).isElement = (d.content i).isElement → Cuts d' (step d' i).1 (step d' i).2) :
    Cuts d (d.forEach step ids).1 (d.forEach step ids).2 := by
  refine List.foldlRecOn ids _ (motive := fun s : Document × Nat => Cuts d s.1 s.2) (.refl d) ?_
  intro s hs i hi
  exact hs.trans (h s.1 i hi (hs.elements i))

end Steps

/-! ## The passes -/

namespace Document

variable {d : Document}

theorem isElement_apply (places : Nat) (p : Clean.Pass) (d : Document) (i : Nat) :
    ((p.apply places d).1.content i).isElement = (d.content i).isElement :=
  Content.SameNames.isElement ((takes_naming places p d).content i)

theorem parent?_eq_of_children {d' : Document} (h : ∀ p, d'.children p = d.children p) (i : Nat) :
    d'.parent? i = d.parent? i := by
  refine Option.ext fun p => ?_
  rw [← d'.linked.mem_children_iff, ← d.linked.mem_children_iff, h]

theorem cuts_prune {i : Nat} (he : (d.content i).isElement = true) : Cuts d (d.prune i).1 (d.prune i).2 := by
  unfold prune
  split
  · rename_i hi
    have hbelow := isAttached_iff.mp hi.1
    refine Cuts.of_elements (l := [i]) (List.nodup_singleton i) ?_ (fun j => by rw [content_detach]) fun j => ?_
    · intro j hj
      rw [List.mem_singleton] at hj
      subst hj
      exact ⟨mem_elementIds.mpr ⟨hbelow, isElement_iff.mp he⟩, hi.2⟩
    · rw [parent?_detach]
      simp only [List.mem_singleton]
  · exact .refl d

/-- Sweeps cut off what they count, repeated or not. -/
theorem cuts_exhaust {p : Pruning} (h : ∀ d, Cuts d (p.run d).1 (p.run d).2) (d : Document) :
    Cuts d (d.exhaust p).1 (d.exhaust p).2 := by
  unfold exhaust
  split
  · rename_i hzero
    rw [← hzero]
    exact h d
  · exact (h d).trans (cuts_exhaust h (p.run d).1)
termination_by d.linkCount
decreasing_by have := p.linkCount_run d; omega

theorem cuts_duplicateSweep (d : Document) : Cuts d d.duplicateSweep.document d.duplicateSweep.cuts := by
  refine List.foldlRecOn d.elementIds DuplicateSweep.visit
    (motive := fun s : DuplicateSweep => Cuts d s.document s.cuts) (.refl d) ?_
  intro s hs i hi
  unfold DuplicateSweep.visit
  split
  · dsimp only
    split
    · exact hs.trans (cuts_prune ((hs.elements i).trans (Change.isElement_of_mem_elementIds hi)))
    · exact hs
  · exact hs

theorem cuts_removeDuplicates (d : Document) : Cuts d d.removeDuplicates.1 d.removeDuplicates.2 :=
  cuts_exhaust (p := duplicatePruning) cuts_duplicateSweep d

theorem cuts_removeUnusedDefinitions (d : Document) :
    Cuts d d.removeUnusedDefinitions.1 d.removeUnusedDefinitions.2 := by
  refine cuts_exhaust (p := definitionPruning) (fun d => ?_) d
  refine cuts_forEach fun d' i hi hsame => cuts_prune (hsame.trans ?_)
  exact Change.isElement_of_mem_elementIds (List.mem_filter.mp hi).1

/-- Each empty style element is detached by itself, also one within another that goes. -/
theorem cuts_removeEmptyStyles {e : Element} (he : d.content 0 = .element e) (hs : e.is "style" = false) :
    Cuts d d.removeEmptyStyles.1 d.removeEmptyStyles.2 := by
  refine Cuts.of_elements (d.nodup_elementIds.filter _) (fun i hi => ⟨(List.mem_filter.mp hi).1, ?_⟩)
    (fun i => congrArg Content.isElement (content_detachAll _ d i)) (parent?_detachAll _ d)
  rintro rfl
  obtain ⟨_, f, hf, hstyle, _⟩ := mem_emptyStyles.mp hi
  rw [he] at hf
  cases hf
  rw [hs] at hstyle
  cases hstyle

theorem cuts_editElements (f : Element → Element × Nat) (d : Document) : Cuts d (d.editElements f).1 0 := by
  refine Cuts.of_parents (fun i => ?_) (parent?_eq_of_children (children_editElements f d))
  rw [content_editElements]
  split
  · cases d.content i <;> rfl
  · rfl

/-! ## Merging -/

/-- The paths that go into others when the paths below one node are merged. -/
def mergedBelow (d : Document) (p : Nat) : List Nat := (d.pathGroups p).flatMap fun g => g.others.map (·.1)

theorem mem_mergedBelow {p i : Nat} (h : i ∈ d.mergedBelow p) :
    i ∈ d.children p ∧ (d.content i).isElement = true := by
  obtain ⟨g, hg, hi⟩ := List.mem_flatMap.mp h
  have hlies := lies_pathGroups g hg
  obtain ⟨⟨e, he, _⟩, hsub⟩ := hlies.others hi
  exact ⟨hsub.subset (by simp), isElement_iff.mpr ⟨e, he⟩⟩

/-- A path is in one group only, the one of its paint. -/
theorem nodup_mergedBelow (d : Document) (p : Nat) : (d.mergedBelow p).Nodup := by
  refine List.nodup_flatMap.mpr ⟨fun g hg => ?_, ?_⟩
  · have hnodup := (d.linked.nodup p).sublist (lies_pathGroups g hg).order
    exact (List.nodup_cons.mp hnodup).2
  · refine List.Pairwise.imp_of_mem ?_ (List.pairwise_map.mp (nodup_paints d p))
    intro g g' hg hg' hne i hi hi'
    obtain ⟨e, he, _, hpaint⟩ := ((lies_pathGroups g hg).others hi).1
    obtain ⟨e', he', _, hpaint'⟩ := ((lies_pathGroups g' hg').others hi').1
    rw [he] at he'
    cases he'
    exact hne (hpaint.symm.trans hpaint')

theorem pathGroups_mergeChildren {p q : Nat} (h : p ≠ q) (d : Document) :
    (d.mergeChildren p).1.pathGroups q = d.pathGroups q := by
  have hconfined := confined_mergeChildren d p
  exact pathGroups_congr (hconfined.children q (Ne.symm h)) fun i hi =>
    hconfined.content i fun hmem => h (eq_of_mem_children hmem hi)

theorem snd_mergeChildren (d : Document) (p : Nat) : (d.mergeChildren p).2 = (d.mergedBelow p).length := by
  have hgroup : ∀ (d : Document) (g : PathGroup), (d.mergeGroup g).2 = g.others.length := by
    intro d g
    unfold mergeGroup
    split
    · rename_i hnil
      rw [List.isEmpty_iff.mp hnil, List.length_nil]
    · rfl
  unfold mergeChildren mergedBelow
  suffices ∀ (groups : List PathGroup) (s : Document × Nat),
      (groups.foldl (fun (s : Document × Nat) g => ((s.1.mergeGroup g).1, s.2 + (s.1.mergeGroup g).2)) s).2 =
        s.2 + (groups.flatMap fun g => g.others.map (·.1)).length from (this _ (d, 0)).trans (Nat.zero_add _)
  intro groups
  induction groups with
  | nil => exact fun _ => rfl
  | cons g groups ih =>
    intro s
    rw [List.foldl_cons, ih, hgroup, List.flatMap_cons, List.length_append, List.length_map, Nat.add_assoc]

theorem snd_mergePaths (d : Document) : d.mergePaths.2 = (d.elementIds.flatMap d.mergedBelow).length := by
  have hcount : ∀ (d : Document) (p q : Nat), p ≠ q →
      ((d.mergeChildren p).1.mergeChildren q).2 = (d.mergeChildren q).2 := by
    intro d p q hpq
    rw [snd_mergeChildren, snd_mergeChildren, mergedBelow, pathGroups_mergeChildren hpq, mergedBelow]
  rw [mergePaths, snd_forEach d.nodup_elementIds hcount, List.length_flatMap]
  exact congrArg List.sum (List.map_congr_left fun p _ => snd_mergeChildren d p)

/-- Whatever is merged on the way, the nodes that lose their parents are told by the document as it was. -/
theorem parent?_mergePaths (d : Document) (i : Nat) :
    d.mergePaths.1.parent? i = if i ∈ d.elementIds.flatMap d.mergedBelow then none else d.parent? i := by
  have hrest : ∀ (d : Document) (p q : Nat), p ≠ q → (d.mergeChildren p).1.mergedBelow q = d.mergedBelow q := by
    intro d p q hpq
    rw [mergedBelow, pathGroups_mergeChildren hpq, mergedBelow]
  exact parent?_forEach mergedBelow d.nodup_elementIds hrest parent?_mergeChildren d i

theorem cuts_mergePaths (d : Document) : Cuts d d.mergePaths.1 d.mergePaths.2 := by
  rw [snd_mergePaths]
  refine Cuts.of_elements ?_ ?_ (isElement_apply 0 .merging d) (parent?_mergePaths d)
  · refine List.nodup_flatMap.mpr ⟨fun p _ => nodup_mergedBelow d p, d.nodup_elementIds.imp ?_⟩
    intro p q hne i hi hi'
    exact hne (eq_of_mem_children (mem_mergedBelow hi).1 (mem_mergedBelow hi').1)
  · intro i hi
    obtain ⟨p, hp, hi⟩ := List.mem_flatMap.mp hi
    obtain ⟨hchild, he⟩ := mem_mergedBelow hi
    refine ⟨mem_elementIds.mpr ⟨(mem_elementIds.mp hp).1.child hchild, isElement_iff.mp he⟩, ?_⟩
    rintro rfl
    exact Nat.not_lt_zero p (d.linked.lt_of_mem_children hchild)

end Document

end SvgComponent.Markup
