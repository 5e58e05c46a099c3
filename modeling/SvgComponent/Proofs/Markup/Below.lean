/-
  SvgComponent.Proofs.Markup.Below — which nodes hang below which.

  `Document.Below` follows the links to children. A tree holds the trees of the nodes below its root
  (`mem_subtrees_iff`), a node is attached if it is below the document's root (`isAttached_iff`), and detaching a
  node leaves every other that is not below it where it is (`below_detach`). In document order a node comes before
  all that hangs below it (`pairwise_descendants`), and what hangs below it stands together (`below_of_between`).
-/

import Mathlib.Logic.Relation
import SvgComponent.Markup.Tree

namespace SvgComponent.Markup

open Relation (ReflTransGen)

theorem Tree.subtreesOf_eq_flatMap (ts : List Tree) : subtreesOf ts = ts.flatMap subtrees := by
  induction ts with
  | nil => rfl
  | cons t ts ih => rw [subtreesOf, ih, List.flatMap_cons]

theorem isElement_iff {c : Content} : c.isElement = true ↔ ∃ e, c = .element e := by
  cases c <;> simp [Content.isElement, Content.element?]

namespace Document

variable {d : Document}

/-- A number that was never given stands for an empty text. -/
theorem lt_size_of_ne {i : Nat} (h : d.content i ≠ .text "") : i < d.size := by
  refine Nat.lt_of_not_le fun hle => h ?_
  unfold Forest.content
  rw [Array.getElem?_eq_none hle]
  rfl

theorem lt_size_of_content {i : Nat} {e : Element} (he : d.content i = .element e) : i < d.size := by
  apply lt_size_of_ne
  rw [he]
  exact nofun

/-- The second node is the first, or hangs below it. -/
def Below (d : Document) : Nat → Nat → Prop := ReflTransGen fun p c => c ∈ d.children p

theorem Below.refl (d : Document) (i : Nat) : d.Below i i := ReflTransGen.refl

theorem Below.trans {i j m : Nat} (h : d.Below i j) (h' : d.Below j m) : d.Below i m := ReflTransGen.trans h h'

theorem Below.child {i j c : Nat} (h : d.Below i j) (hc : c ∈ d.children j) : d.Below i c := ReflTransGen.tail h hc

theorem below_of_mem_children {i c : Nat} (h : c ∈ d.children i) : d.Below i c := ReflTransGen.single h

theorem Below.le {i j : Nat} (h : d.Below i j) : i ≤ j := by
  induction h with
  | refl => exact Nat.le_refl i
  | tail _ hc ih => exact Nat.le_trans ih (Nat.le_of_lt (d.linked.lt_of_mem_children hc))

theorem Below.eq_or_lt_size {i j : Nat} (h : d.Below i j) : j = i ∨ j < d.size := by
  cases h with
  | refl => exact Or.inl rfl
  | tail _ hc => exact Or.inr (d.linked.mem_children_lt_size hc)

/-- A node that is not the root of what it hangs in hangs below that root's parent. -/
theorem Below.parent {i j p : Nat} (h : d.Below i j) (hne : i ≠ j) (hp : d.parent? j = some p) : d.Below i p := by
  cases h with
  | refl => exact absurd rfl hne
  | tail h hc =>
    rw [d.linked.mem_children_iff, hp] at hc
    cases hc
    exact h

theorem mem_subtrees_iff {i : Nat} {t : Tree} : t ∈ (d.tree i).subtrees ↔ ∃ j, d.Below i j ∧ t = d.tree j := by
  constructor
  · intro h
    rw [tree_eq, Tree.subtrees, List.mem_cons] at h
    rcases h with rfl | h
    · exact ⟨i, .refl d i, (d.tree_eq i).symm⟩
    · rw [Tree.subtreesOf_eq_flatMap] at h
      obtain ⟨u, hu, ht⟩ := List.mem_flatMap.mp h
      obtain ⟨c, hc, rfl⟩ := List.mem_map.mp hu
      have hlt := d.linked.lt_of_mem_children hc
      have hsize := d.linked.mem_children_lt_size hc
      obtain ⟨j, hj, rfl⟩ := mem_subtrees_iff.mp ht
      exact ⟨j, (below_of_mem_children hc).trans hj, rfl⟩
  · intro hbelow
    obtain ⟨j, hj, rfl⟩ := hbelow
    induction hj using ReflTransGen.head_induction_on with
    | refl =>
      rw [tree_eq, Tree.subtrees]
      exact List.mem_cons_self
    | @head i c hc _ ih =>
      rw [d.tree_eq i, Tree.subtrees, Tree.subtreesOf_eq_flatMap]
      exact List.mem_cons_of_mem _ (List.mem_flatMap.mpr ⟨d.tree c, List.mem_map_of_mem hc, ih⟩)
termination_by d.size - i

theorem id_tree (d : Document) (i : Nat) : (d.tree i).id = i := by rw [tree_eq, Tree.id]

theorem content_tree (d : Document) (i : Nat) : (d.tree i).content = d.content i := by rw [tree_eq, Tree.content]

theorem children_tree (d : Document) (i : Nat) : (d.tree i).children = (d.children i).map d.tree := by
  rw [tree_eq, Tree.children]

/-- A tree is made of the contents and the children of the nodes below its root. -/
theorem tree_congr {d' : Document} {i : Nat}
    (h : ∀ j, d.Below i j → d'.content j = d.content j ∧ d'.children j = d.children j) : d'.tree i = d.tree i := by
  obtain ⟨hcontent, hchildren⟩ := h i (.refl d i)
  rw [tree_eq, d.tree_eq i, hcontent, hchildren]
  congr 1
  refine List.map_congr_left fun c hc => ?_
  have hlt := d.linked.lt_of_mem_children hc
  have hsize := d.linked.mem_children_lt_size hc
  exact tree_congr fun j hj => h j ((below_of_mem_children hc).trans hj)
termination_by d.size - i

theorem mem_descendants_iff {i j : Nat} : j ∈ d.descendants i ↔ d.Below i j := by
  unfold descendants Tree.ids
  rw [List.mem_map]
  constructor
  · intro hmem
    obtain ⟨t, ht, rfl⟩ := hmem
    obtain ⟨m, hm, rfl⟩ := mem_subtrees_iff.mp ht
    rwa [id_tree]
  · intro h
    exact ⟨d.tree j, mem_subtrees_iff.mpr ⟨j, h, rfl⟩, id_tree d j⟩

theorem mem_elementIds {i : Nat} : i ∈ d.elementIds ↔ d.Below 0 i ∧ ∃ e, d.content i = .element e := by
  have helement : ∀ j, (d.tree j).content.isElement = true ↔ ∃ e, d.content j = .element e := by
    intro j
    rw [content_tree]
    exact isElement_iff
  unfold elementIds Tree.elements root
  rw [List.mem_map]
  constructor
  · intro hmem
    obtain ⟨t, ht, rfl⟩ := hmem
    obtain ⟨hmem, he⟩ := List.mem_filter.mp ht
    obtain ⟨j, hj, rfl⟩ := mem_subtrees_iff.mp hmem
    rw [id_tree]
    exact ⟨hj, (helement j).mp he⟩
  · intro hmem
    obtain ⟨hi, he⟩ := hmem
    exact ⟨d.tree i, List.mem_filter.mpr ⟨mem_subtrees_iff.mpr ⟨i, hi, rfl⟩, (helement i).mpr he⟩, id_tree d i⟩

/-! ## Document order -/

/-- Of two nodes above one node, one is above the other. -/
theorem Below.comparable {a b c : Nat} (ha : d.Below a c) (hb : d.Below b c) : d.Below a b ∨ d.Below b a := by
  induction ha with
  | refl => exact Or.inr hb
  | @tail p c hap hc ih =>
    by_cases hbc : b = c
    · subst hbc
      exact Or.inl (Below.child hap hc)
    · exact ih (hb.parent hbc ((d.linked.mem_children_iff p c).mp hc))

theorem Below.of_attached {i j : Nat} (hj : d.Below 0 j) (h : d.Below i j) : d.Below 0 i := by
  rcases hj.comparable h with h | h
  · exact h
  · obtain rfl : i = 0 := Nat.le_zero.mp h.le
    exact .refl d 0

/-- Nothing hangs below two siblings. -/
theorem eq_of_below_siblings {p c c' m : Nat} (hc : c ∈ d.children p) (hc' : c' ∈ d.children p) (h : d.Below c m)
    (h' : d.Below c' m) : c = c' := by
  have apart : ∀ {c c' : Nat}, c ∈ d.children p → c' ∈ d.children p → d.Below c c' → c = c' := by
    intro c c' hc hc' h
    by_cases hne : c = c'
    · exact hne
    · have hle := (h.parent hne ((d.linked.mem_children_iff p c').mp hc')).le
      have hlt := d.linked.lt_of_mem_children hc
      omega
  rcases h.comparable h' with h | h
  · exact apart hc hc' h
  · exact (apart hc' hc h).symm

theorem descendants_eq (d : Document) (i : Nat) : d.descendants i = i :: (d.children i).flatMap d.descendants := by
  unfold descendants Tree.ids
  rw [tree_eq, Tree.subtrees, Tree.subtreesOf_eq_flatMap, List.flatMap_map, List.map_cons, Tree.id, List.map_flatMap]

/-- No node comes after one below it. -/
theorem pairwise_descendants (d : Document) (i : Nat) : (d.descendants i).Pairwise fun a b => ¬ d.Below b a := by
  rw [descendants_eq, List.pairwise_cons, List.pairwise_flatMap]
  refine ⟨?_, ?_, ?_⟩
  · intro b hb h
    obtain ⟨c, hc, hcb⟩ := List.mem_flatMap.mp hb
    have hlt := d.linked.lt_of_mem_children hc
    have hle := (mem_descendants_iff.mp hcb).le
    have := h.le
    omega
  · intro c hc
    have hlt := d.linked.lt_of_mem_children hc
    have hsize := d.linked.mem_children_lt_size hc
    exact pairwise_descendants d c
  · refine List.Pairwise.imp_of_mem ?_ (d.linked.nodup i)
    intro c c' hc hc' hne a ha b hb h
    exact hne (eq_of_below_siblings hc hc' (mem_descendants_iff.mp ha) ((mem_descendants_iff.mp hb).trans h))
termination_by d.size - i

theorem nodup_descendants (d : Document) (i : Nat) : (d.descendants i).Nodup := by
  refine (pairwise_descendants d i).imp ?_
  rintro a b h rfl
  exact h (.refl d a)

/-- Three nodes in the trees of siblings are in the tree of one of them if the last is below the first. -/
theorem sublist_of_siblings {i a b c : Nat} {cs : List Nat} (hmem : ∀ m ∈ cs, m ∈ d.children i) (hnodup : cs.Nodup)
    (hac : d.Below a c) (h : [a, b, c].Sublist (cs.flatMap d.descendants)) :
    ∃ m ∈ cs, [a, b, c].Sublist (d.descendants m) := by
  induction cs with
  | nil => cases h
  | cons m cs ih =>
    rw [List.forall_mem_cons] at hmem
    rw [List.nodup_cons] at hnodup
    rw [List.flatMap_cons, List.sublist_append_iff] at h
    obtain ⟨l, l', hl, hin, hout⟩ := h
    -- the first of the three is in the tree of `m`; then so is the last
    have houter : a ∈ l → c ∉ l' := by
      intro ha hc
      obtain ⟨m', hm', hcm'⟩ := List.mem_flatMap.mp (hout.subset hc)
      have ham := mem_descendants_iff.mp (hin.subset ha)
      have hmm := eq_of_below_siblings hmem.1 (hmem.2 m' hm') (ham.trans hac) (mem_descendants_iff.mp hcm')
      exact hnodup.1 (hmm ▸ hm')
    cases l with
    | nil =>
      rw [List.nil_append] at hl
      obtain ⟨m', hm', h⟩ := ih hmem.2 hnodup.2 (hl ▸ hout)
      exact ⟨m', List.mem_cons_of_mem _ hm', h⟩
    | cons a' l =>
      rw [List.cons_append, List.cons.injEq] at hl
      obtain ⟨rfl, hl⟩ := hl
      have hnil : l' = [] := by
        cases hlast : l'.getLast? with
        | none => exact List.getLast?_eq_none_iff.mp hlast
        | some x =>
          have heq := congrArg List.getLast? hl
          rw [List.getLast?_append, hlast, Option.some_or] at heq
          cases heq
          exact absurd (List.mem_of_getLast? hlast) (houter List.mem_cons_self)
      rw [hnil, List.append_nil] at hl
      exact ⟨m, List.mem_cons_self, hl ▸ hin⟩

/-- What hangs below a node stands together: what is between the node and another below it is below it. -/
theorem below_of_between {i a b c : Nat} (h : [a, b, c].Sublist (d.descendants i)) (hac : d.Below a c) :
    d.Below a b := by
  rw [descendants_eq, List.sublist_cons_iff] at h
  rcases h with h | ⟨r, hr, h⟩
  · obtain ⟨m, hm, h⟩ := sublist_of_siblings (fun _ hm => hm) (d.linked.nodup i) hac h
    have hlt := d.linked.lt_of_mem_children hm
    have hsize := d.linked.mem_children_lt_size hm
    exact below_of_between h hac
  · rw [List.cons.injEq] at hr
    obtain ⟨rfl, rfl⟩ := hr
    obtain ⟨m, hm, hbm⟩ := List.mem_flatMap.mp (h.subset List.mem_cons_self)
    exact (below_of_mem_children hm).trans (mem_descendants_iff.mp hbm)
termination_by d.size - i

theorem elementIds_sublist (d : Document) : d.elementIds.Sublist (d.descendants 0) :=
  List.filter_sublist.map Tree.id

theorem nodup_elementIds (d : Document) : d.elementIds.Nodup := (nodup_descendants d 0).sublist d.elementIds_sublist

/-! ## Attached nodes -/

theorem ancestors_eq (d : Document) (i : Nat) :
    d.ancestors i = match d.parent? i with | none => [] | some p => p :: d.ancestors p := by
  rw [ancestors]
  split
  · rename_i h
    rw [h]
  · rename_i p h
    rw [h]

theorem isAttached_iff {i : Nat} : d.isAttached i = true ↔ d.Below 0 i := by
  by_cases h0 : i = 0
  · subst h0
    exact ⟨fun _ => .refl d 0, fun _ => rfl⟩
  · have hattached : ∀ j, d.isAttached j = true ↔ j = 0 ∨ 0 ∈ d.ancestors j := by
      intro j
      rw [isAttached, Bool.or_eq_true, beq_iff_eq, List.contains_iff_mem]
    rw [hattached, or_iff_right h0, ancestors_eq]
    cases hp : d.parent? i with
    | none =>
      constructor
      · intro h
        cases h
      · intro h
        cases h with
        | refl => exact absurd rfl h0
        | tail _ hc =>
          rw [d.linked.mem_children_iff, hp] at hc
          cases hc
    | some p =>
      have hlt := d.linked.parent_lt i p hp
      have hpi : i ∈ d.children p := (d.linked.mem_children_iff p i).mpr hp
      have ih : d.isAttached p = true ↔ d.Below 0 p := isAttached_iff
      rw [hattached] at ih
      rw [List.mem_cons, eq_comm, ih]
      exact ⟨fun h => h.child hpi, fun h => h.parent (Ne.symm h0) hp⟩
termination_by i

theorem children_detach (d : Document) (i j : Nat) :
    (d.detach i).children j = if d.parent? i = some j then (d.children j).erase i else d.children j :=
  Forest.children_detach d.toForest i j

theorem content_detach (d : Document) (i j : Nat) : (d.detach i).content j = d.content j :=
  Forest.content_detach d.toForest i j

/-- What is not below a node stays where it is when the node is detached. -/
theorem below_detach {i j m : Nat} (h : d.Below j m) (hi : ¬ d.Below i m) : (d.detach i).Below j m := by
  induction h with
  | refl => exact .refl _ j
  | @tail p c _ hc ih =>
    refine (ih fun hp => hi (hp.child hc)).child ?_
    rw [children_detach]
    split
    · refine (List.mem_erase_of_ne ?_).mpr hc
      intro heq
      subst heq
      exact hi (.refl d c)
    · exact hc

end Document

end SvgComponent.Markup
