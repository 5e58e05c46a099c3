/-
  SvgComponent.Proofs.Markup.Restriction — the part of a document that is reached from its root through drawn elements.

  A node is reached if all nodes above it are drawn elements: neither styles nor with a namespace (`isReached_child`). A
  tree is restricted to some of its nodes by leaving out the others with all that hangs below them. If a node is kept only
  if the one above it is, then what is left of the tree of a document are exactly the nodes that are kept, in document
  order (`ids_restrict`, `elements_restrict`).
-/

import SvgComponent.Proofs.Markup.Below

namespace SvgComponent.Markup

/-- An element that is no style and has no namespace. -/
def Content.isDrawn : Content → Bool
  | .element e => e.name.space.isNone && !e.is "style"
  | _ => false

theorem Content.isDrawn_element {e : Element} :
    (Content.element e).isDrawn = true ↔ ¬ e.name.space.isSome = true ∧ ¬ e.is "style" = true := by
  rw [isDrawn, Bool.and_eq_true, ← Option.not_isSome, Bool.not_eq_true', Bool.not_eq_true', Bool.eq_false_iff,
    Bool.eq_false_iff]

theorem Content.isDrawn_spaced {e : Element} (h : e.name.space.isSome = true) : (Content.element e).isDrawn = false :=
  Bool.eq_false_iff.mpr fun hdrawn => (isDrawn_element.mp hdrawn).1 h

theorem Content.isDrawn_style {e : Element} (h : e.is "style" = true) : (Content.element e).isDrawn = false :=
  Bool.eq_false_iff.mpr fun hdrawn => (isDrawn_element.mp hdrawn).2 h

namespace Tree

mutual

/-- The tree without the nodes below its root that are not `p`, and without all below them. -/
def restrict (p : Nat → Bool) : Tree → Tree
  | node i c ts => .node i c (restrictAll p ts)

def restrictAll (p : Nat → Bool) : List Tree → List Tree
  | [] => []
  | t :: ts => if p t.id then restrict p t :: restrictAll p ts else restrictAll p ts

end

theorem restrictAll_eq (p : Nat → Bool) (ts : List Tree) :
    restrictAll p ts = (ts.filter fun t => p t.id).map (restrict p) := by
  induction ts with
  | nil => rfl
  | cons t ts ih =>
    rw [restrictAll, ih, List.filter_cons]
    split <;> rfl

end Tree

namespace Document

variable {d : Document} {p : Nat → Bool}

/-- All nodes above are drawn elements. -/
def isReached (d : Document) (i : Nat) : Bool := (d.ancestors i).all fun a => (d.content a).isDrawn

/-- The node is reached, and drawn. -/
def draws (d : Document) (i : Nat) : Bool := d.isReached i && (d.content i).isDrawn

/-- The nodes that are drawn, in document order. -/
def drawnIds (d : Document) : List Nat := (d.descendants 0).filter d.draws

theorem isReached_root (d : Document) : d.isReached 0 = true := by
  rw [isReached, ancestors_eq, parent?_root]
  rfl

theorem isReached_of_draws {i : Nat} (h : d.draws i = true) : d.isReached i = true := by
  rw [draws, Bool.and_eq_true] at h
  exact h.1

theorem isReached_child {i c : Nat} (hc : c ∈ d.children i) : d.isReached c = ((d.content i).isDrawn && d.isReached i) := by
  rw [isReached, ancestors_eq, (d.linked.mem_children_iff i c).mp hc]
  rfl

theorem isReached_of_drawn {i c : Nat} (hc : c ∈ d.children i) (hdrawn : (d.content i).isDrawn = true)
    (hi : d.isReached i = true) : d.isReached c = true := by
  rw [isReached_child hc, hdrawn, hi]
  rfl

/-- What holds of a node if it holds of the nodes that are reached through it holds of all that are reached. -/
@[elab_as_elim]
theorem reached_induction {P : Nat → Prop} {i : Nat} (hi : d.isReached i = true)
    (step : ∀ i, d.isReached i = true → ((d.content i).isDrawn = true → ∀ c ∈ d.children i, P c) → P i) : P i := by
  refine step i hi fun hdrawn c hc => ?_
  have hlt := d.linked.lt_of_mem_children hc
  have hsize := d.linked.mem_children_lt_size hc
  exact reached_induction (isReached_of_drawn hc hdrawn hi) step
termination_by d.size - i

theorem restrict_tree (d : Document) (p : Nat → Bool) (i : Nat) : (d.tree i).restrict p =
    .node i (d.content i) (((d.children i).filter p).map fun c => (d.tree c).restrict p) := by
  rw [tree_eq, Tree.restrict, Tree.restrictAll_eq, List.filter_map, List.map_map]
  simp only [Function.comp_def, id_tree]

/-! ## The nodes that are left -/

/-- A node is kept only if the one above it is. -/
def Inherited (d : Document) (p : Nat → Bool) : Prop := ∀ i, ∀ c ∈ d.children i, p c = true → p i = true

theorem filter_descendants_eq_nil {i : Nat} (h : d.Inherited p) (hi : p i = false) :
    (d.descendants i).filter p = [] := by
  refine List.filter_eq_nil_iff.mpr fun j hj => ?_
  have hbelow := mem_descendants_iff.mp hj
  clear hj
  induction hbelow with
  | refl => simp [hi]
  | tail _ hc ih => exact fun hkept => ih (h _ _ hc hkept)

theorem filter_descendants (d : Document) (q : Nat → Bool) (i : Nat) : (d.descendants i).filter q =
    (if q i then [i] else []) ++ (d.children i).flatMap fun c => (d.descendants c).filter q := by
  rw [descendants_eq, List.filter_cons, List.filter_flatMap]
  split <;> rfl

/-- Nothing is reached through what is not drawn. -/
theorem filter_descendants_undrawn {q : Nat → Bool} (hq : ∀ j, q j = true → d.isReached j = true) {i : Nat}
    (h : (d.content i).isDrawn = false) : (d.descendants i).filter q = if q i then [i] else [] := by
  have hinherited : d.Inherited d.isReached := by
    intro j c hc hreached
    rw [isReached_child hc, Bool.and_eq_true] at hreached
    exact hreached.2
  have hnone : ∀ c ∈ d.children i, (d.descendants c).filter q = [] := by
    intro c hc
    have hunreached : d.isReached c = false := by rw [isReached_child hc, h, Bool.false_and]
    have hnil := List.filter_eq_nil_iff.mp (filter_descendants_eq_nil hinherited hunreached)
    exact List.filter_eq_nil_iff.mpr fun j hj hkept => hnil j hj (hq j hkept)
  rw [filter_descendants, List.flatMap_eq_nil_iff.mpr hnone, List.append_nil]

theorem ids_restrict {i : Nat} (h : d.Inherited p) (hi : p i = true) :
    ((d.tree i).restrict p).ids = (d.descendants i).filter p := by
  have hchildren : ∀ cs : List Nat, (∀ c ∈ cs, c ∈ d.children i) →
      (Tree.subtreesOf ((cs.filter p).map fun c => (d.tree c).restrict p)).map Tree.id =
        (cs.flatMap d.descendants).filter p := by
    intro cs hcs
    induction cs with
    | nil => rfl
    | cons c cs ih =>
      rw [List.forall_mem_cons] at hcs
      rw [List.flatMap_cons, List.filter_append, ← ih hcs.2, List.filter_cons]
      split
      · rename_i hc
        have hlt := d.linked.lt_of_mem_children hcs.1
        have hsize := d.linked.mem_children_lt_size hcs.1
        rw [List.map_cons, Tree.subtreesOf, List.map_append, ← ids_restrict h hc]
        rfl
      · rename_i hc
        rw [filter_descendants_eq_nil h (Bool.eq_false_iff.mpr hc)]
        rfl
  rw [restrict_tree, Tree.ids, Tree.subtrees, List.map_cons, hchildren _ fun _ hc => hc, descendants_eq,
    List.filter_cons, if_pos hi]
  rfl
termination_by d.size - i

theorem content_of_mem_restrict {i : Nat} {t : Tree} (h : t ∈ ((d.tree i).restrict p).subtrees) :
    t.content = d.content t.id := by
  rw [restrict_tree, Tree.subtrees, List.mem_cons] at h
  rcases h with rfl | h
  · rfl
  · rw [Tree.subtreesOf_eq_flatMap, List.flatMap_map] at h
    obtain ⟨c, hc, ht⟩ := List.mem_flatMap.mp h
    have hc := (List.mem_filter.mp hc).1
    have hlt := d.linked.lt_of_mem_children hc
    have hsize := d.linked.mem_children_lt_size hc
    exact content_of_mem_restrict ht
termination_by d.size - i

/-- The elements that are left, in document order. -/
theorem elements_restrict {i : Nat} (h : d.Inherited p) (hi : p i = true) :
    ((d.tree i).restrict p).elements.map Tree.id =
      (d.descendants i).filter fun j => (d.content j).isElement && p j := by
  rw [← List.filter_filter, ← ids_restrict h hi, Tree.elements, Tree.ids, List.filter_map]
  congr 1
  refine List.filter_congr fun t ht => ?_
  rw [content_of_mem_restrict ht]
  rfl

end Document

end SvgComponent.Markup
