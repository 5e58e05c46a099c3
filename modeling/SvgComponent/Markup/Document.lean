/-
  SvgComponent.Markup.Document — documents: linked nodes of which number 0 is the root.

  A node is attached when its chain of parents ends at the root. The root has no parent, so detaching it
  changes nothing. Cutting a link lowers `linkCount` by one (`linkCount_detach`), which bounds every pass that
  is repeated until it cuts nothing (`exhaust`).
-/

import SvgComponent.Markup.Forest

namespace SvgComponent.Markup

structure Document extends Forest where
  nonempty : 0 < toForest.size
  linked : toForest.Linked

namespace Document

/-- A document that is only its root. -/
def single (c : Content) : Document := ⟨.single c, by simp [Forest.single, Forest.size], Forest.linked_single c⟩

/-- A new last child of `p`; its number is the size before. -/
def append (d : Document) (p : Nat) (c : Content) : Document where
  toForest := d.toForest.append p c
  nonempty := by
    by_cases h : p < d.size
    · simp [h]
    · simpa [Forest.append, h] using d.nonempty
  linked := Forest.linked_append d.linked p c

def detach (d : Document) (i : Nat) : Document where
  toForest := d.toForest.detach i
  nonempty := by simpa using d.nonempty
  linked := Forest.linked_detach d.linked i

def setContent (d : Document) (i : Nat) (c : Content) : Document where
  toForest := d.toForest.setContent i c
  nonempty := by simpa using d.nonempty
  linked := Forest.linked_setContent d.linked i c

/-- The nodes above, innermost first. -/
def ancestors (d : Document) (i : Nat) : List Nat :=
  match _h : d.parent? i with
  | none => []
  | some p => p :: d.ancestors p
termination_by i
decreasing_by exact d.linked.parent_lt i p _h

def depth (d : Document) (i : Nat) : Nat := (d.ancestors i).length

def isAttached (d : Document) (i : Nat) : Bool := i == 0 || (d.ancestors i).contains 0

/-- Whether an element named `name` stands above. -/
def hasAncestor (d : Document) (i : Nat) (name : String) : Bool :=
  (d.ancestors i).any fun a => (d.element? a).any (·.is name)

theorem parent?_root (d : Document) : d.parent? 0 = none := by
  cases h : d.parent? 0 with
  | none => rfl
  | some p => exact absurd (d.linked.parent_lt 0 p h) (Nat.not_lt_zero p)

theorem parent?_isSome_of_isAttached {d : Document} {i : Nat} (h : d.isAttached i) (hi : i ≠ 0) :
    (d.parent? i).isSome := by
  unfold isAttached ancestors at h
  split at h
  · simp [hi] at h
  · simp [*]

/-! ## Counting links -/

/-- How many nodes have a parent. -/
def linkCount (d : Document) : Nat := (List.range d.size).countP fun i => (d.parent? i).isSome

theorem countP_range_cut {p q : Nat → Bool} {i : Nat} (hq : ∀ j, q j = if j = i then false else p j) (n : Nat) :
    (List.range n).countP p = (List.range n).countP q + (if i < n ∧ p i then 1 else 0) := by
  induction n with
  | zero => simp
  | succ n ih =>
    rw [List.range_succ, List.countP_append, List.countP_append, ih]
    by_cases hn : n = i
    · subst hn; cases hp : p n <;> simp [hq, hp]
    · have : i < n + 1 ↔ i < n := by omega
      cases hp : p n
      · simp [hq, hp, hn, this]
      · simp [hq, hp, hn, this]; omega

theorem linkCount_detach {d : Document} {i : Nat} (h : (d.parent? i).isSome) :
    (d.detach i).linkCount + 1 = d.linkCount := by
  obtain ⟨p, hp⟩ := Option.isSome_iff_exists.1 h
  have lt : i < d.size := Forest.lt_size_of_parent? hp
  have cut := countP_range_cut (p := fun j => (d.parent? j).isSome)
    (q := fun j => ((d.detach i).parent? j).isSome) (i := i)
    (by intro j; simp only [detach, Forest.parent?_detach]; split <;> simp) d.size
  have size : (d.detach i).size = d.size := Forest.size_detach d.toForest i
  simp only [linkCount, size]
  rw [cut, if_pos ⟨lt, h⟩]

/-! ## Passes that only cut links -/

/-- Detaches the node if it is attached and not the root, and says how many links that cut. -/
def prune (d : Document) (i : Nat) : Document × Nat :=
  if d.isAttached i ∧ i ≠ 0 then (d.detach i, 1) else (d, 0)

theorem linkCount_prune (d : Document) (i : Nat) : (d.prune i).1.linkCount + (d.prune i).2 = d.linkCount := by
  unfold prune
  split
  · rename_i h; exact linkCount_detach (parent?_isSome_of_isAttached h.1 h.2)
  · rfl

/-- A pass with the number of links it cuts. -/
structure Pruning where
  run : Document → Document × Nat
  linkCount_run : ∀ d, (run d).1.linkCount + (run d).2 = d.linkCount

/-- Repeats a pass until a run cuts nothing; the answer counts all cuts. -/
def exhaust (p : Pruning) (d : Document) : Document × Nat :=
  if (p.run d).2 = 0 then ((p.run d).1, 0)
  else
    let rest := exhaust p (p.run d).1
    (rest.1, (p.run d).2 + rest.2)
termination_by d.linkCount
decreasing_by have := p.linkCount_run d; omega

end Document

end SvgComponent.Markup
