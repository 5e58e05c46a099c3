/-
  SvgComponent.Markup.Forest — numbered nodes with links to parent and children.

  Nodes are numbered in the order they are made, and a number stays valid: detaching cuts a link and removes
  nothing. `Linked` says that the two kinds of links agree, that a parent has a smaller number than its
  children and that siblings stand in the order of their numbers. Making, linking, cutting and refilling keep
  it (`linked_single`, `linked_append`, `linked_detach`, `linked_setContent`).
-/

import SvgComponent.Markup.Element

namespace SvgComponent.Markup

structure Node where
  parent : Option Nat
  children : List Nat
  content : Content

structure Forest where
  nodes : Array Node

namespace Forest

def size (f : Forest) : Nat := f.nodes.size

def parent? (f : Forest) (i : Nat) : Option Nat := (f.nodes[i]?).bind (·.parent)

def children (f : Forest) (i : Nat) : List Nat := ((f.nodes[i]?).map (·.children)).getD []

/-- What the node holds; a number that was never given stands for an empty text. -/
def content (f : Forest) (i : Nat) : Content := ((f.nodes[i]?).map (·.content)).getD (.text "")

def element? (f : Forest) (i : Nat) : Option Element := (f.content i).element?

def single (c : Content) : Forest := ⟨#[⟨none, [], c⟩]⟩

/-- A new node, the last child of `p`. Without a node `p` nothing is made. -/
def append (f : Forest) (p : Nat) (c : Content) : Forest :=
  if p < f.size then
    ⟨(f.nodes.modify p fun n => { n with children := n.children ++ [f.size] }).push ⟨some p, [], c⟩⟩
  else f

/-- Cuts the link between a node and its parent. -/
def detach (f : Forest) (i : Nat) : Forest :=
  match f.parent? i with
  | none => f
  | some p =>
    ⟨(f.nodes.modify p fun n => { n with children := n.children.erase i }).modify i
      fun n => { n with parent := none }⟩

def setContent (f : Forest) (i : Nat) (c : Content) : Forest :=
  ⟨f.nodes.modify i fun n => { n with content := c }⟩

/-! ## Links after each operation -/

theorem lt_size_of_parent? {f : Forest} {i p : Nat} (h : f.parent? i = some p) : i < f.size := by
  unfold parent? at h
  cases hi : f.nodes[i]? with
  | none => simp [hi] at h
  | some n => exact (Array.getElem?_eq_some_iff.1 hi).1

theorem parent?_eq_none {f : Forest} {i : Nat} (h : f.size ≤ i) : f.parent? i = none := by
  simp [parent?, Array.getElem?_eq_none h]

theorem children_eq_nil {f : Forest} {i : Nat} (h : f.size ≤ i) : f.children i = [] := by
  simp [children, Array.getElem?_eq_none h]

@[simp] theorem size_append {f : Forest} {p : Nat} {c : Content} (h : p < f.size) :
    (f.append p c).size = f.size + 1 := by
  rw [append, if_pos h]; simp [size]

@[simp] theorem size_detach (f : Forest) (i : Nat) : (f.detach i).size = f.size := by
  unfold detach; split <;> simp [size]

@[simp] theorem size_setContent (f : Forest) (i : Nat) (c : Content) : (f.setContent i c).size = f.size := by
  simp [setContent, size]

theorem parent?_append {f : Forest} {p : Nat} {c : Content} (h : p < f.size) (j : Nat) :
    (f.append p c).parent? j = if j = f.size then some p else f.parent? j := by
  simp only [append, h, if_true, parent?, Array.getElem?_push, Array.size_modify, Array.getElem?_modify]
  by_cases hj : j = f.size
  · simp [hj, size]
  · have hj' : j ≠ f.nodes.size := hj
    simp only [hj', hj, if_false]
    by_cases hp : p = j
    · subst hp; cases f.nodes[p]? <;> simp
    · simp [hp]

theorem children_append {f : Forest} {p : Nat} {c : Content} (h : p < f.size) (j : Nat) :
    (f.append p c).children j = if j = p then f.children p ++ [f.size] else f.children j := by
  simp only [append, h, if_true, children, Array.getElem?_push, Array.size_modify, Array.getElem?_modify]
  by_cases hj : j = f.nodes.size
  · subst hj
    have hp : f.nodes.size ≠ p := Nat.ne_of_gt h
    simp [hp]
  · simp only [hj, if_false]
    by_cases hp : p = j
    · subst hp
      simp [Array.getElem?_eq_getElem h, size]
    · simp [hp, Ne.symm hp]

theorem parent?_detach (f : Forest) (i j : Nat) :
    (f.detach i).parent? j = if j = i then none else f.parent? j := by
  unfold detach
  cases hp : f.parent? i with
  | none => by_cases hj : j = i <;> simp [hj, hp]
  | some p =>
    simp only [parent?, Array.getElem?_modify]
    by_cases hj : i = j
    · subst hj; by_cases hpi : p = i <;> cases f.nodes[i]? <;> simp [hpi]
    · simp only [hj, Ne.symm hj, if_false]
      by_cases hpj : p = j
      · subst hpj; cases f.nodes[p]? <;> simp
      · simp [hpj]

theorem children_detach (f : Forest) (i j : Nat) :
    (f.detach i).children j = if f.parent? i = some j then (f.children j).erase i else f.children j := by
  unfold detach
  cases hp : f.parent? i with
  | none => simp
  | some p =>
    simp only [children, Array.getElem?_modify, Option.some.injEq]
    by_cases hj : i = j <;> by_cases hpj : p = j <;> simp only [hj, hpj, if_true, if_false] <;>
      cases f.nodes[j]? <;> simp

@[simp] theorem parent?_setContent (f : Forest) (i j : Nat) (c : Content) :
    (f.setContent i c).parent? j = f.parent? j := by
  simp only [setContent, parent?, Array.getElem?_modify]
  split
  · cases f.nodes[j]? <;> simp
  · rfl

@[simp] theorem children_setContent (f : Forest) (i j : Nat) (c : Content) :
    (f.setContent i c).children j = f.children j := by
  simp only [setContent, children, Array.getElem?_modify]
  split
  · cases f.nodes[j]? <;> simp
  · rfl

/-! ## Contents after each operation -/

theorem content_append {f : Forest} {p : Nat} {c : Content} (h : p < f.size) (j : Nat) :
    (f.append p c).content j = if j = f.size then c else f.content j := by
  simp only [append, h, if_true, content, Array.getElem?_push, Array.size_modify, Array.getElem?_modify]
  by_cases hj : j = f.size
  · simp [hj, size]
  · have hj' : j ≠ f.nodes.size := hj
    simp only [hj', hj, if_false]
    split
    · cases f.nodes[j]? <;> simp
    · rfl

@[simp] theorem content_detach (f : Forest) (i j : Nat) : (f.detach i).content j = f.content j := by
  unfold detach
  split
  · rfl
  · simp only [content, Array.getElem?_modify]
    split <;> split <;> cases f.nodes[j]? <;> simp

theorem content_setContent {f : Forest} {i : Nat} (h : i < f.size) (c : Content) (j : Nat) :
    (f.setContent i c).content j = if j = i then c else f.content j := by
  simp only [setContent, content, Array.getElem?_modify]
  by_cases hj : j = i
  · subst hj
    simp [Array.getElem?_eq_getElem h]
  · simp [hj, Ne.symm hj]

/-! ## Agreement of the links -/

structure Linked (f : Forest) : Prop where
  mem_children_iff : ∀ p c, c ∈ f.children p ↔ f.parent? c = some p
  parent_lt : ∀ c p, f.parent? c = some p → p < c
  sorted : ∀ p, (f.children p).Pairwise (· < ·)

theorem Linked.nodup {f : Forest} (h : f.Linked) (p : Nat) : (f.children p).Nodup :=
  (h.sorted p).imp Nat.ne_of_lt

theorem Linked.lt_of_mem_children {f : Forest} (h : f.Linked) {p c : Nat} (hc : c ∈ f.children p) : p < c :=
  h.parent_lt c p ((h.mem_children_iff p c).1 hc)

theorem Linked.mem_children_lt_size {f : Forest} (h : f.Linked) {p c : Nat} (hc : c ∈ f.children p) :
    c < f.size :=
  lt_size_of_parent? ((h.mem_children_iff p c).1 hc)

theorem linked_single (c : Content) : (single c).Linked := by
  have hp : ∀ i, (single c).parent? i = none := by
    intro i; cases i <;> simp [single, parent?]
  have hc : ∀ i, (single c).children i = [] := by
    intro i; cases i <;> simp [single, children]
  exact ⟨by simp [hp, hc], by simp [hp], by simp [hc]⟩

theorem linked_append {f : Forest} (h : f.Linked) (p : Nat) (c : Content) : (f.append p c).Linked := by
  by_cases hp : p < f.size
  · have fresh : f.parent? f.size = none := parent?_eq_none (Nat.le_refl _)
    refine ⟨?_, ?_, ?_⟩
    · intro q i
      rw [children_append hp, parent?_append hp]
      by_cases hi : i = f.size
      · subst hi
        by_cases hq : q = p
        · simp [hq]
        · simp [hq, Ne.symm hq, h.mem_children_iff, fresh]
      · by_cases hq : q = p <;> simp [hq, hi, h.mem_children_iff]
    · intro i q hq
      rw [parent?_append hp] at hq
      split at hq
      · simp at hq; omega
      · exact h.parent_lt i q hq
    · intro q
      rw [children_append hp]
      split
      · refine List.pairwise_append.2 ⟨h.sorted p, by simp, ?_⟩
        intro a ha b hb
        simp at hb; subst hb
        exact h.mem_children_lt_size ha
      · exact h.sorted q
  · simpa [append, hp] using h

theorem linked_detach {f : Forest} (h : f.Linked) (i : Nat) : (f.detach i).Linked := by
  refine ⟨?_, ?_, ?_⟩
  · intro p c
    rw [children_detach, parent?_detach]
    by_cases hp : f.parent? i = some p
    · rw [if_pos hp, (h.nodup p).mem_erase_iff, h.mem_children_iff]
      by_cases hc : c = i <;> simp [hc]
    · rw [if_neg hp, h.mem_children_iff]
      by_cases hc : c = i
      · simp [hc, hp]
      · simp [hc]
  · intro c p hp
    rw [parent?_detach] at hp
    split at hp
    · simp at hp
    · exact h.parent_lt c p hp
  · intro p
    rw [children_detach]
    split
    · exact (h.sorted p).sublist List.erase_sublist
    · exact h.sorted p

theorem linked_setContent {f : Forest} (h : f.Linked) (i : Nat) (c : Content) : (f.setContent i c).Linked := by
  refine ⟨?_, ?_, ?_⟩
  · simpa using h.mem_children_iff
  · simpa using h.parent_lt
  · simpa using h.sorted

end Forest

end SvgComponent.Markup
