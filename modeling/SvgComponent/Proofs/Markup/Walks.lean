/-
  SvgComponent.Proofs.Markup.Walks — walking the links of an arena.

  In the arena of a document each iterator ends and lists what the document holds: `children_arena`,
  `descendants_arena`, `isAttached_arena`. The walk through all descendants has no measure of its own: from a node it
  lists all below it and then goes on with whatever the climb from that node finds (`walk_arena`).

  - `isForest_arena`: the links of a document's arena agree with each other and make an ordered forest.
  - `isForest_run`: so do those of an arena after any edits of nodes that are there, and the document that the
    same edits make holds the same.
-/

import Mathlib.Data.List.Sort
import SvgComponent.Proofs.Markup.Slots

namespace SvgComponent.Markup

open Relation (ReflTransGen TransGen)

/-! ## Links and what they say -/

namespace Arena

def parent? (a : Arena) (i : Nat) : Option Nat := (a.slot? i).bind (·.parent)

def first? (a : Arena) (i : Nat) : Option Nat := (a.slot? i).bind (·.first)

def last? (a : Arena) (i : Nat) : Option Nat := (a.slot? i).bind (·.last)

def prev? (a : Arena) (i : Nat) : Option Nat := (a.slot? i).bind (·.prev)

def next? (a : Arena) (i : Nat) : Option Nat := (a.slot? i).bind (·.next)

/-- The five links agree, no chain of them closes, and the iterators end and list the forest they stand for.
    Numbers are given in the order nodes are appended. -/
structure IsForest (a : Arena) : Prop where
  lead : ∀ i j, a.parent? i = some j ∨ a.first? i = some j ∨ a.last? i = some j ∨ a.prev? i = some j ∨
    a.next? i = some j → j < a.size
  next_iff_prev : ∀ i j, a.next? i = some j ↔ a.prev? j = some i
  siblings : ∀ i j, a.next? i = some j → ∃ p, a.parent? i = some p ∧ a.parent? j = some p
  first_iff : ∀ p c, a.first? p = some c ↔ a.parent? c = some p ∧ a.prev? c = none
  last_iff : ∀ p c, a.last? p = some c ↔ a.parent? c = some p ∧ a.next? c = none
  parent_acyclic : ∀ i, ¬ TransGen (fun c p => a.parent? c = some p) i i
  next_acyclic : ∀ i, ¬ TransGen (fun l r => a.next? l = some r) i i
  children : ∀ p < a.size, a.children p = .some ((List.range a.size).filter fun c => a.parent? c = some p)
  descendants : ∀ x < a.size, ∃ l, a.descendants x = .some l ∧ l.Nodup ∧
    ∀ y, y ∈ l ↔ ReflTransGen (fun c p => a.parent? c = some p) y x
  /-- A node comes first, then all below its first child, all below its second, and so on. -/
  preorder : ∀ x < a.size, a.descendants x = do
    let cs ← a.children x
    let ls ← cs.mapM a.descendants
    return x :: ls.flatten
  attached : ∀ x < a.size, ∃ b l, a.isAttached x = .some b ∧ a.descendants 0 = .some l ∧ (b = true ↔ x ∈ l)

/-- What can be read off the arena is what the document holds. -/
structure Shows (a : Arena) (d : Document) : Prop where
  size : a.size = d.size
  parent : ∀ i, a.parent? i = d.parent? i
  content : ∀ i < d.size, (a.slot? i).map (·.content) = some (d.content i)
  children : ∀ i < d.size, a.children i = .some (d.children i)
  descendants : ∀ i < d.size, a.descendants i = .some (d.descendants i)
  isAttached : ∀ i < d.size, a.isAttached i = .some (d.isAttached i)

theorem collect_none (next : Nat → Part (Option Nat)) (l : List Nat) : collect next (l, none) = .some l :=
  Part.eq_some_iff.mpr (PFun.fix_stop (Part.mem_some _))

theorem collect_some {next : Nat → Part (Option Nat)} {i : Nat} {o : Option Nat} (h : next i = .some o)
    (l : List Nat) : collect next (l, some i) = collect next (l ++ [i], o) := by
  refine PFun.fix_fwd_eq ?_
  dsimp only
  rw [h, Part.map_some]
  exact Part.mem_some _

theorem sibling_eq {a : Arena} {i : Nat} {s : Slot} (hs : a.slot? i = some s) : a.sibling i = .some s.next := by
  rw [sibling, hs]
  exact Part.map_some _ s

theorem climb_start (a : Arena) (start : Nat) : a.climb start start = .some none := by
  refine Part.eq_some_iff.mpr (PFun.fix_stop ?_)
  rw [if_pos rfl]
  exact Part.mem_some _

theorem climb_of_next {a : Arena} {start i r : Nat} {s : Slot} (hi : i ≠ start) (hs : a.slot? i = some s)
    (hr : s.next = some r) : a.climb start i = .some (some r) := by
  refine Part.eq_some_iff.mpr (PFun.fix_stop ?_)
  rw [if_neg hi, hs, Part.ofOption, Part.map_some, hr]
  exact Part.mem_some _

theorem climb_of_last {a : Arena} {start i p : Nat} {s : Slot} (hi : i ≠ start) (hs : a.slot? i = some s)
    (hlast : s.next = none) (hp : s.parent = some p) : a.climb start i = a.climb start p := by
  refine PFun.fix_fwd_eq ?_
  rw [if_neg hi, hs, Part.ofOption, Part.map_some, hlast, hp]
  exact Part.mem_some _

theorem after_eq {a : Arena} {i : Nat} {s : Slot} (hs : a.slot? i = some s) (start : Nat) :
    a.after start i = match s.first with | some c => .some (some c) | none => a.climb start i := by
  rw [after, hs]
  exact Part.bind_some s _

theorem isAttached_root (a : Arena) : a.isAttached 0 = .some true :=
  Part.eq_some_iff.mpr (PFun.fix_stop (Part.mem_some _))

theorem isAttached_of_parent {a : Arena} {i p : Nat} {s : Slot} (hi : i ≠ 0) (hs : a.slot? i = some s)
    (hp : s.parent = some p) : a.isAttached i = a.isAttached p := by
  refine PFun.fix_fwd_eq ?_
  rw [if_neg hi, hs, Part.ofOption, Part.map_some, hp]
  exact Part.mem_some _

theorem isAttached_of_orphan {a : Arena} {i : Nat} {s : Slot} (hi : i ≠ 0) (hs : a.slot? i = some s)
    (hp : s.parent = none) : a.isAttached i = .some false := by
  refine Part.eq_some_iff.mpr (PFun.fix_stop ?_)
  rw [if_neg hi, hs, Part.ofOption, Part.map_some, hp]
  exact Part.mem_some _

end Arena

namespace Document

variable {d : Document}

theorem slot_of_size_le {i : Nat} (h : d.size ≤ i) : d.slot i = Slot.alone (d.content i) := by
  have hparent : d.parent? i = none := Forest.parent?_eq_none h
  have hchildren : d.children i = [] := Forest.children_eq_nil h
  simp [slot, hparent, hchildren, Slot.alone]

theorem link_arena (d : Document) {f : Slot → Option Nat} (hf : ∀ c, f (.alone c) = none) (i : Nat) :
    (d.arena.slot? i).bind f = f (d.slot i) := by
  rw [slot?_arena]
  split
  · rfl
  · rename_i h
    rw [slot_of_size_le (Nat.le_of_not_lt h), hf]
    rfl

theorem parent?_arena (d : Document) : d.arena.parent? = fun i => d.parent? i := funext (d.link_arena fun _ => rfl)

theorem first?_arena (d : Document) : d.arena.first? = fun i => (d.children i).head? :=
  funext (d.link_arena fun _ => rfl)

theorem last?_arena (d : Document) : d.arena.last? = fun i => (d.children i).getLast? :=
  funext (d.link_arena fun _ => rfl)

theorem prev?_arena (d : Document) : d.arena.prev? = fun i => (d.slot i).prev := funext (d.link_arena fun _ => rfl)

theorem next?_arena (d : Document) : d.arena.next? = fun i => (d.slot i).next := funext (d.link_arena fun _ => rfl)

theorem slot_split {p i : Nat} {l r : List Nat} (h : d.children p = l ++ i :: r) :
    (d.slot i).prev = l.getLast? ∧ (d.slot i).next = r.head? := by
  have hp : d.parent? i = some p := (d.linked.mem_children_iff p i).mp (by simp [h])
  have hnodup := d.linked.nodup p
  rw [h, List.nodup_append, List.nodup_cons] at hnodup
  have hi : i ∉ l := fun hi => hnodup.2.2 i hi i List.mem_cons_self rfl
  simp only [slot, hp, Option.bind_some, h, nextIn_split hi, prevIn_split hnodup.2.1.1, and_self]

theorem head?_children_iff {p c : Nat} :
    (d.children p).head? = some c ↔ d.parent? c = some p ∧ (d.slot c).prev = none := by
  rw [← d.linked.mem_children_iff]
  constructor
  · intro h
    obtain ⟨r, hr⟩ := List.head?_eq_some_iff.mp h
    exact ⟨List.mem_of_head? h, (slot_split (l := []) hr).1⟩
  · rintro ⟨hc, hprev⟩
    obtain ⟨l, r, hlr⟩ := List.append_of_mem hc
    rw [(slot_split hlr).1, List.getLast?_eq_none_iff] at hprev
    rw [hlr, hprev, List.nil_append, List.head?_cons]

theorem getLast?_children_iff {p c : Nat} :
    (d.children p).getLast? = some c ↔ d.parent? c = some p ∧ (d.slot c).next = none := by
  rw [← d.linked.mem_children_iff]
  constructor
  · intro h
    obtain ⟨l, hl⟩ := List.getLast?_eq_some_iff.mp h
    exact ⟨List.mem_of_getLast? h, (slot_split hl).2⟩
  · rintro ⟨hc, hnext⟩
    obtain ⟨l, r, hlr⟩ := List.append_of_mem hc
    rw [(slot_split hlr).2, List.head?_eq_none_iff] at hnext
    rw [hlr, hnext, List.getLast?_concat]

/-! ## The iterators -/

theorem siblings_arena {p : Nat} {l : List Nat} (r : List Nat) (h : d.children p = l ++ r) :
    Arena.collect d.arena.sibling (l, r.head?) = .some (l ++ r) := by
  induction r generalizing l with
  | nil => rw [List.head?_nil, Arena.collect_none, List.append_nil]
  | cons i r ih =>
    have hi : i < d.size := d.linked.mem_children_lt_size (p := p) (by simp [h])
    have hnext : d.arena.sibling i = .some r.head? := by
      rw [Arena.sibling_eq (slot?_arena_of_lt hi), (slot_split h).2]
    rw [List.head?_cons, Arena.collect_some hnext, ih (by simp [h]), ← List.append_cons]

theorem children_arena {i : Nat} (hi : i < d.size) : d.arena.children i = .some (d.children i) := by
  rw [Arena.children, slot?_arena_of_lt hi]
  exact (Part.bind_some _ _).trans (siblings_arena (d.children i) rfl)

/-- From a node the walk goes through all below it and on with what the climb from it finds. -/
theorem walk_arena {start i : Nat} (hstart : start ≤ i) (hi : i < d.size) {j : Option Nat}
    (hj : d.arena.climb start i = .some j) (l : List Nat) :
    Arena.collect (d.arena.after start) (l, some i) = Arena.collect (d.arena.after start) (l ++ d.descendants i, j) := by
  -- the children from `c` on, one walk after the other; the climb from the last of them is the climb from `i`
  have hsiblings : ∀ (r b : List Nat) (c : Nat) (l : List Nat), d.children i = b ++ c :: r →
      Arena.collect (d.arena.after start) (l, some c) =
        Arena.collect (d.arena.after start) (l ++ (c :: r).flatMap d.descendants, j) := by
    intro r
    induction r with
    | nil =>
      intro b c l h
      have hmem : c ∈ d.children i := by simp [h]
      have hlt := d.linked.lt_of_mem_children hmem
      have hsize := d.linked.mem_children_lt_size hmem
      have hclimb : d.arena.climb start c = .some j := by
        rw [Arena.climb_of_last (by omega) (slot?_arena_of_lt hsize) (slot_split h).2
          ((d.linked.mem_children_iff i c).mp hmem), hj]
      rw [walk_arena (by omega) hsize hclimb, List.flatMap_singleton]
    | cons c' r ih =>
      intro b c l h
      have hmem : c ∈ d.children i := by simp [h]
      have hlt := d.linked.lt_of_mem_children hmem
      have hsize := d.linked.mem_children_lt_size hmem
      have hclimb : d.arena.climb start c = .some (some c') :=
        Arena.climb_of_next (by omega) (slot?_arena_of_lt hsize) (slot_split h).2
      rw [walk_arena (by omega) hsize hclimb, ih (b ++ [c]) c' _ (by simp [h]), List.append_assoc]
      rfl
  have hafter := Arena.after_eq (slot?_arena_of_lt hi) start
  rw [descendants_eq]
  cases hc : d.children i with
  | nil =>
    have hfirst : (d.slot i).first = none := by simp [slot, hc]
    rw [hfirst, hj] at hafter
    rw [Arena.collect_some hafter, List.flatMap_nil]
  | cons c r =>
    have hfirst : (d.slot i).first = some c := by simp [slot, hc]
    rw [hfirst] at hafter
    rw [Arena.collect_some hafter, hsiblings r [] c _ hc, ← List.append_cons]
termination_by d.size - i

theorem descendants_arena {i : Nat} (hi : i < d.size) : d.arena.descendants i = .some (d.descendants i) := by
  rw [Arena.descendants, walk_arena (Nat.le_refl i) hi (Arena.climb_start d.arena i), Arena.collect_none,
    List.nil_append]

theorem isAttached_arena {i : Nat} (hi : i < d.size) : d.arena.isAttached i = .some (d.isAttached i) := by
  by_cases h0 : i = 0
  · subst h0
    exact Arena.isAttached_root d.arena
  · have hs := slot?_arena_of_lt hi
    rw [isAttached, ancestors_eq]
    cases hp : d.parent? i with
    | none =>
      rw [Arena.isAttached_of_orphan h0 hs hp]
      simp [h0]
    | some p =>
      have hlt := d.linked.parent_lt i p hp
      rw [Arena.isAttached_of_parent h0 hs hp, isAttached_arena (Nat.lt_trans hlt hi), isAttached]
      simp only [List.contains_cons, beq_eq_false_iff_ne.mpr h0, Bool.false_or, BEq.comm (a := 0)]
termination_by i

/-! ## The forest -/

theorem shows_arena (d : Document) : d.arena.Shows d where
  size := size_arena d
  parent := congrFun (parent?_arena d)
  content := by
    intro i hi
    rw [slot?_arena_of_lt hi]
    rfl
  children := fun i hi => children_arena hi
  descendants := fun i hi => descendants_arena hi
  isAttached := fun i hi => isAttached_arena hi

theorem children_eq_filter (d : Document) (p : Nat) :
    d.children p = (List.range d.size).filter fun c => d.parent? c = some p := by
  refine (d.linked.sorted p).eq_of_mem_iff (List.pairwise_lt_range.filter _) fun c => ?_
  rw [List.mem_filter, List.mem_range, decide_eq_true_iff, d.linked.mem_children_iff]
  exact ⟨fun h => ⟨Forest.lt_size_of_parent? h, h⟩, And.right⟩

theorem below_iff_parents {i j : Nat} : d.Below i j ↔ ReflTransGen (fun c p => d.parent? c = some p) j i := by
  rw [← Relation.reflTransGen_swap]
  have hstep : (fun p c => c ∈ d.children p) = Function.swap fun c p => d.parent? c = some p := by
    funext p c
    exact propext (d.linked.mem_children_iff p c)
  rw [Below, hstep]

theorem mapM_eq_map {f : Nat → Part (List Nat)} {g : Nat → List Nat} {l : List Nat} (h : ∀ i ∈ l, f i = .some (g i)) :
    l.mapM f = .some (l.map g) := by
  induction l with
  | nil => rfl
  | cons i l ih =>
    rw [List.forall_mem_cons] at h
    simp only [List.mapM_cons, h.1, ih h.2, Part.bind_eq_bind, Part.bind_some, Part.pure_eq_some, List.map_cons]

/-- Links that only ever lead one way do not close. -/
theorem not_transGen_self {r : Nat → Nat → Prop} (lt : Nat → Nat → Prop) [IsTrans Nat lt] [Std.Irrefl lt]
    (h : ∀ i j, r i j → lt i j) (i : Nat) : ¬ TransGen r i i := by
  intro hi
  have hlt : lt i i := Relation.transGen_minimal h i i hi
  exact irrefl i hlt

theorem isForest_arena (d : Document) : d.arena.IsForest := by
  have hlt : ∀ {p c : Nat}, c ∈ d.children p → c < d.size := d.linked.mem_children_lt_size
  constructor
  case lead =>
    intro i j h
    rw [parent?_arena, first?_arena, last?_arena, prev?_arena, next?_arena] at h
    rw [size_arena]
    rcases h with h | h | h | h | h
    · exact Nat.lt_trans (d.linked.parent_lt i j h) (Forest.lt_size_of_parent? h)
    · exact hlt (List.mem_of_head? h)
    · exact hlt (List.mem_of_getLast? h)
    · have hji := lt_of_slot_next (slot_prev_iff.mp h)
      exact Nat.lt_trans hji.1 hji.2
    · exact (lt_of_slot_next h).2
  case next_iff_prev =>
    intro i j
    rw [next?_arena, prev?_arena, slot_prev_iff]
  case siblings =>
    intro i j h
    rw [next?_arena, slot_next_iff] at h
    obtain ⟨p, a, b, hab⟩ := h
    rw [parent?_arena]
    exact ⟨p, (d.linked.mem_children_iff p i).mp (by simp [hab]), (d.linked.mem_children_iff p j).mp (by simp [hab])⟩
  case first_iff =>
    intro p c
    rw [first?_arena, parent?_arena, prev?_arena]
    exact head?_children_iff
  case last_iff =>
    intro p c
    rw [last?_arena, parent?_arena, next?_arena]
    exact getLast?_children_iff
  case parent_acyclic =>
    rw [parent?_arena]
    exact not_transGen_self (· > ·) d.linked.parent_lt
  case next_acyclic =>
    rw [next?_arena]
    exact not_transGen_self (· < ·) fun i j h => (lt_of_slot_next h).1
  case children =>
    intro p hp
    rw [size_arena] at hp ⊢
    rw [children_arena hp, children_eq_filter, parent?_arena]
  case descendants =>
    intro x hx
    rw [size_arena] at hx
    refine ⟨d.descendants x, descendants_arena hx, nodup_descendants d x, fun y => ?_⟩
    rw [mem_descendants_iff, below_iff_parents, parent?_arena]
  case preorder =>
    intro x hx
    rw [size_arena] at hx
    have hchildren := mapM_eq_map (f := d.arena.descendants) (l := d.children x) fun c hc => descendants_arena (hlt hc)
    simp only [descendants_arena hx, children_arena hx, Part.bind_eq_bind, Part.bind_some, hchildren,
      Part.pure_eq_some]
    rw [descendants_eq, List.flatMap]
  case attached =>
    intro x hx
    rw [size_arena] at hx
    refine ⟨_, _, isAttached_arena hx, descendants_arena d.nonempty, ?_⟩
    rw [isAttached_iff, mem_descendants_iff]

/-- However an arena is edited, starting from its root alone, its links make an ordered forest, and it shows the
    document that the same edits make. -/
theorem isForest_run (root : Element) {es : List Edit} (h : Edit.Exist 1 es) :
    ∃ a, (Arena.single root).run es = some a ∧ a.IsForest ∧ a.Shows ((single (.element root)).run es) := by
  rw [single_arena]
  exact ⟨_, run_arena h, isForest_arena _, shows_arena _⟩

/-- A node is cut out between two siblings and gets a child after that, the first is cut out twice, and the root is
    no element any more. -/
theorem isForest_run_detached :
    ∃ a, (Arena.single (.named "svg")).run [.append 0 (.text "a"), .append 0 (.element (.named "g")),
        .append 0 (.text "b"), .detach 2, .append 2 (.text "c"), .detach 1, .detach 1, .append 0 (.comment "d"),
        .setContent 0 (.text "e")] = some a ∧
      a.IsForest ∧
      a.Shows ((single (.element (.named "svg"))).run [.append 0 (.text "a"), .append 0 (.element (.named "g")),
        .append 0 (.text "b"), .detach 2, .append 2 (.text "c"), .detach 1, .detach 1, .append 0 (.comment "d"),
        .setContent 0 (.text "e")]) :=
  isForest_run (.named "svg") (by decide)

end Document

end SvgComponent.Markup
