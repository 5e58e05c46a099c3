/-
  SvgComponent.Proofs.Markup.Slots — every document is some arena, and edits keep it so.

  `Document.arena` fills one slot per node: parent and children give the first three links, the place among the
  parent's children the other two. What an edit does to the slots is what it does to the document
  (`append_arena`, `detach_arena`, `setContent_arena`, `amend_arena`), so edits that name existing nodes never
  meet a missing slot and end in the arena of the document they end in (`run_arena`).
-/

import Mathlib.Data.List.Nodup
import SvgComponent.Proofs.Markup.Below
import SvgComponent.Markup.Arena

namespace SvgComponent.Markup

/-! ## Neighbours in a list -/

/-- The number after `i`. -/
def nextIn (i : Nat) : List Nat → Option Nat
  | [] => none
  | j :: l => if j = i then l.head? else nextIn i l

/-- The number before `i`. -/
def prevIn (i : Nat) (l : List Nat) : Option Nat := nextIn i l.reverse

theorem nextIn_append_right {i : Nat} {l : List Nat} (h : i ∉ l) (r : List Nat) : nextIn i (l ++ r) = nextIn i r := by
  induction l with
  | nil => rfl
  | cons j l ih =>
    rw [List.mem_cons, not_or] at h
    rw [List.cons_append, nextIn, if_neg (Ne.symm h.1), ih h.2]

theorem nextIn_append_left {i : Nat} {r : List Nat} (h : i ∉ r) (l : List Nat) (hl : l.Nodup) :
    nextIn i (l ++ r) = if l.getLast? = some i then r.head? else nextIn i l := by
  induction l with
  | nil =>
    have := nextIn_append_right h []
    simpa [nextIn] using this
  | cons j l ih =>
    rw [List.nodup_cons] at hl
    rw [List.cons_append, nextIn, nextIn, ih hl.2]
    cases l with
    | nil => by_cases hj : j = i <;> simp [hj, nextIn]
    | cons m l =>
      have hlast : (m :: l).getLast? = some i → j ≠ i := by
        intro h' heq
        exact hl.1 (heq ▸ List.mem_of_getLast? h')
      by_cases hj : j = i
      · have : (m :: l).getLast? ≠ some i := fun h' => hlast h' hj
        simp only [hj, if_true, List.getLast?_cons_cons, if_neg this, List.cons_append, List.head?_cons]
      · simp only [hj, if_false, List.getLast?_cons_cons]

theorem nextIn_split {i : Nat} {l : List Nat} (h : i ∉ l) (r : List Nat) : nextIn i (l ++ i :: r) = r.head? := by
  rw [nextIn_append_right h, nextIn, if_pos rfl]

theorem nextIn_of_notMem {i : Nat} {l : List Nat} (h : i ∉ l) : nextIn i l = none := by
  simpa [nextIn] using nextIn_append_right h []

theorem prevIn_split {i : Nat} {r : List Nat} (h : i ∉ r) (l : List Nat) : prevIn i (l ++ i :: r) = l.getLast? := by
  rw [prevIn, List.reverse_append, List.reverse_cons, List.append_assoc, List.singleton_append,
    nextIn_split (by simpa using h), List.head?_reverse]

/-- A list without repetitions that holds `i`, cut there. -/
theorem exists_split {i : Nat} {l : List Nat} (hl : l.Nodup) (hi : i ∈ l) :
    ∃ a b, l = a ++ i :: b ∧ i ∉ a ∧ i ∉ b ∧ a.Nodup ∧ b.Nodup := by
  obtain ⟨a, b, rfl⟩ := List.append_of_mem hi
  obtain ⟨ha, hb, hab⟩ := List.nodup_append.mp hl
  rw [List.nodup_cons] at hb
  exact ⟨a, b, rfl, fun h => hab i h i List.mem_cons_self rfl, hb.1, ha, hb.2⟩

theorem erase_split {i : Nat} {a : List Nat} (h : i ∉ a) (b : List Nat) : (a ++ i :: b).erase i = a ++ b := by
  rw [List.erase_append_right _ h, List.erase_cons_head]

theorem reverse_erase {l : List Nat} (hl : l.Nodup) (i : Nat) : (l.erase i).reverse = l.reverse.erase i := by
  by_cases hi : i ∈ l
  · obtain ⟨a, b, rfl, ha, hb, -, -⟩ := exists_split hl hi
    rw [erase_split ha, List.reverse_append, List.reverse_append, List.reverse_cons, List.append_assoc,
      List.singleton_append, erase_split (by simpa using hb)]
  · rw [List.erase_of_not_mem hi, List.erase_of_not_mem (by simpa using hi)]

/-- Taking `i` out joins its neighbours. -/
theorem nextIn_erase {l : List Nat} (hl : l.Nodup) {i j : Nat} (hj : j ≠ i) (hi : i ∈ l) :
    nextIn j (l.erase i) = if prevIn i l = some j then nextIn i l else nextIn j l := by
  obtain ⟨a, b, rfl, hia, hib, ha, hb⟩ := exists_split hl hi
  rw [erase_split hia, prevIn_split hib, nextIn_split hia]
  by_cases hjb : j ∈ b
  · have hja : j ∉ a := fun h => (List.nodup_append.mp hl).2.2 j h j (List.mem_cons_of_mem i hjb) rfl
    have hlast : a.getLast? ≠ some j := fun h => hja (List.mem_of_getLast? h)
    rw [if_neg hlast, nextIn_append_right hja, nextIn_append_right hja, nextIn, if_neg (Ne.symm hj)]
  · have hjib : j ∉ i :: b := by simp [hj, hjb]
    rw [nextIn_append_left hjb a ha, nextIn_append_left hjib a ha]
    split <;> rfl

theorem prevIn_erase {l : List Nat} (hl : l.Nodup) {i j : Nat} (hj : j ≠ i) (hi : i ∈ l) :
    prevIn j (l.erase i) = if nextIn i l = some j then prevIn i l else prevIn j l := by
  have h := nextIn_erase (List.nodup_reverse.mpr hl) hj (List.mem_reverse.mpr hi)
  rw [prevIn, List.reverse_reverse] at h
  rw [prevIn, reverse_erase hl, h]
  rfl

theorem head?_erase {l : List Nat} (hl : l.Nodup) {i : Nat} (hi : i ∈ l) :
    (l.erase i).head? = if prevIn i l = none then nextIn i l else l.head? := by
  obtain ⟨a, b, rfl, hia, hib, -, -⟩ := exists_split hl hi
  rw [erase_split hia, prevIn_split hib, nextIn_split hia]
  cases a <;> simp

theorem getLast?_erase {l : List Nat} (hl : l.Nodup) {i : Nat} (hi : i ∈ l) :
    (l.erase i).getLast? = if nextIn i l = none then prevIn i l else l.getLast? := by
  have h := head?_erase (List.nodup_reverse.mpr hl) (List.mem_reverse.mpr hi)
  rwa [← reverse_erase hl, List.head?_reverse, List.head?_reverse, prevIn, List.reverse_reverse] at h

theorem nextIn_eq_some {i j : Nat} {l : List Nat} (hl : l.Nodup) :
    nextIn i l = some j ↔ ∃ a b, l = a ++ i :: j :: b := by
  constructor
  · intro h
    have hi : i ∈ l := by
      by_cases hi : i ∈ l
      · exact hi
      · rw [nextIn_of_notMem hi] at h
        cases h
    obtain ⟨a, b, rfl, hia, -, -, -⟩ := exists_split hl hi
    rw [nextIn_split hia, List.head?_eq_some_iff] at h
    obtain ⟨b, rfl⟩ := h
    exact ⟨a, b, rfl⟩
  · rintro ⟨a, b, rfl⟩
    exact nextIn_split (fun h => (List.nodup_append.mp hl).2.2 i h i List.mem_cons_self rfl) (j :: b)

theorem prevIn_eq_some {i j : Nat} {l : List Nat} (hl : l.Nodup) : prevIn i l = some j ↔ nextIn j l = some i := by
  have hback : prevIn i l = some j ↔ ∃ a b, l.reverse = a ++ i :: j :: b := nextIn_eq_some (List.nodup_reverse.mpr hl)
  rw [hback, nextIn_eq_some hl]
  constructor
  · rintro ⟨a, b, h⟩
    exact ⟨b.reverse, a.reverse, by simpa using congrArg List.reverse h⟩
  · rintro ⟨a, b, rfl⟩
    exact ⟨b.reverse, a.reverse, by simp⟩

/-! ## Slots after a write -/

namespace Arena

theorem ext_slots {a b : Arena} (h : ∀ i, a.slot? i = b.slot? i) : a = b := by
  obtain ⟨s⟩ := a
  obtain ⟨t⟩ := b
  exact congrArg Arena.mk (Array.ext_getElem? h)

@[simp] theorem size_push (a : Arena) (s : Slot) : (a.push s).size = a.size + 1 := Array.size_push s

@[simp] theorem size_modify (a : Arena) (i : Nat) (f : Slot → Slot) : (a.modify i f).size = a.size :=
  Array.size_modify

theorem slot?_push (a : Arena) (s : Slot) (j : Nat) : (a.push s).slot? j = if j = a.size then some s else a.slot? j :=
  Array.getElem?_push

theorem slot?_modify (a : Arena) (i j : Nat) (f : Slot → Slot) :
    (a.modify i f).slot? j = if i = j then (a.slot? j).map f else a.slot? j :=
  Array.getElem?_modify

theorem update_eq {a : Arena} {i : Nat} (h : i < a.size) (f : Slot → Slot) : a.update i f = some (a.modify i f) :=
  if_pos h

theorem linkNext_eq {a : Arena} {p : Nat} (hp : p < a.size) {prev : Option Nat} (hprev : ∀ l ∈ prev, l < a.size)
    (next : Option Nat) :
    ∃ b, a.linkNext p prev next = some b ∧ b.size = a.size ∧ ∀ j, b.slot? j = (a.slot? j).map fun s =>
      { s with
        first := if j = p ∧ prev = none then next else s.first
        next := if prev = some j then next else s.next } := by
  cases prev with
  | none =>
    refine ⟨_, update_eq hp _, size_modify a p _, fun j => ?_⟩
    rw [slot?_modify]
    by_cases hj : j = p
    · simp [hj]
    · simp [hj, Ne.symm hj]
  | some l =>
    refine ⟨_, update_eq (hprev l rfl) _, size_modify a l _, fun j => ?_⟩
    rw [slot?_modify]
    by_cases hj : l = j <;> simp [hj]

theorem linkPrev_eq {a : Arena} {p : Nat} (hp : p < a.size) {next : Option Nat} (hnext : ∀ r ∈ next, r < a.size)
    (prev : Option Nat) :
    ∃ b, a.linkPrev p next prev = some b ∧ b.size = a.size ∧ ∀ j, b.slot? j = (a.slot? j).map fun s =>
      { s with
        last := if j = p ∧ next = none then prev else s.last
        prev := if next = some j then prev else s.prev } := by
  cases next with
  | none =>
    refine ⟨_, update_eq hp _, size_modify a p _, fun j => ?_⟩
    rw [slot?_modify]
    by_cases hj : j = p
    · simp [hj]
    · simp [hj, Ne.symm hj]
  | some r =>
    refine ⟨_, update_eq (hnext r rfl) _, size_modify a r _, fun j => ?_⟩
    rw [slot?_modify]
    by_cases hj : r = j <;> simp [hj]

end Arena

/-! ## The arena of a document -/

namespace Document

variable {d : Document}

/-- The slot of a node. -/
def slot (d : Document) (i : Nat) : Slot where
  parent := d.parent? i
  first := (d.children i).head?
  last := (d.children i).getLast?
  prev := (d.parent? i).bind fun p => prevIn i (d.children p)
  next := (d.parent? i).bind fun p => nextIn i (d.children p)
  content := d.content i

def arena (d : Document) : Arena := ⟨Array.ofFn fun i : Fin d.size => d.slot i⟩

@[simp] theorem size_arena (d : Document) : d.arena.size = d.size := Array.size_ofFn

theorem slot?_arena (d : Document) (i : Nat) : d.arena.slot? i = if i < d.size then some (d.slot i) else none := by
  simp [arena, Arena.slot?, Array.getElem?_ofFn]

theorem slot?_arena_of_lt {i : Nat} (h : i < d.size) : d.arena.slot? i = some (d.slot i) := by
  rw [slot?_arena, if_pos h]

theorem single_arena (e : Element) : Arena.single e = (single (.element e)).arena := by
  refine Arena.ext_slots fun i => ?_
  cases i <;> rfl

/-! ### Sibling links -/

theorem slot_next_iff {i j : Nat} : (d.slot i).next = some j ↔ ∃ p a b, d.children p = a ++ i :: j :: b := by
  rw [slot, Option.bind_eq_some_iff]
  refine exists_congr fun p => ?_
  rw [nextIn_eq_some (d.linked.nodup p), and_iff_right_iff_imp]
  rintro ⟨a, b, h⟩
  exact (d.linked.mem_children_iff p i).mp (by simp [h])

theorem slot_prev_iff {i j : Nat} : (d.slot j).prev = some i ↔ (d.slot i).next = some j := by
  rw [slot_next_iff, slot, Option.bind_eq_some_iff]
  refine exists_congr fun p => ?_
  rw [prevIn_eq_some (d.linked.nodup p), nextIn_eq_some (d.linked.nodup p), and_iff_right_iff_imp]
  rintro ⟨a, b, h⟩
  exact (d.linked.mem_children_iff p j).mp (by simp [h])

/-- Siblings stand in the order of their numbers. -/
theorem lt_of_slot_next {i j : Nat} (h : (d.slot i).next = some j) : i < j ∧ j < d.size := by
  obtain ⟨p, a, b, hab⟩ := slot_next_iff.mp h
  have hsorted := d.linked.sorted p
  rw [hab, List.pairwise_append, List.pairwise_cons] at hsorted
  exact ⟨hsorted.2.1.1 j List.mem_cons_self, d.linked.mem_children_lt_size (p := p) (by simp [hab])⟩

/-! ### Appending -/

theorem slot_append_new {p : Nat} (hp : p < d.size) (c : Content) :
    (d.append p c).slot d.size = { Slot.alone c with parent := some p, prev := (d.children p).getLast? } := by
  have hnew : d.size ∉ d.children p := fun h => Nat.lt_irrefl _ (d.linked.mem_children_lt_size h)
  have hne : d.size ≠ p := Nat.ne_of_gt hp
  have hnil : d.children d.size = [] := Forest.children_eq_nil (Nat.le_refl _)
  simp only [slot, append, Forest.parent?_append hp, Forest.children_append hp, Forest.content_append hp, if_true,
    if_neg hne, hnil, Option.bind_some, nextIn_split hnew, prevIn_split List.not_mem_nil]
  rfl

theorem slot_append_old {p j : Nat} (hp : p < d.size) (c : Content) (hj : j ≠ d.size) :
    (d.append p c).slot j = { d.slot j with
      first := if j = p ∧ (d.children p).getLast? = none then some d.size else (d.slot j).first
      last := if j = p then some d.size else (d.slot j).last
      next := if (d.children p).getLast? = some j then some d.size else (d.slot j).next } := by
  have hparent : (d.append p c).parent? j = d.parent? j := by
    simp only [append, Forest.parent?_append hp, if_neg hj]
  have hchildren : ∀ q, (d.append p c).children q = if q = p then d.children p ++ [d.size] else d.children q :=
    Forest.children_append hp
  have hcontent : (d.append p c).content j = d.content j := by
    simp only [append, Forest.content_append hp, if_neg hj]
  have hlast : ∀ q, d.parent? j = q → q ≠ some p → (d.children p).getLast? ≠ some j := by
    rintro q rfl hq h
    exact hq ((d.linked.mem_children_iff p j).mp (List.mem_of_getLast? h))
  have hnext : ((d.append p c).slot j).next =
      if (d.children p).getLast? = some j then some d.size else (d.slot j).next := by
    simp only [slot, hparent, hchildren]
    cases hq : d.parent? j with
    | none => rw [if_neg (hlast none hq (by simp))]; rfl
    | some q =>
      by_cases hqp : q = p
      · subst hqp
        simp only [Option.bind_some, if_true]
        exact nextIn_append_left (by simpa using hj) _ (d.linked.nodup q)
      · simp only [Option.bind_some, if_neg hqp]
        rw [if_neg (hlast _ hq (by simpa using hqp))]
  have hprev : ((d.append p c).slot j).prev = (d.slot j).prev := by
    simp only [slot, hparent, hchildren]
    cases hq : d.parent? j with
    | none => rfl
    | some q =>
      simp only [Option.bind_some]
      split
      · rename_i hqp
        rw [hqp, prevIn, List.reverse_append, List.reverse_singleton, nextIn_append_right (by simpa using hj), prevIn]
      · rfl
  have hfirst : ((d.append p c).slot j).first =
      if j = p ∧ (d.children p).getLast? = none then some d.size else (d.slot j).first := by
    simp only [slot, hchildren]
    by_cases hjp : j = p
    · subst hjp
      cases d.children j <;> simp
    · simp [hjp]
  have hlast' : ((d.append p c).slot j).last = if j = p then some d.size else (d.slot j).last := by
    simp only [slot, hchildren]
    split <;> simp
  exact Slot.ext hparent hfirst hlast' hprev hnext hcontent

theorem append_arena {p : Nat} (hp : p < d.size) (c : Content) :
    d.arena.append p c = some ((d.append p c).arena, d.size) := by
  have hsize : (d.append p c).size = d.size + 1 := Forest.size_append hp
  have hne : d.size ≠ p := Nat.ne_of_gt hp
  have hlast : (d.slot p).last = (d.children p).getLast? := rfl
  have hchild : ∀ l ∈ (d.children p).getLast?, l < d.size := fun l hl =>
    d.linked.mem_children_lt_size (List.mem_of_getLast? hl)
  simp only [Arena.append, slot?_arena_of_lt hp, size_arena, Option.bind_eq_bind, Option.bind_some, hlast]
  obtain ⟨b, hb, hbsize, hslot⟩ := Arena.linkNext_eq
    (a := d.arena.push { Slot.alone c with parent := some p, prev := (d.children p).getLast? })
    (by simpa using Nat.lt_succ_of_lt hp) (fun l hl => by simpa using Nat.lt_succ_of_lt (hchild l hl)) (some d.size)
  rw [hb, Option.bind_some, Arena.update_eq (by rw [hbsize]; simp; omega), Option.bind_some]
  refine congrArg (fun a => some (a, d.size)) (Arena.ext_slots fun j => ?_)
  rw [Arena.slot?_modify, hslot, Arena.slot?_push, slot?_arena, slot?_arena, hsize, size_arena]
  by_cases hj : j = d.size
  · subst hj
    have hnext : (d.children p).getLast? ≠ some d.size := fun h => Nat.lt_irrefl _ (hchild d.size h)
    simp [hne, Ne.symm hne, hnext, slot_append_new hp]
  · have hlt : j < d.size + 1 ↔ j < d.size := by omega
    simp only [if_neg hj, hlt, slot_append_old hp c hj]
    by_cases hjs : j < d.size
    · simp only [if_pos hjs, Option.map_some]
      by_cases hpj : p = j
      · subst hpj
        simp
      · simp [hpj, Ne.symm hpj]
    · simp [hjs]

/-! ### Detaching -/

theorem slot_detach_self {i p : Nat} (hp : d.parent? i = some p) :
    (d.detach i).slot i = { d.slot i with parent := none, prev := none, next := none } := by
  have hne : p ≠ i := Nat.ne_of_lt (d.linked.parent_lt i p hp)
  have hparent : (d.detach i).parent? i = none := by simp [detach, Forest.parent?_detach]
  have hchildren : (d.detach i).children i = d.children i := by simp [children_detach, hp, hne]
  simp only [slot, hparent, hchildren, content_detach, Option.bind_none]

theorem slot_detach {i j p : Nat} (hp : d.parent? i = some p) (hj : j ≠ i) :
    (d.detach i).slot j = { d.slot j with
      first := if j = p ∧ (d.slot i).prev = none then (d.slot i).next else (d.slot j).first
      last := if j = p ∧ (d.slot i).next = none then (d.slot i).prev else (d.slot j).last
      prev := if (d.slot i).next = some j then (d.slot i).prev else (d.slot j).prev
      next := if (d.slot i).prev = some j then (d.slot i).next else (d.slot j).next } := by
  have hi : i ∈ d.children p := (d.linked.mem_children_iff p i).mpr hp
  have hnodup := d.linked.nodup p
  have hprev : (d.slot i).prev = prevIn i (d.children p) := by simp [slot, hp]
  have hnext : (d.slot i).next = nextIn i (d.children p) := by simp [slot, hp]
  have hparent : (d.detach i).parent? j = d.parent? j := by simp [detach, Forest.parent?_detach, hj]
  have hchildren : ∀ q, (d.detach i).children q = if p = q then (d.children q).erase i else d.children q := by
    intro q
    rw [children_detach, hp]
    simp
  -- only a child of the same parent can be a neighbour
  have hfar : d.parent? j ≠ some p → nextIn i (d.children p) ≠ some j ∧ prevIn i (d.children p) ≠ some j := by
    intro hq
    have hmem : j ∉ d.children p := fun h => hq ((d.linked.mem_children_iff p j).mp h)
    refine ⟨fun h => hmem ?_, fun h => hmem ?_⟩
    · obtain ⟨a, b, hab⟩ := (nextIn_eq_some hnodup).mp h
      simp [hab]
    · obtain ⟨a, b, hab⟩ := (nextIn_eq_some hnodup).mp ((prevIn_eq_some hnodup).mp h)
      simp [hab]
  have hneighbours : ((d.detach i).slot j).prev =
        (if nextIn i (d.children p) = some j then prevIn i (d.children p) else (d.slot j).prev) ∧
      ((d.detach i).slot j).next =
        (if prevIn i (d.children p) = some j then nextIn i (d.children p) else (d.slot j).next) := by
    simp only [slot, hparent, hchildren]
    by_cases hq : d.parent? j = some p
    · simp only [hq, Option.bind_some, if_true]
      exact ⟨prevIn_erase hnodup hj hi, nextIn_erase hnodup hj hi⟩
    · rw [if_neg (hfar hq).1, if_neg (hfar hq).2]
      cases hq' : d.parent? j with
      | none => exact ⟨rfl, rfl⟩
      | some q =>
        have hne : p ≠ q := fun h => hq (by rw [hq', h])
        simp [hne]
  have hends : ((d.detach i).slot j).first =
        (if j = p ∧ prevIn i (d.children p) = none then nextIn i (d.children p) else (d.slot j).first) ∧
      ((d.detach i).slot j).last =
        (if j = p ∧ nextIn i (d.children p) = none then prevIn i (d.children p) else (d.slot j).last) := by
    simp only [slot, hchildren]
    by_cases hjp : j = p
    · subst hjp
      simp only [if_true, true_and]
      exact ⟨head?_erase hnodup hi, getLast?_erase hnodup hi⟩
    · simp [hjp, Ne.symm hjp]
  rw [hprev, hnext]
  exact Slot.ext hparent hends.1 hends.2 hneighbours.1 hneighbours.2 (content_detach d i j)

theorem detach_arena {i : Nat} (hi : i < d.size) : d.arena.detach i = some (d.detach i).arena := by
  simp only [Arena.detach, slot?_arena_of_lt hi, Option.bind_eq_bind, Option.bind_some]
  cases hp : d.parent? i with
  | none =>
    have hsame : d.detach i = d := by
      have : d.toForest.detach i = d.toForest := by simp [Forest.detach, hp]
      simp only [detach, this]
    have hslot : (d.slot i).parent = none := hp
    simp only [hslot, hsame]
    rfl
  | some p =>
    have hslot : (d.slot i).parent = some p := hp
    have hps : p < d.size := Nat.lt_trans (d.linked.parent_lt i p hp) hi
    have hprev : ∀ l ∈ (d.slot i).prev, l < d.size := by
      intro l hl
      exact Nat.lt_trans (lt_of_slot_next (slot_prev_iff.mp hl)).1 hi
    have hnext : ∀ r ∈ (d.slot i).next, r < d.size := fun r hr => (lt_of_slot_next hr).2
    have hsize : (d.detach i).size = d.size := Forest.size_detach d.toForest i
    simp only [hslot]
    obtain ⟨b, hb, hbsize, hbslot⟩ := Arena.linkNext_eq (a := d.arena) (by simpa using hps) (by simpa using hprev)
      (d.slot i).next
    obtain ⟨b', hb', hbsize', hbslot'⟩ := Arena.linkPrev_eq (a := b) (by rw [hbsize]; simpa using hps)
      (by rw [hbsize]; simpa using hnext) (d.slot i).prev
    rw [hb, Option.bind_some, hb', Option.bind_some, Arena.update_eq (by rw [hbsize', hbsize]; simpa using hi)]
    refine congrArg some (Arena.ext_slots fun j => ?_)
    rw [Arena.slot?_modify, hbslot', hbslot, slot?_arena, slot?_arena, hsize]
    by_cases hjs : j < d.size
    · by_cases hij : i = j
      · subst hij
        have hne : i ≠ p := Nat.ne_of_gt (d.linked.parent_lt i p hp)
        simp [hjs, hne, slot_detach_self hp]
      · simp [hjs, hij, slot_detach hp (Ne.symm hij)]
    · simp [hjs]

/-! ### Contents -/

theorem setContent_arena {i : Nat} (hi : i < d.size) (c : Content) :
    d.arena.setContent i c = some (d.setContent i c).arena := by
  have hsize : (d.setContent i c).size = d.size := by simp [setContent]
  rw [Arena.setContent, Arena.update_eq (by simpa using hi)]
  refine congrArg some (Arena.ext_slots fun j => ?_)
  rw [Arena.slot?_modify, slot?_arena, slot?_arena, hsize]
  have hslot : (d.setContent i c).slot j = { d.slot j with content := if j = i then c else d.content j } := by
    simp [slot, setContent, Forest.content_setContent hi]
  by_cases hjs : j < d.size
  · by_cases hij : i = j
    · subst hij
      simp [hjs, hslot]
    · rw [hslot, if_neg (Ne.symm hij)]
      simp [hjs, hij, slot]
  · simp [hjs]

theorem amend_arena {i : Nat} (hi : i < d.size) (f : Element → Element) :
    d.arena.amend i f = some ((Edit.amend i f).onDocument d).arena := by
  have hslot : (d.slot i).content = d.content i := rfl
  simp only [Arena.amend, slot?_arena_of_lt hi, Option.bind_eq_bind, Option.bind_some, hslot, Edit.onDocument,
    Forest.element?]
  cases hc : d.content i with
  | element e => exact setContent_arena hi _
  | _ => rfl

theorem onArena_arena (e : Edit) (he : e.node < d.size) : e.onArena d.arena = some (e.onDocument d).arena := by
  cases e with
  | append p c => exact congrArg (Option.map Prod.fst) (append_arena he c)
  | detach i => exact detach_arena he
  | setContent i c => exact setContent_arena he c
  | amend i f => exact amend_arena he f

theorem size_onDocument (e : Edit) (he : e.node < d.size) : (e.onDocument d).size = e.sizeAfter d.size := by
  cases e with
  | append p c => exact Forest.size_append he
  | detach i => exact Forest.size_detach d.toForest i
  | setContent i c => exact Forest.size_setContent d.toForest i c
  | amend i f =>
    simp only [Edit.onDocument, Edit.sizeAfter]
    split
    · exact Forest.size_setContent d.toForest i _
    · rfl

/-- Edits of nodes that are there keep the arena of the document. -/
theorem run_arena {es : List Edit} (h : Edit.Exist d.size es) : d.arena.run es = some (d.run es).arena := by
  induction es generalizing d with
  | nil => rfl
  | cons e es ih =>
    rw [Arena.run, List.foldlM_cons, onArena_arena e h.1]
    exact ih (size_onDocument e h.1 ▸ h.2)

end Document

end SvgComponent.Markup
