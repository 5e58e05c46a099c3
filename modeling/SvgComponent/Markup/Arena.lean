/-
  SvgComponent.Markup.Arena — nodes in slots, each with five links.

  A slot names its parent, its first and last child and the siblings before and after it. A node is appended by
  filling a new slot and rewriting at most three links around it, and detached by closing the gap it leaves. The
  iterators follow the links one at a time: `children` goes from sibling to sibling, `descendants` down to a first
  child or else up to the nearest slot with a sibling after it, `isAttached` from parent to parent.

  Nothing here says that a link leads to a slot or that a chain of links ends. Where a write meets a link to a slot
  that is not there its answer is `none`; an iterator is a loop without a bound, and what it lists is undefined then
  and where the loop does not end. Documents keep lists of children instead (`Forest`); an `Edit` is one step of
  either, and the two agree after any number of them.
-/

import Mathlib.Data.PFun
import SvgComponent.Markup.Document

namespace SvgComponent.Markup

@[ext]
structure Slot where
  parent : Option Nat
  first : Option Nat
  last : Option Nat
  prev : Option Nat
  next : Option Nat
  content : Content

/-- A slot without links. -/
def Slot.alone (c : Content) : Slot := ⟨none, none, none, none, none, c⟩

structure Arena where
  slots : Array Slot

namespace Arena

def size (a : Arena) : Nat := a.slots.size

def slot? (a : Arena) (i : Nat) : Option Slot := a.slots[i]?

/-- Only a root, in slot 0. -/
def single (e : Element) : Arena := ⟨#[.alone (.element e)]⟩

def push (a : Arena) (s : Slot) : Arena := ⟨a.slots.push s⟩

def modify (a : Arena) (i : Nat) (f : Slot → Slot) : Arena := ⟨a.slots.modify i f⟩

/-- Writes to a slot that a link leads to. -/
def update (a : Arena) (i : Nat) (f : Slot → Slot) : Option Arena := if i < a.size then some (a.modify i f) else none

/-- Writes down that `next` comes after `prev` among the children of `p`, as the first if there is no `prev`. -/
def linkNext (a : Arena) (p : Nat) (prev next : Option Nat) : Option Arena :=
  match prev with
  | some l => a.update l ({ · with next := next })
  | none => a.update p ({ · with first := next })

/-- Writes down that `prev` comes before `next` among the children of `p`, as the last if there is no `next`. -/
def linkPrev (a : Arena) (p : Nat) (next prev : Option Nat) : Option Arena :=
  match next with
  | some r => a.update r ({ · with prev := prev })
  | none => a.update p ({ · with last := prev })

/-- A new last child of `p`, with its number. -/
def append (a : Arena) (p : Nat) (c : Content) : Option (Arena × Nat) := do
  let i := a.size
  let above ← a.slot? p
  let a := a.push { Slot.alone c with parent := some p, prev := above.last }
  let a ← a.linkNext p above.last (some i)
  let a ← a.update p ({ · with last := some i })
  return (a, i)

/-- Unlinks `i` from its parent and its siblings; a node without a parent is left as it is. -/
def detach (a : Arena) (i : Nat) : Option Arena := do
  let s ← a.slot? i
  match s.parent with
  | none => return a
  | some p =>
    let a ← a.linkNext p s.prev s.next
    let a ← a.linkPrev p s.next s.prev
    a.update i ({ · with parent := none, prev := none, next := none })

def setContent (a : Arena) (i : Nat) (c : Content) : Option Arena := a.update i ({ · with content := c })

/-- Edits the element a node holds; a node that holds something else is left as it is. -/
def amend (a : Arena) (i : Nat) (f : Element → Element) : Option Arena := do
  let s ← a.slot? i
  match s.content with
  | .element e => a.setContent i (.element (f e))
  | _ => return a

/-! ## Iterators -/

/-- Goes on from node to node until there is none, and lists the nodes behind those it has. -/
def collect (next : Nat → Part (Option Nat)) : List Nat × Option Nat →. List Nat :=
  PFun.fix fun
    | (l, none) => .some (.inl l)
    | (l, some i) => (next i).map fun o => .inr (l ++ [i], o)

/-- The sibling after a node. -/
def sibling (a : Arena) (i : Nat) : Part (Option Nat) := (Part.ofOption (a.slot? i)).map (·.next)

def children (a : Arena) (i : Nat) : Part (List Nat) := do
  let s ← Part.ofOption (a.slot? i)
  collect a.sibling ([], s.first)

/-- The sibling after a node, or after the nearest node above it that has one, looking no higher than `start`. -/
def climb (a : Arena) (start : Nat) : Nat →. Option Nat :=
  PFun.fix fun i =>
    if i = start then .some (.inl none)
    else (Part.ofOption (a.slot? i)).map fun s =>
      match s.next, s.parent with
      | some r, _ => .inl (some r)
      | none, some p => .inr p
      | none, none => .inl none

/-- The node that comes after `i` when everything below `start` is walked through. -/
def after (a : Arena) (start i : Nat) : Part (Option Nat) := do
  let s ← Part.ofOption (a.slot? i)
  match s.first with
  | some c => return some c
  | none => a.climb start i

/-- A node and all below it. -/
def descendants (a : Arena) (i : Nat) : Part (List Nat) := collect (a.after i) ([], some i)

/-- Whether the root is above. -/
def isAttached (a : Arena) : Nat →. Bool :=
  PFun.fix fun i =>
    if i = 0 then .some (.inl true)
    else (Part.ofOption (a.slot? i)).map fun s =>
      match s.parent with
      | some p => .inr p
      | none => .inl false

end Arena

/-! ## Edits -/

/-- One change of a document. -/
inductive Edit where
  | append (parent : Nat) (content : Content)
  | detach (node : Nat)
  | setContent (node : Nat) (content : Content)
  | amend (node : Nat) (change : Element → Element)

namespace Edit

/-- The node an edit names. -/
def node : Edit → Nat
  | append p _ => p
  | detach i => i
  | setContent i _ => i
  | amend i _ => i

/-- How many nodes there are after an edit of a document with `size` nodes. -/
def sizeAfter (size : Nat) : Edit → Nat
  | append _ _ => size + 1
  | _ => size

/-- In a document with `size` nodes every edit names a node that is there when its turn comes. -/
def Exist (size : Nat) : List Edit → Prop
  | [] => True
  | e :: es => e.node < size ∧ Exist (e.sizeAfter size) es

instance decidableExist (size : Nat) : (es : List Edit) → Decidable (Exist size es)
  | [] => .isTrue trivial
  | e :: es => @instDecidableAnd (e.node < size) (Exist (e.sizeAfter size) es) _ (decidableExist _ es)

def onArena (a : Arena) : Edit → Option Arena
  | append p c => (a.append p c).map Prod.fst
  | detach i => a.detach i
  | setContent i c => a.setContent i c
  | amend i f => a.amend i f

def onDocument (d : Document) : Edit → Document
  | append p c => d.append p c
  | detach i => d.detach i
  | setContent i c => d.setContent i c
  | amend i f => match d.element? i with
    | some e => d.setContent i (.element (f e))
    | none => d

end Edit

/-- Makes the edits one after the other. -/
def Arena.run (a : Arena) (es : List Edit) : Option Arena := es.foldlM Edit.onArena a

def Document.run (d : Document) (es : List Edit) : Document := es.foldl Edit.onDocument d

end SvgComponent.Markup
