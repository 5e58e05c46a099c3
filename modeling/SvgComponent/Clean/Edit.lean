/-
  SvgComponent.Clean.Edit — the two ways a pass changes a document: it edits elements, or it prunes nodes.

  Elements are visited in document order as they are when the pass begins; a pass counts what it changes.
-/

import SvgComponent.Markup.Tree

namespace SvgComponent.Markup.Document

/-- Edits one element in place; nothing else is touched. -/
def editElement (f : Element → Element × Nat) (d : Document) (i : Nat) : Document × Nat :=
  match d.element? i with
  | some e => (d.setContent i (.element (f e).1), (f e).2)
  | none => (d, 0)

/-- Does to the document what `step` does to it for each number, and adds up the counts. -/
def forEach (step : Document → Nat → Document × Nat) (ids : List Nat) (d : Document) : Document × Nat :=
  ids.foldl (fun (d, n) i => ((step d i).1, n + (step d i).2)) (d, 0)

/-- Edits every attached element. -/
def editElements (f : Element → Element × Nat) (d : Document) : Document × Nat :=
  d.forEach (editElement f) d.elementIds

/-- Detaches the nodes that are still attached, one after the other. -/
def pruneAll (ids : List Nat) (d : Document) : Document × Nat := d.forEach prune ids

theorem linkCount_forEach {step : Document → Nat → Document × Nat}
    (h : ∀ d i, (step d i).1.linkCount + (step d i).2 = d.linkCount) (ids : List Nat) (d : Document) :
    (d.forEach step ids).1.linkCount + (d.forEach step ids).2 = d.linkCount := by
  suffices ∀ (ids : List Nat) (s : Document × Nat),
      (ids.foldl (fun (s : Document × Nat) i => ((step s.1 i).1, s.2 + (step s.1 i).2)) s).1.linkCount +
        (ids.foldl (fun (s : Document × Nat) i => ((step s.1 i).1, s.2 + (step s.1 i).2)) s).2 =
      s.1.linkCount + s.2 from this ids (d, 0)
  intro ids
  induction ids with
  | nil => simp
  | cons i ids ih =>
    intro s
    rw [List.foldl_cons, ih]
    have := h s.1 i
    dsimp only
    omega

theorem linkCount_pruneAll (ids : List Nat) (d : Document) :
    (d.pruneAll ids).1.linkCount + (d.pruneAll ids).2 = d.linkCount :=
  linkCount_forEach linkCount_prune ids d

end SvgComponent.Markup.Document
