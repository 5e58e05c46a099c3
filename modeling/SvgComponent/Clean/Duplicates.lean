/-
  SvgComponent.Clean.Duplicates — of attached elements with one written form, only the first stays.

  One sweep goes through the document once and compares each element with those it has met, as they were when
  it met them; it cuts inside elements it has met, so sweeps are repeated until one cuts nothing.
-/

import SvgComponent.Clean.Edit
import SvgComponent.Markup.Printer

namespace SvgComponent.Markup.Document

/-- A sweep in progress: the document, the forms met so far and the number of cuts. -/
structure DuplicateSweep where
  document : Document
  met : List String
  cuts : Nat

namespace DuplicateSweep

def visit (s : DuplicateSweep) (i : Nat) : DuplicateSweep :=
  if s.document.isAttached i then
    let form := s.document.nodeMarkup i
    if s.met.contains form then
      { s with document := (s.document.prune i).1, cuts := s.cuts + (s.document.prune i).2 }
    else { s with met := form :: s.met }
  else s

theorem linkCount_visit (s : DuplicateSweep) (i : Nat) :
    (s.visit i).document.linkCount + (s.visit i).cuts = s.document.linkCount + s.cuts := by
  unfold visit
  split
  · dsimp only
    split
    · have := linkCount_prune s.document i
      dsimp only; omega
    · rfl
  · rfl

theorem linkCount_foldl_visit (ids : List Nat) (s : DuplicateSweep) :
    (ids.foldl visit s).document.linkCount + (ids.foldl visit s).cuts = s.document.linkCount + s.cuts := by
  induction ids generalizing s with
  | nil => rfl
  | cons i ids ih => rw [List.foldl_cons, ih, linkCount_visit]

end DuplicateSweep

def duplicateSweep (d : Document) : DuplicateSweep := d.elementIds.foldl DuplicateSweep.visit ⟨d, [], 0⟩

def duplicatePruning : Pruning where
  run d := (d.duplicateSweep.document, d.duplicateSweep.cuts)
  linkCount_run d := DuplicateSweep.linkCount_foldl_visit d.elementIds ⟨d, [], 0⟩

def removeDuplicates (d : Document) : Document × Nat := d.exhaust duplicatePruning

end SvgComponent.Markup.Document
