/-
  SvgComponent.Clean.Definitions — definitions that nothing refers to are removed.

  An element below `defs` with an id is unused when no id in it is referred to anywhere in the document. What
  is removed refers to nothing any more, so this is repeated until nothing is unused.
-/

import SvgComponent.Analysis.Reference
import SvgComponent.Clean.Edit

namespace SvgComponent.Markup

/-- Whether some element of the tree has one of the ids. -/
def Tree.carriesAny (ids : List String) (t : Tree) : Bool :=
  t.subtrees.any fun t => ((t.element?.bind (·.get? "id")).any (ids.contains ·))

namespace Document

def isUnused (d : Document) (references : List String) (i : Nat) : Bool :=
  (d.element? i).any (·.has "id") && d.hasAncestor i "defs" && !(d.tree i).carriesAny references

/-- The unused definitions, in document order. -/
def unused (d : Document) : List Nat :=
  let references := d.references
  d.elementIds.filter (d.isUnused references)

def definitionPruning : Pruning where
  run d := d.pruneAll d.unused
  linkCount_run d := linkCount_pruneAll d.unused d

def removeUnusedDefinitions (d : Document) : Document × Nat := d.exhaust definitionPruning

end Document

end SvgComponent.Markup
