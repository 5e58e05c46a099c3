/-
  SvgComponent.Clean.Paths — the path data of `path` elements: simplified, or merged among siblings.

  Path data that cannot be read stays as it is. Siblings are merged when they agree in fill, stroke and stroke
  width, an absent one agreeing only with an absent one: the first takes the data of all, in document order,
  and the others are removed.
-/

import SvgComponent.Clean.Edit
import SvgComponent.Path.Simplify

namespace SvgComponent.Markup

namespace Element

/-- The path data of a path. -/
def pathData? (e : Element) : Option String := if e.is "path" then e.get? "d" else none

def simplifyPath (e : Element) : Element × Nat :=
  match e.pathData? with
  | none => (e, 0)
  | some data =>
    match Path.simplify data with
    | .error _ => (e, 0)
    | .ok simpler => if simpler = data then (e, 0) else (e.set "d" simpler, 1)

/-- Why the path data cannot be read. -/
def pathFault? (e : Element) : Option Path.PathFault :=
  match e.pathData?.map Path.simplify with
  | some (.error f) => some f
  | _ => none

end Element

/-- What siblings have to agree in to be merged. -/
structure Paint where
  fill : Option String
  stroke : Option String
  strokeWidth : Option String
  deriving DecidableEq

def Element.paint (e : Element) : Paint := ⟨e.get? "fill", e.get? "stroke", e.get? "stroke-width"⟩

/-- Paths of one paint: the node that stays, its data, and the other nodes with theirs. -/
structure PathGroup where
  paint : Paint
  first : Nat
  data : String
  others : List (Nat × String)

namespace PathGroup

/-- Puts a path into the group of its paint, a new one at the end if there is none. -/
def add (paint : Paint) (i : Nat) (data : String) : List PathGroup → List PathGroup
  | [] => [⟨paint, i, data, []⟩]
  | g :: groups =>
    if g.paint = paint then { g with others := g.others ++ [(i, data)] } :: groups
    else g :: add paint i data groups

def merged (g : PathGroup) : String := " ".intercalate (g.data :: g.others.map (·.2))

end PathGroup

namespace Document

def simplifyPaths (d : Document) : Document × Nat := d.editElements Element.simplifyPath

/-- Why paths are left alone by simplification, in document order. -/
def pathFaults (d : Document) : List Path.PathFault :=
  d.elementIds.filterMap fun i => (d.element? i).bind Element.pathFault?

/-- The paths among the children of `p`, grouped by paint in order of appearance. -/
def pathGroups (d : Document) (p : Nat) : List PathGroup :=
  (d.children p).foldl (fun groups i =>
    match d.element? i with
    | none => groups
    | some e =>
      match e.pathData? with
      | none => groups
      | some data => PathGroup.add e.paint i data groups) []

/-- Gives the first path the data of all and detaches the others. -/
def mergeGroup (d : Document) (g : PathGroup) : Document × Nat :=
  if g.others.isEmpty then (d, 0)
  else
    let d := (d.editElement (fun e => (e.set "d" g.merged, 0)) g.first).1
    ((g.others.map (·.1)).foldl detach d, g.others.length)

def mergeChildren (d : Document) (p : Nat) : Document × Nat :=
  (d.pathGroups p).foldl (fun (d, n) g => ((d.mergeGroup g).1, n + (d.mergeGroup g).2)) (d, 0)

def mergePaths (d : Document) : Document × Nat := d.forEach mergeChildren d.elementIds

end Document

end SvgComponent.Markup
