/-
  SvgComponent.Component.Tidy — removes what editors leave in an image before a component is made of it.

  Comments and vendor elements go, and of other elements the `data-` attributes and what names a vendor. Then
  groups and definitions without content go, the innermost first.
-/

import SvgComponent.Analysis.Vendor
import SvgComponent.Clean.Edit
import SvgComponent.Text.Blank

namespace SvgComponent.Markup

/-- An attribute that editors leave. -/
def Attribute.isLeftover (a : Attribute) : Bool := a.name.isData || a.name.isVendor || a.name.declaresVendor

def Content.isLeftover : Content → Bool
  | .comment _ => true
  | .element e => e.name.isVendor
  | _ => false

def Content.isBlankText : Content → Bool
  | .text s => Text.allBlank s
  | _ => false

def Element.tidy (e : Element) : Element × Nat :=
  ({ e with attributes := e.attributes.filter (!·.isLeftover) }, e.attributes.countP (·.isLeftover))

namespace Document

/-- Removes a leftover node, or the leftover attributes of an element. -/
def tidyNode (d : Document) (i : Nat) : Document × Nat :=
  if d.isAttached i then
    if (d.content i).isLeftover then (d.detach i, 1) else d.editElement Element.tidy i
  else (d, 0)

/-- No children but blank text. -/
def isHollow (d : Document) (i : Nat) : Bool := (d.children i).all fun c => (d.content c).isBlankText

/-- A group or definitions that hold nothing. -/
def isEmptyGroup (d : Document) (i : Nat) : Bool :=
  (d.element? i).any (fun e => e.is "g" || e.is "defs") && d.isHollow i

def dropEmptyGroup (d : Document) (i : Nat) : Document × Nat :=
  if d.isEmptyGroup i then d.prune i else (d, 0)

/-- Removes leftovers and empty groups, and counts the nodes and attributes that went. Children have larger
    numbers than their parents and come first when the numbers are taken in reverse. -/
def tidy (d : Document) : Document × Nat :=
  let ids := d.descendants 0
  let (d, n) := d.forEach tidyNode ids
  let (d, m) := d.forEach dropEmptyGroup ids.reverse
  (d, n + m)

end Document

end SvgComponent.Markup
