/-
  SvgComponent.Analysis.Metrics — counts over the attached elements of a document, and its written size.
-/

import SvgComponent.Analysis.Vendor
import SvgComponent.Markup.Printer

namespace SvgComponent.Analysis

open SvgComponent.Markup

structure Metrics where
  elements : Nat
  paths : Nat
  groups : Nat
  definitions : Nat
  styles : Nat
  /-- Some element has a `style` attribute. -/
  inlineStyles : Bool
  vendor : Bool
  bytes : Nat
  deriving DecidableEq

end SvgComponent.Analysis

namespace SvgComponent.Markup.Document

/-- The attached elements themselves, in document order. -/
def attachedElements (d : Document) : List Element := d.root.subtrees.filterMap Tree.element?

def metrics (d : Document) : Analysis.Metrics :=
  let es := d.attachedElements
  { elements := es.length
    paths := es.countP (·.is "path")
    groups := es.countP (·.is "g")
    definitions := es.countP (·.is "defs")
    styles := es.countP (·.is "style")
    inlineStyles := es.any (·.has "style")
    vendor := es.any (·.isVendor)
    bytes := d.markup.utf8ByteSize }

end SvgComponent.Markup.Document
