/-
  SvgComponent.Analysis.Vendor — what design tools leave behind: their namespaces and `data-` attributes.
-/

import SvgComponent.Markup.Element

namespace SvgComponent.Markup

/-- The namespaces of design tools, by their usual prefixes. -/
def vendorSpaces : List String := ["figma", "inkscape", "sodipodi", "sketch", "serif"]

namespace Name

def isVendor (n : Name) : Bool := n.space.any (vendorSpaces.contains ·)

def isData (n : Name) : Bool := n.space.isNone && ['d', 'a', 't', 'a', '-'].isPrefixOf n.base.toList

/-- The declaration of a vendor's namespace. -/
def declaresVendor (n : Name) : Bool := n.isDeclaration && n.space.isSome && vendorSpaces.contains n.base

end Name

/-- An element a vendor named or annotated. -/
def Element.isVendor (e : Element) : Bool :=
  e.name.isVendor || e.attributes.any fun a => a.name.isVendor || a.name.isData

end SvgComponent.Markup
