/-
  SvgComponent.Jsx.Spelling — how React spells the attributes and style properties of SVG.

  Hyphenated presentation attributes become camel case, other attributes without a namespace stay; of `xlink` and
  `xml` only the known ones have a spelling, and any other namespace has none.
-/

import SvgComponent.Markup.Name

namespace SvgComponent.Jsx

open SvgComponent.Markup

/-- The presentation attributes that are spelled with hyphens in SVG. -/
def hyphenated : List String :=
  ["accent-height", "alignment-baseline", "arabic-form", "baseline-shift", "cap-height", "clip-path",
    "clip-rule", "color-interpolation", "color-interpolation-filters", "color-profile", "color-rendering",
    "dominant-baseline", "enable-background", "fill-opacity", "fill-rule", "flood-color", "flood-opacity",
    "font-family", "font-size", "font-size-adjust", "font-stretch", "font-style", "font-variant", "font-weight",
    "glyph-name", "glyph-orientation-horizontal", "glyph-orientation-vertical", "horiz-adv-x", "horiz-origin-x",
    "image-rendering", "letter-spacing", "lighting-color", "marker-end", "marker-mid", "marker-start",
    "overline-position", "overline-thickness", "paint-order", "panose-1", "pointer-events", "rendering-intent",
    "shape-rendering", "stop-color", "stop-opacity", "strikethrough-position", "strikethrough-thickness",
    "stroke-dasharray", "stroke-dashoffset", "stroke-linecap", "stroke-linejoin", "stroke-miterlimit",
    "stroke-opacity", "stroke-width", "text-anchor", "text-decoration", "text-rendering", "underline-position",
    "underline-thickness", "unicode-bidi", "unicode-range", "units-per-em", "v-alphabetic", "v-hanging",
    "v-ideographic", "v-mathematical", "vector-effect", "vert-adv-y", "vert-origin-x", "vert-origin-y",
    "word-spacing", "writing-mode", "x-height"]

/-- The first letter in upper case, if it is an ASCII letter. -/
def capitalize : List Char → List Char
  | [] => []
  | c :: s => c.toUpper :: s

/-- The parts between hyphens, all but the first capitalized. -/
def camelCase (s : List Char) : List Char :=
  match s.splitOn '-' with
  | [] => []
  | first :: rest => first ++ rest.flatMap capitalize

def attributeName? (n : Name) : Option (List Char) :=
  match n.space with
  | none => some (if hyphenated.contains n.base then camelCase n.base.toList else n.base.toList)
  | some "xlink" =>
    if ["actuate", "arcrole", "href", "role", "show", "title", "type"].contains n.base then
      some (['x', 'l', 'i', 'n', 'k'] ++ capitalize n.base.toList)
    else none
  | some "xml" =>
    if ["base", "lang", "space"].contains n.base then some (['x', 'm', 'l'] ++ capitalize n.base.toList) else none
  | some "xmlns" => if n.base = "xlink" then some ['x', 'm', 'l', 'n', 's', 'X', 'l', 'i', 'n', 'k'] else none
  | some _ => none

/-- The key of a style property, and whether it has to be quoted: custom properties keep their spelling, a vendor
    property starts with a capital. -/
def propertyKey (property : List Char) : List Char × Bool :=
  match property with
  | '-' :: '-' :: _ => (property, true)
  | '-' :: vendor => (capitalize (camelCase vendor), false)
  | _ => (camelCase property, false)

end SvgComponent.Jsx
