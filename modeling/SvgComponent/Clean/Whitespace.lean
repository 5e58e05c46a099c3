/-
  SvgComponent.Clean.Whitespace — text is trimmed, and what is left empty is removed; so are empty style elements.
-/

import SvgComponent.Clean.Edit
import SvgComponent.Text.Blank

namespace SvgComponent.Markup.Document

/-- Text that has nothing to trim stays, also empty text. -/
def trimText (d : Document) (i : Nat) : Document × Nat :=
  match d.content i with
  | .text s =>
    let t := Text.trimmed s
    if t = s then (d, 0) else if t.isEmpty then (d.detach i, 1) else (d.setContent i (.text t), 1)
  | _ => (d, 0)

def trimTexts (d : Document) : Document × Nat := d.forEach trimText (d.descendants 0)

/-- The attached style elements with nothing but blanks in them. -/
def emptyStyles (d : Document) : List Nat :=
  d.elementIds.filter fun i => (d.element? i).any (·.is "style") && Text.allBlank (d.textContent i)

/-- Also one that is empty because all in it is goes by itself and is counted. -/
def removeEmptyStyles (d : Document) : Document × Nat := (d.emptyStyles.foldl detach d, d.emptyStyles.length)

end SvgComponent.Markup.Document
