/-
  SvgComponent.Clean.Colors — fills and strokes of the form `rgb(r, g, b)` become six hexadecimal digits.

  The three channels are whole numbers up to 255, with any number of zeros before and blanks around; letter
  case does not matter, and every other form of color stays.
-/

import SvgComponent.Clean.Edit
import SvgComponent.Text.Blank
import SvgComponent.Text.Digits
import SvgComponent.Text.Quoted

namespace SvgComponent.Markup

def channel? (s : List Char) : Option Nat :=
  let digits := Text.trim s
  if Text.isNumeral digits ∧ Text.digitsValue digits ≤ 255 then some (Text.digitsValue digits) else none

/-- The text inside `rgb(` and `)`. -/
def rgbArguments? (s : List Char) : Option (List Char) :=
  let s := Text.trim s
  if (s.take 4).map Char.toLower = ['r', 'g', 'b', '('] ∧ (s.drop 4).getLast? = some ')' then
    some (s.drop 4).dropLast
  else none

def rgbToHex? (s : List Char) : Option (List Char) := do
  match (← rgbArguments? s).splitOn ',' with
  | [r, g, b] =>
    let r ← channel? r
    let g ← channel? g
    let b ← channel? b
    return '#' :: Text.hexPair r ++ Text.hexPair g ++ Text.hexPair b
  | _ => none

/-- The hexadecimal form of a fill's or stroke's color. -/
def Attribute.hexColor? (a : Attribute) : Option String :=
  if a.name.is "fill" || a.name.is "stroke" then (rgbToHex? a.value.toList).map String.ofList else none

def Document.hexColors (d : Document) : Document × Nat := d.editElements (Element.replaceValues Attribute.hexColor?)

end SvgComponent.Markup
