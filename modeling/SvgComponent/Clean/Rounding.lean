/-
  SvgComponent.Clean.Rounding — attribute values that are one decimal fraction are rounded.

  A value with more places than asked for is rounded to them, ties away from zero; other values stay.
-/

import SvgComponent.Clean.Edit
import SvgComponent.Decimal.Fixed

namespace SvgComponent.Markup

/-- The rounded value, if the value is a fraction with too many places. -/
def roundedValue? (places : Nat) (value : String) : Option String :=
  match Decimal.parse? value.toList with
  | some x => if places < x.places then some (String.ofList (x.round .away places).text) else none
  | none => none

def Document.roundValues (places : Nat) (d : Document) : Document × Nat :=
  d.editElements (Element.replaceValues fun a => roundedValue? places a.value)

end SvgComponent.Markup
