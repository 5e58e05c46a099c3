/-
  SvgComponent.Json.Record — records of options: values for some of the known fields, defaults for the others.

  A record is an object, in which a known field may stand once and unknown ones are passed over, or an array of
  values for the first fields in order. A value of the wrong type makes the whole record unreadable.
-/

import SvgComponent.Json.Number

namespace SvgComponent.Json

/-- The fields of a record. -/
def record? (known : List String) : Json → Option (List (String × Json))
  | object fields => if known.all fun key => (valuesOf key fields).length ≤ 1 then some fields else none
  | array values => if values.length ≤ known.length then some (known.zip values) else none
  | _ => none

/-- Reads a field that may be missing. -/
def readField {α : Type} (key : String) (default : α) (read : Json → Option α) (fields : List (String × Json)) :
    Option α :=
  match fields.lookup key with
  | some value => read value
  | none => some default

def bool? : Json → Option Bool
  | bool b => some b
  | _ => none

def string? : Json → Option String
  | string s => some s
  | _ => none

end SvgComponent.Json
