/-
  SvgComponent.Json.Value — JSON values: options are read from them, reports are written as them.

  A number is kept as it is spelled, so that `1` and `1.0` stay apart. Fields keep their order and may repeat.
-/

namespace SvgComponent

inductive Json where
  | null
  | bool (b : Bool)
  | number (literal : String)
  | string (s : String)
  /-- A string with half of a surrogate pair, or an object with such a key: of the right form, but no value. -/
  | illFormed
  | array (items : List Json)
  | object (fields : List (String × Json))

namespace Json

def nat (n : Nat) : Json := .number (toString n)

/-- All values of the fields called `key`. -/
def valuesOf (key : String) (fields : List (String × Json)) : List Json :=
  (fields.filter (·.1 == key)).map (·.2)

/-- The first value of the field called `key`. -/
def field? (key : String) : Json → Option Json
  | object fields => (valuesOf key fields).head?
  | _ => none

end Json

end SvgComponent
