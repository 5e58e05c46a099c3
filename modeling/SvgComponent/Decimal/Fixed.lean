/-
  SvgComponent.Decimal.Fixed — decimal fractions of any length with a number of places, and rounding them.

  A fraction is a number of units of its last place. Rounding to fewer places is one division by a power of
  ten to the nearest quotient; a tie goes away from zero or to the even neighbour.
-/

import SvgComponent.Text.Cut
import SvgComponent.Text.Digits

namespace SvgComponent

/-- Where a number halfway between two neighbours goes. -/
inductive Tie where
  | away
  | even
  deriving DecidableEq

/-- The quotient nearest to `n / d`. -/
def Tie.roundDiv (tie : Tie) (n d : Nat) : Nat :=
  let q := n / d
  let r := n % d
  if d < 2 * r ∨ (d = 2 * r ∧ (tie = .away ∨ q % 2 = 1)) then q + 1 else q

structure Decimal where
  negative : Bool
  /-- The value in units of the last place, without its sign. -/
  units : Nat
  places : Nat
  deriving DecidableEq

namespace Decimal

/-- Digits, a point and digits, after an optional minus. -/
def parse? (s : List Char) : Option Decimal :=
  let negative := s.head? = some '-'
  match Text.cutAt '.' (if negative then s.drop 1 else s) with
  | some (whole, decimals) =>
    if Text.isNumeral whole && Text.isNumeral decimals then
      some ⟨negative, Text.digitsValue (whole ++ decimals), decimals.length⟩
    else none
  | none => none

/-- The nearest fraction with no more than `places` places. -/
def round (tie : Tie) (places : Nat) (x : Decimal) : Decimal :=
  if places < x.places then ⟨x.negative, tie.roundDiv x.units (Nat.pow 10 (x.places - places)), places⟩ else x

/-- The digits without a sign; no point without places. -/
def magnitude (x : Decimal) : List Char :=
  Text.natDigits (x.units / Nat.pow 10 x.places) ++
    (if x.places = 0 then [] else '.' :: Text.padDigits x.places (x.units % Nat.pow 10 x.places))

/-- Zero has no sign. -/
def text (x : Decimal) : List Char := if x.negative && x.units != 0 then '-' :: x.magnitude else x.magnitude

end Decimal

end SvgComponent
