/-
  SvgComponent.Decimal.Binary — binary fractions in decimal: rounded to a number of places, or the shortest text
  that reads back.

  A finite fraction is `mantissa · 2 ^ exponent`, and all arithmetic on it is exact. The reals that round to it
  are an interval around it, with its ends if the mantissa is even; the shortest text is the first grid of one,
  two, … seventeen digits with a point in that interval, and there the point nearest to the value.
-/

import SvgComponent.Decimal.Fixed

namespace SvgComponent

structure Binary where
  negative : Bool
  mantissa : Nat
  exponent : Int
  /-- The neighbour below is only half as far away as the one above. -/
  narrow : Bool

namespace Binary

def ofFloat (x : Float) : Binary :=
  let bits := x.toBits.toNat
  let negative : Bool := Nat.pow 2 63 ≤ bits
  let e : Nat := bits / Nat.pow 2 52 % Nat.pow 2 11
  let f : Nat := bits % Nat.pow 2 52
  if e = 0 then ⟨negative, f, -1074, false⟩ else ⟨negative, Nat.pow 2 52 + f, (e : Int) - 1075, f = 0 && 1 < e⟩

/-- `n · b ^ e` as a quotient. -/
def power (n b : Nat) : Int → Nat × Nat
  | .ofNat e => (n * Nat.pow b e, 1)
  | .negSucc e => (n, Nat.pow b (e + 1))

/-- The fraction with a number of places, a tie going to the even neighbour. -/
def toDecimal (places : Nat) (x : Binary) : Decimal :=
  let (n, d) := power x.mantissa 2 x.exponent
  ⟨x.negative, Tie.even.roundDiv (n * Nat.pow 10 places) d, places⟩

/-! ## The shortest digits -/

/-- Digits and a power of ten. -/
structure Digits where
  digits : Nat
  exponent : Int

/-- Whether the point lies among the reals that round to `x`. -/
def reads (x : Binary) (p : Digits) : Bool :=
  let (pn, pd) := power p.digits 10 p.exponent
  let (scale, d) := power 1 2 (x.exponent - 2)
  let low := (4 * x.mantissa - (if x.narrow then 1 else 2)) * scale
  let high := (4 * x.mantissa + 2) * scale
  if x.mantissa % 2 = 0 then low * pd ≤ pn * d && pn * d ≤ high * pd
  else low * pd < pn * d && pn * d < high * pd

/-- How many decimal digits stand before the point; not positive for a value below one tenth. -/
def magnitude (x : Binary) : Int :=
  let (n, d) := power x.mantissa 2 x.exponent
  if d ≤ n then (Text.natDigits (n / d)).length
  else 1 - (((List.range 400).find? fun j => d ≤ n * Nat.pow 10 j).getD 0 : Nat)

/-- The point `p` of the grid with `count` digits; the last one is written with fewer. -/
def Digits.ofGrid (count p : Nat) (k : Int) : Digits := if p = Nat.pow 10 count then ⟨1, k + count⟩ else ⟨p, k⟩

/-- The point of the grid with `count` digits that reads back as `x`, if there is one. -/
def onGrid? (x : Binary) (count : Nat) : Option Digits :=
  let k := x.magnitude - count
  let (n, d) := power x.mantissa 2 x.exponent
  let (gn, gd) := power 1 10 k
  let below : Nat := n * gd / (d * gn)
  let distance (p : Nat) : Int := ((n * gd : Nat) : Int) - ((p * d * gn : Nat) : Int)
  let nearer := if (distance (below + 1)).natAbs < (distance below).natAbs then below + 1 else below
  let other := if nearer = below then below + 1 else below
  if x.reads ⟨nearer, k⟩ then some (.ofGrid count nearer k)
  else if x.reads ⟨other, k⟩ then some (.ofGrid count other k)
  else none

def shortest (x : Binary) : Digits :=
  ((List.range 17).findSome? fun n => x.onGrid? (n + 1)).getD ⟨0, 0⟩

/-- Positional from 1e-5 up to 1e16, always with a decimal; else with an exponent. -/
def text (x : Binary) : List Char :=
  let p := if x.mantissa = 0 then ⟨0, 0⟩ else x.shortest
  let ds := Text.natDigits p.digits
  let point := (ds.length : Int) + p.exponent
  (if x.negative then ['-'] else []) ++
    if 0 ≤ p.exponent ∧ point ≤ 16 then ds ++ List.replicate p.exponent.toNat '0' ++ ['.', '0']
    else if 0 < point ∧ point ≤ 16 then ds.take point.toNat ++ '.' :: ds.drop point.toNat
    else if -5 < point ∧ point ≤ 0 then '0' :: '.' :: List.replicate (-point).toNat '0' ++ ds
    else
      ds.take 1 ++ (if ds.length = 1 then [] else '.' :: ds.drop 1) ++ 'e' ::
        (if point - 1 < 0 then '-' :: Text.natDigits (1 - point).toNat else Text.natDigits (point - 1).toNat)

end Binary

end SvgComponent
