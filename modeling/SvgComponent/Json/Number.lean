/-
  SvgComponent.Json.Number — what a JSON number stands for: a natural number, or a binary fraction.

  Digits are taken into a 64-bit significand as long as they fit. Whole digits beyond it count as zeros and
  decimals beyond it not at all; then one multiplication or division by a power of ten gives the fraction.
-/

import SvgComponent.Json.Value
import SvgComponent.Text.Digits

namespace SvgComponent.Json

/-- The largest size: what 64 bits hold. -/
def maxSize : Nat := UInt64.size - 1

/-- A number spelled with digits alone, up to a limit. -/
def natUpTo? (limit : Nat) : Json → Option Nat
  | number literal =>
    let ds := literal.toList
    if Text.isNumeral ds ∧ Text.digitsValue ds ≤ limit then some (Text.digitsValue ds) else none
  | _ => none

/-- A significand times a power of ten. -/
structure Scaled where
  significand : Nat
  exponent : Int

/-- The whole digits: those that fit, and how many do not. -/
def wholePart (sig : Nat) : List Char → Scaled
  | [] => ⟨sig, 0⟩
  | c :: ds =>
    let next := sig * 10 + (c.toNat - '0'.toNat)
    if next ≤ maxSize then wholePart next ds else ⟨sig, ds.length + 1⟩

/-- The decimals, as far as they fit. -/
def decimals (x : Scaled) : List Char → Scaled
  | [] => x
  | c :: ds =>
    let next := x.significand * 10 + (c.toNat - '0'.toNat)
    if next ≤ maxSize then decimals ⟨next, x.exponent - 1⟩ ds else x

/-- The exponent after its letter. -/
def exponentValue : List Char → Int
  | '-' :: ds => -(Text.digitsValue ds : Int)
  | '+' :: ds => Text.digitsValue ds
  | ds => Text.digitsValue ds

def tenTo (n : Nat) : Float := Float.ofScientific 1 false n

/-- Divides by a power of ten, 308 places at a time. -/
def divTenTo (x : Float) (n : Nat) : Float :=
  if n ≤ 308 then x / tenTo n
  else if x == 0.0 then x
  else divTenTo (x / tenTo 308) (n - 308)
termination_by n

def Scaled.toFloat? (x : Scaled) : Option Float :=
  let sig := x.significand.toUInt64.toFloat
  match x.exponent with
  | .ofNat n =>
    if sig == 0.0 then some sig
    else if n ≤ 308 ∧ (sig * tenTo n).isFinite then some (sig * tenTo n)
    else none
  | .negSucc n => some (divTenTo sig (n + 1))

/-- The fraction a number is read as; there is none beyond the largest finite one. -/
def float? : Json → Option Float
  | number literal =>
    let negative := literal.toList.head? = some '-'
    let body := if negative then literal.toList.drop 1 else literal.toList
    let mantissa := body.takeWhile fun c => c != 'e' && c != 'E'
    let x := decimals (wholePart 0 (mantissa.takeWhile (· != '.'))) ((mantissa.dropWhile (· != '.')).drop 1)
    let e := exponentValue ((body.dropWhile fun c => c != 'e' && c != 'E').drop 1)
    (Scaled.toFloat? ⟨x.significand, x.exponent + e⟩).map fun f => if negative then -f else f
  | _ => none

end SvgComponent.Json
