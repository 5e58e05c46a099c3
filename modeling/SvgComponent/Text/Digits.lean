/-
  SvgComponent.Text.Digits — decimal digits and the numbers they spell.
-/

namespace SvgComponent.Text

/-- The number that decimal digits spell; none spell zero. -/
def digitsValue (ds : List Char) : Nat := ds.foldl (fun n c => n * 10 + (c.toNat - '0'.toNat)) 0

/-- Digits and nothing else, at least one. -/
def isNumeral (s : List Char) : Bool := !s.isEmpty && s.all Char.isDigit

/-- The digits of a number, without superfluous zeros. -/
def natDigits (n : Nat) : List Char := Nat.toDigits 10 n

/-- At least `width` digits, filled up with zeros in front. -/
def padDigits (width n : Nat) : List Char :=
  List.replicate (width - (natDigits n).length) '0' ++ natDigits n

end SvgComponent.Text
