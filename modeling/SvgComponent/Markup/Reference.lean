/-
  SvgComponent.Markup.Reference — character references in text and attribute values, and what they stand for.

  Five names are known; a number is decimal, or hexadecimal after a small x. The first fault from the left is
  the one that is reported.
-/

import SvgComponent.Markup.Fault
import SvgComponent.Text.Cut
import SvgComponent.Text.Quoted
import SvgComponent.Text.Size

namespace SvgComponent.Markup.Reference

def named? (name : List Char) : Option Char :=
  if name = ['l', 't'] then some '<'
  else if name = ['g', 't'] then some '>'
  else if name = ['a', 'm', 'p'] then some '&'
  else if name = ['a', 'p', 'o', 's'] then some '\''
  else if name = ['q', 'u', 'o', 't'] then some '\"'
  else none

def digit? (base : Nat) (c : Char) : Option Nat := (Text.hexValue? c).filter (· < base)

/-- Reads digits from the left onto `n`, as far as 32 bits reach. -/
def number (base : Nat) (n : Nat) : List Char → Except NumberFault Nat
  | [] => .ok n
  | c :: s =>
    match digit? base c with
    | none => .error .notDigit
    | some d => if n * base + d < UInt32.size then number base (n * base + d) s else .error .tooLarge

def unsigned (base : Nat) (s : List Char) : Except NumberFault Nat :=
  match s.head? with
  | none => .error .missing
  | some c => if c = '+' ∨ c = '-' then .error .signed else number base 0 s

def character (code : Nat) : Except NumberFault Char :=
  if code = 0 then .error .zero
  else if code.isValidChar then .ok (Char.ofNat code)
  else .error (.notCharacter code)

/-- What stands after the number sign. -/
def numeric : List Char → Except NumberFault Char
  | 'x' :: digits => unsigned 16 digits >>= character
  | digits => unsigned 10 digits >>= character

def isNameChar (c : Char) : Bool := c != '&' && c != ';'

/-- The character that a reference stands for, of which `r`, the end of a text of `total` bytes, is what follows
    the ampersand. -/
def resolve (total : Nat) (r : List Char) : Except ReferenceFault Char :=
  let name := r.takeWhile isNameChar
  match name with
  | '#' :: digits => (numeric digits).mapError .number
  | _ =>
    match named? name with
    | some c => .ok c
    | none =>
      let start := total - Text.byteSize r
      .error (.unknown start (start + Text.byteSize name) (String.ofList name))

/-- Replaces the references in `s`, the end of a text of `total` bytes. -/
def expandEnd (total : Nat) (s : List Char) : Except ReferenceFault (List Char) :=
  match s with
  | [] => .ok []
  | c :: r =>
    if c = '&' then
      match _h : r.dropWhile isNameChar with
      | ';' :: rest => do
        let c ← resolve total r
        let cs ← expandEnd total rest
        return c :: cs
      | _ => .error (.unterminated (total - Text.byteSize s) total)
    else (c :: ·) <$> expandEnd total r
termination_by s.length
decreasing_by
  · have shorter := Text.length_dropWhile_le isNameChar r
    simp only [_h, List.length_cons] at shorter ⊢
    omega
  · simp

/-- The text that `s` is written for. -/
def expand (s : List Char) : Except ReferenceFault (List Char) := expandEnd (Text.byteSize s) s

end SvgComponent.Markup.Reference
