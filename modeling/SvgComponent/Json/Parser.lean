/-
  SvgComponent.Json.Parser — JSON text to values.

  The whole text has to be one value between blanks. Numbers have no superfluous zeros, strings no raw
  control characters, and a missing or surplus comma is no JSON. An escape may name half of a surrogate pair:
  what has such a string in it is read, but the string is no text, nor an object a record if it is a key.
-/

import SvgComponent.Json.Value
import SvgComponent.Text.Quoted

namespace SvgComponent.Json

def isSpace (c : Char) : Bool := c == ' ' || c == '\t' || c == '\n' || c == '\r'

def skipSpace (s : List Char) : List Char := s.dropWhile isSpace

/-! ## Strings -/

/-- A character of a string, or an escaped half of a surrogate pair. -/
inductive Unit16 where
  | char (c : Char)
  | half (code : Nat)

def Unit16.ofCode (code : Nat) : Unit16 :=
  if 0xD800 ≤ code ∧ code < 0xE000 then half code else char (Char.ofNat code)

def hexCode? (a b c d : Char) : Option Nat := do
  let a ← Text.hexValue? a
  let b ← Text.hexValue? b
  let c ← Text.hexValue? c
  let d ← Text.hexValue? d
  return ((a * 16 + b) * 16 + c) * 16 + d

def shortEscape? : Char → Option Char
  | '\"' => some '\"'
  | '\\' => some '\\'
  | '/' => some '/'
  | 'b' => some '\x08'
  | 'f' => some '\x0c'
  | 'n' => some '\n'
  | 'r' => some '\r'
  | 't' => some '\t'
  | _ => none

/-- The units up to the closing quote, and what follows it. -/
def units : List Char → Option (List Unit16 × List Char)
  | [] => none
  | '\\' :: 'u' :: a :: b :: c :: d :: s => do
    let code ← hexCode? a b c d
    let (us, rest) ← units s
    return (.ofCode code :: us, rest)
  | '\\' :: c :: s => do
    let c ← shortEscape? c
    let (us, rest) ← units s
    return (.char c :: us, rest)
  | c :: s =>
    if c = '\"' then some ([], s)
    else if c.toNat < 0x20 ∨ c = '\\' then none
    else (units s).map fun (us, rest) => (.char c :: us, rest)

/-- The text of the units, in which halves come in pairs. -/
def joinPairs : List Unit16 → Option (List Char)
  | [] => some []
  | .char c :: us => (c :: ·) <$> joinPairs us
  | .half high :: .half low :: us =>
    if high < 0xDC00 ∧ 0xDC00 ≤ low then
      (Char.ofNat (0x10000 + (high - 0xD800) * 0x400 + (low - 0xDC00)) :: ·) <$> joinPairs us
    else none
  | .half _ :: _ => none

/-- A string after its opening quote, as the text it stands for if it stands for any. -/
def stringEnd (s : List Char) : Option (Option String × List Char) :=
  (units s).map fun (us, rest) => ((joinPairs us).map String.ofList, rest)

def ofText? : Option String → Json
  | some s => string s
  | none => illFormed

/-! ## Objects -/

/-- A field as it is read, with its key if that is text. -/
structure Field where
  key : Option String
  value : Json

def Field.keyed? (f : Field) : Option (String × Json) := f.key.map (·, f.value)

/-- The object with these fields. -/
def ofFields (fs : List Field) : Json :=
  match fs.mapM Field.keyed? with
  | some fs => object fs
  | none => illFormed

/-! ## Numbers -/

/-- One digit or more, and the rest. -/
def digits1 (s : List Char) : Option (List Char × List Char) :=
  if (s.takeWhile Char.isDigit).isEmpty then none else some (s.takeWhile Char.isDigit, s.dropWhile Char.isDigit)

/-- An integer without a sign: a lone zero, or digits that do not start with one. -/
def wholeDigits (s : List Char) : Option (List Char × List Char) :=
  match digits1 s with
  | some (d, rest) => if d.head? = some '0' ∧ d ≠ ['0'] then none else some (d, rest)
  | none => none

/-- An optional point with digits after it. -/
def fraction (s : List Char) : Option (List Char × List Char) :=
  match s with
  | '.' :: s => (digits1 s).map fun (d, rest) => ('.' :: d, rest)
  | _ => some ([], s)

/-- An optional exponent. -/
def exponent (s : List Char) : Option (List Char × List Char) :=
  match s with
  | e :: s' =>
    if e = 'e' ∨ e = 'E' then
      match s' with
      | '+' :: s => (digits1 s).map fun (d, rest) => (e :: '+' :: d, rest)
      | '-' :: s => (digits1 s).map fun (d, rest) => (e :: '-' :: d, rest)
      | s => (digits1 s).map fun (d, rest) => (e :: d, rest)
    else some ([], s)
  | [] => some ([], [])

def numeral (s : List Char) : Option (List Char × List Char) := do
  let (sign, s) := match s with
    | '-' :: s => (['-'], s)
    | s => ([], s)
  let (whole, s) ← wholeDigits s
  let (frac, s) ← fraction s
  let (exp, s) ← exponent s
  return (sign ++ whole ++ frac ++ exp, s)

/-! ## Values -/

def keyword? (s : List Char) : Option (Json × List Char) :=
  match ['n', 'u', 'l', 'l'].isPrefixOf? s with
  | some rest => some (.null, rest)
  | none =>
    match ['t', 'r', 'u', 'e'].isPrefixOf? s with
    | some rest => some (.bool true, rest)
    | none => (['f', 'a', 'l', 's', 'e'].isPrefixOf? s).map (.bool false, ·)

/-- A value without parts. -/
def scalar (s : List Char) : Option (Json × List Char) :=
  match s with
  | '\"' :: s => (stringEnd s).map fun (text, rest) => (ofText? text, rest)
  | s =>
    match keyword? s with
    | some v => some v
    | none => (numeral s).map fun (d, rest) => (.number (String.ofList d), rest)

mutual

/-- A value and what follows it; `fuel` bounds the values read inside one another and side by side. -/
def value (fuel : Nat) (s : List Char) : Option (Json × List Char) :=
  match fuel with
  | 0 => none
  | fuel + 1 =>
    match skipSpace s with
    | '[' :: s =>
      match skipSpace s with
      | ']' :: rest => some (.array [], rest)
      | s => (items fuel s).map fun (vs, rest) => (.array vs, rest)
    | '{' :: s =>
      match skipSpace s with
      | '}' :: rest => some (.object [], rest)
      | s => (fields fuel s).map fun (fs, rest) => (ofFields fs, rest)
    | s => scalar s

/-- The items of an array up to its closing bracket. -/
def items (fuel : Nat) (s : List Char) : Option (List Json × List Char) :=
  match fuel with
  | 0 => none
  | fuel + 1 => do
    let (v, s) ← value fuel s
    match skipSpace s with
    | ',' :: s => (items fuel s).map fun (vs, rest) => (v :: vs, rest)
    | ']' :: rest => some ([v], rest)
    | _ => none

/-- The fields of an object up to its closing brace. -/
def fields (fuel : Nat) (s : List Char) : Option (List Field × List Char) :=
  match fuel with
  | 0 => none
  | fuel + 1 =>
    match skipSpace s with
    | '\"' :: s => do
      let (key, s) ← stringEnd s
      match skipSpace s with
      | ':' :: s =>
        let (v, s) ← value fuel s
        match skipSpace s with
        | ',' :: s => (fields fuel s).map fun (fs, rest) => (⟨key, v⟩ :: fs, rest)
        | '}' :: rest => some ([⟨key, v⟩], rest)
        | _ => none
      | _ => none
    | _ => none

end

/-- The value that the text is. Every value takes a character, so twice the length is fuel enough. -/
def parse? (s : String) : Option Json :=
  match value (2 * s.length + 2) s.toList with
  | some (v, rest) => if (skipSpace rest).isEmpty then some v else none
  | none => none

end SvgComponent.Json
