/-
  SvgComponent.Path.Offsets — path data read as in `Segment`, by positions in its bytes.

  What comes next is looked at in what is left from a position on, arguments are cut out between two positions, and
  behind the letter of an exponent the text is looked at before it is known whether one follows. The answer is `none`
  where a text is cut inside a character or a repetition does not move on.
-/

import SvgComponent.Path.Segment
import SvgComponent.Text.Offsets

namespace SvgComponent.Path.Offsets

open Text (slice?)

/-- The character at a position, unless the text ends there. -/
def peek? (s : String) (pos : Nat) : Option (Option Char) := (slice? s pos s.utf8ByteSize).map List.head?

theorem lt_of_peek? {s : String} {pos : Nat} {c : Char} (h : peek? s pos = some (some c)) : pos < s.utf8ByteSize := by
  obtain ⟨t, ht, hc⟩ := Option.map_eq_some_iff.mp h
  exact Text.lt_of_slice? ht (by rintro rfl; cases hc)

/-! ## Lexemes -/

/-- Where the text goes on behind a character of the kind, or where it is. -/
def skipOne? (p : Char → Bool) (s : String) (pos : Nat) : Option Nat := do
  match ← peek? s pos with
  | some c => return if p c then pos + c.utf8Size else pos
  | none => return pos

/-- How many characters of the kind follow, and where the text goes on behind them. -/
def skipWhile? (p : Char → Bool) (s : String) (pos : Nat) : Option (Nat × Nat) :=
  match _h : peek? s pos with
  | none => none
  | some none => some (0, pos)
  | some (some c) =>
    if p c then (skipWhile? p s (pos + c.utf8Size)).map fun (n, stop) => (n + 1, stop) else some (0, pos)
termination_by s.utf8ByteSize - pos
decreasing_by have := lt_of_peek? _h; have := c.utf8Size_pos; omega

def skipBlank? (s : String) (pos : Nat) : Option Nat := (skipWhile? Text.isAsciiBlank s pos).map Prod.snd

/-- Skips blanks with at most one comma among them. -/
def skipSeparator? (s : String) (pos : Nat) : Option Nat := do
  let pos ← skipBlank? s pos
  let pos ← skipOne? (· == ',') s pos
  skipBlank? s pos

def isSign (c : Char) : Bool := c == '-' || c == '+'

/-- The end of digits with a point before, among or after them, if there is a digit. -/
def mantissa? (s : String) (pos : Nat) : Option (Option Nat) := do
  let (whole, pos) ← skipWhile? Char.isDigit s pos
  if (← peek? s pos) = some '.' then
    let (decimals, pos) ← skipWhile? Char.isDigit s (pos + '.'.utf8Size)
    return if whole + decimals = 0 then none else some pos
  else return if whole = 0 then none else some pos

/-- The end of an exponent if digits follow its letter and sign. -/
def exponent? (s : String) (pos : Nat) : Option Nat := do
  match ← peek? s pos with
  | some e =>
    if e = 'e' ∨ e = 'E' then
      let ahead ← slice? s (pos + 1) s.utf8ByteSize
      if (sign ahead).2.head?.any Char.isDigit then
        let pos ← skipOne? isSign s (pos + e.utf8Size)
        let (_, pos) ← skipWhile? Char.isDigit s pos
        return pos
      else return pos
    else return pos
  | none => return pos

/-- A number that begins at `start`. -/
def number? (s : String) (start : Nat) : Option (Except PathFault (List Char × Nat)) := do
  let pos ← skipOne? isSign s start
  match ← mantissa? s pos with
  | none => return .error (.noNumber start)
  | some pos =>
    let stop ← exponent? s pos
    let text ← slice? s start stop
    return .ok (text, stop)

def flag? (s : String) (start : Nat) : Option (Except PathFault (List Char × Nat)) := do
  match ← peek? s start with
  | none => return .error .noFlag
  | some c =>
    if c = '0' ∨ c = '1' then
      let text ← slice? s start (start + c.utf8Size)
      return .ok (text, start + c.utf8Size)
    else return .error (.badFlag c)

/-- An argument after its separator. -/
def argument? (s : String) (kind : Kind) (pos : Nat) : Option (Except PathFault (List Char × Nat)) := do
  let start ← skipSeparator? s pos
  match kind with
  | .number => number? s start
  | .flag => flag? s start

/-- One argument of each kind. -/
def group? (s : String) : List Kind → Nat → Option (Except PathFault (List (List Char) × Nat))
  | [], pos => some (.ok ([], pos))
  | kind :: kinds, pos => do
    match ← argument? s kind pos with
    | .error f => return .error f
    | .ok (a, pos) =>
      match ← group? s kinds pos with
      | .error f => return .error f
      | .ok (as, pos) => return .ok (a :: as, pos)

/-! ## Segments -/

/-- The arguments of a command that takes some: one group, and more as long as numbers follow. -/
def groups? (s : String) (kind : Kind) (kinds : List Kind) (pos : Nat) :
    Option (Except PathFault (List (List Char) × Nat)) := do
  match ← group? s (kind :: kinds) pos with
  | .error f => return .error f
  | .ok (as, next) =>
    let next ← skipSeparator? s next
    if startsNumber (← peek? s next).toList then
      if _h : pos < next ∧ next ≤ s.utf8ByteSize then
        match ← groups? s kind kinds next with
        | .error f => return .error f
        | .ok (bs, stop) => return .ok (as ++ bs, stop)
      else none
    else return .ok (as, next)
termination_by s.utf8ByteSize - pos
decreasing_by omega

/-- What follows a command's letter: its arguments, and where the text goes on. -/
def arguments? (s : String) (letter : Char) (pos : Nat) : Option (Except PathFault (List (List Char) × Nat)) :=
  match kinds? letter with
  | none => some (.error (.unknownCommand letter))
  | some [] => (skipSeparator? s pos).map fun pos => .ok ([], pos)
  | some (kind :: kinds) => groups? s kind kinds pos

/-- The segments from a position on. -/
def segments? (s : String) (pos : Nat) : Option (Except PathFault (List Segment)) :=
  if _h : pos < s.utf8ByteSize then do
    match ← peek? s pos with
    | none => return .ok []
    | some c =>
      if c.isAlpha then
        match ← arguments? s c (pos + c.utf8Size) with
        | .error f => return .error f
        | .ok (args, next) =>
          if pos < next then
            match ← segments? s next with
            | .error f => return .error f
            | .ok segs => return .ok (⟨c, args⟩ :: segs)
          else none
      else return .error (.noCommand c)
  else some (.ok [])
termination_by s.utf8ByteSize - pos

/-- The segments of path data. -/
def parse? (s : String) : Option (Except PathFault (List Segment)) := do
  let pos ← skipBlank? s 0
  segments? s pos

end SvgComponent.Path.Offsets
