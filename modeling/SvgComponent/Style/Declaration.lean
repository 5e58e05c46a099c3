/-
  SvgComponent.Style.Declaration — the declarations of a style attribute.

  They are separated by semicolons outside quotes and parentheses; a closing parenthesis too many counts for
  nothing. A declaration has a property and a value, both trimmed; without one of them it is dropped.
-/

import SvgComponent.Text.Blank
import SvgComponent.Text.Cut

namespace SvgComponent.Style

structure Declaration where
  property : List Char
  value : List Char
  deriving DecidableEq

/-- The parts between semicolons; a quote is open, or `depth` parentheses are. -/
def splitFrom (quote : Option Char) (depth : Nat) : List Char → List (List Char)
  | [] => [[]]
  | c :: s =>
    match quote with
    | some q => (splitFrom (if c = q then none else some q) depth s).modifyHead (c :: ·)
    | none =>
      if c = ';' ∧ depth = 0 then [] :: splitFrom none 0 s
      else if c = '\"' ∨ c = '\'' then (splitFrom (some c) depth s).modifyHead (c :: ·)
      else if c = '(' then (splitFrom none (depth + 1) s).modifyHead (c :: ·)
      else if c = ')' then (splitFrom none (depth - 1) s).modifyHead (c :: ·)
      else (splitFrom none depth s).modifyHead (c :: ·)

def split (s : List Char) : List (List Char) := splitFrom none 0 s

def Declaration.parse? (s : List Char) : Option Declaration :=
  match Text.cutAt ':' s with
  | some (property, value) =>
    let d : Declaration := ⟨Text.trim property, Text.trim value⟩
    if d.property.isEmpty || d.value.isEmpty then none else some d
  | none => none

def parseDeclarations (s : String) : List Declaration := (split s.toList).filterMap Declaration.parse?

end SvgComponent.Style
