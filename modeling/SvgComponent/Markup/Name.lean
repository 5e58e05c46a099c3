/-
  SvgComponent.Markup.Name — qualified names of elements and attributes.

  A name is read by cutting at its first colon; every text is a name, also an empty one or one with several
  colons, and `full_parse` says that writing what was read gives the text back.
-/

import SvgComponent.Text.Cut

namespace SvgComponent.Markup

structure Name where
  /-- What stands before the first colon. -/
  space : Option String
  base : String
  deriving DecidableEq

namespace Name

def parse (s : String) : Name :=
  match Text.cutAt ':' s.toList with
  | some (space, base) => ⟨some (String.ofList space), String.ofList base⟩
  | none => ⟨none, s⟩

def full (n : Name) : String :=
  match n.space with
  | some space => space ++ ":" ++ n.base
  | none => n.base

/-- The name without a namespace that is spelled `s`. -/
def is (n : Name) (s : String) : Bool := n.space.isNone && n.base == s

/-- A declaration of a namespace: `xmlns` or `xmlns:…`. -/
def isDeclaration (n : Name) : Bool := n.space == some "xmlns" || n.is "xmlns"

theorem full_parse (s : String) : (parse s).full = s := by
  cases h : Text.cutAt ':' s.toList with
  | none => simp [parse, full, h]
  | some p =>
    obtain ⟨space, base⟩ := p
    apply String.toList_inj.1
    rw [Text.cutAt_eq_some h]
    simp [parse, full, h]

end Name

end SvgComponent.Markup
