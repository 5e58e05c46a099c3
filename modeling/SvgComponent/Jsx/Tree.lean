/-
  SvgComponent.Jsx.Tree — the markup of a component before it is printed.
-/

import SvgComponent.Style.Sheet

namespace SvgComponent.Jsx

open SvgComponent.Style

inductive ClassToken where
  /-- A class that the image gives by name. -/
  | literal (name : List Char)
  /-- The class of the extracted rule with this number. -/
  | extracted (k : Nat)
  deriving DecidableEq

inductive Attribute where
  | literal (name value : List Char)
  /-- Bound to the size that the caller gives. -/
  | size (name : List Char)
  /-- Bound to the color that the caller gives, and otherwise to the current one. -/
  | color (name : List Char)
  | style (ds : List Declaration)
  /-- The classes in order; at the root the caller's class follows. -/
  | classes (tokens : List ClassToken) (root : Bool)
  /-- All other properties that the caller gives. -/
  | spread
  deriving DecidableEq

inductive Node where
  | element (name : List Char) (attributes : List Attribute) (children : List Node)
  | text (s : List Char)
  | comment (s : List Char)
  /-- The text of a style element. -/
  | css (s : List Char)

end SvgComponent.Jsx
