/-
  SvgComponent.Analysis.Reference — which ids a document refers to.

  A reference is `url(#id)`, with blanks inside the parentheses and then quotes around its target dropped. It
  counts in style elements and in the attributes that hold references; an `href` also refers by a bare `#id`.
-/

import SvgComponent.Markup.Tree
import SvgComponent.Text.Blank
import SvgComponent.Text.Cut

namespace SvgComponent.Analysis

open SvgComponent.Markup (Attribute Document Element)

def isQuote (c : Char) : Bool := c == '\'' || c == '\"'

/-- The id after a number sign; an empty one is none. -/
def fragment? (s : List Char) : Option (List Char) :=
  match s with
  | '#' :: id => if id.isEmpty then none else some id
  | _ => none

/-- The id that the inside of the parentheses refers to. -/
def target? (inner : List Char) : Option (List Char) := fragment? (Text.trimWhile isQuote (Text.trim inner))

/-- The ids of the references in a text, in order. One that is not closed ends the search. -/
def targets (s : List Char) : List (List Char) :=
  match _h : Text.cutBefore ['u', 'r', 'l', '('] s with
  | none => []
  | some (_, after) =>
    match _h' : Text.cutAt ')' after with
    | none => []
    | some (inner, rest) => (target? inner).toList ++ targets rest
termination_by s.length
decreasing_by
  have h1 := congrArg List.length (Text.cutBefore_eq_some _h)
  have h2 := congrArg List.length (Text.cutAt_eq_some _h')
  simp at h1 h2; omega

def references (s : String) : List String := (targets s.toList).map String.ofList

/-- The attributes in which references count. -/
def referenceAttributes : List String :=
  ["fill", "stroke", "filter", "clip-path", "mask", "marker-start", "marker-mid", "marker-end", "href",
    "xlink:href", "style"]

/-- The ids an attribute refers to. -/
def attributeReferences (a : Attribute) : List String :=
  if referenceAttributes.contains a.name.full then
    references a.value ++
      (if a.name.base = "href" then ((fragment? (Text.trim a.value.toList)).map String.ofList).toList else [])
  else []

/-- The ids an element refers to by itself, a style element with all its text. -/
def elementReferences (t : Markup.Tree) (e : Element) : List String :=
  (if e.is "style" then references t.textContent else []) ++ e.attributes.flatMap attributeReferences

/-- The ids that a tree refers to, as often as it does. -/
def treeReferences (t : Markup.Tree) : List String :=
  t.subtrees.flatMap fun t => (t.element?.map (elementReferences t)).getD []

end SvgComponent.Analysis

/-- The ids that the attached elements refer to, as often as they do. -/
def SvgComponent.Markup.Document.references (d : Document) : List String := Analysis.treeReferences d.root
