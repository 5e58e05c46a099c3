/-
  SvgComponent.Jsx.Convert — the component's markup for the tree of a document.

  Elements with a namespace cannot be expressed and are left out with all below them. Text is trimmed and blank
  text left out. When styles are extracted, style elements go to the sheet and a style attribute becomes a rule
  and a class of its own; the classes of an element stand where its first class or extracted style stood.
-/

import SvgComponent.Jsx.Spelling
import SvgComponent.Jsx.Tree
import SvgComponent.Markup.Tree
import SvgComponent.Text.Blank

namespace SvgComponent.Jsx

open SvgComponent.Markup (Element)
open SvgComponent.Style

/-- What decides how markup is converted. -/
structure Rules where
  stripIdentifiers : Bool
  stripComments : Bool
  extractStylesheet : Bool
  deriving DecidableEq

/-- What an attribute contributes: an attribute, or classes. -/
inductive Part where
  | attr (a : Attribute)
  | classes (tokens : List ClassToken)
  deriving DecidableEq

def Part.tokens : Part → List ClassToken
  | classes ts => ts
  | attr _ => []

/-- The part of a style attribute with these declarations. -/
def stylePart (r : Rules) (ds : List Declaration) (sheet : Sheet) : Option Part × Sheet :=
  if ds.isEmpty then (none, sheet)
  else if r.extractStylesheet then (some (.classes [.extracted sheet.rules.length]), sheet.addRule ds)
  else (some (.attr (.style ds)), sheet)

/-- The part of any other attribute. -/
def plainPart (r : Rules) (root : Bool) (a : Markup.Attribute) : Option Part :=
  let name := a.name.full
  if name = "id" ∧ r.stripIdentifiers then none
  else if name = "class" then some (.classes ((Text.words a.value.toList).map .literal))
  else if root ∧ (name = "width" ∨ name = "height") then some (.attr (.size name.toList))
  else if root ∧ (name = "fill" ∨ name = "stroke") ∧ a.value = "currentColor" then
    some (.attr (.color name.toList))
  else (attributeName? a.name).map fun spelled => .attr (.literal spelled a.value.toList)

/-- The parts of attributes in order; extracted rules go to the sheet. -/
def parts (r : Rules) (root : Bool) : List Markup.Attribute → Sheet → List Part × Sheet
  | [], sheet => ([], sheet)
  | a :: as, sheet =>
    let (part, sheet) :=
      if a.name.full = "style" then stylePart r (parseDeclarations a.value) sheet else (plainPart r root a, sheet)
    let (ps, sheet) := parts r root as sheet
    (part.toList ++ ps, sheet)

/-- Puts the binding of the classes where the first classes stand, or at the end. -/
def place (binding : List Attribute) : List Part → List Attribute
  | [] => binding
  | .attr a :: ps => a :: place binding ps
  | .classes _ :: ps => binding ++ ps.filterMap fun
    | .attr a => some a
    | .classes _ => none

/-- The attributes of the parts; the root always binds its class and takes the caller's properties. -/
def assemble (root : Bool) (ps : List Part) : List Attribute :=
  let tokens := ps.flatMap Part.tokens
  place (if tokens.isEmpty && !root then [] else [.classes tokens root]) ps ++ (if root then [.spread] else [])

/-- A style element with this text. -/
def styleElement (r : Rules) (css : List Char) (sheet : Sheet) : Option Node × Sheet :=
  if r.extractStylesheet then (none, if css.isEmpty then sheet else sheet.addBlock css)
  else (some (.element ['s', 't', 'y', 'l', 'e'] [] (if css.isEmpty then [] else [.css css])), sheet)

/-- Character data, unless it is blank. -/
def textNode (s : String) : Option Node :=
  let t := Text.trim s.toList
  if t.isEmpty then none else some (.text t)

def commentNode (r : Rules) (s : String) : Option Node :=
  if r.stripComments then none else some (.comment (Text.trim s.toList))

mutual

/-- The node for a tree below the root. -/
def convert (r : Rules) : Markup.Tree → Sheet → Option Node × Sheet
  | .node i (.element e) ts, sheet =>
    if e.name.space.isSome then (none, sheet)
    else if e.is "style" then
      styleElement r (Text.trim (Markup.Tree.node i (.element e) ts).textContent.toList) sheet
    else
      let (ps, sheet) := parts r false e.attributes sheet
      let (children, sheet) := convertAll r ts sheet
      (some (.element e.name.base.toList (assemble false ps) children), sheet)
  | .node _ (.text s) _, sheet => (textNode s, sheet)
  | .node _ (.cdata s) _, sheet => (textNode s, sheet)
  | .node _ (.comment s) _, sheet => (commentNode r s, sheet)

def convertAll (r : Rules) : List Markup.Tree → Sheet → List Node × Sheet
  | [], sheet => ([], sheet)
  | t :: ts, sheet =>
    let (n, sheet) := convert r t sheet
    let (ns, sheet) := convertAll r ts sheet
    (n.toList ++ ns, sheet)

end

/-- The markup of an image with root `e` and the trees below it, and its styles. -/
def convertRoot (r : Rules) (e : Element) (below : List Markup.Tree) : Node × Sheet :=
  let (ps, sheet) := parts r true e.attributes .empty
  let (children, sheet) := convertAll r below sheet
  (.element e.name.base.toList (assemble true ps) children, sheet)

end SvgComponent.Jsx
