/-
  SvgComponent.Component.Generate — a component, and the stylesheet that goes with it, for a document.
-/

import SvgComponent.Component.Name
import SvgComponent.Component.Template
import SvgComponent.Component.Tidy
import SvgComponent.Jsx.Convert
import SvgComponent.Jsx.Layout
import SvgComponent.Jsx.Printer

namespace SvgComponent.Component

open SvgComponent.Markup (Document)

structure Options where
  stripIdentifiers : Bool
  normalizeQuoting : Bool
  wrapInMemoization : Bool
  emitTypeAnnotations : Bool
  stripComments : Bool
  prettyPrint : Bool
  extractStylesheet : Bool
  preOptimize : Bool
  componentName : String
  deriving DecidableEq

namespace Options

def standard : Options := ⟨true, true, true, true, true, true, true, true, defaultName⟩

def rules (o : Options) : Jsx.Rules := ⟨o.stripIdentifiers, o.stripComments, o.extractStylesheet⟩

def name (o : Options) : String := sanitizeName o.componentName

end Options

structure Artifact where
  component : String
  /-- The stylesheet, if there are any styles in it. -/
  stylesheet : Option String
  deriving DecidableEq

/-- An artifact, and how many nodes and attributes were removed first, if that was asked for. -/
structure Generated where
  artifact : Artifact
  leftovers : Option Nat
  deriving DecidableEq

/-- The document that the component is made of. -/
def prepare (o : Options) (d : Document) : Document × Option Nat :=
  if o.preOptimize then (d.tidy.1, some d.tidy.2) else (d, none)

/-- The markup and styles of a document with an element for its root. -/
def markup? (o : Options) (d : Document) : Option (Jsx.Node × Style.Sheet) :=
  d.rootElement?.map fun e => Jsx.convertRoot o.rules e d.root.children

/-- The printed markup as it stands in the component. -/
def layOut (o : Options) (printed : List Char) : String :=
  String.ofList (Jsx.Layout.indent 4 (if o.prettyPrint then Jsx.Layout.format printed else printed))

/-- The component around a root node. -/
def assemble (o : Options) (root : Jsx.Node) (stylesheet : Option String) : Artifact :=
  let printer : Jsx.Printer := ⟨stylesheet.isSome, o.normalizeQuoting⟩
  let template : Template :=
    ⟨o.name, layOut o (printer.print root), stylesheet.isSome, o.wrapInMemoization, o.emitTypeAnnotations⟩
  ⟨template.render, stylesheet⟩

/-- A component for the document; there is none unless its root is an `svg`. -/
def generate? (o : Options) (d : Document) : Option Generated :=
  match d.rootElement? with
  | none => none
  | some e =>
    if e.is "svg" then
      let (d, leftovers) := prepare o d
      (markup? o d).map fun (root, sheet) => ⟨assemble o root sheet.toText?, leftovers⟩
    else none

end SvgComponent.Component
