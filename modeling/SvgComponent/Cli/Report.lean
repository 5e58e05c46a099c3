/-
  SvgComponent.Cli.Report — what is told about a conversion: a few lines of statistics, or all of it as JSON.
-/

import SvgComponent.Convert.Pipeline
import SvgComponent.Decimal.Binary
import SvgComponent.Json.Printer

namespace SvgComponent.Cli

open SvgComponent.Analysis (Metrics)
open SvgComponent.Clean (Cleaning)
open SvgComponent.Component (Artifact)
open SvgComponent.Convert (Conversion)

/-! ## Statistics -/

/-- A percentage with one place; a minus stays also before zero. -/
def percentage (x : Float) : String :=
  let d := (Binary.ofFloat x).toDecimal 1
  String.ofList ((if d.negative then ['-'] else []) ++ d.magnitude)

def cleaningLines (bytes : Nat) (c : Cleaning) : List String :=
  (toString bytes ++ " -> " ++ toString c.cleanedSvg.utf8ByteSize ++ " bytes (" ++ percentage c.sizeReduction ++
      "% smaller), " ++ toString c.removedElements ++ " elements removed") ::
    c.optimizations.map ("  " ++ ·)

def metricsLine (input output : Metrics) : String :=
  "elements " ++ toString input.elements ++ " -> " ++ toString output.elements ++
    ", paths " ++ toString input.paths ++ " -> " ++ toString output.paths ++
    ", groups " ++ toString input.groups ++ " -> " ++ toString output.groups

/-- The statistics of the conversion of an image of `bytes` bytes. -/
def statistics (bytes : Nat) (c : Conversion) : List String :=
  ((c.cleaning.map (cleaningLines bytes)).getD []) ++ [metricsLine c.inputMetrics c.outputMetrics]

/-! ## The report -/

def optionalString : Option String → Json
  | some s => .string s
  | none => .null

def artifactReport (a : Artifact) : Json :=
  .object [("component", .string a.component), ("stylesheet", optionalString a.stylesheet)]

def metricsReport (m : Metrics) : Json :=
  .object [
    ("elementCount", .nat m.elements),
    ("pathCount", .nat m.paths),
    ("groupCount", .nat m.groups),
    ("defsCount", .nat m.definitions),
    ("styleCount", .nat m.styles),
    ("hasInlineStyles", .bool m.inlineStyles),
    ("hasVendorAttributes", .bool m.vendor),
    ("fileSizeBytes", .nat m.bytes)]

/-- A fraction by its shortest text. -/
def fractionReport (x : Float) : Json :=
  if x.isFinite then .number (String.ofList (Binary.ofFloat x).text) else .null

def cleaningReport (c : Cleaning) : Json :=
  .object [
    ("cleanedSvg", .string c.cleanedSvg),
    ("removedElements", .nat c.removedElements),
    ("sizeReduction", fractionReport c.sizeReduction),
    ("optimizations", .array (c.optimizations.map .string))]

def report (c : Conversion) : Json :=
  .object [
    ("artifact", artifactReport c.artifact),
    ("inputMetrics", metricsReport c.inputMetrics),
    ("outputMetrics", metricsReport c.outputMetrics),
    ("cleaning", (c.cleaning.map cleaningReport).getD .null)]

end SvgComponent.Cli
