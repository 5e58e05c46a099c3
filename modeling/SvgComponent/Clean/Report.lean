/-
  SvgComponent.Clean.Report — what cleaning a document did: counts, descriptions and the change in size.
-/

import SvgComponent.Clean.Pass
import SvgComponent.Markup.Printer

namespace SvgComponent.Clean

open SvgComponent.Markup

structure Report where
  removedElements : Nat
  /-- One line for each pass that did something. -/
  optimizations : List String
  deriving DecidableEq

def Report.ofRuns (runs : List Run) : Report where
  removedElements := ((runs.filter (·.pass.removes)).map (·.count)).foldr (· + ·) 0
  optimizations := (runs.filter (·.count != 0)).map fun r => r.pass.description r.count

/-- By how much a size shrank, in percent; it is negative for growth. What is empty does not shrink. -/
def sizeReduction (before after : Nat) : Float :=
  if before = 0 then 0
  else
    let size := before.toUInt64.toFloat
    (size - after.toUInt64.toFloat) / size * 100

structure Cleaning where
  cleanedSvg : String
  removedElements : Nat
  sizeReduction : Float
  optimizations : List String

/-- The account of a cleaning that left `d` of an image of `bytes` bytes. -/
def Cleaning.ofRuns (bytes : Nat) (d : Document) (runs : List Run) : Cleaning :=
  let report := Report.ofRuns runs
  { cleanedSvg := d.markup
    removedElements := report.removedElements
    sizeReduction := Clean.sizeReduction bytes d.markup.utf8ByteSize
    optimizations := report.optimizations }

end SvgComponent.Clean
