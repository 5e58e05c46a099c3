/-
  SvgComponent.Convert.Pipeline — from the text of an image to a component: reading, cleaning and generating.

  Sizes and memory are checked before anything is read, the size first. Whether a worker converts an image shows
  in the journal and nowhere else. A worker that is asked to stop finishes the stage that it is at, and stops before
  the next.
-/

import SvgComponent.Analysis.Metrics
import SvgComponent.Clean.Report
import SvgComponent.Convert.Journal
import SvgComponent.Convert.Limits
import SvgComponent.Convert.Options
import SvgComponent.Markup.Parser

namespace SvgComponent.Convert

open SvgComponent.Analysis (Metrics)
open SvgComponent.Clean (Cleaning)
open SvgComponent.Component (Artifact)
open SvgComponent.Markup (Document)

/-! ## The stages -/

def read (svg : String) : Traced Document :=
  match Document.parse svg with
  | .error f => .fail (.document f)
  | .ok d => ⟨[.parsed svg.utf8ByteSize d.elementIds.length], .ok d⟩

/-- Runs the enabled passes on a document. -/
def cleanDocument (o : Clean.Options) (d : Document) : Traced (Document × List Clean.Run) :=
  let (d, runs) := Clean.runPasses o d
  ⟨runs.flatMap Entry.ofRun, .ok (d, runs)⟩

/-- The cleaned text of an image, with an account of the cleaning. -/
def clean (o : Clean.Options) (svg : String) : Traced Cleaning := do
  let d ← read svg
  let (d, runs) ← cleanDocument o d
  return .ofRuns svg.utf8ByteSize d runs

def generate (o : Component.Options) (d : Document) : Traced Artifact :=
  match Component.generate? o d with
  | none => .fail .notSvg
  | some g =>
    let sizes := Entry.generated o.name g.artifact.component.utf8ByteSize
      ((g.artifact.stylesheet.map (·.utf8ByteSize)).getD 0)
    ⟨(g.leftovers.map Entry.tidied).toList ++ [sizes], .ok g.artifact⟩

/-! ## The pipeline -/

structure Conversion where
  artifact : Artifact
  /-- Of the document as it was read. -/
  inputMetrics : Metrics
  /-- Of the document that the component was made of, before leftovers were removed. -/
  outputMetrics : Metrics
  /-- There is one if any pass was enabled. -/
  cleaning : Option Cleaning

/-- The points at which a conversion looks whether it was cancelled: before each stage, and when all are done. -/
inductive Checkpoint where
  | reading
  | cleaning
  | generating
  | done
  deriving DecidableEq

/-- How many points come before. -/
def Checkpoint.place : Checkpoint → Nat
  | reading => 0
  | cleaning => 1
  | generating => 2
  | done => 3

/-- Goes on unless the conversion was cancelled. -/
def checkpoint (cancelled : Bool) : Traced Unit := if cancelled then .fail .cancelled else .pure ()

/-- Cleans a document if any pass is enabled. -/
def cleanIfEnabled (o : Clean.Options) (bytes : Nat) (d : Document) : Traced (Document × Option Cleaning) :=
  if o.anyEnabled then do
    let (d, runs) ← cleanDocument o d
    return (d, some (.ofRuns bytes d runs))
  else return (d, none)

/-- Converts an image; `cancelled` tells the points at which the conversion is found to be cancelled. -/
def runUnless (cancelled : Checkpoint → Bool) (svg : String) (o : Options) : Traced Conversion := do
  checkpoint (cancelled .reading)
  let d ← read svg
  let input := d.metrics
  checkpoint (cancelled .cleaning)
  let (cleaned, cleaning) ← cleanIfEnabled o.cleaning svg.utf8ByteSize d
  checkpoint (cancelled .generating)
  let output := cleaned.metrics
  let artifact ← generate o.generation cleaned
  checkpoint (cancelled .done)
  Traced.note [.converted svg.utf8ByteSize input.elements output.elements artifact.component.utf8ByteSize]
  return ⟨artifact, input, output, cleaning⟩

/-- Converts an image, unless that was cancelled before it began. -/
def run (svg : String) (o : Options) (cancelled : Bool) : Traced Conversion := runUnless (fun _ => cancelled) svg o

/-! ## Under limits -/

/-- Refuses a text that is too large, and any while too much memory is in use. -/
def checkLimits (l : Limits) (used : Option Nat) (svg : String) : Traced Unit :=
  if l.maxDocumentSize < svg.utf8ByteSize then .fail (.tooLarge svg.utf8ByteSize l.maxDocumentSize)
  else
    match used with
    | none => .pure ()
    | some used =>
      if l.memoryCeilingBytes < used then ⟨[.memory used l.memoryCeilingBytes], .error (.outOfMemory used)⟩
      else .pure ()

/-- A conversion handed to a worker. -/
structure Task where
  svg : String
  options : Options
  cancelled : Bool

namespace Task

/-- Asks the worker to stop. What it is doing it finishes, and it looks at the next point. -/
def cancel (t : Task) : Task := { t with cancelled := true }

/-- The worker's result, if it had passed so many points when it was asked to stop. -/
def waitAfter (t : Task) (passed : Nat) : Traced Conversion :=
  runUnless (fun c => t.cancelled && decide (passed ≤ c.place)) t.svg t.options

/-- The worker's result, when it was or was not asked to stop before it began. -/
def wait (t : Task) : Traced Conversion := t.waitAfter 0

end Task

/-- Hands a conversion to a worker, within the limits; `used` is the memory in use, if it is known. -/
def spawn (l : Limits) (used : Option Nat) (svg : String) (o : Options) : Traced Task := do
  checkLimits l used svg
  return ⟨svg, o, false⟩

/-- Converts an image within the limits, by a worker if it is large. -/
def convert (l : Limits) (used : Option Nat) (svg : String) (o : Options) : Traced Conversion :=
  if l.offloads svg.utf8ByteSize then do
    Traced.note [.offloading svg.utf8ByteSize l.threshold]
    let task ← spawn l used svg o
    task.wait
  else do
    checkLimits l used svg
    run svg o false

end SvgComponent.Convert
