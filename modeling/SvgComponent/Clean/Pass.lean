/-
  SvgComponent.Clean.Pass — the cleaning passes, which of them run, and what a run amounts to.

  Passes run in the order of `Pass.all`, each on what the one before left. Four of them remove elements, the
  others change values or text.
-/

import SvgComponent.Clean.Colors
import SvgComponent.Clean.Definitions
import SvgComponent.Clean.Duplicates
import SvgComponent.Clean.Paths
import SvgComponent.Clean.Rounding
import SvgComponent.Clean.Whitespace

namespace SvgComponent.Clean

open SvgComponent.Markup

inductive Pass where
  | duplicates
  | definitions
  | rounding
  | paths
  | colors
  | whitespace
  | styles
  | merging
  deriving DecidableEq

structure Options where
  removeDuplicates : Bool
  cleanupDefinitions : Bool
  optimizePrecision : Bool
  simplifyPaths : Bool
  optimizeColors : Bool
  normalizeWhitespace : Bool
  removeUnusedStyles : Bool
  mergePaths : Bool
  precision : Nat
  deriving DecidableEq

namespace Options

/-- Merging can change how overlapping shapes fill, so it is off unless asked for. -/
def standard : Options := ⟨true, true, true, true, true, true, true, false, 2⟩

/-- No pass at all. -/
def none : Options := ⟨false, false, false, false, false, false, false, false, 2⟩

def enables (o : Options) : Pass → Bool
  | .duplicates => o.removeDuplicates
  | .definitions => o.cleanupDefinitions
  | .rounding => o.optimizePrecision
  | .paths => o.simplifyPaths
  | .colors => o.optimizeColors
  | .whitespace => o.normalizeWhitespace
  | .styles => o.removeUnusedStyles
  | .merging => o.mergePaths

/-- The most places that rounding keeps. -/
def maxPlaces : Nat := 4

def places (o : Options) : Nat := min o.precision maxPlaces

end Options

namespace Pass

/-- All passes in the order they run. -/
def all : List Pass := [duplicates, definitions, rounding, paths, colors, whitespace, styles, merging]

def apply (places : Nat) : Pass → Document → Document × Nat
  | duplicates => Document.removeDuplicates
  | definitions => Document.removeUnusedDefinitions
  | rounding => Document.roundValues places
  | paths => Document.simplifyPaths
  | colors => Document.hexColors
  | whitespace => Document.trimTexts
  | styles => Document.removeEmptyStyles
  | merging => Document.mergePaths

/-- Whether it counts removed elements. -/
def removes : Pass → Bool
  | duplicates | definitions | styles | merging => true
  | rounding | paths | colors | whitespace => false

/-- The faults it passes over. -/
def skips (d : Document) : Pass → List Path.PathFault
  | paths => d.pathFaults
  | _ => []

/-- What it did, as the report says it. -/
def description (count : Nat) : Pass → String
  | duplicates => s!"Removed {count} duplicate elements"
  | definitions => s!"Cleaned up {count} unused definitions"
  | rounding => s!"Optimized precision in {count} attributes"
  | paths => s!"Simplified {count} paths"
  | colors => s!"Optimized {count} color values"
  | whitespace => s!"Normalized whitespace in {count} text nodes"
  | styles => s!"Removed {count} unused styles"
  | merging => s!"Merged {count} compatible paths"

/-- What it did, as the journal says it. -/
def summary (count : Nat) : Pass → String
  | duplicates => s!"remove_duplicates: {count} elements"
  | definitions => s!"cleanup_definitions: {count} elements"
  | rounding => s!"optimize_precision: {count} attributes"
  | paths => s!"simplify_paths: {count} paths"
  | colors => s!"optimize_colors: {count} values"
  | whitespace => s!"normalize_whitespace: {count} text nodes"
  | styles => s!"remove_unused_styles: {count} elements"
  | merging => s!"merge_paths: {count} elements"

end Pass

def Options.anyEnabled (o : Options) : Bool := Pass.all.any o.enables

/-- A pass that was run, with its count and the faults it passed over. -/
structure Run where
  pass : Pass
  count : Nat
  skipped : List Path.PathFault
  deriving DecidableEq

/-- Runs one pass after others. -/
def Pass.runAfter (places : Nat) (s : Document × List Run) (p : Pass) : Document × List Run :=
  ((p.apply places s.1).1, s.2 ++ [⟨p, (p.apply places s.1).2, p.skips s.1⟩])

/-- Runs the enabled passes. -/
def runPasses (o : Options) (d : Document) : Document × List Run :=
  (Pass.all.filter o.enables).foldl (Pass.runAfter o.places) (d, [])

end SvgComponent.Clean
