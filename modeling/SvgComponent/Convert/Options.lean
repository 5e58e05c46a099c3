/-
  SvgComponent.Convert.Options — the options of a conversion, and reading them from a record.
-/

import SvgComponent.Clean.Pass
import SvgComponent.Component.Generate
import SvgComponent.Json.Record

namespace SvgComponent

namespace Clean.Options

def keys : List String :=
  ["removeDuplicates", "cleanupDefinitions", "optimizePrecision", "simplifyPaths", "optimizeColors",
    "normalizeWhitespace", "removeUnusedStyles", "mergePaths", "precision"]

def ofJson? (j : Json) : Option Options := do
  let r ← j.record? keys
  let flag (key : String) (pass : Pass) := Json.readField key (standard.enables pass) Json.bool? r
  return {
    removeDuplicates := ← flag "removeDuplicates" .duplicates
    cleanupDefinitions := ← flag "cleanupDefinitions" .definitions
    optimizePrecision := ← flag "optimizePrecision" .rounding
    simplifyPaths := ← flag "simplifyPaths" .paths
    optimizeColors := ← flag "optimizeColors" .colors
    normalizeWhitespace := ← flag "normalizeWhitespace" .whitespace
    removeUnusedStyles := ← flag "removeUnusedStyles" .styles
    mergePaths := ← flag "mergePaths" .merging
    precision := ← Json.readField "precision" standard.precision (Json.natUpTo? 255) r }

end Clean.Options

namespace Component.Options

def keys : List String :=
  ["stripIdentifiers", "normalizeQuoting", "wrapInMemoization", "emitTypeAnnotations", "stripComments",
    "prettyPrint", "extractStylesheet", "preOptimize", "componentName"]

def ofJson? (j : Json) : Option Options := do
  let r ← j.record? keys
  let flag (key : String) (default : Bool) := Json.readField key default Json.bool? r
  return {
    stripIdentifiers := ← flag "stripIdentifiers" standard.stripIdentifiers
    normalizeQuoting := ← flag "normalizeQuoting" standard.normalizeQuoting
    wrapInMemoization := ← flag "wrapInMemoization" standard.wrapInMemoization
    emitTypeAnnotations := ← flag "emitTypeAnnotations" standard.emitTypeAnnotations
    stripComments := ← flag "stripComments" standard.stripComments
    prettyPrint := ← flag "prettyPrint" standard.prettyPrint
    extractStylesheet := ← flag "extractStylesheet" standard.extractStylesheet
    preOptimize := ← flag "preOptimize" standard.preOptimize
    componentName := ← Json.readField "componentName" standard.componentName Json.string? r }

end Component.Options

namespace Convert

structure Options where
  cleaning : Clean.Options
  generation : Component.Options
  deriving DecidableEq

namespace Options

def standard : Options := ⟨.standard, .standard⟩

def keys : List String := ["cleaning", "generation"]

def ofJson? (j : Json) : Option Options := do
  let r ← j.record? keys
  return {
    cleaning := ← Json.readField "cleaning" standard.cleaning Clean.Options.ofJson? r
    generation := ← Json.readField "generation" standard.generation Component.Options.ofJson? r }

end Options

end Convert

end SvgComponent
