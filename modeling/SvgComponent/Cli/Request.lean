/-
  SvgComponent.Cli.Request — what the command line and the environment ask for.

  An option may be given once. Some have a variable of the environment, which counts only if the option is not
  given; a value that cannot be read is refused wherever it comes from.
-/

import SvgComponent.Cli.Argument
import SvgComponent.Convert.Limits
import SvgComponent.Convert.Options

namespace SvgComponent.Cli

structure Request where
  /-- A dash stands for standard input. -/
  input : String
  /-- A dash stands for standard output. -/
  output : String
  cssOutput : Option String
  config : Option String
  name : Option String
  precision : Option Nat
  flags : List Flag
  maxFileSize : Nat
  chunkSize : Nat
  worker : Bool
  deriving DecidableEq

/-! ## Values -/

def path? (s : String) : Option String := if s.isEmpty then none else some s

/-- Digits after an optional plus. -/
def unsigned? (limit : Nat) (s : String) : Option Nat :=
  let digits := if s.toList.head? = some '+' then s.toList.drop 1 else s.toList
  if Text.isNumeral digits ∧ Text.digitsValue digits ≤ limit then some (Text.digitsValue digits) else none

/-- A number of places; zero may have a minus. -/
def places? (s : String) : Option Nat :=
  if s.toList.head? = some '-' then
    if Text.isNumeral (s.toList.drop 1) ∧ Text.digitsValue (s.toList.drop 1) = 0 then some 0 else none
  else unsigned? 255 s

def worker? (s : String) : Option Bool := if s = "true" then some true else if s = "false" then some false else none

/-! ## Items -/

def Setting.fallback? : Setting → Option String
  | maxFileSize => some "SVGJSX_MAX_FILE_SIZE"
  | chunkSize => some "SVGJSX_CHUNK_SIZE"
  | worker => some "SVGJSX_WORKER"
  | _ => none

def valuesOf (s : Setting) (items : List Item) : List String :=
  items.filterMap fun
    | .setting t value => if t = s then some value else none
    | _ => none

def inputsOf (items : List Item) : List String :=
  items.filterMap fun
    | .input path => some path
    | _ => none

def flagsOf (items : List Item) : List Flag :=
  items.filterMap fun
    | .flag f => some f
    | _ => none

/-- The only value of a list of at most one; more are refused. -/
def atMostOne : List String → Option (Option String)
  | [] => some none
  | [v] => some (some v)
  | _ => none

/-- Reads the value of an option, from the environment if it is not given. -/
def setting? {α : Type} (environment : String → Option String) (items : List Item) (s : Setting)
    (read : String → Option α) : Option (Option α) := do
  let given ← atMostOne (valuesOf s items)
  match given.or ((s.fallback?).bind environment) with
  | some v => (read v).map some
  | none => some none

/-- The request, unless something in it is refused. -/
def Request.parse? (environment : String → Option String) (args : List String) : Option Request := do
  let items ← readArguments args
  let input ← atMostOne (inputsOf items)
  let input ← path? (input.getD "-")
  let flags := flagsOf items
  if !flags.Nodup then none
  else
    let get {α : Type} (s : Setting) (read : String → Option α) := setting? environment items s read
    return {
      input
      output := (← get .output path?).getD "-"
      cssOutput := ← get .cssOutput path?
      config := ← get .config path?
      name := ← get .name some
      precision := ← get .precision places?
      flags
      maxFileSize := (← get .maxFileSize (unsigned? Json.maxSize)).getD Convert.Limits.standard.maxDocumentSize
      chunkSize := (← get .chunkSize (unsigned? Json.maxSize)).getD Convert.Limits.standard.chunkSize
      worker := (← get .worker worker?).getD Convert.Limits.standard.enableWorker }

namespace Request

def has (r : Request) (f : Flag) : Bool := r.flags.contains f

/-- The options of the conversion: those of the configuration, changed by what the command line asks for. -/
def options (r : Request) (base : Convert.Options) : Convert.Options :=
  let c := base.cleaning
  let g := base.generation
  { cleaning := {
      removeDuplicates := c.removeDuplicates && !r.has .noRemoveDuplicates
      cleanupDefinitions := c.cleanupDefinitions && !r.has .noCleanupDefinitions
      optimizePrecision := c.optimizePrecision && !r.has .noOptimizePrecision
      simplifyPaths := c.simplifyPaths && !r.has .noSimplifyPaths
      optimizeColors := c.optimizeColors && !r.has .noOptimizeColors
      normalizeWhitespace := c.normalizeWhitespace && !r.has .noNormalizeWhitespace
      removeUnusedStyles := c.removeUnusedStyles && !r.has .noRemoveUnusedStyles
      mergePaths := c.mergePaths || r.has .mergePaths
      precision := r.precision.getD c.precision }
    generation := {
      stripIdentifiers := g.stripIdentifiers && !r.has .keepIds
      normalizeQuoting := g.normalizeQuoting && !r.has .looseQuotes
      wrapInMemoization := g.wrapInMemoization && !r.has .noMemo
      emitTypeAnnotations := g.emitTypeAnnotations && !r.has .noTypescript
      stripComments := g.stripComments && !r.has .keepComments
      prettyPrint := g.prettyPrint && !r.has .noFormat
      extractStylesheet := g.extractStylesheet && !r.has .noExtractCss
      preOptimize := g.preOptimize && !r.has .noPreOptimize
      componentName := r.name.getD g.componentName } }

def limits (r : Request) : Convert.Limits :=
  { Convert.Limits.standard with
    maxDocumentSize := r.maxFileSize
    chunkSize := r.chunkSize
    enableWorker := r.worker }

end Request

end SvgComponent.Cli
