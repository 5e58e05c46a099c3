/-
  SvgComponent.Cli.Argument — the arguments of the command line, sorted into options, their values and inputs.

  A long option takes its value after an equals sign or as the next argument; a short one also right behind its
  letter, and short options may share one dash. The next argument is no value if it begins with a dash, unless
  it is the dash alone. After a double dash all arguments are inputs.
-/

import SvgComponent.Text.Cut

namespace SvgComponent.Cli

/-- The options that take a value. -/
inductive Setting where
  | output
  | cssOutput
  | config
  | name
  | precision
  | maxFileSize
  | chunkSize
  | worker
  deriving DecidableEq

inductive Flag where
  | noRemoveDuplicates
  | noCleanupDefinitions
  | noOptimizePrecision
  | noSimplifyPaths
  | noOptimizeColors
  | noNormalizeWhitespace
  | noRemoveUnusedStyles
  | mergePaths
  | noTypescript
  | noMemo
  | keepIds
  | keepComments
  | noFormat
  | noExtractCss
  | noPreOptimize
  | looseQuotes
  | stats
  | jsonReport
  | verbose
  deriving DecidableEq

/-- An option by its name on the command line. -/
inductive Switch where
  | setting (s : Setting)
  | flag (f : Flag)
  deriving DecidableEq

def longNames : List (String × Switch) :=
  [("output", .setting .output), ("css-output", .setting .cssOutput), ("config", .setting .config),
    ("name", .setting .name), ("precision", .setting .precision), ("max-file-size", .setting .maxFileSize),
    ("chunk-size", .setting .chunkSize), ("worker", .setting .worker),
    ("no-remove-duplicates", .flag .noRemoveDuplicates), ("no-cleanup-definitions", .flag .noCleanupDefinitions),
    ("no-optimize-precision", .flag .noOptimizePrecision), ("no-simplify-paths", .flag .noSimplifyPaths),
    ("no-optimize-colors", .flag .noOptimizeColors), ("no-normalize-whitespace", .flag .noNormalizeWhitespace),
    ("no-remove-unused-styles", .flag .noRemoveUnusedStyles), ("merge-paths", .flag .mergePaths),
    ("no-typescript", .flag .noTypescript), ("no-memo", .flag .noMemo), ("keep-ids", .flag .keepIds),
    ("keep-comments", .flag .keepComments), ("no-format", .flag .noFormat),
    ("no-extract-css", .flag .noExtractCss), ("no-pre-optimize", .flag .noPreOptimize),
    ("loose-quotes", .flag .looseQuotes), ("stats", .flag .stats), ("json-report", .flag .jsonReport),
    ("verbose", .flag .verbose)]

def shortNames : List (Char × Switch) :=
  [('o', .setting .output), ('n', .setting .name), ('p', .setting .precision), ('s', .flag .stats),
    ('v', .flag .verbose)]

/-- One thing that the command line says. -/
inductive Item where
  | flag (f : Flag)
  | setting (s : Setting) (value : String)
  | input (path : String)
  deriving DecidableEq

/-- Items, and the option that still waits for its value. -/
structure Reading where
  items : List Item
  pending : Option Setting

/-- A long option without its dashes. -/
def readLong (body : List Char) : Option Reading :=
  match Text.cutAt '=' body with
  | some (name, value) =>
    match longNames.lookup (String.ofList name) with
    | some (.setting s) => some ⟨[.setting s (String.ofList value)], none⟩
    | _ => none
  | none =>
    match longNames.lookup (String.ofList body) with
    | some (.setting s) => some ⟨[], some s⟩
    | some (.flag f) => some ⟨[.flag f], none⟩
    | none => none

/-- Short options behind one dash. -/
def readShort : List Char → Option Reading
  | [] => some ⟨[], none⟩
  | c :: rest =>
    match shortNames.lookup c with
    | none => none
    | some (.flag f) => (readShort rest).map fun r => { r with items := .flag f :: r.items }
    | some (.setting s) =>
      match rest with
      | [] => some ⟨[], some s⟩
      | '=' :: value => some ⟨[.setting s (String.ofList value)], none⟩
      | value => some ⟨[.setting s (String.ofList value)], none⟩

def readArgument (arg : String) : Option Reading :=
  match arg.toList with
  | '-' :: '-' :: body => readLong body
  | '-' :: c :: rest => readShort (c :: rest)
  | _ => some ⟨[.input arg], none⟩

/-- Whether an argument may be the value of the option before it. -/
def isValue (arg : String) : Bool := arg == "-" || arg.toList.head? != some '-'

/-- The items of the arguments; `pending` is the option that waits for its value. -/
def readFrom (pending : Option Setting) : List String → Option (List Item)
  | [] => if pending.isSome then none else some []
  | arg :: args =>
    match pending with
    | some s => if isValue arg then (readFrom none args).map (.setting s arg :: ·) else none
    | none =>
      if arg = "--" then some (args.map .input)
      else
        match readArgument arg with
        | none => none
        | some r => (readFrom r.pending args).map (r.items ++ ·)

def readArguments (args : List String) : Option (List Item) := readFrom none args

end SvgComponent.Cli
