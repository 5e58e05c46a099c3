/-
  SvgComponent.Main — the program: it gathers what a run looks at, and prints and writes what the run answers.
-/

import SvgComponent.Cli.Run

namespace SvgComponent

open Cli

/-- The text of a file, if it can be read. -/
def readFile? (path : String) : IO (Option String) := do
  try
    return some (← IO.FS.readFile path)
  catch _ => return none

/-- The resident memory in bytes, of pages of 4 KiB. -/
def usedMemory? : IO (Option Nat) := do
  let some statm ← readFile? "/proc/self/statm" | return none
  match Text.words statm.toList with
  | _ :: resident :: _ => return if Text.isNumeral resident then some (Text.digitsValue resident * 4096) else none
  | _ => return none

/-- The files that a run may read: its input and its configuration. -/
def gatherFiles (environment : String → Option String) (args : List String) : IO (List (String × String)) := do
  let some r := Request.parse? environment args | return []
  let paths := (if r.input = "-" then [] else [r.input]) ++ r.config.toList
  let texts ← paths.mapM fun path => do return (← readFile? path).map (path, ·)
  return texts.filterMap id

def environmentVariables : List String := ["SVGJSX_MAX_FILE_SIZE", "SVGJSX_CHUNK_SIZE", "SVGJSX_WORKER"]

/-- Prints the journal: all of it if asked for, and warnings otherwise. -/
def printJournal (verbose : Bool) (entries : List Convert.Entry) : IO Unit :=
  for e in entries do
    if verbose || e.level = .warn then IO.eprintln e.line

/-- Does what a run answers, and gives the exit code. -/
def perform (verbose : Bool) (result : Result) : IO UInt32 := do
  printJournal verbose result.entries
  match result.outcome with
  | .usage =>
    IO.eprintln "error: the arguments cannot be understood"
    return 2
  | .failed f =>
    IO.eprintln ("error: " ++ f.message)
    return 1
  | .done o =>
    IO.print o.stdout
    for (path, text) in o.files do
      IO.FS.writeFile path text
    if o.discardsStyles then
      IO.eprintln "WARN Styles were extracted but --css-output was not given; the CSS module is discarded"
    for line in o.stderr do
      IO.eprintln line
    return 0

end SvgComponent

def main (args : List String) : IO UInt32 := do
  let values ← SvgComponent.environmentVariables.mapM fun v => do return (v, ← IO.getEnv v)
  let environment := fun v => (values.lookup v).join
  let request := SvgComponent.Cli.Request.parse? environment args
  let stdin ← if request.any (·.input == "-") then (← IO.getStdin).readToEnd else pure ""
  let files ← SvgComponent.gatherFiles environment args
  let used ← SvgComponent.usedMemory?
  let result := SvgComponent.Cli.run ⟨environment, stdin, fun path => files.lookup path, used⟩ args
  let quiet := (← IO.getEnv "RUST_LOG") == some "off"
  try
    SvgComponent.perform (!quiet && request.any (·.has .verbose)) result
  catch e =>
    IO.eprintln ("error: " ++ toString e)
    return 1
