/-
  SvgComponent.Cli.Run — one run of the program as a function of what it is given.

  The answer says what to print and which files to write, in order; doing so is left to the caller. Nothing is
  printed or written unless the conversion succeeds.
-/

import SvgComponent.Cli.Report
import SvgComponent.Cli.Request
import SvgComponent.Json.Parser

namespace SvgComponent.Cli

/-- What a run can look at. -/
structure Surroundings where
  environment : String → Option String
  stdin : String
  /-- The text of a file, if it can be read. -/
  file : String → Option String
  /-- The memory in use, if it is known. -/
  usedMemory : Option Nat

inductive Failure where
  | unreadable (path : String)
  | badConfig (path : String)
  | conversion (e : Convert.Error)

def Failure.message : Failure → String
  | unreadable path => "cannot read " ++ path
  | badConfig path => "no valid options in " ++ path
  | conversion e => e.message

/-- What a successful run prints and writes. -/
structure Output where
  stdout : String
  /-- Paths with their new contents, in the order they are written. -/
  files : List (String × String)
  stderr : List String
  /-- The stylesheet goes nowhere. -/
  discardsStyles : Bool

inductive Outcome where
  | usage
  | failed (f : Failure)
  | done (o : Output)

/-- A run with the entries of its conversion. -/
structure Result where
  entries : List Convert.Entry
  outcome : Outcome

def readInput (s : Surroundings) (r : Request) : Except Failure String :=
  if r.input = "-" then .ok s.stdin
  else
    match s.file r.input with
    | some text => .ok text
    | none => .error (.unreadable r.input)

/-- The options in the configuration file, or the standard ones without such a file. -/
def readConfig (s : Surroundings) (r : Request) : Except Failure Convert.Options :=
  match r.config with
  | none => .ok .standard
  | some path =>
    match s.file path with
    | none => .error (.unreadable path)
    | some text =>
      match (Json.parse? text).bind Convert.Options.ofJson? with
      | some o => .ok o
      | none => .error (.badConfig path)

/-- What a conversion of an image of `bytes` bytes gives out. -/
def output (r : Request) (bytes : Nat) (c : Convert.Conversion) : Output where
  stdout := if r.output = "-" then c.artifact.component else ""
  files :=
    (if r.output = "-" then [] else [(r.output, c.artifact.component)]) ++
      (match r.cssOutput, c.artifact.stylesheet with
        | some path, some css => [(path, css)]
        | _, _ => [])
  stderr :=
    (if r.has .stats then statistics bytes c else []) ++
      (if r.has .jsonReport then [String.ofList ((report c).pretty 0)] else [])
  discardsStyles := r.cssOutput.isNone && c.artifact.stylesheet.isSome

def run (s : Surroundings) (args : List String) : Result :=
  match Request.parse? s.environment args with
  | none => ⟨[], .usage⟩
  | some r =>
    match readInput s r with
    | .error f => ⟨[], .failed f⟩
    | .ok svg =>
      match readConfig s r with
      | .error f => ⟨[], .failed f⟩
      | .ok base =>
        let t := Convert.convert r.limits s.usedMemory svg (r.options base)
        match t.result with
        | .error e => ⟨t.entries, .failed (.conversion e)⟩
        | .ok c => ⟨t.entries, .done (output r svg.utf8ByteSize c)⟩

end SvgComponent.Cli
