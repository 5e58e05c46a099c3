/-
  SvgComponent.Convert.Journal — what a conversion notes while it runs, and why it fails.

  A `Traced` result comes with the entries made on the way to it; entries made before a failure stay.
-/

import SvgComponent.Clean.Pass
import SvgComponent.Markup.Fault

namespace SvgComponent.Convert

/-- Why a conversion fails. -/
inductive Error where
  | document (f : Markup.Fault)
  | tooLarge (bytes limit : Nat)
  | outOfMemory (used : Nat)
  | notSvg
  | cancelled
  deriving DecidableEq

inductive ErrorKind where
  | parse
  | structural
  | resourceLimit
  | generation
  | cancelled
  deriving DecidableEq

namespace Error

def kind : Error → ErrorKind
  | document f => if f.isStructural then .structural else .parse
  | tooLarge _ _ => .resourceLimit
  | outOfMemory _ => .resourceLimit
  | notSvg => .generation
  | cancelled => .cancelled

def message : Error → String
  | document f => f.message
  | tooLarge bytes limit => s!"Input too large: Document is {bytes} bytes, the limit is {limit} bytes"
  | outOfMemory used => s!"Input too large: Memory limit reached ({used} bytes in use)"
  | notSvg => "Code generation failed: Document root is not an <svg> element"
  | cancelled => "Conversion cancelled"

end Error

inductive Level where
  | debug
  | info
  | warn
  deriving DecidableEq

def Level.label : Level → String
  | debug => "DEBUG"
  | info => "INFO"
  | warn => "WARN"

inductive Entry where
  | parsed (bytes elements : Nat)
  | skippedPath (f : Path.PathFault)
  | cleaned (pass : Clean.Pass) (count : Nat)
  | tidied (count : Nat)
  | generated (name : String) (component stylesheet : Nat)
  | offloading (bytes threshold : Nat)
  | memory (used ceiling : Nat)
  | converted (bytes before after component : Nat)
  deriving DecidableEq

namespace Entry

def level : Entry → Level
  | offloading _ _ => .info
  | converted _ _ _ _ => .info
  | memory _ _ => .warn
  | _ => .debug

def message : Entry → String
  | parsed bytes elements => s!"Parsed SVG document: {bytes} bytes, {elements} elements"
  | skippedPath f => "simplify_paths: skipping path: " ++ f.message
  | cleaned pass count => pass.summary count
  | tidied count => s!"pre_optimize: removed {count} nodes and attributes"
  | generated name component stylesheet =>
    s!"Generated component {name}: {component} bytes, stylesheet {stylesheet} bytes"
  | offloading bytes threshold =>
    s!"Offloading {bytes} byte document to a worker thread (threshold {threshold} bytes)"
  | memory used ceiling => s!"Memory use {used} bytes is above the {ceiling} byte ceiling"
  | converted bytes before after component =>
    s!"Converted {bytes} byte document: {before} -> {after} elements, component {component} bytes"

def line (e : Entry) : String := e.level.label ++ " " ++ e.message

/-- The entries for a pass that was run. -/
def ofRun (r : Clean.Run) : List Entry := r.skipped.map skippedPath ++ [cleaned r.pass r.count]

end Entry

/-- A result with the entries made on the way to it. -/
structure Traced (α : Type) where
  entries : List Entry
  result : Except Error α

namespace Traced

def pure {α : Type} (a : α) : Traced α := ⟨[], .ok a⟩

def fail {α : Type} (e : Error) : Traced α := ⟨[], .error e⟩

def bind {α β : Type} (t : Traced α) (f : α → Traced β) : Traced β :=
  match t.result with
  | .ok a => ⟨t.entries ++ (f a).entries, (f a).result⟩
  | .error e => ⟨t.entries, .error e⟩

instance : Monad Traced where
  pure := Traced.pure
  bind := Traced.bind

/-- Makes entries. -/
def note (entries : List Entry) : Traced Unit := ⟨entries, .ok ()⟩

end Traced

end SvgComponent.Convert
