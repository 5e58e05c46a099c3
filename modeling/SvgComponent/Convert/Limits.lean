/-
  SvgComponent.Convert.Limits — how large an image may be, how much memory may be in use, and from which size on
  an image is converted by a worker.
-/

import SvgComponent.Json.Record

namespace SvgComponent.Convert

structure Limits where
  /-- The most bytes an image may have. -/
  maxDocumentSize : Nat
  /-- Kept for streamed input; nothing depends on it. -/
  chunkSize : Nat
  /-- The share of the largest size above which a worker converts. -/
  offloadRatio : Float
  enableWorker : Bool
  memoryCeilingBytes : Nat

namespace Limits

def standard : Limits := ⟨10 * 1024 * 1024, 100 * 1024, 0.1, true, 500 * 1024 * 1024⟩

/-- The share in bytes, cut to a whole number of 64 bits. -/
def threshold (l : Limits) : Nat := (l.maxDocumentSize.toUInt64.toFloat * l.offloadRatio).toUInt64.toNat

/-- Whether a worker converts an image of so many bytes. -/
def offloads (l : Limits) (bytes : Nat) : Bool := l.enableWorker && l.threshold < bytes

def keys : List String := ["maxDocumentSize", "chunkSize", "offloadRatio", "enableWorker", "memoryCeilingBytes"]

def ofJson? (j : Json) : Option Limits := do
  let r ← j.record? keys
  let size := Json.natUpTo? Json.maxSize
  return {
    maxDocumentSize := ← Json.readField "maxDocumentSize" standard.maxDocumentSize size r
    chunkSize := ← Json.readField "chunkSize" standard.chunkSize size r
    offloadRatio := ← Json.readField "offloadRatio" standard.offloadRatio Json.float? r
    enableWorker := ← Json.readField "enableWorker" standard.enableWorker Json.bool? r
    memoryCeilingBytes := ← Json.readField "memoryCeilingBytes" standard.memoryCeilingBytes size r }

end Limits

end SvgComponent.Convert
