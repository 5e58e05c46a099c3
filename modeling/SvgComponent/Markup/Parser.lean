/-
  SvgComponent.Markup.Parser — the document that a text's events build.

  Inside the root text is kept as it is, blanks too; around it declarations, instructions and comments are
  dropped, and nothing else may stand there but blank text. The root is an `svg` without a namespace that has
  a `viewBox`, or a `width` and a `height`.
-/

import SvgComponent.Markup.Tree
import SvgComponent.Markup.TagAttributes

namespace SvgComponent.Markup

/-- A document as far as it is built, with its open elements, innermost first. -/
structure Builder where
  document : Option Document
  opened : List Nat

namespace Builder

def start : Builder := ⟨none, []⟩

/-- The document and the element that a new node goes into. -/
def place? (b : Builder) : Option (Document × Nat) :=
  match b.document, b.opened with
  | some d, i :: _ => some (d, i)
  | _, _ => none

/-- Appends to the innermost open element. -/
def insert? (b : Builder) (c : Content) : Option Builder :=
  b.place?.map fun (d, i) => { b with document := some (d.append i c) }

/-- A new element, and its number: the root, or a child of the innermost open element. -/
def place (b : Builder) (e : Element) : Except Fault (Document × Nat) :=
  match b.document, b.opened with
  | none, _ => .ok (.single (.element e), 0)
  | some d, i :: _ => .ok (d.append i (.element e), d.size)
  | some _, [] => .error (.secondRoot e.name.full)

def step (b : Builder) : Event → Except Fault Builder
  | .text raw => do
    let s ← (Reference.expand raw).mapError Fault.reference
    match b.insert? (.text (String.ofList s)) with
    | some b => .ok b
    | none => if s.all Text.isBlank then .ok b else .error .looseText
  | .start content => do
    let e ← TagAttributes.element content
    let (d, i) ← b.place e
    .ok ⟨some d, i :: b.opened⟩
  | .empty content => do
    let e ← TagAttributes.element content
    let (d, _) ← b.place e
    .ok { b with document := some d }
  | .finish _ => .ok { b with opened := b.opened.tail }
  | .comment s => .ok ((b.insert? (.comment (String.ofList s))).getD b)
  | .cdata s =>
    match b.insert? (.cdata (String.ofList s)) with
    | some b => .ok b
    | none => .error .looseCdata
  | .skipped => .ok b

/-- What is built when the text ends. -/
def finish (b : Builder) : Except Fault Document :=
  match b.place? with
  | some (d, i) => .error (.neverClosed (((d.element? i).map (·.name.full)).getD ""))
  | none =>
    match b.document with
    | some d => .ok d
    | none => .error .noRoot

end Builder

/-- The tree that the events up to the first fault build. -/
def Stream.document (s : Stream) : Except Fault Document := do
  let b ← s.events.foldlM Builder.step Builder.start
  match s.fault with
  | some f => .error (.markup f)
  | none => b.finish

/-- Whether the size of the image is given. -/
def Element.isSized (e : Element) : Bool := e.has "viewBox" || (e.has "width" && e.has "height")

namespace Document

/-- The document if its root is one of an image. -/
def validate (d : Document) : Except Fault Document :=
  match d.rootElement? with
  | none => .error .noRoot
  | some e =>
    if !e.is "svg" then .error (.foreignRoot e.name.full)
    else if !e.isSized then .error .unsized
    else .ok d

def parse (s : String) : Except Fault Document := (Stream.ofText s.toList).document >>= validate

end Document

end SvgComponent.Markup
