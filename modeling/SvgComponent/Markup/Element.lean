/-
  SvgComponent.Markup.Element — elements with their attributes in the order they were first set.

  An attribute is looked up by its full name. Setting one that is there keeps its place; a new one goes last.
-/

import SvgComponent.Markup.Name

namespace SvgComponent.Markup

structure Attribute where
  name : Name
  value : String
  deriving DecidableEq

structure Element where
  name : Name
  attributes : List Attribute
  deriving DecidableEq

/-- Gives the first attribute with the full name the value, or adds one at the end. -/
def Attribute.assign (full value : String) : List Attribute → List Attribute
  | [] => [⟨Name.parse full, value⟩]
  | a :: rest => if a.name.full = full then { a with value } :: rest else a :: assign full value rest

namespace Element

/-- An element without attributes. -/
def named (full : String) : Element := ⟨Name.parse full, []⟩

def is (e : Element) (s : String) : Bool := e.name.is s

def get? (e : Element) (full : String) : Option String :=
  (e.attributes.find? (·.name.full == full)).map (·.value)

def has (e : Element) (full : String) : Bool := (e.get? full).isSome

def set (e : Element) (full value : String) : Element :=
  { e with attributes := Attribute.assign full value e.attributes }

def remove (e : Element) (full : String) : Element :=
  { e with attributes := e.attributes.filter (·.name.full != full) }

/-- Replaces the values for which `f` has another, and counts them. -/
def replaceValues (f : Attribute → Option String) (e : Element) : Element × Nat :=
  ({ e with attributes := e.attributes.map fun a => (f a).elim a fun v => { a with value := v } },
    e.attributes.countP fun a => (f a).isSome)

end Element

/-- What a node of a document holds. -/
inductive Content where
  | element (e : Element)
  | text (s : String)
  | comment (s : String)
  | cdata (s : String)
  deriving DecidableEq

namespace Content

def element? : Content → Option Element
  | element e => some e
  | _ => none

def isElement (c : Content) : Bool := c.element?.isSome

/-- The character data of text and CDATA. -/
def characters : Content → String
  | text s => s
  | cdata s => s
  | _ => ""

end Content

end SvgComponent.Markup
