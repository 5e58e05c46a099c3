/-
  SvgComponent.Markup.Printer — the written form of a document.

  Attributes stand in order between double quotes, an element without children is self-closing, and no more is
  escaped than has to be. Comments and CDATA are written as they are. What is written of an element is also
  its form for comparing structure.
-/

import SvgComponent.Markup.Tree

namespace SvgComponent.Markup

/-- Text between tags. -/
def escapeText (c : Char) : List Char :=
  if c = '&' then ['&', 'a', 'm', 'p', ';']
  else if c = '<' then ['&', 'l', 't', ';']
  else if c = '>' then ['&', 'g', 't', ';']
  else [c]

/-- Text between double quotes. -/
def escapeValue (c : Char) : List Char :=
  if c = '\"' then ['&', 'q', 'u', 'o', 't', ';'] else escapeText c

def Attribute.markup (a : Attribute) : List Char :=
  ' ' :: a.name.full.toList ++ ['=', '\"'] ++ a.value.toList.flatMap escapeValue ++ ['\"']

/-- The start tag as far as its last attribute. -/
def Element.opening (e : Element) : List Char :=
  '<' :: e.name.full.toList ++ e.attributes.flatMap Attribute.markup

namespace Tree

mutual

/-- The written form of a tree in front of `rest`. Children of what is no element are not written. -/
def write : Tree → List Char → List Char
  | node _ (.element e) ts, rest =>
    if ts.isEmpty then e.opening ++ '/' :: '>' :: rest
    else e.opening ++ '>' :: writeAll ts ('<' :: '/' :: e.name.full.toList ++ '>' :: rest)
  | node _ (.text s) _, rest => s.toList.flatMap escapeText ++ rest
  | node _ (.comment s) _, rest => ['<', '!', '-', '-'] ++ s.toList ++ ['-', '-', '>'] ++ rest
  | node _ (.cdata s) _, rest => ['<', '!', '[', 'C', 'D', 'A', 'T', 'A', '['] ++ s.toList ++ [']', ']', '>'] ++ rest

/-- The written forms of trees, one after the other, in front of `rest`. -/
def writeAll : List Tree → List Char → List Char
  | [], rest => rest
  | t :: ts, rest => write t (writeAll ts rest)

end

def markup (t : Tree) : List Char := t.write []

end Tree

namespace Document

def nodeMarkup (d : Document) (i : Nat) : String := String.ofList (d.tree i).markup

def markup (d : Document) : String := d.nodeMarkup 0

end Document

end SvgComponent.Markup
