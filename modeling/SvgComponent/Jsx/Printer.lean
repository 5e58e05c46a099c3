/-
  SvgComponent.Jsx.Printer — markup printed as tokens, which joined are its text.

  With a stylesheet, classes are looked up in the imported `styles`. Classes that are all literal make a plain
  attribute; one reference alone is the expression itself; all else is a template literal with single blanks
  between the classes.
-/

import SvgComponent.Jsx.Literal
import SvgComponent.Jsx.Spelling
import SvgComponent.Jsx.Token
import SvgComponent.Jsx.Tree

namespace SvgComponent.Jsx

open SvgComponent.Style

structure Printer where
  /-- Classes are looked up in the stylesheet. -/
  modules : Bool
  /-- Attribute strings stand in double quotes only. -/
  onlyDouble : Bool
  deriving DecidableEq

/-- `inside` in braces. -/
def braced (inside : List Char) : List Char := '\x7b' :: inside ++ ['\x7d']

def isWordStart (c : Char) : Bool := c.isAlpha || c == '_' || c == '$'

def isIdentifier (s : List Char) : Bool :=
  (s.head?.any isWordStart) && s.all fun c => c.isAlphanum || c == '_' || c == '$'

/-- The name that the stylesheet is imported by. -/
def stylesName : List Char := ['s', 't', 'y', 'l', 'e', 's']

/-- The member of the imported styles for a class. -/
def styleReference (name : List Char) : List Char :=
  if isIdentifier name then stylesName ++ '.' :: name else stylesName ++ '[' :: Text.quote name ++ [']']

/-- A part of the value of `className`. -/
inductive ClassPart where
  | text (s : List Char)
  | expression (code : List Char)
  deriving DecidableEq

namespace ClassPart

def isText : ClassPart → Bool
  | text _ => true
  | expression _ => false

/-- Inside a template literal. -/
def template : ClassPart → List Char
  | text s => s
  | expression code => '$' :: braced code

/-- By itself. -/
def plain : ClassPart → List Char
  | text s => s
  | expression code => code

end ClassPart

def ClassToken.part (modules : Bool) : ClassToken → ClassPart
  | .literal name => if modules then .expression (styleReference name) else .text name
  | .extracted k => .expression (styleReference (extractedClass k))

namespace Printer

/-- The name of the class attribute, and of the class that the caller gives. -/
def className : List Char := ['c', 'l', 'a', 's', 's', 'N', 'a', 'm', 'e']

/-- The class attribute as far as its value. -/
def classBinding : List Char := ' ' :: className ++ ['=']

/-- The caller's class, or nothing. -/
def forwarded : ClassPart := .expression (className ++ [' ', '|', '|', ' ', '\"', '\"'])

/-- The color that SVG inherits. -/
def inheritedColor : List Char := ['c', 'u', 'r', 'r', 'e', 'n', 't', 'C', 'o', 'l', 'o', 'r']

/-- The caller's color, or the inherited one. -/
def forwardedColor : List Char :=
  ['c', 'o', 'l', 'o', 'r', ' ', '|', '|', ' '] ++ Text.quote inheritedColor

/-- The `className` attribute; without classes only the root has one. -/
def classes (p : Printer) (tokens : List ClassToken) (root : Bool) : List Char :=
  let parts := tokens.map (ClassToken.part p.modules)
  if parts.isEmpty then if root then classBinding ++ braced className else []
  else if root then
    classBinding ++ braced ('\x60' :: [' '].intercalate ((parts ++ [forwarded]).map ClassPart.template) ++ ['\x60'])
  else if parts.all ClassPart.isText then
    classBinding ++ attributeString p.onlyDouble ([' '].intercalate (parts.map ClassPart.plain))
  else
    match parts with
    | [part] => classBinding ++ braced part.plain
    | parts => classBinding ++ braced ('\x60' :: [' '].intercalate (parts.map ClassPart.template) ++ ['\x60'])

def styleField (d : Declaration) : List Char :=
  let (key, quoted) := propertyKey d.property
  (if quoted then Text.quote key else key) ++ ':' :: ' ' :: Text.quote d.value

/-- The object of an inlined style. -/
def styleObject (ds : List Declaration) : List Char :=
  braced (' ' :: [',', ' '].intercalate (ds.map styleField) ++ [' '])

def attr (p : Printer) : Attribute → List Char
  | .literal name value => ' ' :: name ++ '=' :: attributeString p.onlyDouble value
  | .size name => ' ' :: name ++ '=' :: braced ['s', 'i', 'z', 'e']
  | .color name => ' ' :: name ++ '=' :: braced forwardedColor
  | .style ds => [' ', 's', 't', 'y', 'l', 'e', '='] ++ braced (styleObject ds)
  | .classes tokens root => p.classes tokens root
  | .spread => ' ' :: braced ['.', '.', '.', 'p', 'r', 'o', 'p', 's']

/-- A tag as far as its last attribute. -/
def opening (p : Printer) (name : List Char) (attributes : List Attribute) : List Char :=
  '<' :: name ++ attributes.flatMap p.attr

mutual

/-- The tokens of a node, each with all of its text. -/
def tokens (p : Printer) : Node → List Token
  | .element name attributes children =>
    if children.isEmpty then [⟨.selfClosing, p.opening name attributes ++ [' ', '/', '>']⟩]
    else
      ⟨.opening, p.opening name attributes ++ ['>']⟩ :: tokensOf p children ++
        [⟨.closing, '<' :: '/' :: name ++ ['>']⟩]
  | .text s => [⟨.other, textLiteral s⟩]
  | .comment s => [⟨.other, commentExpression s⟩]
  | .css s => [⟨.other, templateExpression s⟩]

def tokensOf (p : Printer) : List Node → List Token
  | [] => []
  | n :: ns => tokens p n ++ tokensOf p ns

end

def print (p : Printer) (n : Node) : List Char := (p.tokens n).flatMap (·.text)

end Printer

end SvgComponent.Jsx
