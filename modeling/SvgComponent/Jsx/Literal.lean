/-
  SvgComponent.Jsx.Literal — the literals of printed markup: attribute strings, template literals, text and comments.

  Strings in code are quoted as JSON strings. In an attribute only the ampersand and the quote around it are
  written as character references.
-/

import SvgComponent.Text.Quoted

namespace SvgComponent.Jsx

def escapeAmpersand (c : Char) : List Char := if c = '&' then ['&', 'a', 'm', 'p', ';'] else [c]

def escapeDoubleQuoted (c : Char) : List Char := if c = '\"' then ['&', 'q', 'u', 'o', 't', ';'] else escapeAmpersand c

/-- An attribute string: in double quotes, or in single ones where these are allowed and spare a reference. -/
def attributeString (onlyDouble : Bool) (s : List Char) : List Char :=
  if !onlyDouble && s.contains '\"' && !s.contains '\'' then '\'' :: s.flatMap escapeAmpersand ++ ['\'']
  else '\"' :: s.flatMap escapeDoubleQuoted ++ ['\"']

/-- Escapes what would end a template literal or begin an expression in it. -/
def escapeTemplate : List Char → List Char
  | [] => []
  | '$' :: '\x7b' :: s => '\\' :: '$' :: '\x7b' :: escapeTemplate s
  | c :: s => if c = '\\' ∨ c = '\x60' then '\\' :: c :: escapeTemplate s else c :: escapeTemplate s

/-- An expression that is a template literal. -/
def templateExpression (s : List Char) : List Char := ['\x7b', '\x60'] ++ escapeTemplate s ++ ['\x60', '\x7d']

/-- Characters that text cannot hold as they are. -/
def isMarkup (c : Char) : Bool := c == '\x7b' || c == '\x7d' || c == '<' || c == '>' || c == '&'

/-- Text as it is, or as an expression if it holds characters of markup. -/
def textLiteral (s : List Char) : List Char := if s.any isMarkup then '\x7b' :: Text.quote s ++ ['\x7d'] else s

/-- Keeps comments from being closed early. -/
def openComment : List Char → List Char
  | [] => []
  | '*' :: '/' :: s => '*' :: ' ' :: '/' :: openComment s
  | c :: s => c :: openComment s

def commentExpression (s : List Char) : List Char :=
  ['\x7b', '/', '*', ' '] ++ openComment s ++ [' ', '*', '/', '\x7d']

end SvgComponent.Jsx
