/-
  SvgComponent.Json.Printer — JSON values to text: on one line, or one item a line with two blanks a level.
-/

import SvgComponent.Json.Value
import SvgComponent.Text.Quoted

namespace SvgComponent.Json

/-- The text of a value without parts. What is no value has no text of its own and is written as null. -/
def scalarText : Json → List Char
  | null | illFormed => "null".toList
  | bool b => (if b then "true" else "false").toList
  | number literal => literal.toList
  | string s => Text.quote s.toList
  | array _ => ['[', ']']
  | object _ => ['{', '}']

mutual

def compact : Json → List Char
  | array (v :: vs) => '[' :: compact v ++ compactItems vs
  | object ((k, v) :: fs) => '{' :: Text.quote k.toList ++ ':' :: compact v ++ compactFields fs
  | v => v.scalarText

def compactItems : List Json → List Char
  | [] => [']']
  | v :: vs => ',' :: compact v ++ compactItems vs

def compactFields : List (String × Json) → List Char
  | [] => ['}']
  | (k, v) :: fs => ',' :: Text.quote k.toList ++ ':' :: compact v ++ compactFields fs

end

/-- A new line at a level. -/
def newline (level : Nat) : List Char := '\n' :: List.replicate (2 * level) ' '

mutual

/-- The lines of a value that starts at a level. -/
def pretty (level : Nat) : Json → List Char
  | array (v :: vs) => '[' :: newline (level + 1) ++ pretty (level + 1) v ++ prettyItems level vs
  | object ((k, v) :: fs) =>
    '{' :: newline (level + 1) ++ Text.quote k.toList ++ ':' :: ' ' :: pretty (level + 1) v ++ prettyFields level fs
  | v => v.scalarText

def prettyItems (level : Nat) : List Json → List Char
  | [] => newline level ++ [']']
  | v :: vs => ',' :: newline (level + 1) ++ pretty (level + 1) v ++ prettyItems level vs

def prettyFields (level : Nat) : List (String × Json) → List Char
  | [] => newline level ++ ['}']
  | (k, v) :: fs =>
    ',' :: newline (level + 1) ++ Text.quote k.toList ++ ':' :: ' ' :: pretty (level + 1) v ++ prettyFields level fs

end

end SvgComponent.Json
