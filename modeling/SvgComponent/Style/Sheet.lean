/-
  SvgComponent.Style.Sheet — the stylesheet that goes with a component.

  It collects the text of style elements and, for each styled element, a rule with a class of its own. Rules are
  numbered in the order they are added, and the number makes the name of the class.
-/

import SvgComponent.Style.Declaration
import SvgComponent.Text.Digits

namespace SvgComponent.Style

structure Sheet where
  blocks : List (List Char)
  rules : List (List Declaration)
  deriving DecidableEq

/-- The class of the rule with this number. -/
def extractedClass (k : Nat) : List Char :=
  ['s', 'v', 'g', '_', 'e', 'l', 'e', 'm', 'e', 'n', 't', '_'] ++ Text.natDigits k

def Declaration.line (d : Declaration) : List Char :=
  ' ' :: ' ' :: d.property ++ ':' :: ' ' :: d.value ++ [';', '\n']

def ruleText (k : Nat) (ds : List Declaration) : List Char :=
  '.' :: extractedClass k ++ [' ', '\x7b', '\n'] ++ ds.flatMap Declaration.line ++ ['\x7d', '\n']

namespace Sheet

def empty : Sheet := ⟨[], []⟩

def addBlock (s : Sheet) (css : List Char) : Sheet := { s with blocks := s.blocks ++ [css] }

def addRule (s : Sheet) (ds : List Declaration) : Sheet := { s with rules := s.rules ++ [ds] }

def blocksText (s : Sheet) : List Char := s.blocks.flatMap (· ++ ['\n'])

def rulesText (s : Sheet) : List Char := s.rules.zipIdx.flatMap fun (ds, k) => ruleText k ds

def heading : List Char := "/* Extracted inline styles */\n".toList

def text (s : Sheet) : List Char :=
  if s.rules.isEmpty then s.blocksText
  else s.blocksText ++ (if s.blocksText.isEmpty then [] else ['\n']) ++ heading ++ s.rulesText

/-- The sheet as text; an empty one is none. -/
def toText? (s : Sheet) : Option String := if s.text.isEmpty then none else some (String.ofList s.text)

end Sheet

end SvgComponent.Style
