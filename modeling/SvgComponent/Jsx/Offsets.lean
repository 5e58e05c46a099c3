/-
  SvgComponent.Jsx.Offsets — markup laid out as in `Layout`, by positions in its bytes.

  A token begins at one position and ends at another, and what ends it is found byte by byte; inside quotes of an
  expression a backslash skips the next byte, which may be one of several of a character. The answer is `none` where
  a brace closes an expression that has none open, where a token does not end behind its begin, and where one begins
  or ends inside a character.
-/

import SvgComponent.Jsx.Layout
import SvgComponent.Text.Offsets

namespace SvgComponent.Jsx.Offsets

open Text (byteAt? slice? lt_of_byteAt?)

def isQuote (b : UInt8) : Bool := b == '\"'.toUInt8 || b == '\''.toUInt8 || b == '\x60'.toUInt8

/-- The end of a tag that goes on at `pos`; `braces` are open, or a quote is. -/
def scanTag (s : String) (quote : Option UInt8) (braces pos : Nat) : Nat :=
  match _h : byteAt? s pos with
  | none => s.utf8ByteSize
  | some b =>
    match quote with
    | some q => scanTag s (if b = q then none else some q) braces (pos + 1)
    | none =>
      if isQuote b then scanTag s (some b) braces (pos + 1)
      else if b = '\x7b'.toUInt8 then scanTag s none (braces + 1) (pos + 1)
      else if b = '\x7d'.toUInt8 then scanTag s none (braces - 1) (pos + 1)
      else if b = '>'.toUInt8 ∧ braces = 0 then pos + 1
      else scanTag s none braces (pos + 1)
termination_by s.utf8ByteSize - pos
decreasing_by all_goals have := lt_of_byteAt? _h; omega

/-- The end of an expression that goes on at `pos`; `depth` braces are open, or a quote is. -/
def scanExpression? (s : String) (quote : Option UInt8) (depth pos : Nat) : Option Nat :=
  match _h : byteAt? s pos with
  | none => some s.utf8ByteSize
  | some b =>
    match quote with
    | some q =>
      if b = '\\'.toUInt8 then scanExpression? s (some q) depth (pos + 2)
      else scanExpression? s (if b = q then none else some q) depth (pos + 1)
    | none =>
      if isQuote b then scanExpression? s (some b) depth (pos + 1)
      else if b = '\x7b'.toUInt8 then scanExpression? s none (depth + 1) (pos + 1)
      else if b = '\x7d'.toUInt8 then
        if depth = 0 then none
        else if depth - 1 = 0 then some (pos + 1)
        else scanExpression? s none (depth - 1) (pos + 1)
      else scanExpression? s none depth (pos + 1)
termination_by s.utf8ByteSize - pos
decreasing_by all_goals have := lt_of_byteAt? _h; omega

/-- The next tag or expression from `pos` on. -/
def textEnd (s : String) (pos : Nat) : Nat :=
  match _h : byteAt? s pos with
  | none => s.utf8ByteSize
  | some b => if b = '<'.toUInt8 ∨ b = '\x7b'.toUInt8 then pos else textEnd s (pos + 1)
termination_by s.utf8ByteSize - pos
decreasing_by have := lt_of_byteAt? _h; omega

/-- The end of the token that begins at `pos` with the byte `b`. -/
def tokenEnd? (s : String) (b : UInt8) (pos : Nat) : Option Nat :=
  if b = '<'.toUInt8 then some (scanTag s none 0 (pos + 1))
  else if b = '\x7b'.toUInt8 then scanExpression? s none 0 pos
  else some (textEnd s pos)

def tokensFrom? (s : String) (pos : Nat) : Option (List Token) :=
  match _h : byteAt? s pos with
  | none => some []
  | some b =>
    match tokenEnd? s b pos with
    | none => none
    | some stop =>
      if pos < stop then do
        let token ← (slice? s pos stop).map Text.trim
        let more ← tokensFrom? s stop
        return if token.isEmpty then more else ⟨Layout.kindOf token, token⟩ :: more
      else none
termination_by s.utf8ByteSize - pos
decreasing_by have := lt_of_byteAt? _h; omega

def format? (s : String) : Option (List Char) :=
  (tokensFrom? s 0).map fun ts => ['\n'].intercalate (Layout.linesFrom 0 ts)

end SvgComponent.Jsx.Offsets
