/-
  SvgComponent.Jsx.Layout — markup laid out one tag, expression or run of text a line.

  Tokens are found in the text alone: a tag ends at a bracket outside quotes and braces, an expression at the
  brace that closes it outside quotes, and text at the next tag or expression. What never closes runs to the
  end. Tokens are trimmed and blank ones dropped; the depth of a line counts the open tags before it and never
  falls below zero.
-/

import SvgComponent.Jsx.Token
import SvgComponent.Text.Blank
import SvgComponent.Text.Cut

namespace SvgComponent.Jsx

namespace Layout

def isQuote (c : Char) : Bool := c == '\"' || c == '\'' || c == '\x60'

/-- Puts a character before the first part of a cut. -/
def before (c : Char) (cut : List Char × List Char) : List Char × List Char := (c :: cut.1, cut.2)

/-- A tag after its opening bracket, and the rest; `braces` are open, or a quote is. -/
def scanTag (quote : Option Char) (braces : Nat) : List Char → List Char × List Char
  | [] => ([], [])
  | c :: s =>
    match quote with
    | some q => before c (scanTag (if c = q then none else some q) braces s)
    | none =>
      if isQuote c then before c (scanTag (some c) braces s)
      else if c = '\x7b' then before c (scanTag none (braces + 1) s)
      else if c = '\x7d' then before c (scanTag none (braces - 1) s)
      else if c = '>' ∧ braces = 0 then ([c], s)
      else before c (scanTag none braces s)

/-- An expression after its opening brace, and the rest; `depth` more braces are open, or a quote is.
    Inside quotes a backslash takes the next character with it. -/
def scanExpression (quote : Option Char) (depth : Nat) : List Char → List Char × List Char
  | [] => ([], [])
  | c :: s =>
    match quote with
    | some q =>
      if c = '\\' then
        match s with
        | [] => ([c], [])
        | d :: s => before c (before d (scanExpression quote depth s))
      else before c (scanExpression (if c = q then none else some q) depth s)
    | none =>
      if isQuote c then before c (scanExpression (some c) depth s)
      else if c = '\x7b' then before c (scanExpression none (depth + 1) s)
      else if c = '\x7d' then
        match depth with
        | 0 => ([c], s)
        | depth + 1 => before c (scanExpression none depth s)
      else before c (scanExpression none depth s)

def isText (c : Char) : Bool := c != '<' && c != '\x7b'

/-- The token that starts with `c`, and the rest. -/
def scan (c : Char) (s : List Char) : List Char × List Char :=
  before c <|
    if c = '<' then scanTag none 0 s
    else if c = '\x7b' then scanExpression none 0 s
    else (s.takeWhile isText, s.dropWhile isText)

def kindOf (t : List Char) : TokenKind :=
  if ['<', '/'].isPrefixOf t then .closing
  else if ['<', '!'].isPrefixOf t || ['<', '?'].isPrefixOf t || !(['<'].isPrefixOf t) then .other
  else if ['/', '>'].isSuffixOf t then .selfClosing
  else .opening

/-! ## Every token takes something -/

theorem before_append {c : Char} {cut : List Char × List Char} {s : List Char} (h : cut.1 ++ cut.2 = s) :
    (before c cut).1 ++ (before c cut).2 = c :: s := by
  simp [before, h]

theorem scanTag_append (q : Option Char) (n : Nat) (s : List Char) :
    (scanTag q n s).1 ++ (scanTag q n s).2 = s := by
  fun_induction scanTag q n s with
  | case1 => rfl
  | case2 _ _ _ _ ih => exact before_append ih
  | case3 _ _ _ _ ih => exact before_append ih
  | case4 _ _ _ ih => exact before_append ih
  | case5 _ _ _ _ ih => exact before_append ih
  | case6 => rfl
  | case7 _ _ _ _ _ _ _ ih => exact before_append ih

theorem scanExpression_append (q : Option Char) (n : Nat) (s : List Char) :
    (scanExpression q n s).1 ++ (scanExpression q n s).2 = s := by
  fun_induction scanExpression q n s with
  | case1 => rfl
  | case2 => rfl
  | case3 _ _ _ _ ih => exact before_append (before_append ih)
  | case4 _ _ _ _ _ ih => exact before_append ih
  | case5 _ _ _ _ ih => exact before_append ih
  | case6 _ _ _ ih => exact before_append ih
  | case7 => rfl
  | case8 _ _ _ _ ih => exact before_append ih
  | case9 _ _ _ _ _ _ ih => exact before_append ih

theorem scan_append (c : Char) (s : List Char) : (scan c s).1 ++ (scan c s).2 = c :: s := by
  unfold scan
  apply before_append
  split
  · exact scanTag_append none 0 s
  · split
    · exact scanExpression_append none 0 s
    · exact List.takeWhile_append_dropWhile

theorem length_scan (c : Char) (s : List Char) : (scan c s).2.length ≤ s.length := by
  have h := congrArg List.length (scan_append c s)
  have : (scan c s).1 ≠ [] := by simp [scan, before]
  have := List.length_pos_iff.2 this
  simp at h; omega

/-- The tokens of a text, trimmed, without blank ones. -/
def tokens (s : List Char) : List Token :=
  match s with
  | [] => []
  | c :: r =>
    let token := Text.trim (scan c r).1
    let more := tokens (scan c r).2
    if token.isEmpty then more else ⟨kindOf token, token⟩ :: more
termination_by s.length
decreasing_by have := length_scan c r; simp; omega

/-- The tokens as lines, with two blanks for each open tag. -/
def linesFrom (depth : Nat) : List Token → List (List Char)
  | [] => []
  | t :: ts =>
    let here := if t.kind = .closing then depth - 1 else depth
    (List.replicate (2 * here) ' ' ++ t.text) :: linesFrom (if t.kind = .opening then here + 1 else here) ts

def format (s : List Char) : List Char := ['\n'].intercalate (linesFrom 0 (tokens s))

/-- Every line that is not empty moved to the right. -/
def indent (width : Nat) (s : List Char) : List Char :=
  ['\n'].intercalate ((Text.lines s).map fun line => if line.isEmpty then [] else List.replicate width ' ' ++ line)

end Layout

end SvgComponent.Jsx
