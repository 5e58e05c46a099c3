/-
  SvgComponent.Jsx.Token — the pieces of printed markup: tags, expressions and runs of text.
-/

namespace SvgComponent.Jsx

inductive TokenKind where
  | opening
  | closing
  | selfClosing
  /-- An expression or text. -/
  | other
  deriving DecidableEq

structure Token where
  kind : TokenKind
  text : List Char
  deriving DecidableEq

end SvgComponent.Jsx
