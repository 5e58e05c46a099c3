/-
  SvgComponent.Proofs.Jsx.Literals — strings and template literals are closed where the layout takes them to be.

  In an expression a backslash takes the next character with it, and the escapes of strings and of template literals
  are such pairs: nothing in them closes the quote (`run_quote`, `run_template`). Comments are not escaped, so a quote
  or a brace in one counts (`run_comment`).
-/

import SvgComponent.Jsx.Literal
import SvgComponent.Proofs.Jsx.Scanning

namespace SvgComponent.Jsx

open Layout (Bracket Within isQuote)
open Layout.Bracket (runFrom_cons runFrom_append runFrom_nil)

theorem templateExpression_eq (s : List Char) :
    templateExpression s = '\x7b' :: ('\x60' :: escapeTemplate s ++ ['\x60'] ++ ['\x7d']) := by
  simp [templateExpression]

theorem commentExpression_eq (s : List Char) :
    commentExpression s = '\x7b' :: (['/', '*', ' '] ++ openComment s ++ [' ', '*', '/'] ++ ['\x7d']) := by
  simp [commentExpression]

/-! ## Quotes in expressions -/

/-- A character in quotes that neither ends them nor escapes the next one. -/
theorem step_quoted {q c : Char} {n : Nat} (hq : c ≠ q) (hslash : c ≠ '\\') :
    Bracket.brace.step ⟨some q, false, n⟩ c = some ⟨some q, false, n⟩ := by
  simp [Bracket.step, Layout.expressionStep, hq, hslash]

/-- A backslash in quotes takes the next character with it. -/
theorem runFrom_escape (q c : Char) (n : Nat) (s : List Char) :
    Bracket.brace.runFrom ⟨some q, false, n⟩ ('\\' :: c :: s) = Bracket.brace.runFrom ⟨some q, false, n⟩ s := by
  rfl

theorem hexDigit_ne {n : Nat} (hn : n < 16) : Text.hexDigit n ≠ '\"' ∧ Text.hexDigit n ≠ '\\' := by
  have : ∀ m : Fin 16, Text.hexDigit m ≠ '\"' ∧ Text.hexDigit m ≠ '\\' := by decide
  exact this ⟨n, hn⟩

theorem runFrom_textEscape (c : Char) (n : Nat) :
    Bracket.brace.runFrom ⟨some '\"', false, n⟩ (Text.escape c) = some ⟨some '\"', false, n⟩ := by
  unfold Text.escape
  split_ifs with hquote hslash _ _ _ _ _ hlow
  all_goals try exact runFrom_escape '\"' _ n []
  · have hhigh := hexDigit_ne (n := c.toNat / 16) (by omega)
    have hmod := hexDigit_ne (n := c.toNat % 16) (by omega)
    show Bracket.brace.runFrom ⟨some '\"', false, n⟩
      ('\\' :: 'u' :: ['0', '0', Text.hexDigit (c.toNat / 16), Text.hexDigit (c.toNat % 16)]) = _
    rw [runFrom_escape, runFrom_cons, step_quoted (by decide) (by decide), Option.bind_some, runFrom_cons,
      step_quoted (by decide) (by decide), Option.bind_some, runFrom_cons, step_quoted hhigh.1 hhigh.2,
      Option.bind_some, runFrom_cons, step_quoted hmod.1 hmod.2]
    rfl
  · rw [runFrom_cons, step_quoted hquote hslash]
    rfl

/-- A string is closed at its end. -/
theorem run_quote (s : List Char) : Bracket.brace.run (Text.quote s) = some .outside := by
  have hinside : Bracket.brace.runFrom ⟨some '\"', false, 0⟩ (s.flatMap Text.escape) = some ⟨some '\"', false, 0⟩ := by
    induction s with
    | nil => rfl
    | cons c s ih => rw [List.flatMap_cons, runFrom_append, runFrom_textEscape, Option.bind_some, ih]
  show Bracket.brace.runFrom ⟨some '\"', false, 0⟩ (s.flatMap Text.escape ++ ['\"']) = _
  rw [runFrom_append, hinside]
  rfl

/-- A template literal is closed at its end. -/
theorem run_template (s : List Char) : Bracket.brace.run ('\x60' :: escapeTemplate s ++ ['\x60']) = some .outside := by
  have hinside : Bracket.brace.runFrom ⟨some '\x60', false, 0⟩ (escapeTemplate s) = some ⟨some '\x60', false, 0⟩ := by
    fun_induction escapeTemplate s with
    | case1 => rfl
    | case2 s ih => rw [runFrom_escape, runFrom_cons, step_quoted (by decide) (by decide), Option.bind_some, ih]
    | case3 c s _ hc ih => rw [runFrom_escape, ih]
    | case4 c s _ hc ih =>
      rw [not_or] at hc
      rw [runFrom_cons, step_quoted hc.2 hc.1, Option.bind_some, ih]
  show Bracket.brace.runFrom ⟨some '\x60', false, 0⟩ (escapeTemplate s ++ ['\x60']) = _
  rw [runFrom_append, hinside]
  rfl

/-- A comment without quotes and braces is closed at its end. -/
theorem run_comment {s : List Char} (h : ∀ c ∈ s, isQuote c = false ∧ c ≠ '\x7b' ∧ c ≠ '\x7d') :
    Bracket.brace.run (openComment s) = some .outside := by
  have hstep : ∀ c, isQuote c = false ∧ c ≠ '\x7b' ∧ c ≠ '\x7d' → Bracket.brace.step .outside c = some .outside := by
    rintro c ⟨hq, ho, hn⟩
    simp [Bracket.step, Layout.expressionStep, Layout.Within.outside, hq, ho, hn]
  fun_induction openComment s with
  | case1 => rfl
  | case2 s ih =>
    rw [List.forall_mem_cons, List.forall_mem_cons] at h
    exact ih h.2.2
  | case3 c s _ ih =>
    rw [List.forall_mem_cons] at h
    rw [Bracket.run, Bracket.runFrom_cons, hstep c h.1]
    exact ih h.2

end SvgComponent.Jsx
