/-
  SvgComponent.Proofs.Jsx.Formatting — laying markup out moves only the blanks between its tokens.

  The lines of tokens are the tokens with blanks around them (`spread_linesFrom`), so whatever the text, closed or
  not, its layout has the same tokens (`tokens_format`) and is laid out as it is (`format_spreads_tokens`).
-/

import SvgComponent.Proofs.Jsx.Scanning

namespace SvgComponent.Jsx.Layout

open Text (isBlank)

theorem isBlank_of_mem_replicate {n : Nat} {c : Char} (h : c ∈ List.replicate n ' ') : isBlank c = true := by
  obtain ⟨_, rfl⟩ := List.mem_replicate.mp h
  rfl

theorem spread_linesFrom (depth : Nat) (ts : List Token) :
    Spread ts (['\n'].intercalate (linesFrom depth ts)) := by
  induction ts generalizing depth with
  | nil => exact .nil fun c hc => absurd hc List.not_mem_nil
  | cons t ts ih =>
    rw [linesFrom]
    generalize (if t.kind = .closing then depth - 1 else depth) = here
    have hpad : ∀ c ∈ List.replicate (2 * here) ' ', isBlank c = true := fun c => isBlank_of_mem_replicate
    cases ts with
    | nil =>
      have hend : Spread [] [] := .nil fun c hc => absurd hc List.not_mem_nil
      have := hend.cons (t := t) hpad
      rw [List.append_nil] at this
      rwa [linesFrom, List.intercalate_singleton]
    | cons u ts =>
      have hrest := ih (if t.kind = .opening then here + 1 else here)
      have hnewline : ∀ c ∈ ['\n'], isBlank c = true := by
        intro c hc
        obtain rfl := List.mem_singleton.mp hc
        rfl
      have := (hrest.blanks_append hnewline).cons (t := t) hpad
      rw [linesFrom] at this ⊢
      rwa [List.intercalate_cons_cons, List.append_assoc, List.append_assoc]

theorem tokens_format (s : List Char) : tokens (format s) = tokens s :=
  (adjoined_tokens s).1.tokens_eq (spread_linesFrom 0 (tokens s))

/-- Layout keeps the tokens and, between them, has other blanks; a second layout changes nothing. -/
theorem format_spreads_tokens (s : List Char) :
    tokens (format s) = tokens s ∧ format (format s) = format s ∧
      Spread (tokens s) s ∧ Spread (tokens s) (format s) := by
  refine ⟨tokens_format s, ?_, (adjoined_tokens s).2, spread_linesFrom 0 (tokens s)⟩
  show ['\n'].intercalate (linesFrom 0 (tokens (format s))) = format s
  rw [tokens_format]
  rfl

end SvgComponent.Jsx.Layout
