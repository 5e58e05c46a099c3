/-
  SvgComponent.Proofs.Text.Replace — replacing every occurrence of a pattern.

  Occurrences are found from the left, and the next one is looked for behind the last (`replaceAll_append`,
  `replaceAll_cons`). A pattern of one character is replaced character by character (`replaceAll_singleton`).
-/

import Mathlib.Data.List.Basic

namespace SvgComponent.Text

/-- The text with `new` for every occurrence of the pattern, which is `p` and then `pat`. -/
def replaceAll (p : Char) (pat new s : List Char) : List Char :=
  match s with
  | [] => []
  | c :: s =>
    if p :: pat <+: c :: s then new ++ replaceAll p pat new (s.drop pat.length) else c :: replaceAll p pat new s
termination_by s.length
decreasing_by
  · rw [List.length_drop, List.length_cons]
    omega
  · exact Nat.lt_succ_self _

variable {p : Char} {pat new : List Char}

theorem replaceAll_nil : replaceAll p pat new [] = [] := by rw [replaceAll]

theorem replaceAll_append (p : Char) (pat new s : List Char) :
    replaceAll p pat new (p :: pat ++ s) = new ++ replaceAll p pat new s := by
  rw [List.cons_append, replaceAll, ← List.cons_append, if_pos (List.prefix_append _ _), List.drop_left]

theorem replaceAll_cons {c : Char} {s : List Char} (h : ¬ p :: pat <+: c :: s) :
    replaceAll p pat new (c :: s) = c :: replaceAll p pat new s := by
  rw [replaceAll, if_neg h]

theorem replaceAll_cons_of_ne {c : Char} (hc : c ≠ p) (s : List Char) :
    replaceAll p pat new (c :: s) = c :: replaceAll p pat new s :=
  replaceAll_cons fun h => hc (List.cons_prefix_cons.mp h).1.symm

/-- One character is replaced wherever it stands. -/
theorem replaceAll_singleton (p : Char) (new s : List Char) :
    replaceAll p [] new s = s.flatMap fun c => if c = p then new else [c] := by
  induction s with
  | nil => exact replaceAll_nil
  | cons c s ih =>
    rw [List.flatMap_cons, ← ih]
    split
    · rename_i hc
      subst hc
      exact replaceAll_append c [] new s
    · rename_i hc
      exact replaceAll_cons_of_ne hc s

end SvgComponent.Text
