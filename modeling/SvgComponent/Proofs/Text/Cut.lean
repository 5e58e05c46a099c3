/-
  SvgComponent.Proofs.Text.Cut — where a cut falls in text that is put together from what it separates.

  A run of characters ends where what follows does not go on with it (`takeWhile_append_stop`), and a cut falls
  at the first place that it can (`cutAt_append`, `cutBefore_append`).
-/

import Mathlib.Data.List.Basic
import SvgComponent.Text.Cut

namespace SvgComponent.Text

variable {p : Char → Bool}

/-- Whether something holds of each character of a text is found out from the text, not by trying all characters. -/
instance (priority := high) decidableForallMem (q : Char → Prop) [DecidablePred q] (s : List Char) :
    Decidable (∀ c ∈ s, q c) :=
  List.decidableBAll q s

instance (priority := high) decidableForallMemOption (q : Char → Prop) [DecidablePred q] (o : Option Char) :
    Decidable (∀ c ∈ o, q c) :=
  Option.decidableForallMem o

/-- What follows does not go on with a run of `p`. -/
def Stops (p : Char → Bool) (s : List Char) : Prop := ∀ c ∈ s.head?, p c = false

/-- What holds of each character of a given text can be computed, though not by trying all characters. -/
theorem forall_mem_of_all {q : Char → Prop} [DecidablePred q] {s : List Char}
    (h : s.all (fun c => decide (q c)) = true) : ∀ c ∈ s, q c := fun c hc =>
  of_decide_eq_true (List.all_eq_true.mp h c hc)

theorem stops_nil : Stops p [] := by intro c hc; cases hc

theorem stops_cons {c : Char} (h : p c = false) (s : List Char) : Stops p (c :: s) := by
  intro d hd
  cases hd
  exact h

theorem stops_dropWhile (p : Char → Bool) (s : List Char) : Stops p (s.dropWhile p) := by
  intro c hc
  have := List.head?_dropWhile_not p s
  rw [Option.mem_def.mp hc] at this
  simpa using this

theorem takeWhile_append_stop {a s : List Char} (ha : ∀ c ∈ a, p c = true) (hs : Stops p s) :
    (a ++ s).takeWhile p = a := by
  rw [List.takeWhile_append_of_pos ha]
  cases s with
  | nil => simp
  | cons c s => rw [List.takeWhile_cons_of_neg (by simp [hs c rfl]), List.append_nil]

theorem dropWhile_append_stop {a s : List Char} (ha : ∀ c ∈ a, p c = true) (hs : Stops p s) :
    (a ++ s).dropWhile p = s := by
  rw [List.dropWhile_append_of_pos ha]
  cases s with
  | nil => rfl
  | cons c s => rw [List.dropWhile_cons_of_neg (by simp [hs c rfl])]

/-- A text has one way to begin with a run of `p` that ends there. -/
theorem append_stop_inj {a b s t : List Char} (ha : ∀ c ∈ a, p c = true) (hb : ∀ c ∈ b, p c = true)
    (hs : Stops p s) (ht : Stops p t) (h : a ++ s = b ++ t) : a = b ∧ s = t := by
  constructor
  · rw [← takeWhile_append_stop ha hs, h, takeWhile_append_stop hb ht]
  · rw [← dropWhile_append_stop ha hs, h, dropWhile_append_stop hb ht]

theorem cutAt_append {d : Char} {a : List Char} (h : d ∉ a) (b : List Char) :
    cutAt d (a ++ d :: b) = some (a, b) := by
  induction a with
  | nil => simp [cutAt]
  | cons c a ih =>
    simp only [List.mem_cons, not_or] at h
    simp [cutAt, Ne.symm h.1, ih h.2]

theorem not_mem_of_cutAt {d : Char} {s a b : List Char} (h : cutAt d s = some (a, b)) : d ∉ a := by
  induction s generalizing a with
  | nil => simp [cutAt] at h
  | cons c s ih =>
    unfold cutAt at h
    split at h
    · cases h
      exact List.not_mem_nil
    · rename_i hne
      obtain ⟨⟨a', b'⟩, h', he⟩ := Option.map_eq_some_iff.1 h
      cases he
      rw [List.mem_cons, not_or]
      exact ⟨Ne.symm hne, ih h'⟩

theorem isPrefixOf?_append (p s : List Char) : p.isPrefixOf? (p ++ s) = some s :=
  List.isPrefixOf?_eq_some_iff_append_eq.mpr rfl

/-- The cut falls before `b` if no occurrence of the pattern begins earlier. -/
theorem cutBefore_append {pat a : List Char} (b : List Char)
    (h : ∀ x y z, a = x ++ y → y ≠ [] → y ++ pat ++ b ≠ pat ++ z) :
    cutBefore pat (a ++ pat ++ b) = some (a, b) := by
  induction a with
  | nil =>
    cases pat with
    | nil => cases b <;> rfl
    | cons c pat =>
      have := isPrefixOf?_append (c :: pat) b
      simp only [List.cons_append] at this
      simp [cutBefore, this]
  | cons c a ih =>
    have none : pat.isPrefixOf? (c :: (a ++ pat ++ b)) = none := by
      cases hp : pat.isPrefixOf? (c :: (a ++ pat ++ b)) with
      | none => rfl
      | some z => exact absurd (isPrefixOf?_eq_some hp) (h [] (c :: a) z rfl (by simp))
    have rest := ih fun x y z hx hy => h (c :: x) y z (by rw [hx, List.cons_append]) hy
    simp only [List.cons_append, cutBefore, none, rest, Option.map_some]

/-- A pattern of one character twice and another cannot begin inside text and end after it. -/
theorem cutBefore_pair {p q : Char} (hpq : p ≠ q) {a : List Char} (ha : ¬ [p, p, q] <:+: a) (b : List Char) :
    cutBefore [p, p, q] (a ++ [p, p, q] ++ b) = some (a, b) := by
  apply cutBefore_append
  intro x y z hx hy he
  match y, hy with
  | [c], _ => simp [hpq] at he
  | [c, d], _ => simp [hpq] at he
  | c :: d :: e :: y, _ =>
    simp only [List.cons_append, List.append_assoc, List.nil_append, List.cons.injEq] at he
    obtain ⟨rfl, rfl, rfl, _⟩ := he
    exact ha ⟨x, y, by rw [hx]; simp⟩

/-- A pattern that has no character twice cannot begin inside text and end after it either. -/
theorem cutBefore_of_nodup {pat a : List Char} (hpat : pat.Nodup) (ha : ¬ pat <:+: a) (b : List Char) :
    cutBefore pat (a ++ pat ++ b) = some (a, b) := by
  apply cutBefore_append
  intro x y z hx hy he
  rw [List.append_assoc, List.append_eq_append_iff] at he
  rcases he with ⟨rest, hrest, hagain⟩ | ⟨more, hmore, -⟩
  · -- the pattern would begin with what it has begun with before
    obtain ⟨c, y, rfl⟩ := List.exists_cons_of_ne_nil hy
    rw [hrest, List.cons_append, List.nodup_cons] at hpat
    rw [hrest] at hagain
    cases rest with
    | nil => exact ha ⟨x, [], by rw [hx, hrest, List.append_nil, List.append_nil]⟩
    | cons e rest =>
      obtain ⟨rfl, -⟩ := List.cons.inj hagain
      exact hpat.1 (List.mem_append_right y List.mem_cons_self)
  · exact ha ⟨x, more, by rw [hx, hmore, List.append_assoc]⟩

theorem cutBefore_eq_none {pat s : List Char} (h : ¬ pat <:+: s) : cutBefore pat s = none := by
  cases hcut : cutBefore pat s with
  | none => rfl
  | some cut => exact absurd ⟨cut.1, cut.2, (cutBefore_eq_some hcut).symm⟩ h

/-- The pattern is nowhere in what stands before a cut at it. -/
theorem not_infix_of_cutBefore {pat s a b : List Char} (hpat : pat ≠ []) (h : cutBefore pat s = some (a, b)) :
    ¬ pat <:+: a := by
  induction s generalizing a with
  | nil =>
    obtain ⟨r, _, he⟩ := Option.map_eq_some_iff.1 h
    cases he
    rwa [List.infix_nil]
  | cons c s ih =>
    unfold cutBefore at h
    split at h
    · cases h
      rwa [List.infix_nil]
    · rename_i hnone
      obtain ⟨⟨a', b'⟩, h', he⟩ := Option.map_eq_some_iff.1 h
      cases he
      rw [List.infix_cons_iff]
      intro hcase
      rcases hcase with ⟨t, ht⟩ | hin
      · have := isPrefixOf?_append pat (t ++ pat ++ b)
        rw [cutBefore_eq_some h'] at hnone
        rw [← List.append_assoc, ← List.append_assoc, ht, List.cons_append, List.cons_append, hnone] at this
        cases this
      · exact ih h' hin

/-- A part of a cut text holds characters of the text, and none that it was cut at. -/
theorem mem_of_mem_splitOnP {p : Char → Bool} {s t : List Char} (ht : t ∈ s.splitOnP p) {c : Char} (hc : c ∈ t) :
    c ∈ s ∧ p c = false := by
  induction s generalizing t with
  | nil =>
    rw [List.splitOnP_nil, List.mem_singleton] at ht
    subst ht
    cases hc
  | cons d s ih =>
    rw [List.splitOnP_cons_eq_if_modifyHead] at ht
    split at ht
    · rcases List.mem_cons.mp ht with rfl | ht
      · cases hc
      · exact ⟨List.mem_cons_of_mem d (ih ht hc).1, (ih ht hc).2⟩
    · rename_i hd
      cases hparts : s.splitOnP p with
      | nil => exact absurd hparts (List.splitOnP_ne_nil p s)
      | cons first rest =>
        rw [hparts, List.modifyHead_cons, List.mem_cons] at ht
        rw [hparts] at ih
        rcases ht with rfl | ht
        · rcases List.mem_cons.mp hc with rfl | hc
          · exact ⟨List.mem_cons_self, Bool.eq_false_iff.mpr hd⟩
          · exact ⟨List.mem_cons_of_mem d (ih List.mem_cons_self hc).1, (ih List.mem_cons_self hc).2⟩
        · have := ih (List.mem_cons_of_mem first ht) hc
          exact ⟨List.mem_cons_of_mem d this.1, this.2⟩

/-- A line ends before the line feed. -/
theorem newline_not_mem_of_mem_lines {s line : List Char} (h : line ∈ lines s) : '\n' ∉ line := by
  have hsplit : ∀ t ∈ s.splitOn '\n', '\n' ∉ t := fun t ht hmem => by cases (mem_of_mem_splitOnP ht hmem).2
  unfold lines at h
  split at h
  · cases h
  · rename_i last before hreverse
    have hparts : s.splitOn '\n' = before.reverse ++ [last] := by
      rw [← List.reverse_reverse (s.splitOn '\n'), hreverse, List.reverse_cons]
    rw [hparts, List.forall_mem_append] at hsplit
    rcases List.mem_append.mp h with h | h
    · obtain ⟨t, ht, rfl⟩ := List.mem_map.mp h
      split
      · exact fun hmem => hsplit.1 t ht (List.dropLast_subset t hmem)
      · exact hsplit.1 t ht
    · split at h
      · cases h
      · exact hsplit.2 line h

end SvgComponent.Text
