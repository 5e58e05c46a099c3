/-
  SvgComponent.Proofs.Text.Blank — what trimming leaves.

  Trimming takes characters away and no others come (`trimWhile_subset`); trimming again takes no more
  (`trimWhile_trimWhile`), and nothing but blanks is left only of blanks (`all_of_trimWhile`).
-/

import Mathlib.Data.List.DropRight
import SvgComponent.Proofs.Text.Cut
import SvgComponent.Text.Blank

namespace SvgComponent.Text

variable {p : Char → Bool} {s : List Char}

theorem dropEndWhile_eq (p : Char → Bool) (s : List Char) : dropEndWhile p s = s.rdropWhile p := rfl

theorem trimWhile_subset (p : Char → Bool) (s : List Char) : trimWhile p s ⊆ s := by
  intro c hc
  unfold trimWhile at hc
  rw [dropEndWhile_eq] at hc
  exact (List.dropWhile_suffix p).subset ((List.rdropWhile_prefix p _).subset hc)

theorem Stops.of_isPrefix {t : List Char} (h : Stops p s) (ht : t <+: s) : Stops p t := by
  intro c hc
  obtain ⟨r, rfl⟩ := ht
  apply h c
  cases t with
  | nil => cases hc
  | cons d t => exact hc

theorem dropWhile_of_stops (h : Stops p s) : s.dropWhile p = s := by
  have := dropWhile_append_stop (p := p) (a := []) (by simp) h
  rwa [List.nil_append] at this

theorem trimWhile_trimWhile (p : Char → Bool) (s : List Char) : trimWhile p (trimWhile p s) = trimWhile p s := by
  unfold trimWhile
  rw [dropEndWhile_eq, dropEndWhile_eq,
    dropWhile_of_stops ((stops_dropWhile p s).of_isPrefix (List.rdropWhile_prefix p _)), List.rdropWhile_idempotent]

theorem trimWhile_eq_self_iff : trimWhile p s = s ↔ Stops p s ∧ Stops p s.reverse := by
  constructor
  · intro h
    refine ⟨(stops_dropWhile p s).of_isPrefix ?_, ?_⟩
    · have := List.rdropWhile_prefix p (l := s.dropWhile p)
      rwa [← dropEndWhile_eq, ← trimWhile, h] at this
    · have := stops_dropWhile p (s.dropWhile p).reverse
      rwa [← List.reverse_reverse (List.dropWhile _ _), ← dropEndWhile, ← trimWhile, h] at this
  · rintro ⟨hs, hend⟩
    rw [trimWhile, dropWhile_of_stops hs, dropEndWhile, dropWhile_of_stops hend, List.reverse_reverse]

theorem Stops.append (h : Stops p s) (hne : s ≠ []) (t : List Char) : Stops p (s ++ t) := by
  cases s with
  | nil => exact absurd rfl hne
  | cons c s => exact h

/-- Trimmed texts next to each other are trimmed. -/
theorem trimWhile_append {t : List Char} (hs : trimWhile p s = s) (ht : trimWhile p t = t) (hsne : s ≠ [])
    (htne : t ≠ []) : trimWhile p (s ++ t) = s ++ t := by
  rw [trimWhile_eq_self_iff] at hs ht ⊢
  rw [List.reverse_append]
  exact ⟨hs.1.append hsne t, ht.2.append (by simpa using htne) s.reverse⟩

theorem all_of_dropWhile (h : ∀ c ∈ s.dropWhile p, p c = true) : ∀ c ∈ s, p c = true := by
  intro c hc
  rw [← List.takeWhile_append_dropWhile (p := p) (l := s), List.mem_append] at hc
  exact hc.elim List.mem_takeWhile_imp (h c)

theorem all_of_trimWhile (h : ∀ c ∈ trimWhile p s, p c = true) : ∀ c ∈ s, p c = true := by
  apply all_of_dropWhile
  have hreverse : ∀ c ∈ (s.dropWhile p).reverse, p c = true :=
    all_of_dropWhile fun c hc => h c (List.mem_reverse.mpr hc)
  exact fun c hc => hreverse c (List.mem_reverse.mpr hc)

theorem trimWhile_append_left {g : List Char} (hg : ∀ c ∈ g, p c = true) (s : List Char) :
    trimWhile p (g ++ s) = trimWhile p s := by
  rw [trimWhile, List.dropWhile_append_of_pos hg, trimWhile]

theorem dropEndWhile_append {g : List Char} (hg : ∀ c ∈ g, p c = true) (s : List Char) :
    dropEndWhile p (s ++ g) = dropEndWhile p s := by
  rw [dropEndWhile, List.reverse_append,
    List.dropWhile_append_of_pos fun c hc => hg c (List.mem_reverse.mp hc), dropEndWhile]

theorem trimWhile_append_right {g : List Char} (hg : ∀ c ∈ g, p c = true) (s : List Char) :
    trimWhile p (s ++ g) = trimWhile p s := by
  rw [trimWhile, List.dropWhile_append]
  split
  · rename_i hempty
    rw [List.isEmpty_iff] at hempty
    rw [trimWhile, hempty, List.dropWhile_eq_nil_iff.mpr hg]
  · rw [dropEndWhile_append hg, trimWhile]

theorem dropEndWhile_cons {c : Char} (hc : p c = false) (s : List Char) :
    dropEndWhile p (c :: s) = c :: dropEndWhile p s := by
  rw [dropEndWhile, List.reverse_cons, List.dropWhile_append, dropEndWhile]
  split
  · rename_i hempty
    rw [List.isEmpty_iff] at hempty
    rw [hempty, List.dropWhile_cons_of_neg (by simp [hc])]
    rfl
  · rw [List.reverse_append]
    rfl

theorem trimWhile_cons {c : Char} (hc : p c = false) (s : List Char) :
    trimWhile p (c :: s) = c :: dropEndWhile p s := by
  rw [trimWhile, List.dropWhile_cons_of_neg (by simp [hc]), dropEndWhile_cons hc]

theorem trimWhile_between {c d : Char} (hc : p c = false) (hd : p d = false) (s : List Char) :
    trimWhile p (c :: (s ++ [d])) = c :: (s ++ [d]) := by
  rw [trimWhile_cons hc, dropEndWhile_eq, List.rdropWhile_concat_neg _ _ _ (by simp [hd])]

/-- Text is what trimming leaves and what it took from both ends. -/
theorem exists_trimWhile_eq (p : Char → Bool) (s : List Char) :
    ∃ g g', s = g ++ (trimWhile p s ++ g') ∧ (∀ c ∈ g, p c = true) ∧ ∀ c ∈ g', p c = true := by
  refine ⟨s.takeWhile p, (s.dropWhile p).rtakeWhile p, ?_, fun c => List.mem_takeWhile_imp,
    fun c => List.mem_rtakeWhile_imp⟩
  rw [trimWhile, dropEndWhile_eq, List.rdropWhile_append_rtakeWhile, List.takeWhile_append_dropWhile]

theorem trim_space (s : List Char) : trim (' ' :: s) = trim s := trimWhile_append_left (g := [' ']) (by decide) s

theorem length_trim_le (s : List Char) : (trim s).length ≤ s.length := by
  obtain ⟨g, g', hs, -, -⟩ := exists_trimWhile_eq isBlank s
  have := congrArg List.length hs
  rw [List.length_append, List.length_append] at this
  rw [trim]
  omega

/-- Trimming does not take away what follows a text, if it is not blank. -/
theorem trim_append_ne {v : List Char} (hv : v ≠ []) (htrim : trim v = v) {c : Char} (hc : isBlank c = false)
    (y : List Char) : trim (v ++ c :: y) ≠ v := by
  intro heq
  obtain ⟨g, g', hs, hg, hg'⟩ := exists_trimWhile_eq isBlank (v ++ c :: y)
  rw [← trim, heq] at hs
  have hgap : g = [] := by
    cases g with
    | nil => rfl
    | cons e g =>
      obtain ⟨f, v', rfl⟩ := List.exists_cons_of_ne_nil hv
      rw [List.cons_append, List.cons_append, List.cons.injEq] at hs
      have hbegins := (trimWhile_eq_self_iff.mp htrim).1 f rfl
      rw [hs.1, hg e List.mem_cons_self] at hbegins
      cases hbegins
  rw [hgap, List.nil_append] at hs
  rw [← List.append_cancel_left hs, List.forall_mem_cons, hc] at hg'
  cases hg'.1

theorem trimWhile_of_forall (h : ∀ c ∈ s, p c = false) : trimWhile p s = s := by
  rw [trimWhile_eq_self_iff]
  exact ⟨fun c hc => h c (List.mem_of_mem_head? hc), fun c hc => h c (List.mem_reverse.mp (List.mem_of_mem_head? hc))⟩

theorem trim_word (h : ∀ c ∈ s, isBlank c = false) : trim s = s := trimWhile_of_forall h

theorem trimmed_trimmed (s : String) : trimmed (trimmed s) = trimmed s := by
  unfold trimmed trim
  rw [String.toList_ofList, trimWhile_trimWhile]

theorem allBlank_append (s t : String) : allBlank (s ++ t) = (allBlank s && allBlank t) := by
  unfold allBlank
  rw [String.toList_append, List.all_append]

theorem isEmpty_trim (s : String) : (trim s.toList).isEmpty = allBlank s := by
  rw [Bool.eq_iff_iff, List.isEmpty_iff, allBlank, List.all_eq_true]
  constructor
  · intro h
    refine all_of_trimWhile fun c hc => ?_
    rw [← trim, h] at hc
    cases hc
  · intro h
    rw [← List.append_nil s.toList, trim, trimWhile_append_left h]
    rfl

/-- Words are made of the characters of the text that are not blank. -/
theorem mem_of_mem_words {s t : List Char} (ht : t ∈ words s) {c : Char} (hc : c ∈ t) : c ∈ s ∧ isBlank c = false :=
  mem_of_mem_splitOnP (List.mem_filter.mp ht).1 hc

end SvgComponent.Text
