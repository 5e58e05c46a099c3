/-
  SvgComponent.Proofs.Markup.Escaping — what is escaped when it is written is read back.

  `expand_escapeText` and `expand_escapeValue`: the references that writing puts in are the ones that reading
  takes out, whatever the text. Escaped text holds no bracket (`escapeText_brackets`), and an escaped value no
  double quote either (`escapeValue_quote`), so neither ends what it stands in.
-/

import SvgComponent.Markup.Printer
import SvgComponent.Markup.Reference
import SvgComponent.Proofs.Text.Cut

namespace SvgComponent.Markup

open Reference

/-! ## References that writing puts in -/

/-- A reference that ends is resolved, and what follows it is read. -/
theorem expandEnd_reference (total : Nat) {s rest : List Char} (h : s.dropWhile isNameChar = ';' :: rest) :
    expandEnd total ('&' :: s) = resolve total s >>= fun c => (c :: ·) <$> expandEnd total rest := by
  rw [expandEnd, if_pos rfl]
  split
  · rename_i rest' he
    rw [h] at he
    cases he
    cases resolve total s <;> cases expandEnd total rest <;> rfl
  · rename_i hne
    exact absurd h (hne rest)

theorem expandEnd_unterminated (total : Nat) {s : List Char} (h : ∀ rest, s.dropWhile isNameChar ≠ ';' :: rest) :
    ∃ f, expandEnd total ('&' :: s) = .error f := by
  rw [expandEnd, if_pos rfl]
  split
  · rename_i rest he
    exact absurd he (h rest)
  · exact ⟨_, rfl⟩

/-- A reference to a known name stands for its character. -/
theorem expandEnd_named (total : Nat) {n : List Char} {c : Char} (hn : ∀ d ∈ n, isNameChar d = true)
    (hc : named? n = some c) (rest : List Char) :
    expandEnd total ('&' :: n ++ ';' :: rest) = (c :: ·) <$> expandEnd total rest := by
  have hdrop : (n ++ ';' :: rest).dropWhile isNameChar = ';' :: rest :=
    Text.dropWhile_append_stop hn (Text.stops_cons rfl rest)
  have htake : (n ++ ';' :: rest).takeWhile isNameChar = n :=
    Text.takeWhile_append_stop hn (Text.stops_cons rfl rest)
  have hresolve : resolve total (n ++ ';' :: rest) = .ok c := by
    unfold resolve
    rw [htake]
    cases n with
    | nil => simp [named?] at hc
    | cons d n =>
      have hd : d ≠ '#' := by
        intro heq
        subst heq
        simp [named?] at hc
      simp only
      split
      · rename_i digits he
        exact absurd (List.cons.inj he).1 hd
      · rw [hc]
  rw [List.cons_append, expandEnd_reference total hdrop, hresolve]
  rfl

theorem expandEnd_plain (total : Nat) {c : Char} (hc : c ≠ '&') (rest : List Char) :
    expandEnd total (c :: rest) = (c :: ·) <$> expandEnd total rest := by
  rw [expandEnd, if_neg hc]

theorem expandEnd_escapeText (total : Nat) (c : Char) (rest : List Char) :
    expandEnd total (escapeText c ++ rest) = (c :: ·) <$> expandEnd total rest := by
  unfold escapeText
  split
  · rename_i h
    rw [h]
    exact expandEnd_named total (n := ['a', 'm', 'p']) (Text.forall_mem_of_all rfl) rfl rest
  · split
    · rename_i h
      rw [h]
      exact expandEnd_named total (n := ['l', 't']) (Text.forall_mem_of_all rfl) rfl rest
    · split
      · rename_i h
        rw [h]
        exact expandEnd_named total (n := ['g', 't']) (Text.forall_mem_of_all rfl) rfl rest
      · rename_i hne _ _
        exact expandEnd_plain total hne rest

theorem expandEnd_escapeValue (total : Nat) (c : Char) (rest : List Char) :
    expandEnd total (escapeValue c ++ rest) = (c :: ·) <$> expandEnd total rest := by
  unfold escapeValue
  split
  · rename_i h
    rw [h]
    exact expandEnd_named total (n := ['q', 'u', 'o', 't']) (Text.forall_mem_of_all rfl) rfl rest
  · exact expandEnd_escapeText total c rest

theorem expandEnd_flatMap {escape : Char → List Char} {total : Nat}
    (h : ∀ c rest, expandEnd total (escape c ++ rest) = (c :: ·) <$> expandEnd total rest) (s rest : List Char) :
    expandEnd total (s.flatMap escape ++ rest) = (s ++ ·) <$> expandEnd total rest := by
  induction s with
  | nil => cases hr : expandEnd total rest <;> simp [hr, Functor.map, Except.map]
  | cons c s ih =>
    rw [List.flatMap_cons, List.append_assoc, h, ih]
    cases expandEnd total rest <;> rfl

theorem expandEnd_nil (total : Nat) : expandEnd total [] = .ok [] := by rw [expandEnd]

theorem expand_escapeText (s : List Char) : expand (s.flatMap escapeText) = .ok s := by
  have := expandEnd_flatMap (expandEnd_escapeText (Text.byteSize (s.flatMap escapeText))) s []
  rw [List.append_nil, expandEnd_nil] at this
  rw [expand, this]
  simp [Functor.map, Except.map]

theorem expand_escapeValue (s : List Char) : expand (s.flatMap escapeValue) = .ok s := by
  have := expandEnd_flatMap (expandEnd_escapeValue (Text.byteSize (s.flatMap escapeValue))) s []
  rw [List.append_nil, expandEnd_nil] at this
  rw [expand, this]
  simp [Functor.map, Except.map]

/-! ## References that can be read stand for the same anywhere -/

theorem resolve_total {n : Nat} {r : List Char} {c : Char} (h : resolve n r = .ok c) (m : Nat) :
    resolve m r = .ok c := by
  unfold resolve at h ⊢
  dsimp only at h ⊢
  split at h
  · exact h
  · split at h
    · exact h
    · cases h

theorem expandEnd_total {n : Nat} {s t : List Char} (h : expandEnd n s = .ok t) (m : Nat) : expandEnd m s = .ok t := by
  induction s using expandEnd.induct generalizing t with
  | case1 => rwa [expandEnd_nil] at h ⊢
  | case2 s rest hs ih =>
    rw [expandEnd_reference n hs] at h
    cases hc : resolve n s with
    | error f => rw [hc] at h; cases h
    | ok c =>
      cases hr : expandEnd n rest with
      | error f => rw [hc, hr] at h; cases h
      | ok u =>
        rw [hc, hr] at h
        rw [expandEnd_reference m hs, resolve_total hc m, ih hr]
        exact h
  | case3 s hs =>
    obtain ⟨f, hf⟩ := expandEnd_unterminated n hs
    rw [hf] at h
    cases h
  | case4 c s hc ih =>
    rw [expandEnd_plain n hc] at h
    rw [expandEnd_plain m hc]
    cases hr : expandEnd n s with
    | error f => rw [hr] at h; cases h
    | ok u =>
      rw [hr] at h
      rw [ih hr]
      exact h

theorem expand_append {s rest t : List Char} (h : expand rest = .ok t) :
    expand (s.flatMap escapeText ++ rest) = .ok (s ++ t) := by
  rw [expand, expandEnd_flatMap (expandEnd_escapeText _), expandEnd_total h]
  rfl

/-- What is read to nothing is nothing. -/
theorem eq_nil_of_expandEnd {n : Nat} {s : List Char} (h : expandEnd n s = .ok []) : s = [] := by
  cases s with
  | nil => rfl
  | cons c s =>
    by_cases hc : c = '&'
    · subst hc
      by_cases hs : ∃ rest, s.dropWhile isNameChar = ';' :: rest
      · obtain ⟨rest, hs⟩ := hs
        rw [expandEnd_reference n hs] at h
        cases hr : resolve n s with
        | error f => rw [hr] at h; cases h
        | ok c => cases hu : expandEnd n rest <;> rw [hr, hu] at h <;> cases h
      · obtain ⟨f, hf⟩ := expandEnd_unterminated n (not_exists.mp hs)
        rw [hf] at h
        cases h
    · rw [expandEnd_plain n hc] at h
      cases hu : expandEnd n s <;> rw [hu] at h <;> cases h

theorem escapedText_ne_nil {s : String} (h : s ≠ "") : s.toList.flatMap escapeText ≠ [] := by
  intro hnil
  have := expand_escapeText s.toList
  rw [hnil, expand, expandEnd_nil] at this
  exact h (String.toList_eq_nil_iff.mp (Except.ok.inj this).symm)

/-- Text that begins with the written form of what it stands for is that form. -/
theorem eq_escapeText_of_expand {s t rest : List Char} (hs : expand s = .ok t)
    (h : s = t.flatMap escapeText ++ rest) : s = t.flatMap escapeText := by
  rw [h, expand, expandEnd_flatMap (expandEnd_escapeText _)] at hs
  cases hr : expandEnd (Text.byteSize (t.flatMap escapeText ++ rest)) rest with
  | error f => rw [hr] at hs; cases hs
  | ok u =>
    rw [hr] at hs
    have hu : t ++ u = t := Except.ok.inj hs
    rw [List.append_right_eq_self] at hu
    subst hu
    rw [h, eq_nil_of_expandEnd hr, List.append_nil]

/-! ## What escaped text is free of -/

theorem escapeText_brackets {c d : Char} (h : d ∈ escapeText c) : d ≠ '<' ∧ d ≠ '>' := by
  unfold escapeText at h
  split at h
  · exact Text.forall_mem_of_all (q := fun d => d ≠ '<' ∧ d ≠ '>') rfl d h
  · split at h
    · exact Text.forall_mem_of_all (q := fun d => d ≠ '<' ∧ d ≠ '>') rfl d h
    · split at h
      · exact Text.forall_mem_of_all (q := fun d => d ≠ '<' ∧ d ≠ '>') rfl d h
      · rename_i _ h1 h2
        rw [List.mem_singleton] at h
        rw [h]
        exact ⟨h1, h2⟩

theorem escapeValue_quote {c d : Char} (h : d ∈ escapeValue c) : d ≠ '\"' ∧ d ≠ '<' ∧ d ≠ '>' := by
  unfold escapeValue at h
  split at h
  · exact Text.forall_mem_of_all (q := fun d => d ≠ '\"' ∧ d ≠ '<' ∧ d ≠ '>') rfl d h
  · rename_i hc
    have hd : d = c ∨ d ∈ ['&', 'a', 'm', 'p', ';', 'l', 't', 'g'] := by
      unfold escapeText at h
      split at h
      · exact Or.inr (Text.forall_mem_of_all rfl d h)
      · split at h
        · exact Or.inr (Text.forall_mem_of_all rfl d h)
        · split at h
          · exact Or.inr (Text.forall_mem_of_all rfl d h)
          · left; exact List.mem_singleton.mp h
    refine ⟨?_, escapeText_brackets h⟩
    rcases hd with rfl | hd
    · exact hc
    · intro heq
      subst heq
      revert hd
      decide

theorem escapedText_brackets (s : List Char) : ∀ d ∈ s.flatMap escapeText, d ≠ '<' ∧ d ≠ '>' := by
  intro d hd
  obtain ⟨c, _, hc⟩ := List.mem_flatMap.mp hd
  exact escapeText_brackets hc

theorem escapedValue_quote (s : List Char) : ∀ d ∈ s.flatMap escapeValue, d ≠ '\"' ∧ d ≠ '<' ∧ d ≠ '>' := by
  intro d hd
  obtain ⟨c, _, hc⟩ := List.mem_flatMap.mp hd
  exact escapeValue_quote hc

end SvgComponent.Markup
