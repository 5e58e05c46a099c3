/-
  SvgComponent.Proofs.Style.Nesting — quotes and brackets in a stylesheet.

  Where text of a stylesheet ends is decided by the first character of its kind outside quotes, parentheses and braces
  (`cutOutside`). Splitting a style attribute knows of quotes and parentheses only, so no semicolon in what it leaves
  stands outside all of them (`isProper_of_mem_parseDeclarations`); braces do not count for it.
-/

import SvgComponent.Proofs.Style.Declarations

namespace SvgComponent.Style

open Text (isBlank trim)

/-- What text is in: a quote that is open, and brackets that are, the innermost first. -/
structure Nesting where
  quote : Option Char
  brackets : List Char
  deriving DecidableEq

namespace Nesting

/-- Outside quotes and brackets. -/
def top : Nesting := ⟨none, []⟩

/-- What closes a bracket. -/
def closer (bracket : Char) : Char := if bracket = '(' then ')' else '\x7d'

def step (n : Nesting) (c : Char) : Nesting :=
  match n.quote with
  | some q => if c = q then { n with quote := none } else n
  | none =>
    if c = '\"' ∨ c = '\'' then { n with quote := some c }
    else if c = '(' ∨ c = '\x7b' then { n with brackets := c :: n.brackets }
    else if n.brackets.head?.map closer = some c then { n with brackets := n.brackets.tail }
    else n

/-- What text leads to, unless there is one of the `stops` in it outside quotes and brackets. -/
def run (stops : Char → Bool) (n : Nesting) : List Char → Option Nesting
  | [] => some n
  | c :: s => if n = top ∧ stops c = true then none else run stops (n.step c) s

end Nesting

/-- The text before and from the first of the `stops` outside quotes and brackets. -/
def cutOutside (stops : Char → Bool) (n : Nesting) : List Char → List Char × List Char
  | [] => ([], [])
  | c :: s =>
    if n = .top ∧ stops c = true then ([], c :: s)
    else (c :: (cutOutside stops (n.step c) s).1, (cutOutside stops (n.step c) s).2)

theorem cutOutside_append (stops : Char → Bool) (n : Nesting) (s : List Char) :
    (cutOutside stops n s).1 ++ (cutOutside stops n s).2 = s := by
  induction s generalizing n with
  | nil => rfl
  | cons c s ih =>
    rw [cutOutside]
    split
    · rfl
    · exact congrArg (c :: ·) (ih _)

theorem length_cutOutside (stops : Char → Bool) (n : Nesting) (s : List Char) :
    (cutOutside stops n s).2.length ≤ s.length := by
  have := congrArg List.length (cutOutside_append stops n s)
  rw [List.length_append] at this
  omega

/-! ## Cuts in text that is put together -/

section

variable {stops : Char → Bool} {n m : Nesting} {s t : List Char}

theorem Nesting.run_append (stops : Char → Bool) (n : Nesting) (s t : List Char) :
    n.run stops (s ++ t) = (n.run stops s).bind fun m => m.run stops t := by
  induction s generalizing n with
  | nil => rfl
  | cons c s ih =>
    rw [List.cons_append, run, run]
    split
    · rfl
    · exact ih _

theorem Nesting.exists_of_isSome_run_append (h : (n.run stops (s ++ t)).isSome = true) :
    ∃ m, n.run stops s = some m ∧ (m.run stops t).isSome = true := by
  rw [run_append] at h
  cases hs : n.run stops s with
  | none =>
    rw [hs] at h
    cases h
  | some m =>
    rw [hs] at h
    exact ⟨m, rfl, h⟩

/-- Text that no stop stands in outside quotes and brackets goes before the cut. -/
theorem cutOutside_run (h : n.run stops s = some m) (t : List Char) :
    cutOutside stops n (s ++ t) = (s ++ (cutOutside stops m t).1, (cutOutside stops m t).2) := by
  induction s generalizing n with
  | nil =>
    cases h
    rfl
  | cons c s ih =>
    rw [Nesting.run] at h
    split at h
    · cases h
    · rename_i hstop
      rw [List.cons_append, cutOutside, if_neg hstop, ih h]
      rfl

theorem cutOutside_stop {c : Char} (hc : stops c = true) (t : List Char) : cutOutside stops .top (c :: t) = ([], c :: t) := by
  rw [cutOutside, if_pos ⟨rfl, hc⟩]

/-- Otherwise the cut is at the first stop. -/
theorem Nesting.exists_of_run_eq_none (h : n.run stops s = none) :
    ∃ u c v, s = u ++ c :: v ∧ n.run stops u = some .top ∧ stops c = true := by
  induction s generalizing n with
  | nil => cases h
  | cons c s ih =>
    rw [run] at h
    split at h
    · rename_i hstop
      obtain ⟨rfl, hc⟩ := hstop
      exact ⟨[], c, s, rfl, rfl, hc⟩
    · rename_i hstop
      obtain ⟨u, d, v, rfl, hu, hd⟩ := ih h
      refine ⟨c :: u, d, v, rfl, ?_, hd⟩
      rw [run, if_neg hstop, hu]

/-- With fewer stops, text leads to where it leads with more. -/
theorem Nesting.run_mono {stops' : Char → Bool} (hstops : ∀ c, stops' c = true → stops c = true)
    (h : n.run stops s = some m) : n.run stops' s = some m := by
  induction s generalizing n with
  | nil => exact h
  | cons c s ih =>
    rw [run] at h ⊢
    split at h
    · cases h
    · rename_i hstop
      rw [if_neg fun hstop' => hstop ⟨hstop'.1, hstops c hstop'.2⟩]
      exact ih h

/-- Neither a quote nor a bracket, and no end of anything. -/
def isInert (c : Char) : Bool := !(['\"', '\'', '(', ')', '\x7b', '\x7d', ';'].contains c)

theorem Nesting.step_inert {c : Char} (h : isInert c = true) (n : Nesting) (hquote : n.quote = none) : n.step c = n := by
  obtain ⟨quote, brackets⟩ := n
  cases hquote
  have hmem : c ∉ ['\"', '\'', '(', ')', '\x7b', '\x7d', ';'] := by simpa [isInert] using h
  simp only [List.mem_cons, List.not_mem_nil, or_false, not_or] at hmem
  obtain ⟨hdouble, hsingle, hparen, hclose, hbrace, hend, -⟩ := hmem
  have hcloser : brackets.head?.map closer ≠ some c := by
    cases brackets with
    | nil => exact nofun
    | cons b brackets =>
      rw [List.head?_cons, Option.map_some, closer]
      rintro heq
      split at heq <;> cases heq <;> contradiction
  simp [step, hdouble, hsingle, hparen, hbrace, hcloser]

/-- Text that each character of stays where it is, and that has no stop in it. -/
theorem Nesting.run_still (hs : ∀ c ∈ s, stops c = false ∧ n.step c = n) : n.run stops s = some n := by
  induction s with
  | nil => rfl
  | cons c s ih =>
    rw [List.forall_mem_cons] at hs
    obtain ⟨hstop, hstep⟩ := hs.1
    rw [run, if_neg fun h => by simp [hstop] at h, hstep, ih hs.2]

/-- Inert text outside quotes stays where it is. -/
theorem Nesting.run_inert (hstops : ∀ c, isInert c = true → stops c = false) (hs : ∀ c ∈ s, isInert c = true)
    (hquote : n.quote = none) : n.run stops s = some n :=
  run_still fun c hc => ⟨hstops c (hs c hc), step_inert (hs c hc) n hquote⟩

theorem isInert_of_isBlank {c : Char} (h : isBlank c = true) : isInert c = true := by
  have hne := Text.not_mem_of_forall ['\"', '\'', '(', ')', '\x7b', '\x7d', ';'] (by decide) h
  simpa [isInert] using hne

theorem isInert_of_isAlphanum {c : Char} (h : c.isAlphanum = true) : isInert c = true := by
  have hne := Text.not_mem_of_forall ['\"', '\'', '(', ')', '\x7b', '\x7d', ';'] (by decide) h
  simpa [isInert] using hne

end

/-! ## Declarations -/

namespace Nesting

/-- A quote of a style attribute is open, or none is. -/
def QuotesOnly (n : Nesting) : Prop := ∀ q ∈ n.quote, q = '\"' ∨ q = '\''

theorem step_blank {c : Char} (hc : isBlank c = true) {n : Nesting} (hn : n.QuotesOnly) : n.step c = n := by
  obtain ⟨_ | q, brackets⟩ := n
  · exact step_inert (isInert_of_isBlank hc) _ rfl
  · have hne : c ≠ q := by
      rintro rfl
      rcases hn c rfl with rfl | rfl <;> cases hc
    simp [step, hne]

theorem QuotesOnly.step {n : Nesting} (hn : n.QuotesOnly) (c : Char) : (n.step c).QuotesOnly := by
  obtain ⟨_ | q, brackets⟩ := n
  · unfold Nesting.step
    dsimp only
    split_ifs with hquote
    · rintro _ ⟨⟩
      exact hquote
    all_goals exact nofun
  · unfold Nesting.step
    dsimp only
    split_ifs
    · exact nofun
    · exact hn

theorem QuotesOnly.run {stops : Char → Bool} {n m : Nesting} {s : List Char} (hn : n.QuotesOnly)
    (h : n.run stops s = some m) : m.QuotesOnly := by
  induction s generalizing n with
  | nil =>
    cases h
    exact hn
  | cons c s ih =>
    rw [Nesting.run] at h
    split at h
    · cases h
    · exact ih (hn.step c) h

/-- Blanks are inert, and stay in quotes as well. -/
theorem run_blanks {stops : Char → Bool} (hstops : ∀ c, isInert c = true → stops c = false) {g : List Char}
    (hg : ∀ c ∈ g, isBlank c = true) {n : Nesting} (hn : n.QuotesOnly) : n.run stops g = some n :=
  run_still fun c hc => ⟨hstops c (isInert_of_isBlank (hg c hc)), step_blank (hg c hc) hn⟩

theorem run_blanks_append {stops : Char → Bool} (hstops : ∀ c, isInert c = true → stops c = false) {g : List Char}
    (hg : ∀ c ∈ g, isBlank c = true) {n : Nesting} (hn : n.QuotesOnly) (s : List Char) :
    n.run stops (g ++ s) = n.run stops s := by
  rw [run_append, run_blanks hstops hg hn, Option.bind_some]

/-- Trimming takes away nothing that counts. -/
theorem run_trim {stops : Char → Bool} (hstops : ∀ c, isInert c = true → stops c = false) {n : Nesting}
    (hn : n.QuotesOnly) (s : List Char) : n.run stops (trim s) = n.run stops s := by
  obtain ⟨g, g', hs, hg, hg'⟩ := Text.exists_trimWhile_eq isBlank s
  rw [trim]
  conv_rhs => rw [hs, run_blanks_append hstops hg hn, run_append]
  cases hrun : n.run stops (Text.trimWhile isBlank s) with
  | none => rfl
  | some m => rw [Option.bind_some, run_blanks hstops hg' (hn.run hrun)]

end Nesting

/-- As it stands in a rule. -/
def Declaration.text (d : Declaration) : List Char := d.property ++ ':' :: ' ' :: d.value

/-- What splitting and trimming make of a declaration: no semicolon in it stands outside quotes and brackets. -/
structure Declaration.IsProper (d : Declaration) : Prop where
  property_ne : d.property ≠ []
  property_trim : trim d.property = d.property
  colon : ':' ∉ d.property
  value_ne : d.value ≠ []
  value_trim : trim d.value = d.value
  whole : (Nesting.top.run (· == ';') d.text).isSome = true

/-- What splitting goes on with after a character, unless it splits there. -/
def splitStep (q : Option Char) (depth : Nat) (c : Char) : Option (Option Char × Nat) :=
  match q with
  | some q => some (if c = q then none else some q, depth)
  | none =>
    if c = ';' ∧ depth = 0 then none
    else if c = '\"' ∨ c = '\'' then some (some c, depth)
    else if c = '(' then some (none, depth + 1)
    else if c = ')' then some (none, depth - 1)
    else some (none, depth)

theorem splitFrom_cons (q : Option Char) (depth : Nat) (c : Char) (s : List Char) : splitFrom q depth (c :: s) =
    match splitStep q depth c with
    | none => [] :: splitFrom none 0 s
    | some (q', depth') => (splitFrom q' depth' s).modifyHead (c :: ·) := by
  cases q with
  | some q => rfl
  | none =>
    rw [splitFrom, splitStep]
    split_ifs <;> rfl

theorem count_le_count_tail (brackets : List Char) : brackets.count '(' ≤ brackets.tail.count '(' + 1 := by
  cases brackets with
  | nil => exact Nat.zero_le _
  | cons b brackets =>
    rw [List.tail_cons, List.count_cons]
    split <;> omega

/-- Only a parenthesis closes a parenthesis. -/
theorem count_tail_of_ne {brackets : List Char} {c : Char} (h : brackets.head?.map Nesting.closer = some c)
    (hc : c ≠ ')') : brackets.tail.count '(' = brackets.count '(' := by
  cases brackets with
  | nil => rfl
  | cons b brackets =>
    have hb : b ≠ '(' := by
      rintro rfl
      cases h
      exact hc rfl
    rw [List.tail_cons, List.count_cons_of_ne hb]

/-- Splitting knows of the same quotes, and of parentheses that are open at most. -/
structure Agrees (q : Option Char) (depth : Nat) (n : Nesting) : Prop where
  quote : n.quote = q
  depth : depth ≤ n.brackets.count '('

theorem Agrees.step {q q' : Option Char} {depth depth' : Nat} {n : Nesting} {c : Char} (h : Agrees q depth n)
    (hstep : splitStep q depth c = some (q', depth')) : Agrees q' depth' (n.step c) ∧ ¬ (n = .top ∧ (c == ';') = true) := by
  obtain ⟨quote, brackets⟩ := n
  obtain ⟨rfl, hdepth⟩ := h
  unfold splitStep at hstep
  unfold Nesting.step
  cases quote with
  | some q =>
    cases hstep
    refine ⟨?_, nofun⟩
    dsimp only
    split
    · exact ⟨rfl, hdepth⟩
    · exact ⟨rfl, hdepth⟩
  | none =>
    dsimp only at hstep hdepth ⊢
    have hstop : ¬ (c = ';' ∧ depth = 0) → ¬ ((⟨none, brackets⟩ : Nesting) = .top ∧ (c == ';') = true) := by
      rintro hsplit ⟨htop, hc⟩
      cases htop
      exact hsplit ⟨beq_iff_eq.mp hc, Nat.le_zero.mp hdepth⟩
    split_ifs at hstep with hsplit hquote hopen hclose
    · cases hstep
      rw [if_pos hquote]
      exact ⟨⟨rfl, hdepth⟩, hstop hsplit⟩
    · cases hstep
      rw [if_neg hquote, if_pos (Or.inl hopen), hopen]
      refine ⟨⟨rfl, ?_⟩, hopen ▸ hstop hsplit⟩
      rw [List.count_cons_self]
      exact Nat.succ_le_succ hdepth
    · cases hstep
      rw [if_neg hquote, if_neg (by simp [hclose])]
      refine ⟨?_, hstop hsplit⟩
      split
      · have := count_le_count_tail brackets
        exact ⟨rfl, by dsimp only; omega⟩
      · exact ⟨rfl, (Nat.sub_le depth 1).trans hdepth⟩
    · cases hstep
      rw [if_neg hquote]
      refine ⟨?_, hstop hsplit⟩
      split_ifs with hpush hpop
      · have hbrace : c = '\x7b' := hpush.resolve_left hopen
        refine ⟨rfl, ?_⟩
        rw [hbrace, List.count_cons_of_ne (by decide)]
        exact hdepth
      · exact ⟨rfl, by rw [count_tail_of_ne hpop hclose]; exact hdepth⟩
      · exact ⟨rfl, hdepth⟩

theorem isSome_run_splitFrom {q : Option Char} {depth : Nat} {n : Nesting} (h : Agrees q depth n) (s : List Char) :
    ∃ t ts, splitFrom q depth s = t :: ts ∧ (n.run (· == ';') t).isSome = true ∧
      ∀ t ∈ ts, (Nesting.top.run (· == ';') t).isSome = true := by
  induction s generalizing q depth n with
  | nil => exact ⟨[], [], rfl, rfl, fun t ht => absurd ht List.not_mem_nil⟩
  | cons c s ih =>
    rw [splitFrom_cons]
    cases hstep : splitStep q depth c with
    | none =>
      have htop : Agrees none 0 .top := ⟨rfl, Nat.le_refl _⟩
      obtain ⟨t, ts, heq, ht, hts⟩ := ih htop
      exact ⟨[], t :: ts, by rw [heq], rfl, List.forall_mem_cons.mpr ⟨ht, hts⟩⟩
    | some next =>
      obtain ⟨hagrees, hstop⟩ := h.step hstep
      obtain ⟨t, ts, heq, ht, hts⟩ := ih hagrees
      refine ⟨c :: t, ts, ?_, ?_, hts⟩
      · dsimp only
        rw [heq]
        rfl
      · rw [Nesting.run, if_neg hstop]
        exact ht

/-- No semicolon in a part stands outside quotes and brackets. -/
theorem isSome_run_of_mem_split {s t : List Char} (h : t ∈ split s) : (Nesting.top.run (· == ';') t).isSome = true := by
  have htop : Agrees none 0 .top := ⟨rfl, Nat.le_refl _⟩
  obtain ⟨u, us, heq, hu, hus⟩ := isSome_run_splitFrom htop s
  rw [split, heq] at h
  rcases List.mem_cons.mp h with rfl | h
  · exact hu
  · exact hus t h

theorem quotesOnly_top : Nesting.top.QuotesOnly := nofun

theorem isProper_of_parse? {s : List Char} {d : Declaration} (hs : (Nesting.top.run (· == ';') s).isSome = true)
    (h : Declaration.parse? s = some d) : d.IsProper := by
  have hstops : ∀ c, isInert c = true → (c == ';') = false := by
    intro c hc
    rw [beq_eq_false_iff_ne]
    rintro rfl
    cases hc
  unfold Declaration.parse? at h
  split at h
  · rename_i a b hcut
    dsimp only at h
    split at h
    · cases h
    · rename_i hne
      cases h
      rw [Bool.or_eq_true, List.isEmpty_iff, List.isEmpty_iff, not_or] at hne
      refine ⟨hne.1, Text.trimWhile_trimWhile _ _, ?_, hne.2, Text.trimWhile_trimWhile _ _, ?_⟩
      · exact fun hmem => Text.not_mem_of_cutAt hcut (Text.trimWhile_subset _ _ hmem)
      · rw [Text.cutAt_eq_some hcut] at hs
        obtain ⟨n, hn, hs⟩ := Nesting.exists_of_isSome_run_append hs
        have hquotes : (n.step ':').QuotesOnly := (quotesOnly_top.run hn).step ':'
        have hcolon : ∀ t, n.run (· == ';') (':' :: t) = (n.step ':').run (· == ';') t := fun t => by
          rw [Nesting.run, if_neg (by simp)]
        have hspace : ∀ t, (n.step ':').run (· == ';') (' ' :: t) = (n.step ':').run (· == ';') t := fun t => by
          rw [Nesting.run, if_neg (by simp), Nesting.step_blank rfl hquotes]
        rw [Declaration.text, Nesting.run_append, Nesting.run_trim hstops quotesOnly_top, hn, Option.bind_some, hcolon,
          hspace, Nesting.run_trim hstops hquotes, ← hcolon]
        exact hs
  · cases h

theorem isProper_of_mem_parseDeclarations {s : String} {d : Declaration} (h : d ∈ parseDeclarations s) : d.IsProper := by
  obtain ⟨t, ht, hd⟩ := List.mem_filterMap.mp h
  exact isProper_of_parse? (isSome_run_of_mem_split ht) hd

end SvgComponent.Style
