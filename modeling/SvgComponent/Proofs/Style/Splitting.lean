/-
  SvgComponent.Proofs.Style.Splitting — where a style attribute is split.

  The parts, joined with semicolons, are the attribute again. A semicolon is where two parts meet (`MeetAt`) exactly if
  the quotes before it pair up, each with the next of its kind (`Unquoted`), and what stands outside them leaves no
  parenthesis open (`openCount`); `split_meetAt` says both.

  Splitting knows of an open quote and of the number of open parentheses. In a text whose quotes pair up it ends
  outside them with the count of what stands outside (`Unquoted.foldl_advance`), and it ends outside quotes only there
  (`exists_unquoted`).
-/

import SvgComponent.Proofs.Style.Nesting

namespace SvgComponent.Style

/-! ## Quotes that pair up, parentheses that are open -/

/-- The quotes in the text pair up, each with the next of its kind, and the second text is what stands outside them. -/
inductive Unquoted : List Char → List Char → Prop
  | nil : Unquoted [] []
  | plain {c : Char} {s bare : List Char} (hc : c ≠ '\"' ∧ c ≠ '\'') (h : Unquoted s bare) :
      Unquoted (c :: s) (c :: bare)
  | quoted {q : Char} {inside s bare : List Char} (hq : q = '\"' ∨ q = '\'') (hinside : q ∉ inside)
      (h : Unquoted s bare) : Unquoted (q :: (inside ++ q :: s)) bare

/-- How many parentheses are open after a character; a closing one too many counts for nothing. -/
def openAfter (n : Nat) (c : Char) : Nat := if c = '(' then n + 1 else if c = ')' then n - 1 else n

/-- How many parentheses are open after the text. -/
def openCount (s : List Char) : Nat := s.foldl openAfter 0

/-- One part ends before a semicolon and the next begins behind it: the parts up to it make the text before, those
    from it on make the text behind. -/
def MeetAt (parts : List (List Char)) (before behind : List Char) : Prop :=
  ∃ ps qs, parts = ps ++ qs ∧ ps ≠ [] ∧ qs ≠ [] ∧ [';'].intercalate ps = before ∧ [';'].intercalate qs = behind

/-! ## The state of splitting -/

/-- What splitting goes on with after a character. -/
def advance (state : Option Char × Nat) (c : Char) : Option Char × Nat :=
  (splitStep state.1 state.2 c).getD (none, 0)

theorem splitStep_eq_none_iff {p : Option Char × Nat} {c : Char} :
    splitStep p.1 p.2 c = none ↔ p = (none, 0) ∧ c = ';' := by
  obtain ⟨_ | q, depth⟩ := p
  · unfold splitStep
    dsimp only
    split_ifs with hsplit
    · exact ⟨fun _ => ⟨by rw [hsplit.2], hsplit.1⟩, fun _ => rfl⟩
    all_goals
      refine ⟨nofun, ?_⟩
      rintro ⟨heq, hc⟩
      exact absurd ⟨hc, congrArg Prod.snd heq⟩ hsplit
  · exact ⟨nofun, fun h => by cases h.1⟩

theorem advance_quoted (q c : Char) (n : Nat) : advance (some q, n) c = (if c = q then none else some q, n) := rfl

theorem advance_quote {q : Char} (hq : q = '\"' ∨ q = '\'') (n : Nat) : advance (none, n) q = (some q, n) := by
  rcases hq with rfl | rfl <;> rfl

theorem advance_plain {c : Char} (hc : c ≠ '\"' ∧ c ≠ '\'') (n : Nat) :
    advance (none, n) c = (none, openAfter n c) := by
  by_cases hsplit : c = ';' ∧ n = 0
  · obtain ⟨rfl, rfl⟩ := hsplit
    rfl
  · unfold advance splitStep openAfter
    dsimp only
    rw [if_neg hsplit, if_neg (not_or.mpr hc)]
    split_ifs <;> rfl

theorem foldl_advance_inside {q : Char} {inside : List Char} (h : q ∉ inside) (n : Nat) :
    inside.foldl advance (some q, n) = (some q, n) := by
  induction inside with
  | nil => rfl
  | cons c inside ih =>
    rw [List.mem_cons, not_or] at h
    rw [List.foldl_cons, advance_quoted, if_neg (Ne.symm h.1), ih h.2]

theorem Unquoted.foldl_advance {s bare : List Char} (h : Unquoted s bare) (n : Nat) :
    s.foldl advance (none, n) = (none, bare.foldl openAfter n) := by
  induction h generalizing n with
  | nil => rfl
  | plain hc _ ih => rw [List.foldl_cons, advance_plain hc, ih, List.foldl_cons]
  | @quoted q inside s bare hq hinside _ ih =>
    rw [List.foldl_cons, advance_quote hq, List.foldl_append, foldl_advance_inside hinside, List.foldl_cons,
      advance_quoted, if_pos rfl, ih]

/-- Where splitting ends outside quotes, they pair up; where it begins in a quote as well, one of its kind ends it. -/
theorem exists_unquoted (s : List Char) :
    (∀ n m, s.foldl advance (none, n) = (none, m) → ∃ bare, Unquoted s bare) ∧
    ∀ q n m, s.foldl advance (some q, n) = (none, m) →
      ∃ inside rest bare, s = inside ++ q :: rest ∧ q ∉ inside ∧ Unquoted rest bare := by
  induction s with
  | nil => exact ⟨fun _ _ _ => ⟨[], .nil⟩, nofun⟩
  | cons c s ih =>
    obtain ⟨outside, within⟩ := ih
    refine ⟨fun n m h => ?_, fun q n m h => ?_⟩
    · rw [List.foldl_cons] at h
      by_cases hc : c = '\"' ∨ c = '\''
      · rw [advance_quote hc] at h
        obtain ⟨inside, rest, bare, rfl, hinside, hrest⟩ := within c n m h
        exact ⟨bare, .quoted hc hinside hrest⟩
      · rw [not_or] at hc
        rw [advance_plain hc] at h
        obtain ⟨bare, hs⟩ := outside _ m h
        exact ⟨c :: bare, .plain hc hs⟩
    · rw [List.foldl_cons, advance_quoted] at h
      split at h
      · rename_i hend
        obtain ⟨bare, hs⟩ := outside n m h
        exact ⟨[], s, bare, by rw [hend, List.nil_append], List.not_mem_nil, hs⟩
      · rename_i hin
        obtain ⟨inside, rest, bare, rfl, hinside, hrest⟩ := within q n m h
        have hne : q ∉ c :: inside := by
          rw [List.mem_cons, not_or]
          exact ⟨Ne.symm hin, hinside⟩
        exact ⟨c :: inside, rest, bare, rfl, hne, hrest⟩

/-- Splitting is outside quotes and parentheses. -/
theorem foldl_advance_eq_iff {s : List Char} :
    s.foldl advance (none, 0) = (none, 0) ↔ ∃ bare, Unquoted s bare ∧ openCount bare = 0 := by
  constructor
  · intro h
    obtain ⟨bare, hs⟩ := (exists_unquoted s).1 0 0 h
    rw [hs.foldl_advance, Prod.mk.injEq] at h
    exact ⟨bare, hs, h.2⟩
  · rintro ⟨bare, hs, hbare⟩
    have hopen : bare.foldl openAfter 0 = 0 := hbare
    rw [hs.foldl_advance, hopen]

/-! ## The parts -/

theorem splitFrom_ne_nil (q : Option Char) (n : Nat) (s : List Char) : splitFrom q n s ≠ [] := by
  induction s generalizing q n with
  | nil => exact List.cons_ne_nil _ _
  | cons c s ih =>
    rw [splitFrom_cons]
    split
    · exact List.cons_ne_nil _ _
    · rename_i q' n' _
      exact mt List.modifyHead_eq_nil_iff.mp (ih q' n')

theorem intercalate_modifyHead {c : Char} {ps : List (List Char)} (h : ps ≠ []) :
    [';'].intercalate (ps.modifyHead (c :: ·)) = c :: [';'].intercalate ps := by
  cases ps with
  | nil => exact absurd rfl h
  | cons p ps =>
    cases ps with
    | nil => rw [List.modifyHead_cons, List.intercalate_singleton, List.intercalate_singleton]
    | cons p' ps => rw [List.modifyHead_cons, List.intercalate_cons_cons, List.intercalate_cons_cons]; rfl

theorem intercalate_nil_cons {ps : List (List Char)} (h : ps ≠ []) :
    [';'].intercalate ([] :: ps) = ';' :: [';'].intercalate ps := by
  cases ps with
  | nil => exact absurd rfl h
  | cons p ps => rw [List.intercalate_cons_cons]; rfl

theorem intercalate_splitFrom (q : Option Char) (n : Nat) (s : List Char) :
    [';'].intercalate (splitFrom q n s) = s := by
  induction s generalizing q n with
  | nil => rfl
  | cons c s ih =>
    rw [splitFrom_cons]
    cases hstep : splitStep q n c with
    | none =>
      obtain ⟨-, rfl⟩ := splitStep_eq_none_iff (p := (q, n)).mp hstep
      dsimp only
      rw [intercalate_nil_cons (splitFrom_ne_nil none 0 s), ih]
    | some next =>
      dsimp only
      rw [intercalate_modifyHead (splitFrom_ne_nil next.1 next.2 s), ih]

section

variable {parts : List (List Char)} {c : Char} {before behind : List Char}

/-- Where the first part is empty, the parts meet at the front. -/
theorem meetAt_nil_of_nil_cons (h : parts ≠ []) : MeetAt ([] :: parts) [] ([';'].intercalate parts) :=
  ⟨[[]], parts, rfl, List.cons_ne_nil _ _, h, rfl, rfl⟩

theorem not_meetAt_nil_of_modifyHead : ¬ MeetAt (parts.modifyHead (c :: ·)) [] behind := by
  rintro ⟨ps, qs, heq, hps, -, hnil, -⟩
  cases parts with
  | nil => exact hps (List.append_eq_nil_iff.mp heq.symm).1
  | cons p parts =>
    cases ps with
    | nil => exact hps rfl
    | cons p' ps =>
      rw [List.modifyHead_cons, List.cons_append, List.cons.injEq] at heq
      rw [← heq.1] at hnil
      have hhead := intercalate_modifyHead (c := c) (List.cons_ne_nil p ps)
      rw [List.modifyHead_cons, hnil] at hhead
      cases hhead

theorem meetAt_modifyHead_iff :
    MeetAt (parts.modifyHead (c :: ·)) (c :: before) behind ↔ MeetAt parts before behind := by
  constructor
  · rintro ⟨ps, qs, heq, hps, hqs, hbefore, hbehind⟩
    cases parts with
    | nil => exact absurd (List.append_eq_nil_iff.mp heq.symm).1 hps
    | cons p parts =>
      cases ps with
      | nil => exact absurd rfl hps
      | cons p' ps =>
        rw [List.modifyHead_cons, List.cons_append, List.cons.injEq] at heq
        obtain ⟨rfl, rfl⟩ := heq
        refine ⟨p :: ps, qs, rfl, List.cons_ne_nil _ _, hqs, ?_, hbehind⟩
        have hhead := intercalate_modifyHead (c := c) (List.cons_ne_nil p ps)
        rw [List.modifyHead_cons, hbefore] at hhead
        exact (List.cons.inj hhead).2.symm
  · rintro ⟨ps, qs, rfl, hps, hqs, rfl, rfl⟩
    refine ⟨ps.modifyHead (c :: ·), qs, ?_, mt List.modifyHead_eq_nil_iff.mp hps, hqs, intercalate_modifyHead hps, rfl⟩
    cases ps with
    | nil => exact absurd rfl hps
    | cons p ps => rfl

theorem meetAt_nil_cons_iff : MeetAt ([] :: parts) (';' :: before) behind ↔ MeetAt parts before behind := by
  constructor
  · rintro ⟨ps, qs, heq, hps, hqs, hbefore, hbehind⟩
    cases ps with
    | nil => exact absurd rfl hps
    | cons p ps =>
      rw [List.cons_append, List.cons.injEq] at heq
      obtain ⟨rfl, rfl⟩ := heq
      have hne : ps ≠ [] := by
        rintro rfl
        cases hbefore
      rw [intercalate_nil_cons hne] at hbefore
      exact ⟨ps, qs, rfl, hne, hqs, (List.cons.inj hbefore).2, hbehind⟩
  · rintro ⟨ps, qs, rfl, hps, hqs, rfl, rfl⟩
    exact ⟨[] :: ps, qs, rfl, List.cons_ne_nil _ _, hqs, intercalate_nil_cons hps, rfl⟩

end

/-- Two parts meet at a semicolon exactly if splitting gets to it outside quotes and parentheses. -/
theorem meetAt_splitFrom_iff (state : Option Char × Nat) (before behind : List Char) :
    MeetAt (splitFrom state.1 state.2 (before ++ ';' :: behind)) before behind ↔
      before.foldl advance state = (none, 0) := by
  induction before generalizing state with
  | nil =>
    rw [List.nil_append, splitFrom_cons, List.foldl_nil]
    cases hstep : splitStep state.1 state.2 ';' with
    | none =>
      have hmeet := meetAt_nil_of_nil_cons (splitFrom_ne_nil none 0 behind)
      rw [intercalate_splitFrom] at hmeet
      exact ⟨fun _ => (splitStep_eq_none_iff.mp hstep).1, fun _ => hmeet⟩
    | some next =>
      refine ⟨fun h => absurd h not_meetAt_nil_of_modifyHead, fun h => ?_⟩
      rw [splitStep_eq_none_iff.mpr ⟨h, rfl⟩] at hstep
      cases hstep
  | cons c before ih =>
    rw [List.cons_append, splitFrom_cons, List.foldl_cons, advance]
    cases hstep : splitStep state.1 state.2 c with
    | none =>
      obtain ⟨-, rfl⟩ := splitStep_eq_none_iff.mp hstep
      exact meetAt_nil_cons_iff.trans (ih (none, 0))
    | some next => exact meetAt_modifyHead_iff.trans (ih next)

/-- The parts joined are the whole, and they meet at the semicolons outside quotes and parentheses. -/
theorem split_meetAt : (∀ s, [';'].intercalate (split s) = s) ∧
    ∀ before behind, MeetAt (split (before ++ ';' :: behind)) before behind ↔
      ∃ bare, Unquoted before bare ∧ openCount bare = 0 :=
  ⟨intercalate_splitFrom none 0, fun before behind =>
    (meetAt_splitFrom_iff (none, 0) before behind).trans foldl_advance_eq_iff⟩

/-- A parenthesis that closes nothing, and a quote that is never closed. -/
example : split ['a', ')', ';', '\'', ';'] = [['a', ')'], ['\'', ';']] := by decide

end SvgComponent.Style
