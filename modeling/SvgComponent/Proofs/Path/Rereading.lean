/-
  SvgComponent.Proofs.Path.Rereading — segments that were read come back from what is written of them.

  `IsNumber` says which texts are numbers, `Kind.Admits` which are arguments of a kind, `Grouped` that arguments
  come in whole groups, and `Segment.Sound` that a segment is one that can be read.
  - `sound_of_parse`: every segment read from path data is sound.
  - `parse_write`: sound segments are read from their written form. The blank that is written after an argument
    ends it, and a letter begins no further group.
-/

import Mathlib.Data.List.Forall2
import SvgComponent.Path.Segment
import SvgComponent.Proofs.Text.Cut

namespace SvgComponent.Path

/-! ## The texts of arguments -/

inductive IsSign : List Char → Prop
  | none : IsSign []
  | minus : IsSign ['-']
  | plus : IsSign ['+']

inductive IsMantissa : List Char → Prop
  | whole {ds : List Char} : ds ≠ [] → (∀ c ∈ ds, c.isDigit = true) → IsMantissa ds
  | pointed {ds es : List Char} : ds ++ es ≠ [] → (∀ c ∈ ds, c.isDigit = true) → (∀ c ∈ es, c.isDigit = true) →
      IsMantissa (ds ++ '.' :: es)

inductive IsExponent : List Char → Prop
  | none : IsExponent []
  | power {e : Char} {sgn ds : List Char} : e = 'e' ∨ e = 'E' → IsSign sgn → ds ≠ [] →
      (∀ c ∈ ds, c.isDigit = true) → IsExponent (e :: sgn ++ ds)

/-- An optional sign, digits with an optional point, and an optional exponent. -/
inductive IsNumber : List Char → Prop
  | mk {sgn m e : List Char} : IsSign sgn → IsMantissa m → IsExponent e → IsNumber (sgn ++ m ++ e)

def Kind.Admits : Kind → List Char → Prop
  | number, a => IsNumber a
  | flag, a => a = ['0'] ∨ a = ['1']

/-- One or more groups, each of one argument of every kind. -/
inductive Grouped (kinds : List Kind) : List (List Char) → Prop
  | one {g : List (List Char)} : List.Forall₂ Kind.Admits kinds g → Grouped kinds g
  | more {g as : List (List Char)} : List.Forall₂ Kind.Admits kinds g → Grouped kinds as → Grouped kinds (g ++ as)

/-- A letter with the arguments it takes: none, or whole groups. -/
structure Segment.Sound (s : Segment) : Prop where
  letter : s.letter.isAlpha = true
  args : ∃ kinds, kinds? s.letter = some kinds ∧ if kinds = [] then s.args = [] else Grouped kinds s.args

theorem Grouped.append {kinds : List Kind} {as bs : List (List Char)} (ha : Grouped kinds as)
    (hb : Grouped kinds bs) : Grouped kinds (as ++ bs) := by
  induction ha with
  | one hg => exact .more hg hb
  | more hg _ ih => rw [List.append_assoc]; exact .more hg ih

/-! ## What is read is sound -/

theorem isSign_sign (s : List Char) : IsSign (sign s).1 := by
  unfold sign
  split
  · split
    · rename_i h
      rcases h with rfl | rfl
      · exact .minus
      · exact .plus
    · exact .none
  · exact .none

theorem isDigit_digits (s : List Char) : ∀ c ∈ (digits s).1, c.isDigit = true := by
  exact List.all_eq_true.mp List.all_takeWhile

theorem isMantissa_of_mantissa {s m r : List Char} (h : mantissa s = some (m, r)) : IsMantissa m := by
  unfold mantissa at h
  simp only at h
  split at h
  · rename_i r' _
    split at h
    · cases h
    · rename_i hne
      simp only [Option.some.injEq, Prod.mk.injEq] at h
      rw [← h.1]
      refine .pointed (fun he => hne ?_) (isDigit_digits s) (isDigit_digits r')
      obtain ⟨h1, h2⟩ := List.append_eq_nil_iff.mp he
      simp [h1, h2]
  · split at h
    · cases h
    · rename_i hne
      simp only [Option.some.injEq, Prod.mk.injEq] at h
      rw [← h.1]
      exact .whole (by simpa using hne) (isDigit_digits s)

theorem isExponent_exponent (s : List Char) : IsExponent (exponent s).1 := by
  cases s with
  | nil => exact .none
  | cons e r =>
    simp only [exponent]
    split
    · rename_i h
      exact .power h.1 (isSign_sign r) h.2 (isDigit_digits _)
    · exact .none

theorem isNumber_of_number? {s a r : List Char} (h : number? s = some (a, r)) : IsNumber a := by
  unfold number? at h
  simp only at h
  split at h
  · cases h
  · rename_i m r' hm
    simp only [Option.some.injEq, Prod.mk.injEq] at h
    rw [← h.1]
    exact .mk (isSign_sign s) (isMantissa_of_mantissa hm) (isExponent_exponent r')

theorem admits_of_argument {total : Nat} {kind : Kind} {s a r : List Char}
    (h : argument total kind s = .ok (a, r)) : kind.Admits a := by
  unfold argument at h
  cases kind with
  | number =>
    simp only at h
    split at h
    · rename_i hn
      simp only [Except.ok.injEq] at h
      subst h
      exact isNumber_of_number? hn
    · cases h
  | flag =>
    simp only at h
    split at h
    · cases h
    · split at h
      · rename_i hc
        simp only [Except.ok.injEq, Prod.mk.injEq] at h
        rw [← h.1]
        rcases hc with rfl | rfl
        · exact Or.inl rfl
        · exact Or.inr rfl
      · cases h

theorem admits_of_group {total : Nat} {kinds : List Kind} {s r : List Char} {as : List (List Char)}
    (h : group total kinds s = .ok (as, r)) : List.Forall₂ Kind.Admits kinds as := by
  induction kinds generalizing s r as with
  | nil =>
    simp only [group, Except.ok.injEq, Prod.mk.injEq] at h
    rw [← h.1]
    exact .nil
  | cons kind kinds ih =>
    unfold group at h
    split at h
    · cases h
    · rename_i a s' ha
      split at h
      · cases h
      · rename_i as' r' hg
        simp only [Except.ok.injEq, Prod.mk.injEq] at h
        rw [← h.1]
        exact .cons (admits_of_argument ha) (ih hg)

theorem grouped_of_groups {total : Nat} {kind : Kind} {kinds : List Kind} {s r : List Char}
    {as : List (List Char)} (h : groups total kind kinds s = .ok (as, r)) : Grouped (kind :: kinds) as := by
  induction hn : s.length using Nat.strongRecOn generalizing s as r with
  | _ n ih =>
    subst hn
    unfold groups at h
    split at h
    · cases h
    · rename_i g s' hg
      have h1 := length_group hg
      have h2 := length_skipSeparator s'
      simp only [List.length_cons] at h1
      split at h
      · split at h
        · cases h
        · rename_i bs r' hr
          simp only [Except.ok.injEq, Prod.mk.injEq] at h
          rw [← h.1]
          exact .more (admits_of_group hg) (ih _ (by omega) hr rfl)
      · simp only [Except.ok.injEq, Prod.mk.injEq] at h
        rw [← h.1]
        exact .one (admits_of_group hg)

theorem sound_of_arguments {total : Nat} {c : Char} {s r : List Char} {as : List (List Char)}
    (hc : c.isAlpha = true) (h : arguments total c s = .ok (as, r)) : Segment.Sound ⟨c, as⟩ := by
  unfold arguments at h
  split at h
  · cases h
  · rename_i hk
    simp only [Except.ok.injEq, Prod.mk.injEq] at h
    exact ⟨hc, [], hk, by simp [h.1]⟩
  · rename_i kind kinds hk
    exact ⟨hc, kind :: kinds, hk, by simpa using grouped_of_groups h⟩

theorem sound_of_segments {total : Nat} {s : List Char} {segs : List Segment} (h : segments total s = .ok segs) :
    ∀ seg ∈ segs, seg.Sound := by
  induction hn : s.length using Nat.strongRecOn generalizing s segs with
  | _ n ih =>
    subst hn
    unfold segments at h
    split at h
    · simp only [Except.ok.injEq] at h
      subst h
      intro seg hseg
      cases hseg
    · rename_i c r
      split at h
      · rename_i hc
        split at h
        · cases h
        · rename_i args rest ha
          have hlen := length_arguments ha
          split at h
          · cases h
          · rename_i segs' hs
            simp only [Except.ok.injEq] at h
            subst h
            intro seg hseg
            rcases List.mem_cons.mp hseg with rfl | hseg
            · exact sound_of_arguments hc ha
            · exact ih _ (by simp only [List.length_cons]; omega) hs rfl seg hseg
      · cases h

/-- Every segment read from path data is sound. -/
theorem sound_of_parse {d : String} {segs : List Segment} (h : parse d = .ok segs) : ∀ seg ∈ segs, seg.Sound :=
  sound_of_segments h

/-! ## What ends an argument -/

/-- The end of the text, or the blank that is written before what follows. -/
inductive Ends : List Char → Prop
  | nil : Ends []
  | blank (s : List Char) : Ends (' ' :: s)

theorem Ends.stops {s : List Char} (h : Ends s) : Text.Stops Char.isDigit s := by
  cases h with
  | nil => exact Text.stops_nil
  | blank s => exact Text.stops_cons rfl s

theorem digits_append_stop {ds s : List Char} (hd : ∀ c ∈ ds, c.isDigit = true)
    (hs : Text.Stops Char.isDigit s) : digits (ds ++ s) = (ds, s) := by
  unfold digits
  rw [Text.takeWhile_append_stop hd hs, Text.dropWhile_append_stop hd hs]

/-- A sign is one, and nothing else is taken for one. -/
theorem sign_append_stop {sgn s : List Char} (h : IsSign sgn) (hs : ∀ c ∈ s.head?, c ≠ '-' ∧ c ≠ '+') :
    sign (sgn ++ s) = (sgn, s) := by
  cases h with
  | none =>
    cases s with
    | nil => rfl
    | cons c s =>
      have := hs c rfl
      simp [sign, this.1, this.2]
  | minus => simp [sign]
  | plus => simp [sign]

theorem not_sign_of_isDigit {ds s : List Char} (hne : ds ≠ []) (hd : ∀ c ∈ ds, c.isDigit = true) :
    ∀ c ∈ (ds ++ s).head?, c ≠ '-' ∧ c ≠ '+' := by
  cases ds with
  | nil => exact absurd rfl hne
  | cons d ds =>
    intro c hc
    cases hc
    have := hd d (by simp)
    constructor
    · intro heq
      subst heq
      cases this
    · intro heq
      subst heq
      cases this

theorem exponent_append_ends {e s : List Char} (h : IsExponent e) (hs : Ends s) : exponent (e ++ s) = (e, s) := by
  cases h with
  | none =>
    cases hs with
    | nil => rfl
    | blank s => simp [exponent]
  | @power e sgn ds he hsgn hne hd =>
    have h1 : sign (sgn ++ (ds ++ s)) = (sgn, ds ++ s) := sign_append_stop hsgn (not_sign_of_isDigit hne hd)
    have h2 : digits (ds ++ s) = (ds, s) := digits_append_stop hd hs.stops
    simp only [List.cons_append, List.append_assoc, exponent, h1, h2]
    rw [if_pos ⟨he, hne⟩]

theorem IsExponent.stops {e s : List Char} (h : IsExponent e) (hs : Ends s) :
    ∀ c ∈ (e ++ s).head?, c.isDigit = false ∧ c ≠ '.' := by
  intro c hc
  cases h with
  | none =>
    cases hs with
    | nil => cases hc
    | blank s => cases hc; exact ⟨rfl, by decide⟩
  | power he =>
    cases hc
    rcases he with rfl | rfl
    · exact ⟨rfl, by decide⟩
    · exact ⟨rfl, by decide⟩

theorem mantissa_append_stop {m s : List Char} (h : IsMantissa m)
    (hs : ∀ c ∈ s.head?, c.isDigit = false ∧ c ≠ '.') : mantissa (m ++ s) = some (m, s) := by
  have stops : Text.Stops Char.isDigit s := fun c hc => (hs c hc).1
  cases h with
  | whole hne hd =>
    unfold mantissa
    rw [digits_append_stop hd stops]
    cases s with
    | nil => simpa using hne
    | cons c s =>
      have hc : c ≠ '.' := (hs c rfl).2
      simp only
      split
      · rename_i he
        exact absurd (List.cons.inj he).1 hc
      · simpa using hne
  | @pointed ds es hne hd he =>
    have h1 : digits (ds ++ ('.' :: (es ++ s))) = (ds, '.' :: (es ++ s)) :=
      digits_append_stop hd (Text.stops_cons rfl _)
    have h2 : digits (es ++ s) = (es, s) := digits_append_stop he stops
    have hne' : ¬ (ds.isEmpty && es.isEmpty) = true := by
      intro hn
      simp only [Bool.and_eq_true, List.isEmpty_iff] at hn
      exact hne (by simp [hn.1, hn.2])
    simp only [List.append_assoc, List.cons_append, mantissa, h1, h2]
    rw [if_neg hne']

theorem IsMantissa.not_sign {m s : List Char} (h : IsMantissa m) : ∀ c ∈ (m ++ s).head?, c ≠ '-' ∧ c ≠ '+' := by
  cases h with
  | whole hne hd => exact not_sign_of_isDigit hne hd
  | @pointed ds es hne hd he =>
    cases ds with
    | nil => intro c hc; cases hc; exact ⟨by decide, by decide⟩
    | cons d ds =>
      rw [List.append_assoc]
      exact not_sign_of_isDigit (by simp) hd

theorem number?_append_ends {a s : List Char} (h : IsNumber a) (hs : Ends s) : number? (a ++ s) = some (a, s) := by
  cases h with
  | @mk sgn m e hsgn hm he =>
    have h1 : sign (sgn ++ (m ++ (e ++ s))) = (sgn, m ++ (e ++ s)) := sign_append_stop hsgn hm.not_sign
    have h2 : mantissa (m ++ (e ++ s)) = some (m, e ++ s) := mantissa_append_stop hm (he.stops hs)
    have h3 : exponent (e ++ s) = (e, s) := exponent_append_ends he hs
    simp only [List.append_assoc, number?, h1, h2, h3]

/-! ## Arguments from their written form -/

/-- Arguments each with the blank before it. -/
def spaced (as : List (List Char)) : List Char := as.flatMap (' ' :: ·)

theorem ends_spaced_append (as : List (List Char)) {s : List Char} (hs : Ends s) : Ends (spaced as ++ s) := by
  cases as with
  | nil => exact hs
  | cons a as => exact .blank _

/-- An argument begins with a digit, a point or a sign. -/
theorem Kind.Admits.begins {kind : Kind} {a : List Char} (h : kind.Admits a) :
    ∃ c r, a = c :: r ∧ startsNumber (c :: r) = true := by
  cases kind with
  | flag =>
    rcases h with rfl | rfl
    · exact ⟨'0', [], rfl, rfl⟩
    · exact ⟨'1', [], rfl, rfl⟩
  | number =>
    cases h with
    | @mk sgn m e hsgn hm _ =>
      cases hsgn with
      | minus => exact ⟨'-', m ++ e, rfl, rfl⟩
      | plus => exact ⟨'+', m ++ e, rfl, rfl⟩
      | none =>
        cases hm with
        | whole hne hd =>
          cases m with
          | nil => exact absurd rfl hne
          | cons d m => exact ⟨d, m ++ e, rfl, by simp [startsNumber, hd d (by simp)]⟩
        | @pointed ds es _ hd _ =>
          cases ds with
          | nil => exact ⟨'.', es ++ e, rfl, rfl⟩
          | cons d ds => exact ⟨d, ds ++ '.' :: es ++ e, rfl, by simp [startsNumber, hd d (by simp)]⟩

theorem startsNumber_append {s : List Char} (t : List Char) (h : startsNumber s = true) :
    startsNumber (s ++ t) = true := by
  cases s with
  | nil => cases h
  | cons c s => exact h

/-- Where a number may begin there is nothing to skip. -/
theorem skipSeparator_of_startsNumber {s : List Char} (h : startsNumber s = true) : skipSeparator s = s := by
  cases s with
  | nil => cases h
  | cons c s =>
    have hb : Text.isAsciiBlank c = false := by
      cases hc : Text.isAsciiBlank c with
      | false => rfl
      | true =>
        simp only [Text.isAsciiBlank, Bool.or_eq_true, beq_iff_eq] at hc
        rcases hc with (((rfl | rfl) | rfl) | rfl) | rfl <;> cases h
    have hcomma : c ≠ ',' := by
      intro heq
      subst heq
      cases h
    have hskip : skipBlank (c :: s) = c :: s := List.dropWhile_cons_of_neg (by simp [hb])
    unfold skipSeparator
    rw [hskip]
    split
    · rename_i he
      exact absurd (List.cons.inj he).1 hcomma
    · rfl

theorem skipSeparator_blank (s : List Char) : skipSeparator (' ' :: s) = skipSeparator s := by
  have : skipBlank (' ' :: s) = skipBlank s := List.dropWhile_cons_of_pos rfl
  unfold skipSeparator
  rw [this]

theorem skipSeparator_spaced {kind : Kind} {a : List Char} (h : kind.Admits a) (s : List Char) :
    skipSeparator (' ' :: a ++ s) = a ++ s := by
  obtain ⟨c, r, rfl, hc⟩ := h.begins
  rw [List.cons_append, skipSeparator_blank, skipSeparator_of_startsNumber (startsNumber_append s hc)]

theorem argument_spaced (total : Nat) {kind : Kind} {a s : List Char} (h : kind.Admits a) (hs : Ends s) :
    argument total kind (' ' :: a ++ s) = .ok (a, s) := by
  unfold argument
  rw [skipSeparator_spaced h]
  cases kind with
  | number => simp only [number?_append_ends h hs]
  | flag => rcases h with rfl | rfl <;> rfl

theorem group_spaced (total : Nat) {kinds : List Kind} {as : List (List Char)} {s : List Char}
    (h : List.Forall₂ Kind.Admits kinds as) (hs : Ends s) : group total kinds (spaced as ++ s) = .ok (as, s) := by
  induction h with
  | nil => rfl
  | @cons kind a kinds as ha _ ih =>
    have hrest : spaced (a :: as) ++ s = ' ' :: a ++ (spaced as ++ s) := by simp [spaced]
    rw [hrest, group, argument_spaced total ha (ends_spaced_append as hs)]
    simp only [ih]

theorem groups_eq (total : Nat) (kind : Kind) (kinds : List Kind) (s : List Char) :
    groups total kind kinds s =
      match group total (kind :: kinds) s with
      | .error f => .error f
      | .ok (as, s') =>
        if startsNumber (skipSeparator s') then
          match groups total kind kinds (skipSeparator s') with
          | .error f => .error f
          | .ok (bs, r) => .ok (as ++ bs, r)
        else .ok (as, skipSeparator s') := by
  conv => lhs; unfold groups
  cases group total (kind :: kinds) s with
  | error f => rfl
  | ok p => rfl

/-- The blank before the first argument makes no difference. -/
theorem groups_blank (total : Nat) (kind : Kind) (kinds : List Kind) (s : List Char) :
    groups total kind kinds (' ' :: s) = groups total kind kinds s := by
  have hg : group total (kind :: kinds) (' ' :: s) = group total (kind :: kinds) s := by
    simp only [group, argument, skipSeparator_blank]
  rw [groups_eq, groups_eq total kind kinds s, hg]

theorem Grouped.exists_cons {kind : Kind} {kinds : List Kind} {as : List (List Char)}
    (h : Grouped (kind :: kinds) as) : ∃ a bs, kind.Admits a ∧ as = a :: bs := by
  cases h with
  | one h => cases h with | cons ha _ => exact ⟨_, _, ha, rfl⟩
  | more h _ => cases h with | cons ha _ => exact ⟨_, _, ha, rfl⟩

/-- Groups begin with a blank and an argument. -/
theorem Grouped.spaced_append {kind : Kind} {kinds : List Kind} {as : List (List Char)}
    (h : Grouped (kind :: kinds) as) (s : List Char) :
    ∃ t, spaced as ++ s = ' ' :: t ∧ skipSeparator (' ' :: t) = t ∧ startsNumber t = true := by
  obtain ⟨a, bs, ha, rfl⟩ := h.exists_cons
  refine ⟨a ++ (spaced bs ++ s), by simp [spaced], skipSeparator_spaced ha _, ?_⟩
  obtain ⟨c, r, rfl, hc⟩ := ha.begins
  exact startsNumber_append _ hc

/-- No further group begins at `s`. -/
def NoGroup (s : List Char) : Prop := startsNumber (skipSeparator s) = false

theorem groups_spaced (total : Nat) {kind : Kind} {kinds : List Kind} {as : List (List Char)} {s : List Char}
    (h : Grouped (kind :: kinds) as) (hs : Ends s) (hn : NoGroup s) :
    groups total kind kinds (spaced as ++ s) = .ok (as, skipSeparator s) := by
  induction h with
  | @one g hg =>
    have hn' : startsNumber (skipSeparator s) = false := hn
    rw [groups_eq, group_spaced total hg hs]
    simp only [hn', Bool.false_eq_true, if_false]
  | @more g as hg hrest ih =>
    have hsplit : spaced (g ++ as) ++ s = spaced g ++ (spaced as ++ s) := by simp [spaced]
    obtain ⟨t, ht, hskip, hstart⟩ := hrest.spaced_append s
    -- the reader goes on after a group, past the blank
    have htail : groups total kind kinds t = .ok (as, skipSeparator s) := by
      rw [← groups_blank, ← ht]
      exact ih
    rw [hsplit, groups_eq, group_spaced total hg (ends_spaced_append as hs), ht]
    simp only [hskip, hstart, htail, if_true]

/-! ## Segments from their written form -/

theorem intercalate_cons_eq (a : List Char) (as : List (List Char)) :
    [' '].intercalate (a :: as) = a ++ spaced as := by
  induction as generalizing a with
  | nil => simp [spaced]
  | cons b as ih => rw [List.intercalate_cons_cons, ih]; simp [spaced]

/-- A letter begins no argument. -/
theorem isAlpha_begins {c : Char} (h : c.isAlpha = true) (s : List Char) :
    skipSeparator (c :: s) = c :: s ∧ skipBlank (c :: s) = c :: s ∧ startsNumber (c :: s) = false := by
  have hd : c.isDigit = false := by
    have h : (decide (c.val ≥ 65 ∧ c.val ≤ 90) || (decide (c.val ≥ 97) && decide (c.val ≤ 122))) = true := h
    simp only [Char.isDigit, Bool.or_eq_true, Bool.and_eq_true, decide_eq_true_eq] at h ⊢
    grind
  have hb : Text.isAsciiBlank c = false := by
    cases hc : Text.isAsciiBlank c with
    | false => rfl
    | true =>
      simp only [Text.isAsciiBlank, Bool.or_eq_true, beq_iff_eq] at hc
      rcases hc with (((rfl | rfl) | rfl) | rfl) | rfl <;> cases h
  have hskip : skipBlank (c :: s) = c :: s := List.dropWhile_cons_of_neg (by simp [hb])
  have hne : ∀ d : Char, d.isAlpha = false → c ≠ d := by
    intro d hd heq
    subst heq
    rw [h] at hd
    cases hd
  refine ⟨?_, hskip, ?_⟩
  · unfold skipSeparator
    rw [hskip]
    split
    · rename_i he
      exact absurd (List.cons.inj he).1 (hne ',' rfl)
    · rfl
  · simp [startsNumber, hd, hne '.' rfl, hne '-' rfl, hne '+' rfl]

/-- Segments each with the blank before it. -/
def spacedTexts (segs : List Segment) : List Char := segs.flatMap fun s => ' ' :: s.text

theorem spacedTexts_cons (seg : Segment) (segs : List Segment) :
    spacedTexts (seg :: segs) = ' ' :: seg.letter :: ([' '].intercalate seg.args ++ spacedTexts segs) := by
  simp [spacedTexts, Segment.text]

theorem ends_spacedTexts (segs : List Segment) : Ends (spacedTexts segs) := by
  cases segs with
  | nil => exact .nil
  | cons seg segs => rw [spacedTexts_cons]; exact .blank _

theorem skipSeparator_spacedTexts {seg : Segment} (h : seg.Sound) (segs : List Segment) :
    skipSeparator (spacedTexts (seg :: segs)) = seg.letter :: ([' '].intercalate seg.args ++ spacedTexts segs) := by
  rw [spacedTexts_cons, skipSeparator_blank]
  exact (isAlpha_begins h.letter _).1

theorem noGroup_spacedTexts {segs : List Segment} (h : ∀ seg ∈ segs, seg.Sound) : NoGroup (spacedTexts segs) := by
  cases segs with
  | nil => rfl
  | cons seg segs =>
    have hs := h seg (by simp)
    unfold NoGroup
    rw [skipSeparator_spacedTexts hs]
    exact (isAlpha_begins hs.letter _).2.2

theorem arguments_text (total : Nat) {seg : Segment} (h : seg.Sound) {s : List Char} (hs : Ends s) (hn : NoGroup s) :
    arguments total seg.letter ([' '].intercalate seg.args ++ s) = .ok (seg.args, skipSeparator s) := by
  obtain ⟨_, kinds, hk, hargs⟩ := h
  unfold arguments
  rw [hk]
  cases kinds with
  | nil =>
    rw [if_pos rfl] at hargs
    rw [hargs]
    rfl
  | cons kind kinds =>
    rw [if_neg (by simp)] at hargs
    obtain ⟨a, as, _, he⟩ := hargs.exists_cons
    have hspaced : ' ' :: ([' '].intercalate seg.args ++ s) = spaced seg.args ++ s := by
      rw [he, intercalate_cons_eq]
      simp [spaced]
    show groups total kind kinds ([' '].intercalate seg.args ++ s) = .ok (seg.args, skipSeparator s)
    rw [← groups_blank, hspaced]
    exact groups_spaced total hargs hs hn

theorem segments_spacedTexts (total : Nat) {segs : List Segment} (h : ∀ seg ∈ segs, seg.Sound) :
    segments total (skipSeparator (spacedTexts segs)) = .ok segs := by
  induction segs with
  | nil => rw [show skipSeparator (spacedTexts []) = [] from rfl, segments]
  | cons seg segs ih =>
    have hs := h seg (by simp)
    have htail : ∀ seg ∈ segs, seg.Sound := fun seg hseg => h seg (List.mem_cons_of_mem _ hseg)
    have hargs := arguments_text total hs (ends_spacedTexts segs) (noGroup_spacedTexts htail)
    rw [skipSeparator_spacedTexts hs, segments, if_pos hs.letter]
    split
    · rename_i he
      rw [hargs] at he
      cases he
    · rename_i args rest he
      rw [hargs] at he
      cases he
      rw [ih htail]

/-- Sound segments are read from their written form. -/
theorem parse_write {segs : List Segment} (h : ∀ seg ∈ segs, seg.Sound) : parse (write segs) = .ok segs := by
  have htext : skipBlank ([' '].intercalate (segs.map Segment.text)) = skipSeparator (spacedTexts segs) := by
    cases segs with
    | nil => rfl
    | cons seg segs =>
      have hs := h seg (by simp)
      have hjoin : [' '].intercalate ((seg :: segs).map Segment.text) =
          seg.letter :: ([' '].intercalate seg.args ++ spacedTexts segs) := by
        rw [List.map_cons, intercalate_cons_eq]
        simp [Segment.text, spaced, spacedTexts, List.flatMap_map]
      rw [skipSeparator_spacedTexts hs, hjoin, (isAlpha_begins hs.letter _).2.1]
  unfold parse write
  rw [String.toList_ofList, htext]
  exact segments_spacedTexts _ h

end SvgComponent.Path
