/-
  SvgComponent.Proofs.Path.Offsets — reading path data by positions in its bytes never faults.

  Every scan goes on at a position between characters if it began at one, and stops where the scan of `Segment` over
  what is left there stops (`Lands`). One lemma says so for each scan: of characters of a kind (`skipWhile?_offset`),
  of numbers with the look at what follows an exponent's letter (`exponent?_offset`, `number?_lands`), and of arguments
  in groups (`groups?_lands`). So path data is read as `parse` reads it, for every text (`parse?_eq`).
-/

import Mathlib.Data.List.DropRight
import SvgComponent.Path.Offsets
import SvgComponent.Proofs.Path.Joining
import SvgComponent.Proofs.Text.Offsets

namespace SvgComponent.Path.Offsets

open Text (slice? offset)

variable {s : String} {c : Char} {r : List Char} {p : Char → Bool}

/-! ## Characters of a kind -/

theorem slice?_rest (h : r <:+ s.toList) : slice? s (offset s r) s.utf8ByteSize = some r := by
  have hslice := Text.slice?_offset (t := r) (r := []) (by rwa [List.append_nil])
  rwa [List.append_nil, Text.offset_nil] at hslice

theorem peek?_offset (h : r <:+ s.toList) : peek? s (offset s r) = some r.head? := by
  rw [peek?, slice?_rest h, Option.map_some]

/-- What is left behind a character of the kind, or all. -/
def dropOne (p : Char → Bool) : List Char → List Char
  | c :: r => if p c then r else c :: r
  | [] => []

theorem suffix_dropOne (p : Char → Bool) (r : List Char) : dropOne p r <:+ r := by
  cases r with
  | nil => exact List.suffix_refl _
  | cons c r =>
    rw [dropOne]
    split_ifs
    · exact List.suffix_cons c r
    · exact List.suffix_refl _

theorem skipOne?_offset (p : Char → Bool) (h : r <:+ s.toList) :
    skipOne? p s (offset s r) = some (offset s (dropOne p r)) := by
  unfold skipOne?
  rw [peek?_offset h, Option.bind_eq_bind, Option.bind_some]
  cases r with
  | nil => rfl
  | cons c r =>
    dsimp only [List.head?_cons, dropOne]
    rw [Text.offset_cons h]
    split_ifs <;> rfl

theorem skipWhile?_eq (p : Char → Bool) (s : String) (pos : Nat) : skipWhile? p s pos =
    match peek? s pos with
    | none => none
    | some none => some (0, pos)
    | some (some c) =>
      if p c then (skipWhile? p s (pos + c.utf8Size)).map fun (n, stop) => (n + 1, stop) else some (0, pos) := by
  rw [skipWhile?]
  split
  all_goals
    rename_i hpeek
    generalize peek? s pos = o at hpeek ⊢
    subst hpeek
    rfl

theorem skipWhile?_offset (p : Char → Bool) (h : r <:+ s.toList) :
    skipWhile? p s (offset s r) = some ((r.takeWhile p).length, offset s (r.dropWhile p)) := by
  induction r with
  | nil =>
    rw [skipWhile?_eq, peek?_offset h]
    rfl
  | cons c r ih =>
    rw [skipWhile?_eq, peek?_offset h]
    dsimp only [List.head?_cons]
    by_cases hc : p c
    · rw [if_pos hc, Text.offset_cons h, ih (Text.suffix_of_cons h), List.takeWhile_cons_of_pos hc,
        List.dropWhile_cons_of_pos hc]
      rfl
    · rw [if_neg hc, List.takeWhile_cons_of_neg hc, List.dropWhile_cons_of_neg hc]
      rfl

theorem skipBlank?_offset (h : r <:+ s.toList) : skipBlank? s (offset s r) = some (offset s (skipBlank r)) := by
  rw [skipBlank?, skipWhile?_offset _ h]
  rfl

theorem suffix_skipBlank (r : List Char) : skipBlank r <:+ r := List.dropWhile_suffix _

theorem skipSeparator_eq (r : List Char) : skipSeparator r = skipBlank (dropOne (· == ',') (skipBlank r)) := by
  unfold skipSeparator
  split
  · rename_i t ht
    rw [ht]
    rfl
  · rename_i hne
    cases ht : skipBlank r with
    | nil => rfl
    | cons c t =>
      have hc : (c == ',') = false := beq_eq_false_iff_ne.mpr (by rintro rfl; exact hne t ht)
      rw [dropOne, hc, if_neg Bool.false_ne_true, ← ht, skipBlank, skipBlank, List.dropWhile_idempotent]

theorem suffix_skipSeparator (r : List Char) : skipSeparator r <:+ r := by
  rw [skipSeparator_eq]
  exact (suffix_skipBlank _).trans ((suffix_dropOne _ _).trans (suffix_skipBlank r))

theorem skipSeparator?_offset (h : r <:+ s.toList) :
    skipSeparator? s (offset s r) = some (offset s (skipSeparator r)) := by
  have hblank := (suffix_skipBlank r).trans h
  have hcomma := (suffix_dropOne (· == ',') _).trans hblank
  rw [skipSeparator?, skipBlank?_offset h, Option.bind_eq_bind, Option.bind_some, skipOne?_offset _ hblank,
    Option.bind_some, skipBlank?_offset hcomma, skipSeparator_eq]

/-! ## Numbers and flags -/

theorem sign_eq (r : List Char) : (sign r).2 = dropOne isSign r := by
  cases r with
  | nil => rfl
  | cons c r =>
    have hsign : isSign c = true ↔ c = '-' ∨ c = '+' := by rw [isSign, Bool.or_eq_true, beq_iff_eq, beq_iff_eq]
    rw [sign, dropOne]
    split_ifs <;> simp_all

theorem suffix_sign (r : List Char) : (sign r).2 <:+ r := ⟨(sign r).1, sign_append r⟩

theorem suffix_digits (r : List Char) : (digits r).2 <:+ r := List.dropWhile_suffix _

theorem skipDigits?_offset (h : r <:+ s.toList) :
    skipWhile? Char.isDigit s (offset s r) = some ((digits r).1.length, offset s (digits r).2) :=
  skipWhile?_offset Char.isDigit h

theorem skipSign?_offset (h : r <:+ s.toList) : skipOne? isSign s (offset s r) = some (offset s (sign r).2) := by
  rw [skipOne?_offset isSign h, sign_eq]

theorem mantissa?_offset (h : r <:+ s.toList) :
    mantissa? s (offset s r) = some ((mantissa r).map fun a => offset s a.2) := by
  have hwhole := (suffix_digits r).trans h
  unfold mantissa? mantissa
  rw [skipDigits?_offset h, Option.bind_eq_bind, Option.bind_some]
  dsimp only
  rw [peek?_offset hwhole, Option.bind_eq_bind, Option.bind_some]
  by_cases hpoint : (digits r).2.head? = some '.'
  · obtain ⟨t, ht⟩ : ∃ t, (digits r).2 = '.' :: t := List.head?_eq_some_iff.mp hpoint
    rw [ht] at hwhole
    rw [if_pos hpoint, ht, Text.offset_cons hwhole, skipDigits?_offset (Text.suffix_of_cons hwhole), Option.bind_some]
    have hnone : ((digits r).1.isEmpty && (digits t).1.isEmpty) = true ↔
        (digits r).1.length + (digits t).1.length = 0 := by
      rw [Bool.and_eq_true, List.isEmpty_iff_length_eq_zero, List.isEmpty_iff_length_eq_zero, Nat.add_eq_zero_iff]
    simp only [hnone]
    split_ifs <;> rfl
  · have hnone : (digits r).1.isEmpty = true ↔ (digits r).1.length = 0 := List.isEmpty_iff_length_eq_zero
    rw [if_neg hpoint]
    simp only [hnone]
    split_ifs
    all_goals
      split
      · rename_i ht
        exact absurd (ht ▸ rfl) hpoint
      · rfl

/-- Digits follow if one does. -/
theorem head?_isDigit (r : List Char) : r.head?.any Char.isDigit = true ↔ (digits r).1 ≠ [] := by
  cases r with
  | nil => simp [digits]
  | cons c r =>
    by_cases hc : c.isDigit = true
    · simp [digits, hc]
    · simp [digits, hc]

theorem exponent?_offset (h : r <:+ s.toList) : exponent? s (offset s r) = some (offset s (exponent r).2) := by
  unfold exponent?
  rw [peek?_offset h, Option.bind_eq_bind, Option.bind_some]
  cases r with
  | nil => rfl
  | cons e r =>
    have hr := Text.suffix_of_cons h
    dsimp only [List.head?_cons, exponent]
    by_cases he : e = 'e' ∨ e = 'E'
    · have hsize : e.utf8Size = 1 := by rcases he with rfl | rfl <;> rfl
      have hahead : slice? s (offset s (e :: r) + 1) s.utf8ByteSize = some r := by
        rw [← hsize, Text.offset_cons h, slice?_rest hr]
      simp only [if_pos he, hahead, Option.bind_eq_bind, Option.bind_some]
      by_cases hpower : (sign r).2.head?.any Char.isDigit = true
      · have hsign := (suffix_sign r).trans hr
        rw [if_pos hpower, if_pos ⟨he, (head?_isDigit _).mp hpower⟩, Text.offset_cons h, skipSign?_offset hr,
          Option.bind_some, skipDigits?_offset hsign]
        rfl
      · rw [if_neg hpower, if_neg fun hdigits => hpower ((head?_isDigit _).mpr hdigits.2)]
        rfl
    · rw [if_neg he, if_neg fun hpower => he hpower.1]
      rfl

/-- What was read, and where the text goes on behind it. -/
def place {α : Type} (s : String) (a : α × List Char) : α × Nat := (a.1, offset s a.2)

/-- The scan gives what one over what is left of the text gives, and goes on between characters. -/
structure Lands {α : Type} (s : String) (got : Option (Except PathFault (α × Nat)))
    (want : Except PathFault (α × List Char)) : Prop where
  same : got = some (want.map (place s))
  suffix : ∀ a r, want = .ok (a, r) → r <:+ s.toList

theorem Lands.error {α : Type} (s : String) (f : PathFault) :
    Lands (α := α) s (some (.error f)) (.error f) := by
  refine ⟨rfl, fun a r h => ?_⟩
  cases h

theorem Lands.ok {α : Type} (a : α) (h : r <:+ s.toList) : Lands s (some (.ok (a, offset s r))) (.ok (a, r)) := by
  refine ⟨rfl, fun b t heq => ?_⟩
  cases heq
  exact h

theorem number?_lands (h : r <:+ s.toList) : Lands s (number? s (offset s r))
    (match Path.number? r with | some a => .ok a | none => .error (.noNumber (offset s r))) := by
  have hsign := (suffix_sign r).trans h
  unfold number?
  simp only [skipSign?_offset h, mantissa?_offset hsign, Option.bind_eq_bind, Option.bind_some]
  cases hmantissa : mantissa (sign r).2 with
  | none =>
    have hnumber : Path.number? r = none := by
      unfold Path.number?
      dsimp only
      rw [hmantissa]
    rw [hnumber]
    exact .error s _
  | some a =>
    obtain ⟨m, t⟩ := a
    have hnumber : Path.number? r = some ((sign r).1 ++ m ++ (exponent t).1, (exponent t).2) := by
      unfold Path.number?
      dsimp only
      rw [hmantissa]
    have htaken := (number?_append hnumber).1
    have ht : t <:+ s.toList := List.IsSuffix.trans ⟨m, (mantissa_append hmantissa).1.symm⟩ hsign
    have hslice := Text.slice?_offset (htaken ▸ h)
    rw [← htaken] at hslice
    simp only [Option.map_some, exponent?_offset ht, hslice, Option.bind_some, hnumber]
    exact .ok _ (List.IsSuffix.trans ⟨_, exponent_append t⟩ ht)

theorem flag?_lands (r : List Char) : r <:+ s.toList → Lands s (flag? s (offset s r))
    (match r with
      | [] => .error .noFlag
      | c :: r => if c = '0' ∨ c = '1' then .ok ([c], r) else .error (.badFlag c)) := by
  intro h
  unfold flag?
  simp only [peek?_offset h, Option.bind_eq_bind, Option.bind_some]
  cases r with
  | nil => exact .error s _
  | cons c r =>
    have hslice : slice? s (offset s (c :: r)) (offset s r) = some [c] := Text.slice?_offset (t := [c]) h
    dsimp only [List.head?_cons]
    rw [Text.offset_cons h, hslice, Option.bind_some]
    split_ifs
    · exact .ok _ (Text.suffix_of_cons h)
    · exact .error s _

theorem argument?_lands (kind : Kind) (h : r <:+ s.toList) :
    Lands s (argument? s kind (offset s r)) (argument s.utf8ByteSize kind r) := by
  have hstart := (suffix_skipSeparator r).trans h
  unfold argument? argument
  rw [skipSeparator?_offset h, Option.bind_eq_bind, Option.bind_some]
  cases kind with
  | number => exact number?_lands hstart
  | flag => exact flag?_lands _ hstart

theorem group?_lands (kinds : List Kind) (h : r <:+ s.toList) :
    Lands s (group? s kinds (offset s r)) (group s.utf8ByteSize kinds r) := by
  induction kinds generalizing r with
  | nil =>
    exact .ok _ h
  | cons kind kinds ih =>
    obtain ⟨hsame, hsuffix⟩ := argument?_lands kind h
    rw [group?, group, hsame, Option.bind_eq_bind, Option.bind_some]
    cases ha : argument s.utf8ByteSize kind r with
    | error f => exact .error s _
    | ok a =>
      obtain ⟨a, t⟩ := a
      obtain ⟨hsame', hsuffix'⟩ := ih (hsuffix a t ha)
      dsimp only [Except.map, place]
      rw [hsame', Option.bind_eq_bind, Option.bind_some]
      cases hg : group s.utf8ByteSize kinds t with
      | error f => exact .error s _
      | ok as =>
        exact .ok _ (hsuffix' _ _ hg)

/-! ## Segments -/

theorem startsNumber_head? (r : List Char) : startsNumber r.head?.toList = startsNumber r := by
  cases r <;> rfl

theorem groups?_lands (kind : Kind) (kinds : List Kind) (h : r <:+ s.toList) :
    Lands s (groups? s kind kinds (offset s r)) (groups s.utf8ByteSize kind kinds r) := by
  induction hn : r.length using Nat.strongRecOn generalizing r with
  | _ n ih =>
    subst hn
    obtain ⟨hsame, hsuffix⟩ := group?_lands (kind :: kinds) h
    rw [groups?, groups_eq, hsame, Option.bind_eq_bind, Option.bind_some]
    cases hg : group s.utf8ByteSize (kind :: kinds) r with
    | error f => exact .error s _
    | ok as =>
      obtain ⟨as, t⟩ := as
      have ht := hsuffix as t hg
      have hnext := (suffix_skipSeparator t).trans ht
      have hshort : (skipSeparator t).length < r.length := by
        have := length_group hg
        have := length_skipSeparator t
        rw [List.length_cons] at *
        omega
      dsimp only [Except.map, place]
      simp only [skipSeparator?_offset ht, peek?_offset hnext, Option.bind_eq_bind, Option.bind_some,
        startsNumber_head?]
      by_cases hmore : startsNumber (skipSeparator t) = true
      · obtain ⟨hsame', hsuffix'⟩ := ih _ hshort hnext rfl
        have hmoves := Text.offset_lt h hnext hshort
        rw [if_pos hmore, if_pos hmore, dif_pos ⟨hmoves, Text.offset_le s _⟩, hsame', Option.bind_some]
        cases hrest : groups s.utf8ByteSize kind kinds (skipSeparator t) with
        | error f => exact .error s _
        | ok bs =>
          exact .ok _ (hsuffix' _ _ hrest)
      · rw [if_neg hmore, if_neg hmore]
        exact .ok _ hnext

theorem arguments?_lands (letter : Char) (h : r <:+ s.toList) :
    Lands s (arguments? s letter (offset s r)) (arguments s.utf8ByteSize letter r) := by
  unfold arguments? arguments
  cases kinds? letter with
  | none => exact .error s _
  | some kinds =>
    cases kinds with
    | nil =>
      dsimp only
      rw [skipSeparator?_offset h]
      exact .ok _ ((suffix_skipSeparator r).trans h)
    | cons kind kinds => exact groups?_lands kind kinds h

theorem segments?_offset (h : r <:+ s.toList) : segments? s (offset s r) = some (segments s.utf8ByteSize r) := by
  induction hn : r.length using Nat.strongRecOn generalizing r with
  | _ n ih =>
    subst hn
    rw [segments?]
    cases r with
    | nil =>
      have hend : ¬ offset s [] < s.utf8ByteSize := Nat.lt_irrefl _
      rw [dif_neg hend, segments.eq_def]
    | cons c r =>
      have hr := Text.suffix_of_cons h
      have hbefore : offset s (c :: r) < s.utf8ByteSize := Text.offset_lt h List.nil_suffix (Nat.succ_pos _)
      rw [dif_pos hbefore, peek?_offset h, segments_cons, Option.bind_eq_bind, Option.bind_some]
      dsimp only [List.head?_cons]
      rw [Text.offset_cons h]
      by_cases hc : c.isAlpha = true
      · obtain ⟨hsame, hsuffix⟩ := arguments?_lands c hr
        rw [if_pos hc, if_pos hc, hsame, Option.bind_eq_bind, Option.bind_some]
        cases hargs : arguments s.utf8ByteSize c r with
        | error f => rfl
        | ok a =>
          obtain ⟨args, rest⟩ := a
          have hrest := hsuffix args rest hargs
          have hshort : rest.length < (c :: r).length := Nat.lt_succ_of_le (length_arguments hargs)
          dsimp only [Except.map, place]
          rw [if_pos (Text.offset_lt h hrest hshort), ih _ hshort hrest rfl, Option.bind_eq_bind, Option.bind_some]
          cases segments s.utf8ByteSize rest with
          | error f => rfl
          | ok segs => rfl
      · rw [if_neg hc, if_neg hc]
        rfl

theorem parse?_eq (s : String) : parse? s = some (parse s) := by
  have hblank := skipBlank?_offset (List.suffix_refl s.toList)
  rw [Text.offset_toList] at hblank
  rw [parse?, hblank, Option.bind_eq_bind, Option.bind_some, segments?_offset (suffix_skipBlank _), parse]

end SvgComponent.Path.Offsets
