/-
  SvgComponent.Proofs.Path.Joining — path data in front of more path data is read as it was alone.

  A blank ends every argument, and the letter after it begins no further one (`Onward`); so each lexeme reads the
  same in front of such text and leaves it, and a reader that had come to the end goes on with the letter. Hence
  path data joined with blanks is read as the segments of all, one after the other (`parse_intercalate`).
-/

import SvgComponent.Proofs.Path.Rereading

namespace SvgComponent.Path

/-- What may stand after path data that has been read: nothing, or a blank and, after more blanks, a letter. -/
structure Onward (u : List Char) : Prop where
  ends : Ends u
  letter : ∀ c ∈ (skipBlank u).head?, c.isAlpha = true

/-- What is left to read when `r` was left in front of `u`: at an end, the blanks of `u` are skipped. -/
def before (r u : List Char) : List Char := if r = [] then skipBlank u else r ++ u

variable {s u : List Char}

theorem Onward.not_comma (h : Onward u) : ∀ r, skipBlank u ≠ ',' :: r := by
  intro r hr
  have := h.letter ',' (by rw [hr]; rfl)
  cases this

theorem Onward.not_startsNumber (h : Onward u) : startsNumber (skipBlank u) = false := by
  cases hu : skipBlank u with
  | nil => rfl
  | cons c r => exact (isAlpha_begins (h.letter c (by rw [hu]; rfl)) r).2.2

/-! ## Lexemes in front of a blank -/

theorem digits_append_ends (s : List Char) (hu : Ends u) : digits (s ++ u) = ((digits s).1, (digits s).2 ++ u) := by
  have hstop : Text.Stops Char.isDigit ((digits s).2 ++ u) := by
    have h : Text.Stops Char.isDigit (digits s).2 := Text.stops_dropWhile Char.isDigit s
    cases hr : (digits s).2 with
    | nil => exact hu.stops
    | cons c r =>
      rw [hr] at h
      exact Text.stops_cons (h c rfl) _
  conv => lhs; rw [← digits_append s, List.append_assoc]
  exact digits_append_stop (isDigit_digits s) hstop

theorem sign_append_ends (s : List Char) (hu : Ends u) : sign (s ++ u) = ((sign s).1, (sign s).2 ++ u) := by
  cases s with
  | nil =>
    cases hu with
    | nil => rfl
    | blank t => rfl
  | cons c s =>
    simp only [List.cons_append, sign]
    split <;> rfl

theorem mantissa_append_ends {m r : List Char} (h : mantissa s = some (m, r)) (hu : Ends u) :
    mantissa (s ++ u) = some (m, r ++ u) := by
  unfold mantissa at h ⊢
  rw [digits_append_ends s hu]
  simp only at h ⊢
  cases hr : (digits s).2 with
  | nil =>
    rw [hr] at h
    simp only at h
    split at h
    · cases h
    · rename_i hne
      cases h
      cases hu with
      | nil => exact if_neg hne
      | blank t => exact if_neg hne
  | cons c r' =>
    rw [hr] at h
    rw [List.cons_append]
    split at h
    · rename_i hc
      cases hc
      simp only [digits_append_ends _ hu]
      split at h
      · cases h
      · rename_i hne
        cases h
        rw [if_neg hne]
    · rename_i hc
      split at h
      · cases h
      · rename_i hne
        cases h
        split
        · rename_i hc'
          cases hc'
          exact absurd rfl (hc r')
        · rw [if_neg hne, List.cons_append]

theorem exponent_append_of_ends (s : List Char) (hu : Ends u) :
    exponent (s ++ u) = ((exponent s).1, (exponent s).2 ++ u) := by
  cases s with
  | nil => exact exponent_append_ends .none hu
  | cons e r =>
    simp only [List.cons_append, exponent, sign_append_ends r hu, digits_append_ends _ hu]
    split <;> rfl

theorem number?_append_of_ends {a r : List Char} (h : number? s = some (a, r)) (hu : Ends u) :
    number? (s ++ u) = some (a, r ++ u) := by
  unfold number? at h ⊢
  simp only [sign_append_ends s hu] at h ⊢
  split at h
  · cases h
  · rename_i m r' hm
    cases h
    simp only [mantissa_append_ends hm hu, exponent_append_of_ends r' hu]

theorem skipBlank_append (s u : List Char) : skipBlank (s ++ u) = before (skipBlank s) u := by
  unfold skipBlank before
  rw [List.dropWhile_append]
  simp [skipBlank]

theorem skipSeparator_append (s : List Char) (hu : Onward u) : skipSeparator (s ++ u) = before (skipSeparator s) u := by
  unfold skipSeparator
  rw [skipBlank_append]
  cases hs : skipBlank s with
  | nil =>
    simp only [before, if_true]
    split
    · rename_i r hr
      exact absurd hr (hu.not_comma r)
    · rfl
  | cons c r =>
    rw [before, if_neg (by simp), List.cons_append]
    by_cases hc : c = ','
    · subst hc
      exact skipBlank_append r u
    · split
      · rename_i he
        exact absurd (List.cons.inj he).1 hc
      · split
        · rename_i he
          exact absurd (List.cons.inj he).1 hc
        · rw [before, if_neg (by simp), List.cons_append]

/-! ## Arguments and segments in front of more -/

theorem argument_append {total : Nat} {kind : Kind} {a r : List Char} (h : argument total kind s = .ok (a, r))
    (hu : Onward u) (total' : Nat) : argument total' kind (s ++ u) = .ok (a, r ++ u) := by
  unfold argument at h ⊢
  rw [skipSeparator_append s hu]
  cases kind with
  | number =>
    simp only at h ⊢
    split at h
    · rename_i p hp
      cases h
      have hne : skipSeparator s ≠ [] := by
        intro hnil
        rw [hnil] at hp
        cases hp
      rw [before, if_neg hne, number?_append_of_ends hp hu.ends]
    · cases h
  | flag =>
    simp only at h ⊢
    cases hs : skipSeparator s with
    | nil =>
      rw [hs] at h
      cases h
    | cons c t =>
      rw [hs] at h
      rw [before, if_neg (by simp), List.cons_append]
      simp only at h ⊢
      split at h
      · rename_i hc
        cases h
        rw [if_pos hc]
      · cases h

theorem group_append {total : Nat} {kinds : List Kind} {as : List (List Char)} {r : List Char}
    (h : group total kinds s = .ok (as, r)) (hu : Onward u) (total' : Nat) :
    group total' kinds (s ++ u) = .ok (as, r ++ u) := by
  induction kinds generalizing s as r with
  | nil =>
    rw [group] at h ⊢
    cases h
    rfl
  | cons kind kinds ih =>
    rw [group] at h ⊢
    split at h
    · cases h
    · rename_i a s' ha
      split at h
      · cases h
      · rename_i as' r' hg
        cases h
        simp only [argument_append ha hu total', ih hg]

theorem startsNumber_before (r : List Char) (hu : Onward u) : startsNumber (before r u) = startsNumber r := by
  unfold before
  cases r with
  | nil => exact hu.not_startsNumber
  | cons c r => rfl

theorem groups_append {total : Nat} {kind : Kind} {kinds : List Kind} {as : List (List Char)} {r : List Char}
    (h : groups total kind kinds s = .ok (as, r)) (hu : Onward u) (total' : Nat) :
    groups total' kind kinds (s ++ u) = .ok (as, before r u) := by
  induction hn : s.length using Nat.strongRecOn generalizing s as r with
  | _ n ih =>
    subst hn
    rw [groups_eq] at h ⊢
    cases hg : group total (kind :: kinds) s with
    | error f =>
      rw [hg] at h
      cases h
    | ok p =>
      obtain ⟨g, s'⟩ := p
      have hlen := length_group hg
      have hskip := length_skipSeparator s'
      rw [hg] at h
      simp only [List.length_cons] at h hlen
      simp only [group_append hg hu total', skipSeparator_append s' hu, startsNumber_before _ hu]
      split at h
      · rename_i hstart
        have hne : skipSeparator s' ≠ [] := by
          intro hnil
          rw [hnil] at hstart
          cases hstart
        split at h
        · cases h
        · rename_i bs r' hr
          cases h
          rw [if_pos hstart, before, if_neg hne, ih _ (by omega) hr rfl]
      · rename_i hstart
        cases h
        rw [if_neg hstart]

theorem arguments_append {total : Nat} {letter : Char} {as : List (List Char)} {r : List Char}
    (h : arguments total letter s = .ok (as, r)) (hu : Onward u) (total' : Nat) :
    arguments total' letter (s ++ u) = .ok (as, before r u) := by
  unfold arguments at h ⊢
  split at h
  · cases h
  · cases h
    rw [skipSeparator_append s hu]
  · exact groups_append h hu total'

theorem segments_cons (total : Nat) (c : Char) (r : List Char) :
    segments total (c :: r) =
      if c.isAlpha then
        match arguments total c r with
        | .error f => .error f
        | .ok (args, rest) =>
          match segments total rest with
          | .error f => .error f
          | .ok segs => .ok (⟨c, args⟩ :: segs)
      else .error (.noCommand c) := by
  conv => lhs; unfold segments
  cases arguments total c r with
  | error f => rfl
  | ok p => rfl

/-- Segments that were read are read in front of others, and the others after them. -/
theorem segments_append {total total' : Nat} {segs segs' : List Segment} (h : segments total s = .ok segs)
    (hs : s ≠ []) (hu : Onward u) (h' : segments total' (skipBlank u) = .ok segs') :
    segments total' (s ++ u) = .ok (segs ++ segs') := by
  induction hn : s.length using Nat.strongRecOn generalizing s segs with
  | _ n ih =>
    subst hn
    cases s with
    | nil => exact absurd rfl hs
    | cons c r =>
      rw [segments_cons] at h
      rw [List.cons_append, segments_cons]
      split at h
      · rename_i hc
        split at h
        · cases h
        · rename_i args rest ha
          have hlen := length_arguments ha
          split at h
          · cases h
          · rename_i tail ht
            cases h
            rw [if_pos hc, arguments_append ha hu total']
            by_cases hrest : rest = []
            · subst hrest
              have hnil : tail = [] := by
                rw [segments] at ht
                cases ht
                rfl
              simp only [before, if_true, h', hnil, List.cons_append, List.nil_append]
            · have hrest' := ih rest.length (by simp only [List.length_cons]; omega) ht hrest rfl
              simp only [before, if_neg hrest, hrest', List.cons_append]
      · cases h

/-! ## Path data joined with a blank -/

theorem begins_of_parse {d : String} {seg : Segment} {segs : List Segment} (h : parse d = .ok (seg :: segs)) :
    ∃ c r, skipBlank d.toList = c :: r ∧ c.isAlpha = true := by
  rw [parse] at h
  cases hd : skipBlank d.toList with
  | nil =>
    rw [hd, segments] at h
    cases h
  | cons c r =>
    rw [hd, segments_cons] at h
    split at h
    · rename_i hc
      exact ⟨c, r, rfl, hc⟩
    · cases h

theorem onward_blank {d : String} {seg : Segment} {segs : List Segment} (h : parse d = .ok (seg :: segs)) :
    Onward (' ' :: d.toList) := by
  obtain ⟨c, r, hd, hc⟩ := begins_of_parse h
  refine ⟨.blank _, ?_⟩
  have hskip : skipBlank (' ' :: d.toList) = c :: r := hd ▸ List.dropWhile_cons_of_pos rfl
  rw [hskip]
  intro x hx
  cases hx
  exact hc

/-- The size of the whole path data does not matter to what can be read. -/
theorem segments_total {total total' : Nat} {segs : List Segment} (h : segments total s = .ok segs) :
    segments total' s = .ok segs := by
  by_cases hs : s = []
  · subst hs
    rw [segments] at h ⊢
    exact h
  · have hnil : segments total' (skipBlank []) = .ok [] := by rw [show skipBlank [] = [] from rfl, segments]
    have hend : Onward [] := ⟨.nil, by intro c hc; cases hc⟩
    simpa using segments_append h hs hend hnil

theorem parse_append {d d' : String} {seg seg' : Segment} {segs segs' : List Segment}
    (h : parse d = .ok (seg :: segs)) (h' : parse d' = .ok (seg' :: segs')) :
    parse (d ++ " " ++ d') = .ok (seg :: segs ++ seg' :: segs') := by
  obtain ⟨c, r, hd, hc⟩ := begins_of_parse h
  have hskip : skipBlank (' ' :: d'.toList) = skipBlank d'.toList := List.dropWhile_cons_of_pos rfl
  have htext : (d ++ " " ++ d').toList = d.toList ++ ' ' :: d'.toList := by simp
  rw [parse, htext, skipBlank_append, before, if_neg (by rw [hd]; simp)]
  exact segments_append h (by rw [hd]; simp) (onward_blank h') (hskip ▸ segments_total h')

/-- Path data joined with blanks is read as the segments of all. -/
theorem parse_intercalate {data : List String} {segss : List (List Segment)}
    (h : List.Forall₂ (fun d segs => parse d = .ok segs ∧ segs ≠ []) data segss) (hne : data ≠ []) :
    parse (" ".intercalate data) = .ok segss.flatten ∧ segss.flatten ≠ [] := by
  induction h with
  | nil => exact absurd rfl hne
  | @cons d segs data segss hd hrest ih =>
    obtain ⟨hd, hsegs⟩ := hd
    obtain ⟨seg, segs, rfl⟩ := List.exists_cons_of_ne_nil hsegs
    refine ⟨?_, by simp⟩
    cases hrest with
    | nil => simpa using hd
    | cons hd' hrest' =>
      obtain ⟨ih, hflat⟩ := ih (by simp)
      obtain ⟨seg', segs', hsegs'⟩ := List.exists_cons_of_ne_nil hflat
      rw [String.intercalate_cons_cons, List.flatten_cons, hsegs']
      exact parse_append hd (hsegs' ▸ ih)

end SvgComponent.Path
