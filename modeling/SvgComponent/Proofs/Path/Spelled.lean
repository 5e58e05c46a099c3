/-
  SvgComponent.Proofs.Path.Spelled — path data is its letters and arguments, and separators between them.

  An argument has no blanks and commas in it (`Kind.Admits.separator`), and these are all that reading passes over; so
  the letters and arguments that were read, put together, are the path data without separators
  (`spelling_of_segments`). Arguments come in whole groups, so the place of an argument in its group says of which kind
  it is (`Grouped.admits_of_getElem?`). `parse_spells` puts this together with what comes back from written segments.
-/

import SvgComponent.Proofs.Path.Drawing
import SvgComponent.Proofs.Text.Kinds

namespace SvgComponent.Path

/-- A character that may stand between arguments. -/
def isSeparator (c : Char) : Bool := Text.isAsciiBlank c || c == ','

/-- Text without its separators. -/
def compact (s : List Char) : List Char := s.filter (!isSeparator ·)

/-- The letter and the arguments, with nothing between them. -/
def Segment.spelling (s : Segment) : List Char := s.letter :: s.args.flatten

/-- How many arguments one occurrence of a command takes. -/
def arity? (letter : Char) : Option Nat := (kinds? letter).map List.length

/-- The fourth and the fifth argument of each arc. -/
def isFlagPlace (letter : Char) (i : Nat) : Bool := letter.toLower == 'a' && (i % 7 == 3 || i % 7 == 4)

/-! ## Separators -/

theorem compact_append (s t : List Char) : compact (s ++ t) = compact s ++ compact t := List.filter_append s t

theorem compact_eq_self {s : List Char} (h : ∀ c ∈ s, isSeparator c = false) : compact s = s :=
  List.filter_eq_self.mpr fun c hc => by rw [h c hc]; rfl

theorem compact_skipBlank (s : List Char) : compact (skipBlank s) = compact s := by
  have hblank : compact (s.takeWhile Text.isAsciiBlank) = [] := by
    have hall := List.all_eq_true.mp (List.all_takeWhile (p := Text.isAsciiBlank) (l := s))
    refine List.filter_eq_nil_iff.mpr fun c hc => ?_
    rw [isSeparator, hall c hc, Bool.true_or]
    exact Bool.false_ne_true
  conv => rhs; rw [← List.takeWhile_append_dropWhile (p := Text.isAsciiBlank) (l := s)]
  rw [compact_append, hblank]
  rfl

theorem compact_skipSeparator (s : List Char) : compact (skipSeparator s) = compact s := by
  rw [← compact_skipBlank s]
  unfold skipSeparator
  split
  · rename_i r hcomma
    rw [hcomma, compact_skipBlank]
    rfl
  · rfl

/-- What no separator is, is none. -/
theorem isSeparator_eq_false {p : Char → Bool} (h : ∀ m ∈ [' ', '\t', '\n', '\x0c', '\r', ','], p m = false) {c : Char}
    (hc : p c = true) : isSeparator c = false := by
  have hmem := Text.not_mem_of_forall _ h hc
  simpa [isSeparator, Text.isAsciiBlank, and_assoc] using hmem

theorem isSeparator_of_isDigit {c : Char} (h : c.isDigit = true) : isSeparator c = false :=
  isSeparator_eq_false (by decide) h

theorem IsSign.separator {s : List Char} (h : IsSign s) : ∀ c ∈ s, isSeparator c = false := by
  cases h <;> decide

theorem IsMantissa.separator {s : List Char} (h : IsMantissa s) : ∀ c ∈ s, isSeparator c = false := by
  cases h with
  | whole _ hd => exact fun c hc => isSeparator_of_isDigit (hd c hc)
  | pointed _ hd he =>
    rw [List.forall_mem_append, List.forall_mem_cons]
    exact ⟨fun c hc => isSeparator_of_isDigit (hd c hc), rfl, fun c hc => isSeparator_of_isDigit (he c hc)⟩

theorem IsExponent.separator {s : List Char} (h : IsExponent s) : ∀ c ∈ s, isSeparator c = false := by
  cases h with
  | none =>
    intro c hc
    cases hc
  | power he hsgn _ hd =>
    rw [List.cons_append, List.forall_mem_cons, List.forall_mem_append]
    refine ⟨?_, hsgn.separator, fun c hc => isSeparator_of_isDigit (hd c hc)⟩
    rcases he with rfl | rfl <;> rfl

/-- An argument has no separators in it. -/
theorem Kind.Admits.separator {kind : Kind} {a : List Char} (h : kind.Admits a) : ∀ c ∈ a, isSeparator c = false := by
  cases kind with
  | flag => rcases h with rfl | rfl <;> decide
  | number =>
    cases h with
    | mk hsgn hm he =>
      rw [List.forall_mem_append, List.forall_mem_append]
      exact ⟨⟨hsgn.separator, hm.separator⟩, he.separator⟩

/-! ## Reading passes over separators only -/

theorem compact_argument {total : Nat} {kind : Kind} {s a r : List Char} (h : argument total kind s = .ok (a, r)) :
    compact s = a ++ compact r := by
  have hsplit : skipSeparator s = a ++ r := by
    unfold argument at h
    cases kind with
    | number =>
      simp only at h
      split at h
      · rename_i hn
        cases h
        exact (number?_append hn).1
      · cases h
    | flag =>
      simp only at h
      split at h
      · cases h
      · rename_i hc
        split at h
        · cases h
          exact hc
        · cases h
  rw [← compact_skipSeparator, hsplit, compact_append, compact_eq_self (admits_of_argument h).separator]

theorem compact_group {total : Nat} {kinds : List Kind} {s r : List Char} {as : List (List Char)}
    (h : group total kinds s = .ok (as, r)) : compact s = as.flatten ++ compact r := by
  induction kinds generalizing s as with
  | nil =>
    cases h
    rfl
  | cons kind kinds ih =>
    unfold group at h
    split at h
    · cases h
    · rename_i a s' ha
      split at h
      · cases h
      · rename_i as' r' hg
        cases h
        rw [compact_argument ha, ih hg, List.flatten_cons, List.append_assoc]

theorem compact_groups {total : Nat} {kind : Kind} {kinds : List Kind} {s r : List Char} {as : List (List Char)}
    (h : groups total kind kinds s = .ok (as, r)) : compact s = as.flatten ++ compact r := by
  induction hn : s.length using Nat.strongRecOn generalizing s as with
  | _ n ih =>
    subst hn
    rw [groups_eq] at h
    split at h
    · cases h
    · rename_i g s' hg
      have hlength := length_group hg
      have hskip := length_skipSeparator s'
      rw [List.length_cons] at hlength
      rw [compact_group hg, ← compact_skipSeparator s']
      split at h
      · split at h
        · cases h
        · rename_i bs r' hrest
          cases h
          rw [ih _ (by omega) hrest rfl, List.flatten_append, List.append_assoc]
      · cases h
        rfl

theorem compact_arguments {total : Nat} {letter : Char} {s r : List Char} {as : List (List Char)}
    (h : arguments total letter s = .ok (as, r)) : compact s = as.flatten ++ compact r := by
  unfold arguments at h
  split at h
  · cases h
  · cases h
    exact (compact_skipSeparator s).symm
  · exact compact_groups h

/-- The letters and arguments of the segments are the text without its separators. -/
theorem spelling_of_segments {total : Nat} {s : List Char} {segs : List Segment} (h : segments total s = .ok segs) :
    segs.flatMap Segment.spelling = compact s := by
  induction hn : s.length using Nat.strongRecOn generalizing s segs with
  | _ n ih =>
    subst hn
    unfold segments at h
    split at h
    · cases h
      rfl
    · rename_i c r
      split at h
      · rename_i hc
        split at h
        · cases h
        · rename_i args rest hargs
          have hlength := length_arguments hargs
          split at h
          · cases h
          · rename_i segs' hrest
            cases h
            have htail : segs'.flatMap Segment.spelling = compact rest :=
              ih _ (by rw [List.length_cons]; omega) hrest rfl
            have hhead : compact (c :: r) = c :: compact r :=
              List.filter_cons_of_pos (by rw [isSeparator_eq_false (by decide) hc]; rfl)
            rw [List.flatMap_cons, htail, hhead, compact_arguments hargs]
            rfl
      · cases h

/-! ## The places of arguments -/

theorem Grouped.length_dvd {kinds : List Kind} {as : List (List Char)} (h : Grouped kinds as) :
    kinds.length ∣ as.length := by
  induction h with
  | one hg => rw [hg.length_eq]
  | more hg _ ih =>
    rw [List.length_append, ← hg.length_eq]
    exact Nat.dvd_add (Nat.dvd_refl _) ih

theorem Grouped.ne_nil {kinds : List Kind} {as : List (List Char)} (h : Grouped kinds as) (hk : kinds ≠ []) :
    as ≠ [] := by
  have hg : ∀ {g : List (List Char)}, List.Forall₂ Kind.Admits kinds g → g ≠ [] := by
    rintro _ hg rfl
    exact hk (List.forall₂_nil_right_iff.mp hg)
  cases h with
  | one h => exact hg h
  | more h _ => exact fun hnil => hg h (List.append_eq_nil_iff.mp hnil).1

/-- An argument is of the kind that its place in the group has. -/
theorem Grouped.admits_of_getElem? {kinds : List Kind} {as : List (List Char)} (h : Grouped kinds as) {i : Nat}
    {a : List Char} (ha : as[i]? = some a) : ∃ kind, kinds[i % kinds.length]? = some kind ∧ kind.Admits a := by
  have hin : ∀ {g : List (List Char)} {i : Nat}, List.Forall₂ Kind.Admits kinds g → g[i]? = some a →
      ∃ kind, kinds[i % kinds.length]? = some kind ∧ kind.Admits a := by
    intro g i hg ha
    obtain ⟨hi, rfl⟩ := List.getElem?_eq_some_iff.mp ha
    have hi' : i < kinds.length := hg.length_eq ▸ hi
    refine ⟨kinds[i], ?_, hg.get hi' hi⟩
    rw [Nat.mod_eq_of_lt hi', List.getElem?_eq_getElem hi']
  induction h generalizing i with
  | one hg => exact hin hg ha
  | more hg _ ih =>
    rw [List.getElem?_append, ← hg.length_eq] at ha
    split at ha
    · exact hin hg ha
    · rename_i hi
      rw [Nat.mod_eq_sub_mod (Nat.not_lt.mp hi)]
      exact ih ha

/-- Only arcs have flags, at two places of each group. -/
theorem kind_of_place {letter : Char} {kinds : List Kind} (hk : kinds? letter = some kinds) {i : Nat} {kind : Kind}
    (h : kinds[i % kinds.length]? = some kind) : kind = if isFlagPlace letter i then .flag else .number := by
  have hplain : ∀ {n : Nat}, letter.toLower ≠ 'a' → kinds = List.replicate n .number →
      kind = if isFlagPlace letter i then .flag else .number := by
    rintro n hletter rfl
    have hno : isFlagPlace letter i = false := by simp [isFlagPlace, hletter]
    rw [hno]
    exact List.eq_of_mem_replicate (List.mem_of_getElem? h)
  unfold kinds? at hk
  split at hk
  case h_1 hl => exact hplain (n := 2) (by rw [hl]; decide) (Option.some.inj hk).symm
  case h_2 hl => exact hplain (n := 2) (by rw [hl]; decide) (Option.some.inj hk).symm
  case h_3 hl => exact hplain (n := 2) (by rw [hl]; decide) (Option.some.inj hk).symm
  case h_4 hl => exact hplain (n := 1) (by rw [hl]; decide) (Option.some.inj hk).symm
  case h_5 hl => exact hplain (n := 1) (by rw [hl]; decide) (Option.some.inj hk).symm
  case h_6 hl => exact hplain (n := 6) (by rw [hl]; decide) (Option.some.inj hk).symm
  case h_7 hl => exact hplain (n := 4) (by rw [hl]; decide) (Option.some.inj hk).symm
  case h_8 hl => exact hplain (n := 4) (by rw [hl]; decide) (Option.some.inj hk).symm
  case h_9 hl =>
    cases hk
    have harc : ∀ m : Fin 7, [Kind.number, .number, .number, .flag, .flag, .number, .number][m.val]? =
        some (if m.val == 3 || m.val == 4 then Kind.flag else .number) := by decide
    have hmod : i % 7 < 7 := Nat.mod_lt i (by decide)
    have hflag : isFlagPlace letter i = (i % 7 == 3 || i % 7 == 4) := by simp [isFlagPlace, hl]
    rw [hflag]
    exact Option.some.inj (h.symm.trans (harc ⟨i % 7, hmod⟩))
  case h_10 hl => exact hplain (n := 0) (by rw [hl]; decide) (Option.some.inj hk).symm
  case h_11 => cases hk

/-- A sound segment has whole groups of arguments, flags where arcs have them and numbers elsewhere. -/
theorem Segment.Sound.placed {seg : Segment} (h : seg.Sound) : ∃ n, arity? seg.letter = some n ∧
    n ∣ seg.args.length ∧ (0 < n → seg.args ≠ []) ∧ ∀ i a, seg.args[i]? = some a →
      if isFlagPlace seg.letter i then a = ['0'] ∨ a = ['1'] else IsNumber a := by
  obtain ⟨-, kinds, hk, hargs⟩ := h
  refine ⟨kinds.length, by rw [arity?, hk]; rfl, ?_⟩
  split at hargs
  · rename_i hnone
    rw [hargs, hnone]
    exact ⟨Nat.dvd_refl 0, fun hpos => absurd hpos (Nat.lt_irrefl 0), nofun⟩
  · rename_i hsome
    refine ⟨hargs.length_dvd, fun _ => hargs.ne_nil hsome, fun i a ha => ?_⟩
    obtain ⟨kind, hkind, hadmits⟩ := hargs.admits_of_getElem? ha
    rw [kind_of_place hk hkind] at hadmits
    split
    · rename_i hflag
      rwa [if_pos hflag] at hadmits
    · rename_i hflag
      rwa [if_neg hflag] at hadmits

/-! ## Path data -/

/-- Of path data that can be read: each command has whole groups of arguments, flags where arcs have them and numbers
    elsewhere; letters and arguments are the path data without separators; and the segments, simplified or not, are
    read from what is written of them. -/
theorem parse_spells {d : String} {segs : List Segment} (h : parse d = .ok segs) :
    (∀ seg ∈ segs, ∃ n, arity? seg.letter = some n ∧ n ∣ seg.args.length ∧ (0 < n → seg.args ≠ []) ∧
      ∀ i a, seg.args[i]? = some a → if isFlagPlace seg.letter i then a = ['0'] ∨ a = ['1'] else IsNumber a) ∧
    segs.flatMap Segment.spelling = compact d.toList ∧
    parse (write segs) = .ok segs ∧
    parse (write (simplifySegments segs)) = .ok (simplifySegments segs) := by
  have hsound := sound_of_parse h
  refine ⟨fun seg hseg => (hsound seg hseg).placed, ?_, parse_write hsound, parse_write (sound_simplifySegments hsound)⟩
  rw [← compact_skipBlank]
  exact spelling_of_segments h

/-- Numbers and flags touch, and a line follows a move. -/
theorem parse_spells_touching :
    let segs : List Segment := [⟨'M', [".5", ".5", "-1", "-1e-2"].map String.toList⟩,
      ⟨'L', [['1'], ['2']]⟩, ⟨'a', ["1", "1", "0", "0", "1", "10", "10"].map String.toList⟩, ⟨'z', []⟩]
    parse " M.5.5-1-1e-2L1,2a1 1 0 0110 10z," = .ok segs ∧
      segs.flatMap Segment.spelling = compact " M.5.5-1-1e-2L1,2a1 1 0 0110 10z,".toList ∧
      parse (write segs) = .ok segs ∧
      parse (write (simplifySegments segs)) = .ok (simplifySegments segs) := by
  intro segs
  have hparse : parse " M.5.5-1-1e-2L1,2a1 1 0 0110 10z," = .ok segs := by decide +kernel
  obtain ⟨-, hspells, hagain, hsimpler⟩ := parse_spells hparse
  exact ⟨hparse, hspells, hagain, hsimpler⟩

end SvgComponent.Path
