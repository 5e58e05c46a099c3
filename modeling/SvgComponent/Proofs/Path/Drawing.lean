/-
  SvgComponent.Proofs.Path.Drawing — what path data draws, and that simplifying it draws the same.

  A drawing is a list of instructions in absolute coordinates, exact rationals read from the spelled numbers.
  A pen with a current point and the start of the subpath carries out one stroke after the other: a command
  with one group of arguments, the groups after the first of a move being lines. A move that another absolute
  move follows at once, and a close right after a close, draw nothing.
  - `instructions_simplifyFrom`: each way of joining two segments leaves the instructions as they are.
  - `simplify_draws_same`: what simplifying writes can be read, and draws what the path data draws.
-/

import Mathlib.Data.Rat.Defs
import Mathlib.Algebra.Field.Rat
import SvgComponent.Path.Simplify
import SvgComponent.Proofs.Path.Rereading
import SvgComponent.Text.Digits

namespace SvgComponent.Path

/-! ## Numbers -/

def signed {α : Type} [Neg α] (sgn : List Char) (x : α) : α := if sgn = ['-'] then -x else x

/-- The power of ten of an exponent; none is the power zero. -/
def power : List Char → ℤ
  | [] => 0
  | _ :: r => signed (sign r).1 (Text.digitsValue (sign r).2 : ℤ)

/-- The number that is spelled. -/
def value (a : List Char) : ℚ :=
  let (sgn, r) := sign a
  let (whole, r) := digits r
  let (decimals, r) := match r with
    | '.' :: r => digits r
    | r => ([], r)
  signed sgn (Text.digitsValue (whole ++ decimals) * 10 ^ (power r - decimals.length) : ℚ)

/-! ## Strokes -/

/-- A command with the arguments of one group. -/
structure Stroke where
  letter : Char
  args : List (List Char)
  deriving DecidableEq

/-- The arguments, cut into groups of `n`. -/
def inGroups (n : Nat) (as : List (List Char)) : List (List (List Char)) :=
  if n = 0 ∨ as = [] then [] else as.take n :: inGroups n (as.drop n)
termination_by as.length
decreasing_by
  rename_i h
  have := List.length_pos_iff.mpr (fun he => h (Or.inr he))
  simp only [List.length_drop]
  omega

/-- The command that further groups repeat: lines after a move. -/
def continued (letter : Char) : Char :=
  if letter = 'M' then 'L' else if letter = 'm' then 'l' else letter

def Segment.strokes (s : Segment) : List Stroke :=
  match kinds? s.letter with
  | none => []
  | some [] => [⟨s.letter, []⟩]
  | some kinds =>
    match inGroups kinds.length s.args with
    | [] => []
    | g :: gs => ⟨s.letter, g⟩ :: gs.map (⟨continued s.letter, ·⟩)

namespace Stroke

def moves (s : Stroke) : Bool := s.letter == 'M' || s.letter == 'm'

def closes (s : Stroke) : Bool := s.letter == 'Z' || s.letter == 'z'

/-- Whether it draws nothing: a move before an absolute move, or a close after a close. -/
def isIdle (s : Stroke) (closed : Bool) (rest : List Stroke) : Bool :=
  (s.moves && rest.head?.any (·.letter == 'M')) || (s.closes && closed)

end Stroke

/-! ## Instructions -/

structure Point where
  x : ℚ
  y : ℚ
  deriving DecidableEq

def Point.shift (o : Point) (x y : ℚ) : Point := ⟨o.x + x, o.y + y⟩

inductive Instruction where
  | move (target : Point)
  | line (target : Point)
  | cubic (first second target : Point)
  /-- The first control point mirrors the one of the curve before. -/
  | smoothCubic (second target : Point)
  | quadratic (control target : Point)
  | smoothQuadratic (target : Point)
  | arc (rx ry rotation : ℚ) (large sweep : Bool) (target : Point)
  | close
  deriving DecidableEq

structure Pen where
  current : Point
  start : Point

namespace Pen

def origin : Pen := ⟨⟨0, 0⟩, ⟨0, 0⟩⟩

def goTo (p : Pen) (q : Point) : Pen := { p with current := q }

/-- The instruction of one stroke and the pen after it. Small letters count from the current point. -/
def carryOut (p : Pen) (s : Stroke) : Option Instruction × Pen :=
  let o : Point := if s.letter.isLower then p.current else ⟨0, 0⟩
  match s.letter.toLower, s.args.map value with
  | 'm', [x, y] => (some (.move (o.shift x y)), ⟨o.shift x y, o.shift x y⟩)
  | 'l', [x, y] => (some (.line (o.shift x y)), p.goTo (o.shift x y))
  | 'h', [x] => (some (.line ⟨o.x + x, p.current.y⟩), p.goTo ⟨o.x + x, p.current.y⟩)
  | 'v', [y] => (some (.line ⟨p.current.x, o.y + y⟩), p.goTo ⟨p.current.x, o.y + y⟩)
  | 'c', [x1, y1, x2, y2, x, y] => (some (.cubic (o.shift x1 y1) (o.shift x2 y2) (o.shift x y)), p.goTo (o.shift x y))
  | 's', [x2, y2, x, y] => (some (.smoothCubic (o.shift x2 y2) (o.shift x y)), p.goTo (o.shift x y))
  | 'q', [x1, y1, x, y] => (some (.quadratic (o.shift x1 y1) (o.shift x y)), p.goTo (o.shift x y))
  | 't', [x, y] => (some (.smoothQuadratic (o.shift x y)), p.goTo (o.shift x y))
  | 'a', [rx, ry, angle, large, sweep, x, y] =>
    (some (.arc rx ry angle (large != 0) (sweep != 0) (o.shift x y)), p.goTo (o.shift x y))
  | 'z', [] => (some .close, p.goTo p.start)
  | _, _ => (none, p)

end Pen

/-- What strokes draw; `closed` says whether the stroke before closed the subpath. -/
def instructions (p : Pen) (closed : Bool) : List Stroke → List Instruction
  | [] => []
  | s :: rest =>
    (if s.isIdle closed rest then [] else (p.carryOut s).1.toList) ++
      instructions (p.carryOut s).2 s.closes rest

def strokes (segs : List Segment) : List Stroke := segs.flatMap Segment.strokes

/-- What segments draw. -/
def drawing (segs : List Segment) : List Instruction := instructions .origin false (strokes segs)

/-! ## Strokes of joined segments -/

theorem inGroups_append {n : Nat} {g : List (List Char)} (hn : 0 < n) (hg : g.length = n) (as : List (List Char)) :
    inGroups n (g ++ as) = g :: inGroups n as := by
  have hne : ¬ (n = 0 ∨ g ++ as = []) := by
    intro hcase
    rcases hcase with h | h
    · omega
    · have := (List.append_eq_nil_iff.mp h).1
      subst this
      simp at hg
      omega
  rw [inGroups, if_neg hne, List.take_left' hg, List.drop_left' hg]

theorem inGroups_nil (n : Nat) : inGroups n [] = [] := by
  rw [inGroups, if_pos (Or.inr rfl)]

theorem Grouped.inGroups_append {kinds : List Kind} {as : List (List Char)} (h : Grouped kinds as)
    (hk : kinds ≠ []) (bs : List (List Char)) :
    inGroups kinds.length (as ++ bs) = inGroups kinds.length as ++ inGroups kinds.length bs := by
  have hn : 0 < kinds.length := List.length_pos_iff.mpr hk
  induction h with
  | @one g hg =>
    have hlen := hg.length_eq.symm
    have hone : inGroups kinds.length g = [g] := by
      have := Path.inGroups_append hn hlen []
      rwa [List.append_nil, inGroups_nil] at this
    rw [Path.inGroups_append hn hlen, hone, List.singleton_append]
  | @more g as hg _ ih =>
    have hlen := hg.length_eq.symm
    rw [List.append_assoc, Path.inGroups_append hn hlen, Path.inGroups_append hn hlen, ih, List.cons_append]

/-- A group that is read holds as many arguments as the command takes. -/
theorem Grouped.inGroups_cons {kinds : List Kind} {as : List (List Char)} (h : Grouped kinds as) (hk : kinds ≠ []) :
    ∃ g gs, inGroups kinds.length as = g :: gs ∧ g.length = kinds.length ∧ (as.length = kinds.length → gs = []) := by
  have hn : 0 < kinds.length := List.length_pos_iff.mpr hk
  cases h with
  | one hg =>
    have hlen := hg.length_eq.symm
    have := Path.inGroups_append hn hlen []
    rw [List.append_nil, inGroups_nil] at this
    exact ⟨as, [], this, hlen, fun _ => rfl⟩
  | @more g bs hg hrest =>
    have hlen := hg.length_eq.symm
    refine ⟨g, inGroups kinds.length bs, Path.inGroups_append hn hlen bs, hlen, fun hall => ?_⟩
    have : bs = [] := by
      rw [List.length_append] at hall
      exact List.length_eq_zero_iff.mp (by omega)
    rw [this, inGroups_nil]

/-- A sound segment begins with a stroke of its own letter. -/
theorem Segment.Sound.strokes_cons {s : Segment} (h : s.Sound) : ∃ g rest, s.strokes = ⟨s.letter, g⟩ :: rest := by
  obtain ⟨_, kinds, hk, hargs⟩ := h
  unfold Segment.strokes
  rw [hk]
  cases kinds with
  | nil => exact ⟨[], [], rfl⟩
  | cons kind kinds =>
    rw [if_neg (by simp)] at hargs
    obtain ⟨g, gs, hg, _, _⟩ := hargs.inGroups_cons (by simp)
    simp only [hg]
    exact ⟨g, _, rfl⟩

theorem joint_extend {last next : Segment} (h : joint last next = .extend) :
    kinds? last.letter = some [.number, .number] ∧ kinds? next.letter = some [.number, .number] ∧
      continued last.letter = next.letter ∧ continued next.letter = next.letter := by
  unfold joint at h
  split at h
  case h_1 h1 h2 => rw [h1, h2]; decide
  case h_2 h1 h2 => rw [h1, h2]; decide
  case h_3 h1 h2 => rw [h1, h2]; decide
  case h_4 h1 h2 => rw [h1, h2]; decide
  case h_5 => split at h <;> cases h
  all_goals cases h

theorem joint_supersede {last next : Segment} (h : joint last next = .supersede) :
    last.letter = 'M' ∧ next.letter = 'M' ∧ last.args.length = 2 := by
  unfold joint at h
  split at h
  case h_5 h1 h2 =>
    split at h
    · rename_i hlen; exact ⟨h1, h2, hlen⟩
    · cases h
  all_goals cases h

theorem joint_absorb {last next : Segment} (h : joint last next = .absorb) :
    (last.letter = 'Z' ∨ last.letter = 'z') ∧ (next.letter = 'Z' ∨ next.letter = 'z') := by
  unfold joint at h
  split at h
  case h_5 => split at h <;> cases h
  case h_6 h1 h2 => exact ⟨Or.inl h1, Or.inl h2⟩
  case h_7 h1 h2 => exact ⟨Or.inl h1, Or.inr h2⟩
  case h_8 h1 h2 => exact ⟨Or.inr h1, Or.inl h2⟩
  case h_9 h1 h2 => exact ⟨Or.inr h1, Or.inr h2⟩
  all_goals cases h

/-- Two segments joined, with the arguments of both. -/
def extended (last next : Segment) : Segment := { last with args := last.args ++ next.args }

theorem sound_extended {last next : Segment} (hl : last.Sound) (hn : next.Sound) (h : joint last next = .extend) :
    (extended last next).Sound := by
  obtain ⟨hkl, hkn, _, _⟩ := joint_extend h
  obtain ⟨halpha, kl, hl1, hl2⟩ := hl
  obtain ⟨_, kn, hn1, hn2⟩ := hn
  rw [hkl] at hl1
  rw [hkn] at hn1
  cases hl1
  cases hn1
  rw [if_neg (by simp)] at hl2 hn2
  exact ⟨halpha, _, hkl, by rw [if_neg (by simp)]; exact hl2.append hn2⟩

theorem strokes_extended {last next : Segment} (hl : last.Sound) (hn : next.Sound) (h : joint last next = .extend) :
    (extended last next).strokes = last.strokes ++ next.strokes := by
  obtain ⟨hkl, hkn, hc1, hc2⟩ := joint_extend h
  obtain ⟨_, kl, hl1, hl2⟩ := hl
  obtain ⟨_, kn, hn1, hn2⟩ := hn
  rw [hkl] at hl1
  rw [hkn] at hn1
  cases hl1
  cases hn1
  rw [if_neg (by simp)] at hl2 hn2
  obtain ⟨g, gs, hg, _, _⟩ := hl2.inGroups_cons (by simp)
  obtain ⟨g', gs', hg', _, _⟩ := hn2.inGroups_cons (by simp)
  have happ := hl2.inGroups_append (by simp) next.args
  rw [hg, hg'] at happ
  unfold Segment.strokes extended
  simp only [hkl, hkn, happ, hg, hg', List.cons_append, List.map_append, List.map_cons, hc1, hc2]

theorem sound_simplifyFrom {last : Segment} {segs : List Segment} (hl : last.Sound) (h : ∀ seg ∈ segs, seg.Sound) :
    ∀ seg ∈ simplifyFrom last segs, seg.Sound := by
  induction segs generalizing last with
  | nil =>
    intro seg hseg
    rw [simplifyFrom, List.mem_singleton] at hseg
    rw [hseg]
    exact hl
  | cons next segs ih =>
    have hn := h next (by simp)
    have hrest : ∀ seg ∈ segs, seg.Sound := fun seg hseg => h seg (List.mem_cons_of_mem _ hseg)
    cases hj : joint last next with
    | extend => simp only [simplifyFrom, hj]; exact ih (sound_extended hl hn hj) hrest
    | supersede => simp only [simplifyFrom, hj]; exact ih hn hrest
    | absorb => simp only [simplifyFrom, hj]; exact ih hl hrest
    | apart =>
      simp only [simplifyFrom, hj]
      intro seg hseg
      rcases List.mem_cons.mp hseg with rfl | hseg
      · exact hl
      · exact ih hn hrest seg hseg

theorem sound_simplifySegments {segs : List Segment} (h : ∀ seg ∈ segs, seg.Sound) :
    ∀ seg ∈ simplifySegments segs, seg.Sound := by
  cases segs with
  | nil => intro seg hseg; cases hseg
  | cons seg segs => exact sound_simplifyFrom (h seg (by simp)) (fun s hs => h s (List.mem_cons_of_mem _ hs))

/-! ## Instructions of joined segments -/

theorem strokes_cons (seg : Segment) (segs : List Segment) : strokes (seg :: segs) = seg.strokes ++ strokes segs := rfl

theorem isIdle_congr {s : Stroke} {closed : Bool} {xs ys : List Stroke}
    (h : xs.head?.map (·.letter) = ys.head?.map (·.letter)) : s.isIdle closed xs = s.isIdle closed ys := by
  have hany : ∀ zs : List Stroke, zs.head?.any (·.letter == 'M') = (zs.head?.map (·.letter)).any (· == 'M') := by
    intro zs
    cases zs <;> rfl
  unfold Stroke.isIdle
  rw [hany, hany, h]

/-- Strokes that draw the same after anything, and begin with one letter, may stand for each other. -/
theorem instructions_append_congr {ys zs : List Stroke} (hl : ys.head?.map (·.letter) = zs.head?.map (·.letter))
    (h : ∀ p closed, instructions p closed ys = instructions p closed zs) (xs : List Stroke) :
    ∀ p closed, instructions p closed (xs ++ ys) = instructions p closed (xs ++ zs) := by
  induction xs with
  | nil => exact h
  | cons s xs ih =>
    intro p closed
    have hl' : (xs ++ ys).head?.map (·.letter) = (xs ++ zs).head?.map (·.letter) := by
      cases xs with
      | nil => exact hl
      | cons x xs => rfl
    simp only [List.cons_append, instructions, isIdle_congr hl', ih]

/-- An absolute move does the same wherever the pen is. -/
theorem carryOut_absolute_move (p q : Pen) {g : List (List Char)} (hg : g.length = 2) :
    p.carryOut ⟨'M', g⟩ = q.carryOut ⟨'M', g⟩ := by
  obtain ⟨a, b, rfl⟩ := List.length_eq_two.mp hg
  rfl

/-- A move before an absolute move draws nothing, and nothing of it is left. -/
theorem instructions_superseded (p : Pen) (closed : Bool) {g g' : List (List Char)} (hg : g'.length = 2)
    (rest : List Stroke) :
    instructions p closed (⟨'M', g⟩ :: ⟨'M', g'⟩ :: rest) = instructions p closed (⟨'M', g'⟩ :: rest) := by
  have hidle : (⟨'M', g⟩ : Stroke).isIdle closed (⟨'M', g'⟩ :: rest) = true := rfl
  have hmove : ∀ b, (⟨'M', g'⟩ : Stroke).isIdle b rest = (⟨'M', g'⟩ : Stroke).isIdle closed rest := fun b => rfl
  rw [instructions, if_pos hidle, List.nil_append]
  simp only [instructions, hmove, carryOut_absolute_move (p.carryOut ⟨'M', g⟩).2 p hg]

/-- A close after a close draws nothing and leaves the pen where it is. -/
theorem instructions_absorbed (p : Pen) (closed : Bool) {c d : Char} (hc : c = 'Z' ∨ c = 'z') (hd : d = 'Z' ∨ d = 'z')
    (rest : List Stroke) :
    instructions p closed (⟨c, []⟩ :: ⟨d, []⟩ :: rest) = instructions p closed (⟨c, []⟩ :: rest) := by
  have pen : ∀ (q : Pen) (x : Char), x = 'Z' ∨ x = 'z' → q.carryOut ⟨x, []⟩ = (some .close, q.goTo q.start) := by
    intro q x hcase
    rcases hcase with rfl | rfl <;> rfl
  have closes : ∀ x : Char, x = 'Z' ∨ x = 'z' → (⟨x, []⟩ : Stroke).closes = true := by
    intro x hcase
    rcases hcase with rfl | rfl <;> rfl
  have idle : ∀ (x : Char) (b : Bool) (xs : List Stroke), x = 'Z' ∨ x = 'z' → (⟨x, []⟩ : Stroke).isIdle b xs = b := by
    intro x b xs hcase
    rcases hcase with rfl | rfl <;> rfl
  simp only [instructions, pen _ c hc, pen _ d hd, closes c hc, closes d hd, idle c _ _ hc, idle d _ _ hd]
  simp [Pen.goTo]

theorem strokes_of_close {seg : Segment} (h : seg.letter = 'Z' ∨ seg.letter = 'z') :
    seg.strokes = [⟨seg.letter, []⟩] := by
  unfold Segment.strokes
  rcases h with h | h <;> rw [h] <;> rfl

/-- A move is one stroke to each group, of which the first has its own letter. -/
theorem strokes_of_move {seg : Segment} (hs : seg.Sound) (h : seg.letter = 'M') :
    ∃ g gs, seg.strokes = ⟨'M', g⟩ :: gs ∧ g.length = 2 ∧ (seg.args.length = 2 → gs = []) := by
  obtain ⟨_, kinds, hk, hargs⟩ := hs
  have hk' : kinds? 'M' = some [.number, .number] := rfl
  rw [h, hk'] at hk
  cases hk
  rw [if_neg (by simp)] at hargs
  obtain ⟨g, gs, hg, hlen, hone⟩ := hargs.inGroups_cons (by simp)
  refine ⟨g, gs.map (⟨continued 'M', ·⟩), ?_, hlen, fun h2 => by rw [hone h2]; rfl⟩
  unfold Segment.strokes
  simp only [h, hk', hg]

theorem head_simplifyFrom {last : Segment} {segs : List Segment} (hl : last.Sound) (h : ∀ seg ∈ segs, seg.Sound) :
    (strokes (simplifyFrom last segs)).head?.map (·.letter) = some last.letter := by
  induction segs generalizing last with
  | nil =>
    obtain ⟨g, rest, hg⟩ := hl.strokes_cons
    simp [simplifyFrom, strokes, hg]
  | cons next segs ih =>
    have hn := h next (by simp)
    have hrest : ∀ seg ∈ segs, seg.Sound := fun seg hseg => h seg (List.mem_cons_of_mem _ hseg)
    cases hj : joint last next with
    | extend => simp only [simplifyFrom, hj]; exact ih (sound_extended hl hn hj) hrest
    | supersede =>
      obtain ⟨h1, h2, _⟩ := joint_supersede hj
      simp only [simplifyFrom, hj]
      rw [ih hn hrest, h1, h2]
    | absorb => simp only [simplifyFrom, hj]; exact ih hl hrest
    | apart =>
      obtain ⟨g, rest, hg⟩ := hl.strokes_cons
      simp [simplifyFrom, hj, strokes, hg]

/-- Each way of joining two segments leaves the instructions as they are. -/
theorem instructions_simplifyFrom {last : Segment} {segs : List Segment} (hl : last.Sound)
    (h : ∀ seg ∈ segs, seg.Sound) :
    ∀ p closed, instructions p closed (strokes (simplifyFrom last segs)) =
      instructions p closed (strokes (last :: segs)) := by
  induction segs generalizing last with
  | nil => intro p closed; rfl
  | cons next segs ih =>
    have hn := h next (by simp)
    have hrest : ∀ seg ∈ segs, seg.Sound := fun seg hseg => h seg (List.mem_cons_of_mem _ hseg)
    intro p closed
    cases hj : joint last next with
    | extend =>
      have hfrom : simplifyFrom last (next :: segs) = simplifyFrom (extended last next) segs := by
        simp only [simplifyFrom, hj, extended]
      rw [hfrom, ih (sound_extended hl hn hj) hrest, strokes_cons, strokes_extended hl hn hj]
      simp only [strokes_cons, List.append_assoc]
    | supersede =>
      obtain ⟨h1, h2, hlen⟩ := joint_supersede hj
      obtain ⟨g, gs, hg, _, hone⟩ := strokes_of_move hl h1
      obtain ⟨g', gs', hg', hlen', _⟩ := strokes_of_move hn h2
      simp only [simplifyFrom, hj]
      rw [ih hn hrest]
      simp only [strokes_cons, hg, hg', hone hlen, List.cons_append, List.nil_append]
      exact (instructions_superseded p closed hlen' _).symm
    | absorb =>
      obtain ⟨h1, h2⟩ := joint_absorb hj
      simp only [simplifyFrom, hj]
      rw [ih hl hrest]
      simp only [strokes_cons, strokes_of_close h1, strokes_of_close h2, List.cons_append, List.nil_append]
      exact (instructions_absorbed p closed h1 h2 _).symm
    | apart =>
      have hhead : (strokes (simplifyFrom next segs)).head?.map (·.letter) =
          (strokes (next :: segs)).head?.map (·.letter) := by
        obtain ⟨g, rest, hg⟩ := hn.strokes_cons
        rw [head_simplifyFrom hn hrest, strokes_cons, hg]
        rfl
      simp only [simplifyFrom, hj]
      rw [strokes_cons, strokes_cons]
      exact instructions_append_congr hhead (ih hn hrest) last.strokes p closed

theorem drawing_simplifySegments {segs : List Segment} (h : ∀ seg ∈ segs, seg.Sound) :
    drawing (simplifySegments segs) = drawing segs := by
  cases segs with
  | nil => rfl
  | cons seg segs =>
    exact instructions_simplifyFrom (h seg (by simp)) (fun s hs => h s (List.mem_cons_of_mem _ hs)) .origin false

/-- Path data that can be read is simplified to path data that can be read and draws the same. -/
theorem simplify_draws_same {d : String} {segs : List Segment} (h : parse d = .ok segs) :
    ∃ simpler segs', simplify d = .ok simpler ∧ parse simpler = .ok segs' ∧ drawing segs' = drawing segs := by
  have hs := sound_of_parse h
  refine ⟨write (simplifySegments segs), simplifySegments segs, ?_, ?_, drawing_simplifySegments hs⟩
  · unfold simplify
    rw [h]
    rfl
  · exact parse_write (sound_simplifySegments hs)

/-- A move that gives way, lines that join a move and a close that is doubled. -/
theorem simplify_draws_same_moved :
    parse "M0 0M1 2L3 4z Z" = .ok [⟨'M', [['0'], ['0']]⟩, ⟨'M', [['1'], ['2']]⟩, ⟨'L', [['3'], ['4']]⟩, ⟨'z', []⟩,
      ⟨'Z', []⟩] ∧
    ∃ simpler segs', simplify "M0 0M1 2L3 4z Z" = .ok simpler ∧ parse simpler = .ok segs' ∧
      drawing segs' = drawing [⟨'M', [['0'], ['0']]⟩, ⟨'M', [['1'], ['2']]⟩, ⟨'L', [['3'], ['4']]⟩, ⟨'z', []⟩,
        ⟨'Z', []⟩] :=
  ⟨by decide +kernel, simplify_draws_same (by decide +kernel)⟩

end SvgComponent.Path
