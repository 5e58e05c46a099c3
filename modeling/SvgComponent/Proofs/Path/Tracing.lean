/-
  SvgComponent.Proofs.Path.Tracing — what path data draws when it is put together from pieces.

  `figure` carries out every stroke with a pen that starts at the origin, so the first move of path data is
  absolute however it is written. A piece in front of which the pen has moved draws the same exactly if it begins
  with an absolute move or the pen is at the origin again (`traced_eq_figure_iff`). So pieces drawn in one go draw
  what they draw one by one exactly if each fits the one before it (`figure_flatten_iff`).
-/

import Mathlib.Data.List.Chain
import SvgComponent.Proofs.Path.Drawing

namespace SvgComponent.Path

/-- The instructions of all strokes, one after the other. -/
def traced (p : Pen) : List Stroke → List Instruction
  | [] => []
  | s :: rest => (p.carryOut s).1.toList ++ traced (p.carryOut s).2 rest

/-- The pen when all strokes are carried out. -/
def Pen.after (p : Pen) (xs : List Stroke) : Pen := xs.foldl (fun q s => (q.carryOut s).2) p

/-- What path data draws by itself. -/
def figure (segs : List Segment) : List Instruction := traced .origin (strokes segs)

/-- Whether the first segment is a move with one of the letters. -/
def Opens (letters : List Char) (segs : List Segment) : Prop := ∃ s ∈ segs.head?, s.letter ∈ letters

/-- A piece that begins with an absolute move, or comes where the pen is at the origin. -/
def Fits (a b : List Segment) : Prop := Opens ['M'] b ∨ (Pen.origin.after (strokes a)).current = ⟨0, 0⟩

theorem traced_append (p : Pen) (xs ys : List Stroke) : traced p (xs ++ ys) = traced p xs ++ traced (p.after xs) ys := by
  induction xs generalizing p with
  | nil => rfl
  | cons s xs ih => rw [List.cons_append, traced, traced, ih, List.append_assoc]; rfl

theorem strokes_append (a b : List Segment) : strokes (a ++ b) = strokes a ++ strokes b := List.flatMap_append

/-- Whether a stroke is an instruction does not depend on the pen. -/
theorem isSome_carryOut (p q : Pen) (s : Stroke) : (p.carryOut s).1.isSome = (q.carryOut s).1.isSome := by
  unfold Pen.carryOut
  dsimp only
  split <;> rfl

theorem length_traced (p q : Pen) (xs : List Stroke) : (traced p xs).length = (traced q xs).length := by
  induction xs generalizing p q with
  | nil => rfl
  | cons s xs ih =>
    have hlen : ∀ o : Option Instruction, o.toList.length = if o.isSome then 1 else 0 := by
      intro o
      cases o <;> rfl
    rw [traced, traced, List.length_append, List.length_append, ih (p.carryOut s).2 (q.carryOut s).2, hlen, hlen,
      isSome_carryOut p q s]

/-! ## Pieces that begin with a move -/

/-- A move leaves the pen where it goes, which depends on where it was only if it is relative. -/
theorem carryOut_move {c : Char} (hc : c ∈ ['M', 'm']) (a b : List Char) (p : Pen) :
    ∃ t : Point, p.carryOut ⟨c, [a, b]⟩ = (some (.move t), ⟨t, t⟩) ∧
      t = if c = 'm' then p.current.shift (value a) (value b) else ⟨value a, value b⟩ := by
  simp only [List.mem_cons, List.not_mem_nil, or_false] at hc
  rcases hc with rfl | rfl
  · refine ⟨_, rfl, ?_⟩
    show Point.shift ⟨0, 0⟩ (value a) (value b) = ⟨value a, value b⟩
    rw [Point.shift, zero_add, zero_add]
  · exact ⟨_, rfl, rfl⟩

theorem Segment.Sound.strokes_of_move {s : Segment} (h : s.Sound) (hm : s.letter ∈ ['M', 'm']) :
    ∃ a b rest, s.strokes = ⟨s.letter, [a, b]⟩ :: rest := by
  obtain ⟨_, kinds, hk, hargs⟩ := h
  have hk' : kinds? s.letter = some [.number, .number] := by
    simp only [List.mem_cons, List.not_mem_nil, or_false] at hm
    rcases hm with h | h <;> rw [h] <;> rfl
  rw [hk'] at hk
  cases hk
  rw [if_neg (by simp)] at hargs
  obtain ⟨g, gs, hg, hlen, -⟩ := hargs.inGroups_cons (by simp)
  obtain ⟨a, b, rfl⟩ := List.length_eq_two.mp hlen
  unfold Segment.strokes
  simp only [hk', hg]
  exact ⟨a, b, _, rfl⟩

variable {segs : List Segment}

theorem strokes_of_opens (hs : ∀ s ∈ segs, s.Sound) (hm : Opens ['M', 'm'] segs) :
    ∃ c a b rest, c ∈ ['M', 'm'] ∧ strokes segs = ⟨c, [a, b]⟩ :: rest ∧ (Opens ['M'] segs ↔ c = 'M') := by
  obtain ⟨s, hhead, hletter⟩ := hm
  obtain ⟨segs', rfl⟩ := List.head?_eq_some_iff.mp hhead
  obtain ⟨a, b, rest, hrest⟩ := (hs s List.mem_cons_self).strokes_of_move hletter
  refine ⟨s.letter, a, b, rest ++ strokes segs', hletter, by rw [strokes_cons, hrest]; rfl, ?_⟩
  simp [Opens]

theorem Point.shift_eq_iff {o : Point} {x y : ℚ} : o.shift x y = ⟨x, y⟩ ↔ o = ⟨0, 0⟩ := by
  obtain ⟨ox, oy⟩ := o
  simp [Point.shift]

/-- A piece draws what it draws by itself exactly if its first move does not depend on the pen or finds it at the
    origin, and then leaves the pen where it leaves it by itself. -/
theorem traced_eq_figure_iff (hs : ∀ s ∈ segs, s.Sound) (hm : Opens ['M', 'm'] segs) (p : Pen) :
    (traced p (strokes segs) = figure segs ↔ Opens ['M'] segs ∨ p.current = ⟨0, 0⟩) ∧
      (traced p (strokes segs) = figure segs →
        p.after (strokes segs) = Pen.origin.after (strokes segs)) := by
  obtain ⟨c, a, b, rest, hc, hstrokes, habs⟩ := strokes_of_opens hs hm
  obtain ⟨t, ht, htp⟩ := carryOut_move hc a b p
  obtain ⟨o, ho, hto⟩ := carryOut_move hc a b .origin
  have hcurrent : t = o ↔ c = 'M' ∨ p.current = ⟨0, 0⟩ := by
    have horigin : Pen.origin.current.shift (value a) (value b) = ⟨value a, value b⟩ := Point.shift_eq_iff.mpr rfl
    rw [htp, hto, horigin, ite_self]
    simp only [List.mem_cons, List.not_mem_nil, or_false] at hc
    rcases hc with rfl | rfl
    · simp
    · rw [if_pos rfl, Point.shift_eq_iff]
      simp
  have htraced : traced p (strokes segs) = .move t :: traced ⟨t, t⟩ rest := by rw [hstrokes, traced, ht]; rfl
  have hfigure : figure segs = .move o :: traced ⟨o, o⟩ rest := by rw [figure, hstrokes, traced, ho]; rfl
  have hafter : t = o → p.after (strokes segs) = Pen.origin.after (strokes segs) := by
    intro heq
    rw [hstrokes, Pen.after, Pen.after, List.foldl_cons, List.foldl_cons, ht, ho, heq]
  rw [htraced, hfigure, habs, ← hcurrent]
  refine ⟨⟨fun h => ?_, fun h => by rw [h]⟩, fun h => hafter ?_⟩
  · simpa using (List.cons.inj h).1
  · simpa using (List.cons.inj h).1

/-! ## Pieces one after the other -/

theorem traced_flatten_iff {segss : List (List Segment)}
    (h : ∀ segs ∈ segss, (∀ s ∈ segs, s.Sound) ∧ Opens ['M', 'm'] segs) (p : Pen) :
    traced p (strokes segss.flatten) = segss.flatMap figure ↔
      (∀ a ∈ segss.head?, Opens ['M'] a ∨ p.current = ⟨0, 0⟩) ∧ segss.IsChain Fits := by
  induction segss generalizing p with
  | nil => simp [strokes, traced]
  | cons a rest ih =>
    rw [List.forall_mem_cons] at h
    obtain ⟨hiff, hafter⟩ := traced_eq_figure_iff h.1.1 h.1.2 p
    have hsplit : traced p (strokes (a :: rest).flatten) = (a :: rest).flatMap figure ↔
        traced p (strokes a) = figure a ∧
          traced (p.after (strokes a)) (strokes rest.flatten) = rest.flatMap figure := by
      rw [List.flatten_cons, strokes_append, traced_append, List.flatMap_cons]
      constructor
      · exact fun heq => List.append_inj heq (length_traced _ _ _)
      · exact fun heq => by rw [heq.1, heq.2]
    -- once the first piece is drawn as by itself, the pen is where that leaves it
    have hrest : traced p (strokes a) = figure a →
        (traced (p.after (strokes a)) (strokes rest.flatten) = rest.flatMap figure ↔ (a :: rest).IsChain Fits) := by
      intro heq
      rw [hafter heq, ih h.2, List.isChain_cons]
      rfl
    rw [hsplit, and_congr_right hrest, hiff]
    simp

/-- Pieces drawn in one go draw what they draw one by one exactly if each fits the one before it. -/
theorem figure_flatten_iff {segss : List (List Segment)}
    (h : ∀ segs ∈ segss, (∀ s ∈ segs, s.Sound) ∧ Opens ['M', 'm'] segs) :
    figure segss.flatten = segss.flatMap figure ↔ segss.IsChain Fits := by
  rw [figure, traced_flatten_iff h, and_iff_right_iff_imp]
  exact fun _ a _ => Or.inr rfl

end SvgComponent.Path
