/-
  SvgComponent.Proofs.Path.Simplest — simplified path data is as simple as it gets.

  Segments are simplest when no two neighbours join (`IsSimplest`). Simplifying leaves such segments, because the first
  segment keeps its letter whatever is joined to it (`isSimplest_simplifyFrom`), and leaves such segments alone
  (`simplifyFrom_of_isSimplest`). As they are read from what is written of them, simplifying the text again gives the
  same text (`simplify_simplify`).
-/

import SvgComponent.Proofs.Path.Drawing

namespace SvgComponent.Path

/-- No segment joins the one before it. -/
def IsSimplest (segs : List Segment) : Prop := segs.IsChain fun a b => joint a b = .apart

/-- What a segment joins to the one before it depends on its letter. -/
theorem joint_congr {last next next' : Segment} (h : next'.letter = next.letter) : joint last next' = joint last next := by
  unfold joint
  rw [h]

/-- Simplifying from a segment on begins with a segment of its letter. -/
theorem simplifyFrom_eq_cons (last : Segment) (segs : List Segment) :
    ∃ first rest, simplifyFrom last segs = first :: rest ∧ first.letter = last.letter := by
  induction segs generalizing last with
  | nil => exact ⟨last, [], rfl, rfl⟩
  | cons next segs ih =>
    rw [simplifyFrom]
    split
    · obtain ⟨first, rest, heq, hletter⟩ := ih { last with args := last.args ++ next.args }
      exact ⟨first, rest, heq, hletter⟩
    · rename_i hj
      obtain ⟨hlast, hnext, _⟩ := joint_supersede hj
      obtain ⟨first, rest, heq, hletter⟩ := ih next
      exact ⟨first, rest, heq, by rw [hletter, hlast, hnext]⟩
    · exact ih last
    · exact ⟨last, _, rfl, rfl⟩

theorem isSimplest_simplifyFrom (last : Segment) (segs : List Segment) : IsSimplest (simplifyFrom last segs) := by
  induction segs generalizing last with
  | nil => exact .singleton last
  | cons next segs ih =>
    rw [simplifyFrom]
    split
    · exact ih _
    · exact ih next
    · exact ih last
    · rename_i hj
      have hrest := ih next
      obtain ⟨first, rest, heq, hletter⟩ := simplifyFrom_eq_cons next segs
      rw [heq] at hrest ⊢
      exact .cons_cons (by rw [joint_congr hletter, hj]) hrest

theorem simplifyFrom_of_isSimplest {last : Segment} {segs : List Segment} (h : IsSimplest (last :: segs)) :
    simplifyFrom last segs = last :: segs := by
  induction segs generalizing last with
  | nil => rfl
  | cons next segs ih =>
    obtain ⟨hj, hrest⟩ := List.isChain_cons_cons.mp h
    rw [simplifyFrom, hj]
    exact congrArg (last :: ·) (ih hrest)

theorem simplifySegments_simplifySegments (segs : List Segment) :
    simplifySegments (simplifySegments segs) = simplifySegments segs := by
  cases segs with
  | nil => rfl
  | cons seg segs =>
    have hsimplest := isSimplest_simplifyFrom seg segs
    show simplifySegments (simplifyFrom seg segs) = simplifyFrom seg segs
    generalize simplifyFrom seg segs = simpler at hsimplest
    cases simpler with
    | nil => rfl
    | cons first rest => exact simplifyFrom_of_isSimplest hsimplest

/-- Simplified path data is simplified to itself. -/
theorem simplify_simplify {d simpler : String} (h : simplify d = .ok simpler) : simplify simpler = .ok simpler := by
  unfold simplify at h
  cases hparse : parse d with
  | error f =>
    rw [hparse] at h
    cases h
  | ok segs =>
    rw [hparse] at h
    cases h
    unfold simplify
    rw [parse_write (sound_simplifySegments (sound_of_parse hparse))]
    exact congrArg (fun segs => Except.ok (write segs)) (simplifySegments_simplifySegments segs)

end SvgComponent.Path
