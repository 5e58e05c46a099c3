/-
  SvgComponent.Proofs.Convert.Cancelling — what comes of a conversion that is cancelled while it runs.

  A conversion that is found to be cancelled at more points is cut short (`CutShort`): it makes the entries that it would
  make otherwise, up to some point, and if it does not go the whole way it fails for being cancelled. One point does no
  more than that (`CutShort.checkpoint`), and neither does what is put together of parts that do no more
  (`CutShort.bind`).

  So it is with a worker that is asked to stop:
  - the earlier it is asked, the sooner its journal ends, and nothing is in it that is not in that of a worker that goes
    the whole way (`cutShort_waitAfter`, `cutShort_run`);
  - it comes back cancelled if it was asked before the last point, unless the image could not be read, which was then
    found out before the second point (`waitAfter_cancel`). It never comes back with another conversion.
-/

import SvgComponent.Proofs.Convert.Offloading

namespace SvgComponent.Convert

open SvgComponent.Markup (Document)

/-! ## Cut short -/

/-- The second goes as the first does, or fails on the way for being cancelled. -/
structure CutShort {α : Type} (whole t : Traced α) : Prop where
  entries : t.entries <+: whole.entries
  result : t.result = .error .cancelled ∨ t = whole

namespace CutShort

variable {α β : Type}

theorem refl (t : Traced α) : CutShort t t := ⟨List.prefix_rfl, Or.inr rfl⟩

theorem bind {whole t : Traced α} {f g : α → Traced β} (h : CutShort whole t) (hf : ∀ a, CutShort (f a) (g a)) :
    CutShort (whole >>= f) (t >>= g) := by
  have hlonger : whole.entries <+: (whole >>= f).entries := by
    cases hwhole : whole.result with
    | error e => exact ⟨[], by rw [List.append_nil, Traced.bind_error hwhole]⟩
    | ok a =>
      rw [Traced.bind_ok hwhole]
      exact List.prefix_append _ _
  rcases h.result with hcancelled | hsame
  · rw [Traced.bind_error hcancelled]
    exact ⟨h.entries.trans hlonger, Or.inl rfl⟩
  · subst hsame
    cases ht : t.result with
    | error e =>
      rw [Traced.bind_error ht, Traced.bind_error ht]
      exact refl _
    | ok a =>
      rw [Traced.bind_ok ht, Traced.bind_ok ht]
      obtain ⟨hentries, hresult⟩ := hf a
      refine ⟨(List.prefix_append_right_inj t.entries).mpr hentries, ?_⟩
      rcases hresult with hcancelled | hsame
      · exact Or.inl hcancelled
      · rw [hsame]
        exact Or.inr rfl

/-- A point at which it is found to be cancelled, where it may not have been. -/
theorem checkpoint {b b' : Bool} (h : b = true → b' = true) : CutShort (checkpoint b) (checkpoint b') := by
  cases b' with
  | true => exact ⟨List.nil_prefix, Or.inl rfl⟩
  | false =>
    cases b with
    | true => cases h rfl
    | false => exact refl _

end CutShort

theorem cutShort_runUnless {cancelled cancelled' : Checkpoint → Bool} (h : ∀ c, cancelled c = true → cancelled' c = true)
    (svg : String) (o : Options) : CutShort (runUnless cancelled svg o) (runUnless cancelled' svg o) := by
  unfold runUnless
  refine (CutShort.checkpoint (h .reading)).bind fun _ => (CutShort.refl (read svg)).bind fun d => ?_
  refine (CutShort.checkpoint (h .cleaning)).bind fun _ => (CutShort.refl _).bind fun cleaned => ?_
  refine (CutShort.checkpoint (h .generating)).bind fun _ => (CutShort.refl _).bind fun artifact => ?_
  exact (CutShort.checkpoint (h .done)).bind fun _ => CutShort.refl _

/-! ## A worker that is asked to stop -/

namespace Task

variable (t : Task)

theorem waitAfter_of_not_cancelled {t : Task} (h : t.cancelled = false) (passed : Nat) :
    t.waitAfter passed = run t.svg t.options false := by
  have hnever : (fun c : Checkpoint => t.cancelled && decide (passed ≤ c.place)) = fun _ => false := by
    funext c
    rw [h, Bool.false_and]
  rw [waitAfter, hnever]
  rfl

/-- The later a worker is asked to stop the further it goes. -/
theorem cutShort_waitAfter {passed later : Nat} (h : passed ≤ later) :
    CutShort (t.waitAfter later) (t.waitAfter passed) := by
  refine cutShort_runUnless ?_ t.svg t.options
  intro c hfound
  rw [Bool.and_eq_true, decide_eq_true_iff] at hfound ⊢
  exact ⟨hfound.1, by omega⟩

theorem cutShort_run (passed : Nat) : CutShort (run t.svg t.options false) (t.waitAfter passed) :=
  cutShort_runUnless (fun _ hnever => by cases hnever) t.svg t.options

/-- A worker that is asked to stop comes back cancelled, having done nothing but what it would have done, unless it finds
    out first that the image cannot be read, or is asked too late. -/
theorem waitAfter_cancel (passed : Nat) :
    (t.cancel.waitAfter passed).entries <+: (run t.svg t.options false).entries ∧
      (t.cancel.waitAfter passed).result = match Document.parse t.svg with
        | .error f => .error (if passed = 0 then .cancelled else .document f)
        | .ok _ => if passed ≤ Checkpoint.done.place then .error .cancelled else (run t.svg t.options false).result := by
  refine ⟨(t.cancel.cutShort_run passed).entries, ?_⟩
  have hcancel : t.cancel.waitAfter passed = runUnless (fun c => decide (passed ≤ c.place)) t.svg t.options := rfl
  rw [hcancel]
  cases h : Document.parse t.svg with
  | error f =>
    rw [result_runUnless_of_fault h]
    by_cases hzero : passed = 0
    · simp [hzero]
    · simp [hzero, Checkpoint.place]
  | ok d =>
    obtain ⟨cleaning, artifact, _, _, _, hrun⟩ := result_runUnless_of_document h t.options
    rw [run, hrun, hrun]
    simp only [Checkpoint.place]
    by_cases hlate : passed ≤ 3
    · simp [hlate]
    · simp [hlate, show ¬ passed ≤ 0 by omega, show ¬ passed ≤ 1 by omega, show ¬ passed ≤ 2 by omega]

end Task

end SvgComponent.Convert
