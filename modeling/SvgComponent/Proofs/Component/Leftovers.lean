/-
  SvgComponent.Proofs.Component.Leftovers — the pass over all nodes that takes away what editors leave.

  A pass that cuts off some of the nodes it comes to leaves attached just what had none of these at or above it
  (`CutOff`): what is cut off takes along what is below it, and a node that is no longer attached cannot be cut off
  again. So the leftover nodes go with what they hold (`sweptOff_forEach`), and every element that stays has lost its
  leftover attributes and nothing else.
-/

import SvgComponent.Proofs.Clean.Editing
import SvgComponent.Proofs.Component.Tidying

namespace SvgComponent.Markup

/-! ## Cutting nodes off one after the other -/

namespace Document

variable {d d' : Document} {i j : Nat}

/-- Detaching a node takes from the root what is below that node. -/
theorem below_root_detach (hi : i ≠ 0) : (d.detach i).Below 0 j ↔ d.Below 0 j ∧ ¬ d.Below i j := by
  have htakes : Change.tidying.Takes d (d.detach i) := Change.takes_detach trivial
  constructor
  · intro hj
    refine ⟨htakes.below hj, fun hij => ?_⟩
    cases hj.of_attached (htakes.below_of_attached hj hij) with
    | refl => exact hi rfl
    | tail _ hc =>
      rw [(d.detach i).linked.mem_children_iff, parent?_detach, if_pos rfl] at hc
      cases hc
  · exact fun ⟨hj, hij⟩ => below_detach hj hij

end Document

/-- What goes through the nodes in `visited` and cuts off those with `P` takes the first document to the second. -/
structure CutOff (P : Nat → Prop) (visited : List Nat) (d d' : Document) : Prop where
  takes : Change.tidying.Takes d d'
  attached : ∀ j, d'.Below 0 j ↔ d.Below 0 j ∧ ∀ v ∈ visited, P v → ¬ d.Below v j

namespace CutOff

variable {P : Nat → Prop} {visited : List Nat} {d d' d'' : Document} {i : Nat}

theorem refl (P : Nat → Prop) (d : Document) : CutOff P [] d d :=
  ⟨Change.takes_refl _ d, fun _ => ⟨fun hj => ⟨hj, nofun⟩, And.left⟩⟩

theorem cut (h : CutOff P visited d d') (hi : i ≠ 0) (hP : P i) : CutOff P (visited ++ [i]) d (d'.detach i) where
  takes := h.takes.trans (Change.takes_detach trivial)
  attached := by
    intro j
    rw [Document.below_root_detach hi, h.attached]
    constructor
    · rintro ⟨⟨hj, hvisited⟩, hij⟩
      refine ⟨hj, fun v hv hPv hvj => ?_⟩
      rcases List.mem_append.mp hv with hv | hv
      · exact hvisited v hv hPv hvj
      · rw [List.mem_singleton] at hv
        subst hv
        exact hij (h.takes.below_of_attached ((h.attached j).mpr ⟨hj, hvisited⟩) hvj)
    · rintro ⟨hj, hvisited⟩
      exact ⟨⟨hj, fun v hv => hvisited v (List.mem_append_left _ hv)⟩,
        fun hij => hvisited i (List.mem_append_right _ List.mem_cons_self) hP (h.takes.below hij)⟩

/-- A node that has gone already need not be cut off. -/
theorem skip (h : CutOff P visited d d') (hi : d'.Below 0 i → ¬ P i) : CutOff P (visited ++ [i]) d d' where
  takes := h.takes
  attached := by
    intro j
    constructor
    · intro hj
      obtain ⟨hdj, hvisited⟩ := (h.attached j).mp hj
      refine ⟨hdj, fun v hv hPv hvj => ?_⟩
      rcases List.mem_append.mp hv with hv | hv
      · exact hvisited v hv hPv hvj
      · rw [List.mem_singleton] at hv
        subst hv
        exact hi (hj.of_attached (h.takes.below_of_attached hj hvj)) hPv
    · rintro ⟨hj, hvisited⟩
      exact (h.attached j).mpr ⟨hj, fun v hv => hvisited v (List.mem_append_left _ hv)⟩

theorem edit (h : CutOff P visited d d') (htakes : Change.tidying.Takes d' d'')
    (hchildren : ∀ j, d''.children j = d'.children j) : CutOff P visited d d'' where
  takes := h.takes.trans htakes
  attached := by
    have hbelow : d''.Below = d'.Below := by
      unfold Document.Below
      simp only [hchildren]
    intro j
    rw [hbelow]
    exact h.attached j

/-- An attached node has the children that were not cut off. -/
theorem mem_children (h : CutOff P visited d d') (hi : d'.Below 0 i) {c : Nat} :
    c ∈ d'.children i ↔ c ∈ d.children i ∧ ¬ (c ∈ visited ∧ P c) := by
  constructor
  · intro hc
    exact ⟨(h.takes.children i).subset hc, fun ⟨hv, hPc⟩ => ((h.attached c).mp (hi.child hc)).2 c hv hPc (.refl d c)⟩
  · rintro ⟨hc, hnot⟩
    obtain ⟨hdi, hvisited⟩ := (h.attached i).mp hi
    have hparent := (d.linked.mem_children_iff i c).mp hc
    have hattached : d'.Below 0 c := by
      refine (h.attached c).mpr ⟨hdi.child hc, fun v hv hPv hvc => ?_⟩
      by_cases heq : v = c
      · subst heq
        exact hnot ⟨hv, hPv⟩
      · exact hvisited v hv hPv (hvc.parent heq hparent)
    cases h.takes.below_of_attached hattached (Document.below_of_mem_children hc) with
    | refl => exact absurd rfl (Nat.ne_of_lt (d.linked.lt_of_mem_children hc))
    | @tail p _ _ hp =>
      have := (d.linked.mem_children_iff p c).mp ((h.takes.children p).subset hp)
      rw [hparent] at this
      cases this
      exact hp

end CutOff

/-- What holds of the nodes visited so far, whichever the next one is, holds in the end of all of them. -/
theorem foldl_visited {β : Type} {step : β → Nat → β} {I : List Nat → β → Prop} {ids : List Nat} {s : β}
    (hs : I [] s)
    (hstep : ∀ visited i rest s, ids = visited ++ i :: rest → I visited s → I (visited ++ [i]) (step s i)) :
    I ids (ids.foldl step s) := by
  suffices ∀ rest visited s, ids = visited ++ rest → I visited s → I ids (rest.foldl step s) from
    this ids [] s rfl hs
  intro rest
  induction rest with
  | nil =>
    rintro visited s rfl hinv
    rwa [List.append_nil]
  | cons i rest ih =>
    intro visited s hids hinv
    exact ih (visited ++ [i]) (step s i) (hids.trans (List.append_assoc visited [i] rest).symm)
      (hstep visited i rest s hids hinv)

/-! ## Leftovers -/

/-- A tidied element has no leftover attributes, so it is left alone. -/
theorem Element.tidy_tidy (e : Element) : e.tidy.1.tidy = (e.tidy.1, 0) := by
  have hnone : ∀ a ∈ e.tidy.1.attributes, a.isLeftover = false := fun a ha =>
    Bool.not_eq_true' _ ▸ (List.mem_filter.mp ha).2
  rw [Element.tidy, List.countP_eq_zero.mpr fun a ha => Bool.eq_false_iff.mp (hnone a ha),
    List.filter_eq_self.mpr fun a ha => Bool.not_eq_true' _ ▸ hnone a ha]

theorem Content.isLeftover_edited (c : Content) : (c.edited Element.tidy).isLeftover = c.isLeftover := by
  cases c <;> rfl

/-- After the visit of some nodes, the leftover ones among them are cut off, and the elements tidied. -/
structure SweptOff (visited : List Nat) (d d' : Document) : Prop where
  cutOff : CutOff (fun v => (d.content v).isLeftover = true) visited d d'
  content : ∀ j, d'.Below 0 j →
    d'.content j = if j ∈ visited then (d.content j).edited Element.tidy else d.content j

theorem SweptOff.visit {visited : List Nat} {d d' : Document} {i : Nat} (h : SweptOff visited d d')
    (hi : i ∉ visited) (hroot : (d.content 0).isLeftover = false) :
    SweptOff (visited ++ [i]) d (d'.tidyNode i).1 := by
  have hmem {j : Nat} (hj : j ≠ i) : j ∈ visited ++ [i] ↔ j ∈ visited := by
    rw [List.mem_append, List.mem_singleton, or_iff_left hj]
  unfold Document.tidyNode
  split
  · rename_i hattached
    have hbelow := Document.isAttached_iff.mp hattached
    have hcontent := h.content i hbelow
    rw [if_neg hi] at hcontent
    rw [hcontent]
    split
    · rename_i hleftover
      have hne : i ≠ 0 := by
        rintro rfl
        rw [hroot] at hleftover
        cases hleftover
      refine ⟨h.cutOff.cut hne hleftover, fun j hj => ?_⟩
      obtain ⟨hj, hij⟩ := (Document.below_root_detach hne).mp hj
      have hji : j ≠ i := by
        rintro rfl
        exact hij (.refl d' j)
      simp only [hmem hji]
      exact (Document.content_detach d' i j).trans (h.content j hj)
    · rename_i hleftover
      have htakes : Change.tidying.Takes d' (d'.editElement Element.tidy i).1 :=
        Change.takes_editElement fun e _ => .element e.keeps_tidy
      refine ⟨(h.cutOff.skip fun _ => hleftover).edit htakes (Document.children_editElement Element.tidy d' i),
        fun j hj => ?_⟩
      have hj' : d'.Below 0 j := htakes.below hj
      rw [Document.content_editElement]
      by_cases hji : j = i
      · subst hji
        rw [if_pos rfl, if_pos (List.mem_append_right _ List.mem_cons_self), hcontent]
      · rw [if_neg hji, h.content j hj']
        simp only [hmem hji]
  · rename_i hattached
    have hnot : ¬ d'.Below 0 i := fun hbelow => hattached (Document.isAttached_iff.mpr hbelow)
    refine ⟨h.cutOff.skip fun hbelow => absurd hbelow hnot, fun j hj => ?_⟩
    have hji : j ≠ i := by
      rintro rfl
      exact hnot hj
    simp only [hmem hji]
    exact h.content j hj

/-- The pass cuts off the leftover nodes and tidies the elements. -/
theorem sweptOff_forEach {d : Document} (hroot : (d.content 0).isLeftover = false) :
    SweptOff (d.descendants 0) d (d.forEach Document.tidyNode (d.descendants 0)).1 := by
  rw [Change.fst_forEach]
  refine foldl_visited (I := fun visited d' => SweptOff visited d d') ⟨.refl _ d, fun j _ => rfl⟩ ?_
  intro visited i rest d' hids h
  refine h.visit (fun hi => ?_) hroot
  have hnodup := d.nodup_descendants 0
  rw [hids, List.nodup_append] at hnodup
  exact hnodup.2.2 i hi i List.mem_cons_self rfl

end SvgComponent.Markup
