/-
  SvgComponent.Proofs.Clean.Merging — what merging does to a document.

  The paths of a group agree in paint, and the one that stays comes before the others (`PathGroup.Lies`). Therefore a
  node is cut off only if it is a path after a sibling path of one paint (`Document.IsMerged`), and what stays is
  given other path data at most (`takes_repathing`), so that it is redrawn (`takes_mergePaths`).
-/

import Mathlib.Logic.Relation
import SvgComponent.Proofs.Clean.Change
import SvgComponent.Proofs.Clean.Names

namespace SvgComponent.Markup

/-! ## Groups -/

/-- A path with path data, in this paint. -/
def Content.IsPath (paint : Paint) (c : Content) : Prop :=
  ∃ e : Element, c = .element e ∧ e.pathData?.isSome ∧ e.paint = paint

namespace PathGroup

/-- The paths of a group, the one that stays first, each with its data. -/
def nodes (g : PathGroup) : List (Nat × String) := (g.first, g.data) :: g.others

/-- The paths of a group stand among siblings in this order, and have its paint. -/
structure Lies (d : Document) (siblings : List Nat) (g : PathGroup) : Prop where
  paths : ∀ m ∈ g.nodes, ∃ e : Element, d.content m.1 = .element e ∧ e.pathData? = some m.2 ∧ e.paint = g.paint
  order : (g.nodes.map Prod.fst).Sublist siblings

variable {d : Document} {siblings : List Nat} {g : PathGroup}

theorem Lies.append (h : g.Lies d siblings) (i : Nat) : g.Lies d (siblings ++ [i]) :=
  ⟨h.paths, h.order.trans (List.sublist_append_left _ _)⟩

theorem Lies.first (h : g.Lies d siblings) : (d.content g.first).IsPath g.paint := by
  obtain ⟨e, he, hdata, hpaint⟩ := h.paths (g.first, g.data) List.mem_cons_self
  exact ⟨e, he, by rw [hdata]; rfl, hpaint⟩

theorem Lies.mem (h : g.Lies d siblings) : g.first ∈ siblings := h.order.subset List.mem_cons_self

/-- The path that stays comes before the others. -/
theorem Lies.others (h : g.Lies d siblings) {i : Nat} (hi : i ∈ g.others.map (·.1)) :
    (d.content i).IsPath g.paint ∧ [g.first, i].Sublist siblings := by
  obtain ⟨m, hm, rfl⟩ := List.mem_map.mp hi
  obtain ⟨e, he, hdata, hpaint⟩ := h.paths m (List.mem_cons_of_mem _ hm)
  refine ⟨⟨e, he, by rw [hdata]; rfl, hpaint⟩, List.Sublist.trans ?_ h.order⟩
  exact List.cons_sublist_cons.mpr (List.singleton_sublist.mpr hi)

theorem lies_add {e : Element} {i : Nat} {data : String} (he : d.content i = .element e) (hdata : e.pathData? = some data)
    {groups : List PathGroup} (h : ∀ g ∈ groups, g.Lies d siblings) :
    ∀ g ∈ add e.paint i data groups, g.Lies d (siblings ++ [i]) := by
  induction groups with
  | nil =>
    intro g hg
    obtain rfl := List.mem_singleton.mp hg
    exact ⟨by simp [nodes, he, hdata], by simp [nodes]⟩
  | cons g groups ih =>
    rw [List.forall_mem_cons] at h
    rw [add]
    split
    · rename_i hpaint
      rw [List.forall_mem_cons]
      refine ⟨⟨?_, ?_⟩, fun g' hg' => (h.2 g' hg').append i⟩
      · intro m hm
        rcases List.mem_append.mp (show m ∈ g.nodes ++ [(i, data)] from hm) with hm | hm
        · exact h.1.paths m hm
        · obtain rfl := List.mem_singleton.mp hm
          exact ⟨e, he, hdata, hpaint.symm⟩
      · have hnodes : ({ g with others := g.others ++ [(i, data)] } : PathGroup).nodes.map Prod.fst =
            g.nodes.map Prod.fst ++ [i] := by simp [nodes]
        rw [hnodes]
        exact h.1.order.append (.refl [i])
    · rw [List.forall_mem_cons]
      exact ⟨h.1.append i, ih h.2⟩

theorem nodes_add (paint : Paint) (i : Nat) (data : String) (groups : List PathGroup) :
    (∃ g ∈ add paint i data groups, g.paint = paint ∧ i ∈ g.nodes.map Prod.fst) ∧
      ∀ g ∈ groups, ∃ g' ∈ add paint i data groups, g'.paint = g.paint ∧ g.nodes ⊆ g'.nodes := by
  induction groups with
  | nil => exact ⟨⟨_, List.mem_singleton.mpr rfl, rfl, List.mem_cons_self⟩, by simp⟩
  | cons g groups ih =>
    rw [add]
    split
    · rename_i hpaint
      refine ⟨⟨_, List.mem_cons_self, hpaint, by simp [nodes]⟩, ?_⟩
      rw [List.forall_mem_cons]
      refine ⟨⟨_, List.mem_cons_self, rfl, ?_⟩, fun g' hg' => ⟨g', List.mem_cons_of_mem _ hg', rfl, fun _ hm => hm⟩⟩
      exact List.subset_append_left g.nodes [(i, data)]
    · obtain ⟨⟨g', hg', hnew⟩, hold⟩ := ih
      refine ⟨⟨g', List.mem_cons_of_mem _ hg', hnew⟩, ?_⟩
      rw [List.forall_mem_cons]
      refine ⟨⟨g, List.mem_cons_self, rfl, fun _ hm => hm⟩, fun g hg => ?_⟩
      obtain ⟨g', hg', hkept⟩ := hold g hg
      exact ⟨g', List.mem_cons_of_mem _ hg', hkept⟩

theorem paints_add (paint : Paint) (i : Nat) (data : String) (groups : List PathGroup) :
    (add paint i data groups).map (·.paint) =
      if paint ∈ groups.map (·.paint) then groups.map (·.paint) else groups.map (·.paint) ++ [paint] := by
  induction groups with
  | nil => rfl
  | cons g groups ih =>
    rw [add]
    by_cases hpaint : g.paint = paint
    · simp [hpaint]
    · rw [if_neg hpaint, List.map_cons, ih]
      by_cases hmem : paint ∈ groups.map (·.paint)
      · simp [hmem]
      · simp [hmem, Ne.symm hpaint]

end PathGroup

namespace Document

variable {d : Document} {p : Nat}

/-- What each step keeps, with what it has taken behind what was taken before, a fold keeps. -/
theorem foldl_behind {α β : Type} {P : List α → β → Prop} {step : β → α → β} {l : List α} {b : β}
    (h : ∀ l b a, P l b → P (l ++ [a]) (step b a)) (rest : List α) (hb : P l b) :
    P (l ++ rest) (rest.foldl step b) := by
  induction rest generalizing l b with
  | nil => rwa [List.append_nil]
  | cons a rest ih =>
    rw [List.foldl_cons, List.append_cons]
    exact ih (h l b a hb)

/-- What adding a path keeps, gathering all paths of siblings keeps. -/
theorem pathGroups_induction {P : List Nat → List PathGroup → Prop} (nil : P [] [])
    (skip : ∀ siblings groups i, (∀ paint, ¬ (d.content i).IsPath paint) → P siblings groups →
      P (siblings ++ [i]) groups)
    (add : ∀ siblings groups i e data, d.content i = .element e → e.pathData? = some data → P siblings groups →
      P (siblings ++ [i]) (PathGroup.add e.paint i data groups)) : P (d.children p) (d.pathGroups p) := by
  refine foldl_behind (P := P) (l := []) (b := []) ?_ (d.children p) nil
  intro siblings groups i h
  split
  · rename_i hnone
    refine skip siblings groups i ?_ h
    rintro _ ⟨e, he, _⟩
    rw [Change.element?_eq_some.mpr he] at hnone
    cases hnone
  · rename_i e he
    have he := Change.element?_eq_some.mp he
    split
    · rename_i hnone
      refine skip siblings groups i ?_ h
      rintro _ ⟨e', he', hdata, _⟩
      cases he.symm.trans he'
      rw [hnone] at hdata
      cases hdata
    · rename_i data hdata
      exact add siblings groups i e data he hdata h

theorem lies_pathGroups : ∀ g ∈ d.pathGroups p, g.Lies d (d.children p) := by
  refine pathGroups_induction (P := fun siblings groups => ∀ g ∈ groups, g.Lies d siblings) ?_ ?_ ?_
  · intro g hg
    cases hg
  · exact fun _ _ i _ h g hg => (h g hg).append i
  · exact fun _ _ _ _ _ he hdata h => PathGroup.lies_add he hdata h

/-- A path is in the group of its paint. -/
theorem mem_pathGroups : ∀ i ∈ d.children p, ∀ paint, (d.content i).IsPath paint →
    ∃ g ∈ d.pathGroups p, g.paint = paint ∧ i ∈ g.nodes.map Prod.fst := by
  refine pathGroups_induction (P := fun siblings groups => ∀ i ∈ siblings, ∀ paint, (d.content i).IsPath paint →
    ∃ g ∈ groups, g.paint = paint ∧ i ∈ g.nodes.map Prod.fst) ?_ ?_ ?_
  · intro i hi
    cases hi
  · intro siblings groups i hnone h j hj paint hpath
    rcases List.mem_append.mp hj with hj | hj
    · exact h j hj paint hpath
    · obtain rfl := List.mem_singleton.mp hj
      exact absurd hpath (hnone paint)
  · intro siblings groups i e data he _ h j hj paint hpath
    obtain ⟨hnew, hold⟩ := PathGroup.nodes_add e.paint i data groups
    rcases List.mem_append.mp hj with hj | hj
    · obtain ⟨g, hg, hpaint, hnode⟩ := h j hj paint hpath
      obtain ⟨g', hg', hpaint', hkept⟩ := hold g hg
      exact ⟨g', hg', hpaint'.trans hpaint, List.map_subset _ hkept hnode⟩
    · obtain rfl := List.mem_singleton.mp hj
      obtain ⟨e', he', _, rfl⟩ := hpath
      cases he.symm.trans he'
      exact hnew

theorem nodup_paints (d : Document) (p : Nat) : ((d.pathGroups p).map PathGroup.paint).Nodup := by
  refine pathGroups_induction (P := fun _ groups => (groups.map PathGroup.paint).Nodup) .nil (fun _ _ _ _ h => h) ?_
  intro _ groups i e data _ _ h
  rw [PathGroup.paints_add]
  split
  · exact h
  · rename_i hnew
    rw [List.nodup_append]
    refine ⟨h, by simp, ?_⟩
    rintro a ha b hb rfl
    exact hnew (List.mem_singleton.mp hb ▸ ha)

/-- No two groups of siblings keep the same path. -/
theorem nodup_firsts (d : Document) (p : Nat) : ((d.pathGroups p).map PathGroup.first).Nodup := by
  have hpaint : ∀ g ∈ d.pathGroups p, ∀ g' ∈ d.pathGroups p, g.first = g'.first → g.paint = g'.paint := by
    intro g hg g' hg' heq
    obtain ⟨e, he, _, hpaint⟩ := (lies_pathGroups g hg).first
    obtain ⟨e', he', _, hpaint'⟩ := (lies_pathGroups g' hg').first
    rw [heq, he', Content.element.injEq] at he
    rw [← hpaint, ← hpaint', he]
  have hpairs := List.pairwise_map.mp (nodup_paints d p)
  refine List.pairwise_map.mpr (hpairs.imp_of_mem fun hg hg' hne heq => hne (hpaint _ hg _ hg' heq))

end Document

/-! ## The change -/

/-- A path with path data that follows a sibling with path data and the same paint. -/
def Document.IsMerged (d : Document) (i : Nat) : Prop :=
  ∃ p ∈ d.elementIds, ∃ first paint, [first, i].Sublist (d.children p) ∧ (d.content first).IsPath paint ∧
    (d.content i).IsPath paint

/-- What is no element stays as it is. -/
inductive Content.Redrawn : Content → Content → Prop
  | element {e e' : Element} : e.Redrawn e' → Redrawn (.element e) (.element e')
  | other (c : Content) : Redrawn c c

theorem Content.Redrawn.isElement {a b : Content} (h : a.Redrawn b) : b.isElement = a.isElement := by
  cases h <;> rfl

theorem Content.Redrawn.trans {a b c : Content} (h : a.Redrawn b) (h' : b.Redrawn c) : a.Redrawn c := by
  cases h with
  | other => exact h'
  | element h =>
    cases h' with
    | other => exact .element h
    | element h' => exact .element (h.trans h')

theorem Content.Redrawn.isPath_iff {a b : Content} (h : a.Redrawn b) {paint : Paint} :
    b.IsPath paint ↔ a.IsPath paint := by
  cases h with
  | other => exact Iff.rfl
  | element h =>
    constructor
    · intro hpath
      obtain ⟨_, he, hdata, hpaint⟩ := hpath
      cases he
      exact ⟨_, rfl, h.names.isSome_pathData? ▸ hdata, h.paint ▸ hpaint⟩
    · intro hpath
      obtain ⟨_, he, hdata, hpaint⟩ := hpath
      cases he
      exact ⟨_, rfl, h.names.isSome_pathData?.symm ▸ hdata, h.paint.symm ▸ hpaint⟩

/-- A path is given other path data, any number of times. -/
def Content.Repathed : Content → Content → Prop :=
  Relation.ReflTransGen fun a b =>
    ∃ (e : Element) (data : String), e.pathData?.isSome ∧ a = .element e ∧ b = .element (e.set "d" data)

theorem Content.repathed_set {e : Element} (h : e.pathData?.isSome) (data : String) :
    (Content.element e).Repathed (.element (e.set "d" data)) := .single ⟨e, data, h, rfl, rfl⟩

/-- What holds of new path data, however it comes about, holds of contents that are given it. -/
theorem Content.Repathed.induction {P : Content → Content → Prop} (refl : ∀ c, P c c)
    (trans : ∀ {a b c}, P a b → P b c → P a c)
    (set : ∀ (e : Element) (data : String), e.pathData?.isSome → P (.element e) (.element (e.set "d" data)))
    {a b : Content} (h : a.Repathed b) : P a b := by
  induction h with
  | refl => exact refl a
  | tail _ hstep ih =>
    obtain ⟨e, data, hdata, rfl, rfl⟩ := hstep
    exact trans ih (set e data hdata)

theorem Content.Repathed.redrawn {a b : Content} (h : a.Repathed b) : a.Redrawn b :=
  h.induction .other (fun h h' => h.trans h') fun _ _ hdata => .element (redrawn_set hdata _)

/-- Some elements may be cut off, and paths be given other path data. -/
def repathing (t : Nat → Prop) : Change where
  cut i c := c.isElement = true ∧ t i
  edit := Content.Repathed
  refl _ := .refl
  trans := .trans
  cut_iff h := by rw [h.redrawn.isElement]

/-- Merged paths may be cut off, and others redrawn. -/
def merging (d : Document) : Change where
  cut i c := c.isElement = true ∧ d.IsMerged i
  edit := Content.Redrawn
  refl := .other
  trans h h' := h.trans h'
  cut_iff h := by rw [h.isElement]

/-- Merging the paths below one node cuts off all but the first of each group. -/
theorem takes_mergeChildren (d : Document) (p : Nat) :
    (repathing fun i => ∃ g ∈ d.pathGroups p, i ∈ g.others.map (·.1)).Takes d (d.mergeChildren p).1 := by
  apply Change.takes_foldl _ Prod.fst (fun (s : Document × Nat) g => ((s.1.mergeGroup g).1, s.2 + (s.1.mergeGroup g).2))
    (d.pathGroups p) (d, 0)
  intro s g hg hs
  obtain ⟨d', n⟩ := s
  show Change.Takes _ d' (d'.mergeGroup g).1
  have hlies := Document.lies_pathGroups g hg
  have hpath : ∀ {i paint}, (d.content i).IsPath paint → (d'.content i).IsPath paint :=
    fun h => (Content.Repathed.redrawn (hs.content _)).isPath_iff.mpr h
  unfold Document.mergeGroup
  split
  · exact Change.takes_refl _ d'
  · have hset : (repathing fun i => ∃ g ∈ d.pathGroups p, i ∈ g.others.map (·.1)).Takes d'
        (d'.editElement (fun e => (e.set "d" g.merged, 0)) g.first).1 := by
      apply Change.takes_editElement
      intro e he
      obtain ⟨e', he', hdata, _⟩ := hpath hlies.first
      rw [he, Content.element.injEq] at he'
      exact Content.repathed_set (he' ▸ hdata) _
    refine hset.trans (Change.takes_detachAll fun i hi => ⟨?_, g, hg, hi⟩)
    obtain ⟨e, he, _⟩ := hpath (hlies.others hi).1
    rw [(Content.Repathed.redrawn (hset.content i)).isElement, he]
    rfl

theorem takes_repathing (d : Document) : (repathing d.IsMerged).Takes d d.mergePaths.1 := by
  apply Change.takes_forEach
  intro d' p hp h
  have hpath : ∀ {i paint}, (d'.content i).IsPath paint → (d.content i).IsPath paint :=
    fun hpath => (Content.Repathed.redrawn (h.content _)).isPath_iff.mp hpath
  refine (takes_mergeChildren d' p).mono ?_ fun hedit => hedit
  rintro i c ⟨hc, g, hg, hi⟩
  have hlies := Document.lies_pathGroups g hg
  obtain ⟨hothers, hsub⟩ := hlies.others hi
  exact ⟨hc, p, hp, g.first, g.paint, hsub.trans (h.children p), hpath hlies.first, hpath hothers⟩

theorem takes_mergePaths (d : Document) : (merging d).Takes d d.mergePaths.1 :=
  (takes_repathing d).mono (fun _ _ hc => hc) Content.Repathed.redrawn

end SvgComponent.Markup
