/-
  SvgComponent.Proofs.Clean.Geometry — what merged paths draw.

  Merging the paths below one node touches the children of that node and nothing else (`Confined`), so every group
  is found as it was at the start, and the path that stays holds the data of all, joined with blanks
  (`content_mergePaths`). That is read as the members' segments one after the other, and draws what the members
  draw one by one exactly if each member but the first begins with an absolute move or comes where the pen is at
  the origin again (`mergePaths_figure_iff`). The first move of a path is absolute even if it is written `m`, but
  behind another member it counts from where that ends (`mergePaths_shifts`).
-/

import SvgComponent.Proofs.Clean.Editing
import SvgComponent.Proofs.Clean.Merging
import SvgComponent.Proofs.Markup.Reading
import SvgComponent.Proofs.Path.Joining
import SvgComponent.Proofs.Path.Tracing

namespace SvgComponent.Markup

open SvgComponent.Path (Segment figure Opens Fits)

deriving instance DecidableEq for PathGroup

namespace Document

variable {d d' d'' : Document} {p q i : Nat} {g : PathGroup}

theorem fst_mergeChildren (d : Document) (p : Nat) :
    (d.mergeChildren p).1 = (d.pathGroups p).foldl (fun d g => (d.mergeGroup g).1) d := by
  unfold mergeChildren
  exact (List.foldl_hom Prod.fst fun _ _ => rfl).symm

/-! ## Contents -/

theorem content_mergeGroup {e : Element} (h : g.others ≠ []) (he : d.content g.first = .element e) :
    (d.mergeGroup g).1.content g.first = .element (e.set "d" g.merged) := by
  have hsome : ¬ g.others.isEmpty = true := by simpa using h
  simp only [mergeGroup, if_neg hsome]
  rw [content_detachAll, content_editElement, if_pos rfl, he]
  rfl

theorem content_mergeGroup_of_ne (h : i ≠ g.first) (d : Document) : (d.mergeGroup g).1.content i = d.content i := by
  unfold mergeGroup
  split
  · rfl
  · dsimp only
    rw [content_detachAll, content_editElement, if_neg h]

theorem content_foldl_mergeGroup {groups : List PathGroup} (h : ∀ g ∈ groups, i ≠ g.first) (d : Document) :
    (groups.foldl (fun d g => (d.mergeGroup g).1) d).content i = d.content i := by
  induction groups generalizing d with
  | nil => rfl
  | cons g groups ih =>
    rw [List.forall_mem_cons] at h
    rw [List.foldl_cons, ih h.2, content_mergeGroup_of_ne h.1]

/-- The path that stays gets the data of its group, whatever the other groups of its siblings get. -/
theorem content_mergeChildren {e : Element} (hg : g ∈ d.pathGroups p) (h : g.others ≠ [])
    (he : d.content g.first = .element e) :
    (d.mergeChildren p).1.content g.first = .element (e.set "d" g.merged) := by
  have hfirsts := nodup_firsts d p
  obtain ⟨l, r, hlr⟩ := List.append_of_mem hg
  rw [hlr, List.map_append, List.map_cons, List.nodup_append, List.nodup_cons] at hfirsts
  have hl : ∀ g' ∈ l, g.first ≠ g'.first := fun g' hg' heq =>
    hfirsts.2.2 g'.first (List.mem_map_of_mem hg') g.first List.mem_cons_self heq.symm
  have hr : ∀ g' ∈ r, g.first ≠ g'.first := fun g' hg' heq =>
    hfirsts.2.1.1 (heq ▸ List.mem_map_of_mem hg')
  rw [fst_mergeChildren, hlr, List.foldl_append, List.foldl_cons, content_foldl_mergeGroup hr]
  exact content_mergeGroup h (by rw [content_foldl_mergeGroup hl, he])

/-! ## One node after the other -/

/-- Nothing but children of `q` is changed. -/
structure Confined (q : Nat) (d d' : Document) : Prop where
  children : ∀ p, p ≠ q → d'.children p = d.children p
  subset : ∀ p, d'.children p ⊆ d.children p
  content : ∀ i, i ∉ d.children q → d'.content i = d.content i

theorem Confined.refl (q : Nat) (d : Document) : Confined q d d :=
  ⟨fun _ _ => rfl, fun _ => List.Subset.refl _, fun _ _ => rfl⟩

theorem Confined.setContent (h : Confined q d d') (hi : i ∈ d.children q) (c : Content) :
    Confined q d (d'.setContent i c) := by
  have hchildren : ∀ p, (d'.setContent i c).children p = d'.children p := fun p =>
    Forest.children_setContent d'.toForest i p c
  refine ⟨fun p hp => (hchildren p).trans (h.children p hp), fun p => hchildren p ▸ h.subset p, fun j hj => ?_⟩
  rcases Change.content_setContent d' i c j with hc | hc
  · rw [hc, h.content j hj]
  · exact absurd (hc.1 ▸ hi) hj

theorem eq_of_mem_children (h : i ∈ d.children p) (h' : i ∈ d.children q) : p = q := by
  rw [d.linked.mem_children_iff] at h h'
  exact Option.some.inj (h.symm.trans h')

theorem Confined.detach (h : Confined q d d') (hi : i ∈ d.children q) : Confined q d (d'.detach i) := by
  refine ⟨fun p hp => ?_, fun p => ?_, fun j hj => (content_detach d' i j).trans (h.content j hj)⟩
  · rw [children_detach, if_neg, h.children p hp]
    intro hparent
    have hmem := h.subset p ((d'.linked.mem_children_iff p i).mpr hparent)
    exact hp (eq_of_mem_children hmem hi)
  · rw [children_detach]
    split
    · exact List.Subset.trans List.erase_subset (h.subset p)
    · exact h.subset p

theorem Confined.mergeGroup (h : Confined q d d') (hg : g.Lies d (d.children q)) :
    Confined q d (d'.mergeGroup g).1 := by
  unfold Document.mergeGroup
  split
  · exact h
  · have hset : Confined q d (d'.editElement (fun e => (e.set "d" g.merged, 0)) g.first).1 := by
      unfold editElement
      split
      · exact h.setContent hg.mem _
      · exact h
    dsimp only
    refine List.foldlRecOn (g.others.map (·.1)) Document.detach (motive := Confined q d) hset ?_
    intro d'' hd'' i hi
    exact hd''.detach (hg.order.subset (List.mem_cons_of_mem _ hi))

theorem confined_mergeChildren (d : Document) (q : Nat) : Confined q d (d.mergeChildren q).1 := by
  rw [fst_mergeChildren]
  refine List.foldlRecOn (d.pathGroups q) (fun d g => (d.mergeGroup g).1) (motive := Confined q d) (.refl q d) ?_
  intro d' hd' g hg
  exact hd'.mergeGroup (lies_pathGroups g hg)

theorem pathGroups_congr (hchildren : d'.children p = d.children p)
    (hcontent : ∀ i ∈ d.children p, d'.content i = d.content i) : d'.pathGroups p = d.pathGroups p := by
  unfold pathGroups
  rw [hchildren]
  refine List.foldl_ext _ _ _ fun groups i hi => ?_
  rw [Forest.element?, Forest.element?, hcontent i hi]

/-- Merging below other nodes leaves the children of `p` and what they hold. -/
theorem children_foldl_mergeChildren {l : List Nat} (hl : ∀ q ∈ l, p ≠ q) (d : Document) :
    (l.foldl (fun d q => (d.mergeChildren q).1) d).children p = d.children p ∧
      ∀ i ∈ d.children p, (l.foldl (fun d q => (d.mergeChildren q).1) d).content i = d.content i := by
  refine List.foldlRecOn l (fun d q => (d.mergeChildren q).1)
    (motive := fun d' : Document => d'.children p = d.children p ∧ ∀ i ∈ d.children p, d'.content i = d.content i)
    ⟨rfl, fun _ _ => rfl⟩ ?_
  intro d' hd' q hq
  have hconfined := confined_mergeChildren d' q
  refine ⟨(hconfined.children p (hl q hq)).trans hd'.1, fun i hi => ?_⟩
  rw [hconfined.content i, hd'.2 i hi]
  exact fun hmem => hl q hq (eq_of_mem_children (hd'.1 ▸ hi) hmem)

/-- Merging below nodes of which `i` is no child leaves what `i` holds. -/
theorem content_foldl_mergeChildren {l : List Nat} (hl : ∀ q ∈ l, i ∉ d.children q) :
    (l.foldl (fun d q => (d.mergeChildren q).1) d).content i = d.content i := by
  refine (List.foldlRecOn l (fun d q => (d.mergeChildren q).1)
    (motive := fun d' : Document => (∀ q ∈ l, i ∉ d'.children q) ∧ d'.content i = d.content i) ⟨hl, rfl⟩ ?_).2
  intro d' hd' q hq
  have hconfined := confined_mergeChildren d' q
  exact ⟨fun q' hq' hmem => hd'.1 q' hq' (hconfined.subset q' hmem),
    (hconfined.content i (hd'.1 q hq)).trans hd'.2⟩

/-- The path that stays gets the data of its group as it was before anything was merged. -/
theorem content_mergePaths {e : Element} (hp : p ∈ d.elementIds) (hg : g ∈ d.pathGroups p) (h : g.others ≠ [])
    (he : d.content g.first = .element e) : d.mergePaths.1.content g.first = .element (e.set "d" g.merged) := by
  have hfirst : g.first ∈ d.children p := (lies_pathGroups g hg).mem
  obtain ⟨l, r, hlr⟩ := List.append_of_mem hp
  have hnodup := d.nodup_elementIds
  rw [hlr, List.nodup_append, List.nodup_cons] at hnodup
  have hl : ∀ q ∈ l, p ≠ q := fun q hq heq => hnodup.2.2 q hq p List.mem_cons_self heq.symm
  have hr : ∀ q ∈ r, p ≠ q := fun q hq heq => hnodup.2.1.1 (heq ▸ hq)
  rw [mergePaths, Change.fst_forEach, hlr, List.foldl_append, List.foldl_cons]
  obtain ⟨hchildren, hcontent⟩ := children_foldl_mergeChildren hl d
  generalize l.foldl (fun d q => (d.mergeChildren q).1) d = d' at hchildren hcontent ⊢
  have hgroups : g ∈ d'.pathGroups p := by rwa [pathGroups_congr hchildren hcontent]
  rw [content_foldl_mergeChildren, content_mergeChildren hgroups h (by rw [hcontent _ hfirst, he])]
  -- the path that stays is a child of `p` and of no node after it
  intro q hq hmem
  exact hr q hq (eq_of_mem_children (hchildren ▸ hfirst) ((confined_mergeChildren d' p).subset q hmem))

/-! ## What is drawn -/

theorem sound_of_read {nodes : List (Nat × String)} {members : List (List Segment)}
    (h : List.Forall₂ (fun m segs => Path.parse m.2 = .ok segs ∧ Opens ['M', 'm'] segs) nodes members) :
    ∀ segs ∈ members, (∀ s ∈ segs, s.Sound) ∧ Opens ['M', 'm'] segs := by
  induction h with
  | nil => simp
  | cons hm _ ih =>
    rw [List.forall_mem_cons]
    exact ⟨⟨Path.sound_of_parse hm.1, hm.2⟩, ih⟩

/-- Merged paths draw what their members draw, in document order, exactly if each member but the first begins with
    an absolute move or comes where the member before it leaves the pen at the origin. -/
theorem mergePaths_figure_iff (hp : p ∈ d.elementIds) (hg : g ∈ d.pathGroups p) (h : g.others ≠ [])
    {members : List (List Segment)}
    (hread : List.Forall₂ (fun m segs => Path.parse m.2 = .ok segs ∧ Opens ['M', 'm'] segs) g.nodes members) :
    (g.nodes.map Prod.fst).Sublist (d.children p) ∧
      (∀ m ∈ g.nodes, (d.element? m.1).bind Element.pathData? = some m.2) ∧
      ∃ segs, (d.mergePaths.1.element? g.first).bind Element.pathData? = some g.merged ∧
        Path.parse g.merged = .ok segs ∧ (figure segs = members.flatMap figure ↔ members.IsChain Fits) := by
  have hlies := lies_pathGroups g hg
  refine ⟨hlies.order, fun m hm => ?_, members.flatten, ?_, ?_, ?_⟩
  · obtain ⟨e, he, hdata, -⟩ := hlies.paths m hm
    rw [Change.element?_eq_some.mpr he, Option.bind_some, hdata]
  · obtain ⟨e, he, hdata, -⟩ := hlies.first
    have hset := content_mergePaths hp hg h he
    rw [Change.element?_eq_some.mpr hset, Option.bind_some]
    have hpath : e.is "path" = true := by
      unfold Element.pathData? at hdata
      split at hdata
      · assumption
      · cases hdata
    have hname : (e.set "d" g.merged).is "path" = true := hpath
    rw [Element.pathData?, if_pos hname, Element.get?_set]
  · have hmerged : g.merged = " ".intercalate (g.nodes.map Prod.snd) := rfl
    rw [hmerged]
    refine (Path.parse_intercalate ?_ (by simp [PathGroup.nodes])).1
    rw [List.forall₂_map_left_iff]
    refine hread.imp fun m segs hm => ⟨hm.1, ?_⟩
    obtain ⟨s, hs, -⟩ := hm.2
    rintro rfl
    cases hs
  · exact Path.figure_flatten_iff (sound_of_read hread)

/-- A relative move behind a member that ends at the origin. -/
theorem mergePaths_figure_iff_origin :
    ∃ d segs, parse "<svg viewBox=\"0 0 1 1\"><path d=\"M1 1L0 0\"/><path d=\"m1 1h1\"/></svg>" = .ok d ∧
      (d.mergePaths.1.element? 1).bind Element.pathData? = some "M1 1L0 0 m1 1h1" ∧
      Path.parse "M1 1L0 0 m1 1h1" = .ok segs ∧
      figure segs = [[⟨'M', [['1'], ['1']]⟩, ⟨'L', [['0'], ['0']]⟩], [⟨'m', [['1'], ['1']]⟩, ⟨'h', [['1']]⟩]].flatMap
        figure := by
  obtain ⟨d, hd, hp, hg⟩ : ∃ d, parse "<svg viewBox=\"0 0 1 1\"><path d=\"M1 1L0 0\"/><path d=\"m1 1h1\"/></svg>" = .ok d ∧
      0 ∈ d.elementIds ∧ (⟨⟨none, none, none⟩, 1, "M1 1L0 0", [(2, "m1 1h1")]⟩ : PathGroup) ∈ d.pathGroups 0 := by
    decide +kernel
  have hread : List.Forall₂ (fun m segs => Path.parse m.2 = .ok segs ∧ Opens ['M', 'm'] segs)
      [((1 : Nat), "M1 1L0 0"), (2, "m1 1h1")]
      [[⟨'M', [['1'], ['1']]⟩, ⟨'L', [['0'], ['0']]⟩], [⟨'m', [['1'], ['1']]⟩, ⟨'h', [['1']]⟩]] :=
    .cons ⟨by decide +kernel, _, rfl, by decide⟩ (.cons ⟨by decide +kernel, _, rfl, by decide⟩ .nil)
  obtain ⟨-, -, segs, hdata, hparse, hiff⟩ := mergePaths_figure_iff hp hg (by simp) hread
  refine ⟨d, segs, hd, hdata, hparse, hiff.mpr ?_⟩
  exact .cons_cons (Or.inr (by decide +kernel)) (.singleton _)

/-- A relative move behind another member counts from where that ends. -/
theorem mergePaths_shifts :
    (∃ d, parse "<svg viewBox=\"0 0 1 1\"><path d=\"M1 1h1\"/><path d=\"m1 1h1\"/></svg>" = .ok d ∧
      0 ∈ d.elementIds ∧ d.pathGroups 0 = [⟨⟨none, none, none⟩, 1, "M1 1h1", [(2, "m1 1h1")]⟩] ∧
      (d.mergePaths.1.element? 1).bind Element.pathData? = some "M1 1h1 m1 1h1") ∧
    ∃ first second merged, Path.parse "M1 1h1" = .ok first ∧ Path.parse "m1 1h1" = .ok second ∧
      Opens ['M', 'm'] first ∧ Opens ['M', 'm'] second ∧ Path.parse "M1 1h1 m1 1h1" = .ok merged ∧
      figure merged ≠ figure first ++ figure second := by
  refine ⟨by decide +kernel, [⟨'M', [['1'], ['1']]⟩, ⟨'h', [['1']]⟩], [⟨'m', [['1'], ['1']]⟩, ⟨'h', [['1']]⟩],
    [⟨'M', [['1'], ['1']]⟩, ⟨'h', [['1']]⟩, ⟨'m', [['1'], ['1']]⟩, ⟨'h', [['1']]⟩], by decide +kernel, by decide +kernel,
    ⟨_, rfl, by decide⟩, ⟨_, rfl, by decide⟩, by decide +kernel, ?_⟩
  decide +kernel

end Document

end SvgComponent.Markup
