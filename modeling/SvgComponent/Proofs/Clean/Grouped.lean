/-
  SvgComponent.Proofs.Clean.Grouped — which paths are merged, and what becomes of the children of one node.

  The paths below a node that have one paint stand together (`Document.alike`), and the first of them leads
  (`Document.leads`). These are the groups that merging makes (`alike_of_mem_nodes`): the path that stays in a group is
  the one that leads, and the others are cut off (`mem_mergedBelow_iff`). At every parent that stays, the paths that
  lead have the data of all that are like them, and the other children are what they were (`mergePaths_groups`).

  A parent may itself be given data, or cut off, when its own siblings are merged. Neither reaches its children, so the
  groups are those of the document as it was (`content_mergePaths_of_ne`, `parent?_mergePaths`).
-/

import SvgComponent.Proofs.Clean.Cuts

namespace SvgComponent.Markup

/-! ## Path data in a list of attributes -/

/-- The element with other path data, in the first attribute of that name; nothing else is different. -/
structure Element.GivenData (e : Element) (data : String) (e' : Element) : Prop where
  name : e'.name = e.name
  attributes : ∃ before a after, e.attributes = before ++ a :: after ∧
    e'.attributes = before ++ { a with value := data } :: after ∧
    a.name.full = "d" ∧ ∀ b ∈ before, b.name.full ≠ "d"

/-- Path data that is there stands in one place of the list. -/
theorem Element.exists_data {e : Element} {data : String} (h : e.pathData? = some data) :
    ∃ before a after, e.attributes = before ++ a :: after ∧ a.value = data ∧ a.name.full = "d" ∧
      ∀ b ∈ before, b.name.full ≠ "d" := by
  unfold Element.pathData? at h
  split at h
  · obtain ⟨a, ha, hvalue⟩ := Option.map_eq_some_iff.mp h
    obtain ⟨hname, before, after, heq, hbefore⟩ := List.find?_eq_some_iff_append.mp ha
    exact ⟨before, a, after, heq, hvalue, by simpa using hname, fun b hb => by simpa using hbefore b hb⟩
  · cases h

theorem Element.givenData_set {e : Element} (h : e.pathData?.isSome = true) (data : String) :
    e.GivenData data (e.set "d" data) := by
  obtain ⟨old, hold⟩ := Option.isSome_iff_exists.mp h
  obtain ⟨before, a, after, heq, -, ha, hbefore⟩ := exists_data hold
  refine ⟨rfl, before, a, after, heq, ?_, ha, hbefore⟩
  rw [Element.set]
  dsimp only
  rw [heq, Attribute.assign_append ha hbefore]

/-- Given the data that it has, an element is what it was. -/
theorem Element.givenData_self {e : Element} {data : String} (h : e.pathData? = some data) : e.GivenData data e := by
  obtain ⟨before, a, after, heq, rfl, ha, hbefore⟩ := exists_data h
  exact ⟨rfl, before, a, after, heq, heq, ha, hbefore⟩

namespace Document

variable {d : Document} {p i : Nat} {g : PathGroup}

/-! ## Paths that are alike -/

/-- A path with path data. -/
def isPath (d : Document) (i : Nat) : Bool := ((d.element? i).bind Element.pathData?).isSome

def paint? (d : Document) (i : Nat) : Option Paint := (d.element? i).map Element.paint

def pathData (d : Document) (i : Nat) : String := ((d.element? i).bind Element.pathData?).getD ""

/-- The paths with path data among the children of `p`. -/
def paths (d : Document) (p : Nat) : List Nat := (d.children p).filter d.isPath

/-- The paths below `p` that have the paint of `i`, in document order. -/
def alike (d : Document) (p i : Nat) : List Nat := (d.paths p).filter fun j => d.paint? j = d.paint? i

/-- No path before it has its paint. -/
def leads (d : Document) (p i : Nat) : Bool := (d.alike p i).head? = some i

theorem isPath_iff : d.isPath i = true ↔ ∃ paint, (d.content i).IsPath paint := by
  rw [isPath, Forest.element?]
  cases hc : d.content i with
  | element e =>
    refine ⟨fun h => ⟨e.paint, e, rfl, h, rfl⟩, ?_⟩
    rintro ⟨_, _, heq, h, _⟩
    cases heq
    exact h
  | _ =>
    refine ⟨fun h => Bool.noConfusion h, ?_⟩
    rintro ⟨_, _, heq, _⟩
    cases heq

theorem paint?_of_isPath {paint : Paint} (h : (d.content i).IsPath paint) : d.paint? i = some paint := by
  obtain ⟨e, he, _, rfl⟩ := h
  rw [paint?, Change.element?_eq_some.mpr he, Option.map_some]

theorem isPath_of_redrawn {d' : Document} (h : (d.content i).Redrawn (d'.content i)) : d'.isPath i = d.isPath i := by
  rw [Bool.eq_iff_iff, isPath_iff, isPath_iff]
  exact exists_congr fun _ => h.isPath_iff

theorem mem_alike {j : Nat} :
    j ∈ d.alike p i ↔ j ∈ d.children p ∧ d.isPath j = true ∧ d.paint? j = d.paint? i := by
  rw [alike, paths, List.mem_filter, List.mem_filter, decide_eq_true_iff, and_assoc]

/-! ## Groups -/

theorem isPath_of_mem_nodes (hg : g ∈ d.pathGroups p) {j : Nat} (hj : j ∈ g.nodes.map Prod.fst) :
    j ∈ d.children p ∧ (d.content j).IsPath g.paint := by
  have hlies := lies_pathGroups g hg
  refine ⟨hlies.order.subset hj, ?_⟩
  obtain ⟨m, hm, rfl⟩ := List.mem_map.mp hj
  obtain ⟨e, he, hdata, hpaint⟩ := hlies.paths m hm
  exact ⟨e, he, by rw [hdata]; rfl, hpaint⟩

/-- A group has just the paths that are like one of its own: both stand in document order. -/
theorem alike_of_mem_nodes (hg : g ∈ d.pathGroups p) (hi : i ∈ g.nodes.map Prod.fst) :
    d.alike p i = g.nodes.map Prod.fst := by
  have hlies := lies_pathGroups g hg
  have hpaint := paint?_of_isPath (isPath_of_mem_nodes hg hi).2
  refine (((d.linked.sorted p).filter _).filter _).eq_of_mem_iff ((d.linked.sorted p).sublist hlies.order) fun j => ?_
  change j ∈ d.alike p i ↔ _
  rw [mem_alike, hpaint]
  constructor
  · rintro ⟨hchild, hpath, hsame⟩
    obtain ⟨paint, hpath⟩ := isPath_iff.mp hpath
    rw [paint?_of_isPath hpath, Option.some.injEq] at hsame
    subst hsame
    obtain ⟨g', hg', hpaint', hj⟩ := mem_pathGroups j hchild g.paint hpath
    rwa [List.inj_on_of_nodup_map (nodup_paints d p) hg' hg hpaint'] at hj
  · intro hj
    obtain ⟨hchild, hpath⟩ := isPath_of_mem_nodes hg hj
    exact ⟨hchild, isPath_iff.mpr ⟨_, hpath⟩, paint?_of_isPath hpath⟩

/-- The path that stays in a group is the one that leads. -/
theorem leads_of_mem_nodes (hg : g ∈ d.pathGroups p) (hi : i ∈ g.nodes.map Prod.fst) :
    d.leads p i = true ↔ i = g.first := by
  rw [leads, alike_of_mem_nodes hg hi, decide_eq_true_iff]
  change some g.first = some i ↔ _
  rw [Option.some.injEq]
  exact eq_comm

theorem mem_mergedBelow_iff :
    i ∈ d.mergedBelow p ↔ i ∈ d.children p ∧ d.isPath i = true ∧ d.leads p i = false := by
  constructor
  · intro hi
    obtain ⟨g, hg, hothers⟩ := List.mem_flatMap.mp hi
    have hnode : i ∈ g.nodes.map Prod.fst := List.mem_cons_of_mem _ hothers
    obtain ⟨hchild, hpath⟩ := isPath_of_mem_nodes hg hnode
    refine ⟨hchild, isPath_iff.mpr ⟨_, hpath⟩, Bool.eq_false_iff.mpr fun hleads => ?_⟩
    have hnodup := (d.linked.nodup p).sublist (lies_pathGroups g hg).order
    exact (List.nodup_cons.mp hnodup).1 ((leads_of_mem_nodes hg hnode).mp hleads ▸ hothers)
  · rintro ⟨hchild, hpath, hfollows⟩
    obtain ⟨paint, hpath⟩ := isPath_iff.mp hpath
    obtain ⟨g, hg, -, hnode⟩ := mem_pathGroups i hchild paint hpath
    refine List.mem_flatMap.mpr ⟨g, hg, ?_⟩
    rcases List.mem_cons.mp hnode with hfirst | hothers
    · rw [(leads_of_mem_nodes hg hnode).mpr hfirst] at hfollows
      cases hfollows
    · exact hothers

/-- The merged data of a group is the data of the paths that are alike, in document order. -/
theorem merged_eq (hg : g ∈ d.pathGroups p) : g.merged = " ".intercalate ((d.alike p g.first).map d.pathData) := by
  rw [alike_of_mem_nodes hg List.mem_cons_self, List.map_map]
  change " ".intercalate (g.nodes.map Prod.snd) = _
  congr 1
  refine List.map_congr_left fun m hm => ?_
  obtain ⟨e, he, hdata, -⟩ := (lies_pathGroups g hg).paths m hm
  rw [Function.comp_apply, pathData, Change.element?_eq_some.mpr he, Option.bind_some, hdata, Option.getD_some]

/-! ## What the pass leaves -/

theorem content_mergeChildren_of_ne (h : ∀ g ∈ d.pathGroups p, g.others ≠ [] → i ≠ g.first) :
    (d.mergeChildren p).1.content i = d.content i := by
  rw [fst_mergeChildren]
  refine List.foldlRecOn (d.pathGroups p) _ (motive := fun d' : Document => d'.content i = d.content i) rfl ?_
  intro d' hd' g hg
  by_cases hothers : g.others = []
  · rw [mergeGroup, if_pos (List.isEmpty_iff.mpr hothers), hd']
  · rw [content_mergeGroup_of_ne (h g hg hothers), hd']

/-- A node that leads no others holds what it held: merging at other nodes makes no new groups at this one. -/
theorem content_foldl_mergeChildren_of_ne {ids : List Nat} (hids : ids.Nodup)
    (h : ∀ q ∈ ids, ∀ g ∈ d.pathGroups q, g.others ≠ [] → i ≠ g.first) :
    (ids.foldl (fun d q => (d.mergeChildren q).1) d).content i = d.content i := by
  induction ids generalizing d with
  | nil => rfl
  | cons q ids ih =>
    rw [List.nodup_cons] at hids
    rw [List.forall_mem_cons] at h
    rw [List.foldl_cons, ih hids.2, content_mergeChildren_of_ne h.1]
    intro r hr
    have hne : q ≠ r := fun heq => hids.1 (heq ▸ hr)
    rw [pathGroups_mergeChildren hne]
    exact h.2 r hr

theorem content_mergePaths_of_ne (hi : i ∈ d.children p) (h : ∀ g ∈ d.pathGroups p, g.others ≠ [] → i ≠ g.first) :
    d.mergePaths.1.content i = d.content i := by
  rw [mergePaths, Change.fst_forEach, content_foldl_mergeChildren_of_ne d.nodup_elementIds]
  rintro q - g hg hothers rfl
  obtain rfl := eq_of_mem_children hi (lies_pathGroups g hg).mem
  exact h g hg hothers rfl

/-- A path that leads is given the data of all that are like it. -/
theorem givenData_mergePaths (hp : p ∈ d.elementIds) (hi : i ∈ d.children p) (hpath : d.isPath i = true)
    (hleads : d.leads p i = true) :
    ∃ e e', d.content i = .element e ∧ d.mergePaths.1.content i = .element e' ∧
      e.GivenData (" ".intercalate ((d.alike p i).map d.pathData)) e' := by
  obtain ⟨paint, hpath⟩ := isPath_iff.mp hpath
  obtain ⟨g, hg, -, hnode⟩ := mem_pathGroups i hi paint hpath
  obtain rfl := (leads_of_mem_nodes hg hnode).mp hleads
  obtain ⟨e, he, hdata, -⟩ := hpath
  rw [← merged_eq hg]
  by_cases hothers : g.others = []
  · -- alone in its group, it has the data of the group already
    have hsame : d.mergePaths.1.content g.first = d.content g.first := by
      refine content_mergePaths_of_ne hi fun g' hg' hothers' heq => ?_
      have hfirsts := List.inj_on_of_nodup_map (nodup_firsts d p) hg hg' heq
      exact hothers' (hfirsts ▸ hothers)
    obtain ⟨e', he', hdata', -⟩ := (lies_pathGroups g hg).paths (g.first, g.data) List.mem_cons_self
    rw [he] at he'
    cases he'
    have hmerged : g.merged = g.data := by
      rw [PathGroup.merged, hothers]
      exact String.intercalate_singleton
    exact ⟨e, e, he, hsame.trans he, hmerged ▸ Element.givenData_self hdata'⟩
  · exact ⟨e, e.set "d" g.merged, he, content_mergePaths hp hg hothers he, Element.givenData_set hdata g.merged⟩

theorem children_mergePaths (hp : p ∈ d.elementIds) :
    d.mergePaths.1.children p = (d.children p).filter fun i => !d.isPath i || d.leads p i := by
  refine (d.mergePaths.1.linked.sorted p).eq_of_mem_iff ((d.linked.sorted p).filter _) fun i => ?_
  rw [List.mem_filter, d.mergePaths.1.linked.mem_children_iff, parent?_mergePaths]
  have hbelow : i ∈ d.children p → (i ∈ d.elementIds.flatMap d.mergedBelow ↔ i ∈ d.mergedBelow p) := by
    intro hi
    refine ⟨fun hmem => ?_, fun hmem => List.mem_flatMap.mpr ⟨p, hp, hmem⟩⟩
    obtain ⟨q, _, hq⟩ := List.mem_flatMap.mp hmem
    rwa [← eq_of_mem_children (mem_mergedBelow hq).1 hi]
  constructor
  · intro hparent
    split at hparent
    · cases hparent
    · rename_i hmem
      have hi := (d.linked.mem_children_iff p i).mpr hparent
      refine ⟨hi, ?_⟩
      rw [hbelow hi, mem_mergedBelow_iff] at hmem
      cases hpath : d.isPath i <;> cases hleads : d.leads p i <;> simp [hi, hpath, hleads] at hmem ⊢
  · rintro ⟨hi, hstays⟩
    rw [if_neg, (d.linked.mem_children_iff p i).mp hi]
    rw [hbelow hi, mem_mergedBelow_iff]
    rintro ⟨-, hpath, hfollows⟩
    rw [hpath, hfollows] at hstays
    cases hstays

/-- Below every node that stays attached: of the paths, those stay that lead their like, in their order, each with the
    data of all its like, joined with blanks, and else unchanged; and the other children stay, in their order and as they
    were. No two of the paths have the same paint any more. -/
theorem mergePaths_groups {d : Document} {p : Nat} {e : Element} (hp : d.mergePaths.1.isAttached p = true)
    (he : d.mergePaths.1.content p = .element e) :
    let merged := d.mergePaths.1
    merged.paths p = (d.paths p).filter (d.leads p) ∧
      merged.children p = ((d.children p).filter fun i => !d.isPath i || d.leads p i) ∧
      (∀ i ∈ merged.paths p, merged.isAttached i = true ∧ ∃ e e', d.content i = .element e ∧
        merged.content i = .element e' ∧ e.GivenData (" ".intercalate ((d.alike p i).map d.pathData)) e') ∧
      (∀ i ∈ d.children p, d.isPath i = false → merged.isAttached i = true ∧ merged.content i = d.content i) ∧
      (merged.paths p).Pairwise fun i j => merged.paint? i ≠ merged.paint? j := by
  have ht := takes_repathing d
  have hbelow := isAttached_iff.mp hp
  have hredrawn := fun i => Content.Repathed.redrawn (ht.content i)
  have hmem : p ∈ d.elementIds := by
    refine mem_elementIds.mpr ⟨ht.below hbelow, isElement_iff.mp ?_⟩
    rw [← (hredrawn p).isElement, he]
    rfl
  have hchildren := children_mergePaths hmem
  have hattached : ∀ i ∈ d.mergePaths.1.children p, d.mergePaths.1.isAttached i = true := fun i hi =>
    isAttached_iff.mpr (hbelow.child hi)
  have hpaths : d.mergePaths.1.paths p = (d.paths p).filter (d.leads p) := by
    rw [paths, hchildren, paths, List.filter_filter, List.filter_filter]
    refine List.filter_congr fun i _ => ?_
    rw [isPath_of_redrawn (hredrawn i)]
    cases d.isPath i <;> simp
  refine ⟨hpaths, hchildren, fun i hi => ⟨hattached i (List.mem_filter.mp hi).1, ?_⟩, fun i hi hpath => ⟨?_, ?_⟩, ?_⟩
  · rw [hpaths, List.mem_filter, paths, List.mem_filter] at hi
    exact givenData_mergePaths hmem hi.1.1 hi.1.2 hi.2
  · refine hattached i ?_
    rw [hchildren, List.mem_filter, hpath]
    exact ⟨hi, rfl⟩
  · refine content_mergePaths_of_ne hi fun g hg _ heq => ?_
    rw [isPath_iff.mpr ⟨g.paint, heq ▸ (lies_pathGroups g hg).first⟩] at hpath
    cases hpath
  · refine List.pairwise_iff_forall_sublist.mpr fun {i j} hsub hsame => ?_
    have hpath : ∀ k ∈ [i, j], ∃ paint, (d.mergePaths.1.content k).IsPath paint := fun k hk =>
      isPath_iff.mp (List.mem_filter.mp (hsub.subset hk)).2
    obtain ⟨paint, hi⟩ := hpath i (by simp)
    obtain ⟨paint', hj⟩ := hpath j (by simp)
    rw [paint?_of_isPath hi, paint?_of_isPath hj, Option.some.injEq] at hsame
    exact unlike_mergePaths hmem i j paint (hsub.trans List.filter_sublist) hi (hsame ▸ hj)

/-- Paths of two paints among each other and a text, below a path that is given data itself. -/
theorem mergePaths_groups_interleaved :
    ∃ d, parse "<svg viewBox=\"0 0 1 1\"><path d=\"M0 0\"><path d=\"M1 1\" fill=\"\"/>t<path x=\"y\" d=\"M2 2\"/><path d=\"M3 3\" fill=\"\"/><path d=\"M4 4\"/></path><path d=\"M5 5\"/></svg>" = .ok d ∧
      d.mergePaths.1.isAttached 1 = true ∧ (∃ e, d.mergePaths.1.content 1 = .element e ∧ e.get? "d" = some "M0 0 M5 5") ∧
      d.children 1 = [2, 3, 4, 5, 6] ∧ d.mergePaths.1.children 1 = [2, 3, 4] ∧ d.mergePaths.1.paths 1 = [2, 4] ∧
      ∃ e e', d.content 4 = .element e ∧ d.mergePaths.1.content 4 = .element e' ∧ e.GivenData "M2 2 M4 4" e' := by
  obtain ⟨d, hd, h1, e, he, hdata, hchildren, hstay, hpaths, hlike⟩ : ∃ d, parse
      "<svg viewBox=\"0 0 1 1\"><path d=\"M0 0\"><path d=\"M1 1\" fill=\"\"/>t<path x=\"y\" d=\"M2 2\"/><path d=\"M3 3\" fill=\"\"/><path d=\"M4 4\"/></path><path d=\"M5 5\"/></svg>" = .ok d ∧
      d.mergePaths.1.isAttached 1 = true ∧ ∃ e ∈ d.mergePaths.1.element? 1, e.get? "d" = some "M0 0 M5 5" ∧
      d.children 1 = [2, 3, 4, 5, 6] ∧ d.mergePaths.1.children 1 = [2, 3, 4] ∧ d.mergePaths.1.paths 1 = [2, 4] ∧
      " ".intercalate ((d.alike 1 4).map d.pathData) = "M2 2 M4 4" := by
    set_option maxRecDepth 1000 in
    refine exists_parse String.toList_ofList ?_
    decide +kernel
  have he := Change.element?_eq_some.mp he
  obtain ⟨-, -, hgiven, -⟩ := mergePaths_groups h1 he
  obtain ⟨-, hgiven⟩ := hgiven 4 (by rw [hpaths]; simp)
  exact ⟨d, hd, h1, ⟨e, he, hdata⟩, hchildren, hstay, hpaths, hlike ▸ hgiven⟩

end Document

end SvgComponent.Markup
