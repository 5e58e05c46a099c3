/-
  SvgComponent.Proofs.Clean.Repetition — a pass that is run again at once finds nothing to do.

  What each pass leaves is shown to have nothing in it that the pass looks for:
  - sweeps are repeated until one cuts nothing, and such a sweep changes nothing (`exhaust_exhaust`);
  - what was written for a value is not written anew: a rounded fraction, simplest path data, a color in hexadecimal;
  - texts that still hang in the document are trimmed (`trimText_trimTexts`);
  - no style element is left empty by the removal of others in it (`emptyStyles_removeEmptyStyles`);
  - siblings that are left agree in no paint, because all but the first of a group are cut off
    (`unlike_mergePaths`).

  `apply_idempotent` says it of all passes. The root is an `svg` element there: a root that is an empty style element, or
  a blank text, would be counted in every run and stay.
-/

import SvgComponent.Proofs.Clean.Distinct
import SvgComponent.Proofs.Clean.Geometry
import SvgComponent.Proofs.Clean.Unused
import SvgComponent.Proofs.Decimal.Places
import SvgComponent.Proofs.Path.Simplest

namespace SvgComponent.Markup

variable {d : Document}

/-! ## Repeated sweeps -/

/-- If a sweep that cuts nothing changes nothing, then repeating sweeps once more changes nothing. -/
theorem exhaust_exhaust {p : Document.Pruning} (h : ∀ d, (p.run d).2 = 0 → (p.run d).1 = d) (d : Document) :
    (d.exhaust p).1.exhaust p = ((d.exhaust p).1, 0) := by
  obtain ⟨n, -, hrun, hend⟩ := Change.exhaust_eq_iterate p d
  rw [Function.iterate_succ_apply'] at hend
  have hfixed := h _ hrun
  rw [hend.trans hfixed]
  unfold Document.exhaust
  rw [if_pos hrun, hfixed]

/-! ## Edited values -/

theorem pathData?_set {e : Element} (h : e.pathData?.isSome = true) (data : String) :
    (e.set "d" data).pathData? = some data := by
  have hpath := is_path_of_pathData? h
  have hname : (e.set "d" data).is "path" = true := hpath
  rw [Element.pathData?, if_pos hname, Element.get?_set]

theorem simplifyPath_simplifyPath (e : Element) : e.simplifyPath.1.simplifyPath = (e.simplifyPath.1, 0) := by
  rcases e.simplifyPath_cases with hsame | ⟨data, simpler, hdata, hsimple, hset⟩
  · rw [hsame, hsame]
  · have hdata' : (e.set "d" simpler).pathData? = some simpler := pathData?_set (by rw [hdata]; rfl) simpler
    rw [hset]
    unfold Element.simplifyPath
    simp only [hdata', Path.simplify_simplify hsimple, if_true]

theorem rgbToHex?_eq_cons {s t : List Char} (h : rgbToHex? s = some t) : ∃ r, t = '#' :: r := by
  unfold rgbToHex? at h
  rw [Option.bind_eq_bind, Option.bind_eq_some_iff] at h
  obtain ⟨inner, _, h⟩ := h
  split at h
  · simp only [Option.bind_eq_bind, Option.bind_eq_some_iff, Option.pure_def, Option.some.injEq] at h
    obtain ⟨r, _, g, _, b, _, rfl⟩ := h
    exact ⟨_, rfl⟩
  · cases h

/-- What begins with a number sign is no color by its channels. -/
theorem rgbToHex?_of_sign (s : List Char) : rgbToHex? ('#' :: s) = none := by
  have harguments : rgbArguments? ('#' :: s) = none := by
    unfold rgbArguments?
    rw [Text.trim, Text.trimWhile_cons rfl]
    dsimp only
    rw [if_neg]
    rintro ⟨hname, _⟩
    cases hname
  rw [rgbToHex?, harguments]
  rfl

theorem hexColor?_hexColor? {a : Attribute} {v : String} (h : a.hexColor? = some v) :
    ({ a with value := v } : Attribute).hexColor? = none := by
  unfold Attribute.hexColor? at h
  split at h
  · obtain ⟨t, ht, rfl⟩ := Option.map_eq_some_iff.mp h
    obtain ⟨r, rfl⟩ := rgbToHex?_eq_cons ht
    unfold Attribute.hexColor?
    dsimp only
    rw [String.toList_ofList, rgbToHex?_of_sign]
    exact ite_self _
  · cases h

/-! ## Trimmed texts -/

/-- Attached text has been trimmed, if it is not the root. -/
theorem trimText_trimTexts {i : Nat} (hroot : (d.content 0).isElement = true) (hi : d.trimTexts.1.Below 0 i) :
    d.trimTexts.1.trimText i = (d.trimTexts.1, 0) := by
  have ht := takes_trimTexts d
  have htrimmed : (d.trimTexts.1.content i).trimmed = d.trimTexts.1.content i := by
    rcases Relation.ReflTransGen.cases_tail hi with rfl | ⟨p, _, hp⟩
    · obtain ⟨e, he⟩ := isElement_iff.mp hroot
      rw [(element_of_trimming ht).mpr he]
      rfl
    · rcases settled_trimTexts (ht.below hi) with hsettled | hnone
      · exact hsettled
      · exact absurd hp (hnone p)
  generalize d.trimTexts.1 = d' at htrimmed
  unfold Document.trimText
  split
  · rename_i s hs
    rw [hs] at htrimmed
    dsimp only
    rw [if_pos (Content.text.inj htrimmed)]
  · rfl

theorem trimTexts_trimTexts (hroot : (d.content 0).isElement = true) :
    d.trimTexts.1.trimTexts = (d.trimTexts.1, 0) :=
  Document.forEach_eq_self fun _ hi => trimText_trimTexts hroot (Document.mem_descendants_iff.mp hi)

/-! ## Empty style elements -/

theorem Name.base_of_is {n : Name} {s : String} (h : n.is s = true) : n.base = s := by
  rw [Name.is, Bool.and_eq_true, beq_iff_eq] at h
  exact h.2

theorem allBlank_join {l : List String} : Text.allBlank (String.join l) = true ↔ ∀ s ∈ l, Text.allBlank s = true := by
  induction l with
  | nil => simp [Text.allBlank]
  | cons s l ih => rw [String.join_cons, Text.allBlank_append, Bool.and_eq_true, ih, List.forall_mem_cons]

/-- All text of a node is blank if the text of each node below it is. -/
theorem allBlank_textContent_iff {i : Nat} :
    Text.allBlank (d.textContent i) = true ↔ ∀ j, d.Below i j → Text.allBlank (d.content j).characters = true := by
  rw [Document.textContent, Tree.textContent, allBlank_join, List.forall_mem_map]
  constructor
  · intro h j hj
    have := h _ (Document.mem_subtrees_iff.mpr ⟨j, hj, rfl⟩)
    rwa [Document.content_tree] at this
  · intro h t ht
    obtain ⟨j, hj, rfl⟩ := Document.mem_subtrees_iff.mp ht
    rw [Document.content_tree]
    exact h j hj

theorem emptyStyles_removeEmptyStyles {e : Element} (he : d.content 0 = .element e) (hs : e.is "style" = false) :
    d.removeEmptyStyles.1.emptyStyles = [] := by
  have ht := Change.takes_removeEmptyStyles d
  have hcontent : ∀ i, d.removeEmptyStyles.1.content i = d.content i := ht.content
  have hparent : ∀ i, d.removeEmptyStyles.1.parent? i = if i ∈ d.emptyStyles then none else d.parent? i :=
    Document.parent?_detachAll d.emptyStyles d
  generalize d.removeEmptyStyles.1 = d' at ht hcontent hparent ⊢
  refine List.eq_nil_iff_forall_not_mem.mpr fun i hi => ?_
  obtain ⟨hi, f, hf, hstyle, hblank⟩ := mem_emptyStyles.mp hi
  rw [allBlank_textContent_iff] at hblank
  -- a text that went was in an empty style element, so `i` was empty before
  have hempty : i ∈ d.emptyStyles := by
    refine mem_emptyStyles.mpr ⟨ht.below hi, f, hcontent i ▸ hf, hstyle, allBlank_textContent_iff.mpr fun j hj => ?_⟩
    by_cases hcut : ∃ c ∈ d.emptyStyles, d.Below c j
    · obtain ⟨c, hc, hcj⟩ := hcut
      obtain ⟨_, _, _, _, hblank⟩ := mem_emptyStyles.mp hc
      exact allBlank_textContent_iff.mp hblank j hcj
    · rw [← hcontent j]
      exact hblank j (ht.below_of_kept hj fun p c _ _ hcj hc => hcut ⟨c, hc.2, hcj⟩)
  rcases Relation.ReflTransGen.cases_tail hi with rfl | ⟨p, _, hp⟩
  · rw [hcontent, he] at hf
    cases hf
    rw [hs] at hstyle
    cases hstyle
  · rw [d'.linked.mem_children_iff, hparent, if_pos hempty] at hp
    cases hp

theorem removeEmptyStyles_removeEmptyStyles {e : Element} (he : d.content 0 = .element e) (hs : e.is "style" = false) :
    d.removeEmptyStyles.1.removeEmptyStyles = (d.removeEmptyStyles.1, 0) := by
  have hnone := emptyStyles_removeEmptyStyles he hs
  generalize d.removeEmptyStyles.1 = d' at hnone
  rw [Document.removeEmptyStyles, hnone]
  rfl

/-! ## Merged paths -/

namespace Document

variable {p : Nat}

/-- No two children are paths of one paint. -/
def Unlike (d : Document) (p : Nat) : Prop :=
  ∀ i j paint, [i, j].Sublist (d.children p) → (d.content i).IsPath paint → ¬ (d.content j).IsPath paint

theorem mergeChildren_of_unlike (h : d.Unlike p) : d.mergeChildren p = (d, 0) := by
  have hothers : ∀ g ∈ d.pathGroups p, g.others = [] := by
    intro g hg
    have hlies := lies_pathGroups g hg
    refine List.eq_nil_iff_forall_not_mem.mpr fun m hm => ?_
    obtain ⟨hpath, hsub⟩ := hlies.others (List.mem_map_of_mem hm)
    exact h _ _ _ hsub hlies.first hpath
  unfold mergeChildren
  refine List.foldlRecOn (d.pathGroups p) (motive := fun s : Document × Nat => s = (d, 0)) _ rfl ?_
  rintro _ rfl g hg
  have hsame : d.mergeGroup g = (d, 0) := by
    rw [mergeGroup, hothers g hg]
    rfl
  dsimp only
  rw [hsame, Nat.zero_add]

theorem parent?_mergeGroup (g : PathGroup) (d : Document) (i : Nat) :
    (d.mergeGroup g).1.parent? i = if i ∈ g.others.map (·.1) then none else d.parent? i := by
  unfold mergeGroup
  split
  · rename_i hempty
    rw [List.isEmpty_iff.mp hempty]
    rfl
  · dsimp only
    rw [parent?_detachAll]
    congr 1
    unfold editElement
    split
    · exact Forest.parent?_setContent d.toForest _ i _
    · rfl

/-- Merging below one node detaches all but the first path of each group. -/
theorem parent?_mergeChildren (d : Document) (p i : Nat) :
    (d.mergeChildren p).1.parent? i =
      if i ∈ (d.pathGroups p).flatMap fun g => g.others.map (·.1) then none else d.parent? i := by
  rw [fst_mergeChildren]
  generalize d.pathGroups p = groups
  induction groups generalizing d with
  | nil => rfl
  | cons g groups ih =>
    rw [List.foldl_cons, ih, parent?_mergeGroup, List.flatMap_cons]
    by_cases hi : i ∈ g.others.map (·.1) <;> simp only [List.mem_append, hi, true_or, false_or, if_true, if_false, ite_self]

theorem unlike_mergeChildren (d : Document) (p : Nat) : (d.mergeChildren p).1.Unlike p := by
  have ht := takes_mergeChildren d p
  have hparent := parent?_mergeChildren d p
  generalize (d.mergeChildren p).1 = d' at ht hparent
  intro i j paint hsub hi hj
  have hmem : ∀ k ∈ [i, j], k ∈ d.children p ∧ k ∉ (d.pathGroups p).flatMap fun g => g.others.map (·.1) := by
    intro k hk
    have hk := hsub.subset hk
    refine ⟨(ht.children p).subset hk, fun hothers => ?_⟩
    rw [d'.linked.mem_children_iff, hparent, if_pos hothers] at hk
    cases hk
  have hbefore : ∀ k, (d'.content k).IsPath paint → (d.content k).IsPath paint := fun k h =>
    (Content.Repathed.redrawn (ht.content k)).isPath_iff.mp h
  -- both are the first of the one group with this paint
  have hfirst : ∀ k ∈ [i, j], (d'.content k).IsPath paint →
      ∃ g ∈ d.pathGroups p, g.paint = paint ∧ g.first = k := by
    intro k hk hpath
    obtain ⟨hchild, hothers⟩ := hmem k hk
    obtain ⟨g, hg, hpaint, hnode⟩ := mem_pathGroups k hchild paint (hbefore k hpath)
    rcases List.mem_cons.mp hnode with hnode | hnode
    · exact ⟨g, hg, hpaint, hnode.symm⟩
    · exact absurd (List.mem_flatMap.mpr ⟨g, hg, hnode⟩) hothers
  obtain ⟨g, hg, hpaint, rfl⟩ := hfirst i (by simp) hi
  obtain ⟨g', hg', hpaint', rfl⟩ := hfirst j (by simp) hj
  have heq : g = g' := List.inj_on_of_nodup_map (nodup_paints d p) hg hg' (hpaint.trans hpaint'.symm)
  subst heq
  have hnodup := (d'.linked.nodup p).sublist hsub
  simp at hnodup

theorem unlike_congr {d' : Document} (hchildren : d'.children p = d.children p)
    (hcontent : ∀ i ∈ d.children p, d'.content i = d.content i) (h : d.Unlike p) : d'.Unlike p := by
  intro i j paint hsub hi hj
  rw [hchildren] at hsub
  rw [hcontent i (hsub.subset (by simp))] at hi
  rw [hcontent j (hsub.subset (by simp))] at hj
  exact h i j paint hsub hi hj

/-- What hangs below an element after merging is unlike in paint. -/
theorem unlike_mergePaths (hp : p ∈ d.elementIds) : d.mergePaths.1.Unlike p := by
  -- what is done at the parents after `p` does not reach the children of `p`
  obtain ⟨l, r, hlr⟩ := List.append_of_mem hp
  have hnodup := d.nodup_elementIds
  rw [hlr, List.nodup_append, List.nodup_cons] at hnodup
  have hr : ∀ q ∈ r, p ≠ q := fun q hq heq => hnodup.2.1.1 (heq ▸ hq)
  rw [mergePaths, Change.fst_forEach, hlr, List.foldl_append, List.foldl_cons]
  obtain ⟨hchildren, hcontent⟩ := children_foldl_mergeChildren hr
    ((l.foldl (fun d q => (d.mergeChildren q).1) d).mergeChildren p).1
  exact unlike_congr hchildren hcontent (unlike_mergeChildren _ p)

theorem mergePaths_mergePaths (d : Document) : d.mergePaths.1.mergePaths = (d.mergePaths.1, 0) := by
  have ht := takes_repathing d
  refine forEach_eq_self fun p hp => mergeChildren_of_unlike (unlike_mergePaths ?_)
  obtain ⟨hp, e, he⟩ := mem_elementIds.mp hp
  refine mem_elementIds.mpr ⟨ht.below hp, isElement_iff.mp ?_⟩
  rw [← (Content.Repathed.redrawn (ht.content p)).isElement, he]
  rfl

end Document

end SvgComponent.Markup

namespace SvgComponent.Clean

open Markup

/-! ## All passes -/

/-- Run again at once, a pass counts nothing and leaves the document as it is. -/
theorem apply_idempotent (places : Nat) (p : Pass) {d : Document} {e : Element} (hroot : d.rootElement? = some e)
    (hsvg : e.is "svg" = true) : p.apply places (p.apply places d).1 = ((p.apply places d).1, 0) := by
  have he : d.content 0 = .element e := Change.element?_eq_some.mp hroot
  cases p with
  | duplicates => exact exhaust_exhaust (p := Document.duplicatePruning) (fun d h => (forms_of_sweep h).1) d
  | definitions => exact exhaust_exhaust (p := Document.definitionPruning) (fun d h => Document.sweep_eq_self h) d
  | rounding =>
    refine Document.editElements_editElements (Element.replaceValues_replaceValues fun a v h => ?_) d
    exact roundedValue?_roundedValue? h
  | paths => exact Document.editElements_editElements simplifyPath_simplifyPath d
  | colors =>
    refine Document.editElements_editElements (Element.replaceValues_replaceValues fun a v h => ?_) d
    exact hexColor?_hexColor? h
  | whitespace => exact trimTexts_trimTexts (by rw [he]; rfl)
  | styles =>
    refine removeEmptyStyles_removeEmptyStyles he (Bool.eq_false_iff.mpr fun hstyle => ?_)
    have hbase : ("svg" : String) = "style" := (Name.base_of_is hsvg).symm.trans (Name.base_of_is hstyle)
    exact absurd hbase (by decide)
  | merging => exact Document.mergePaths_mergePaths d

/-- Every pass finds something to do here when it is run first. -/
theorem apply_idempotent_busy :
    ∃ d, Document.parse "<svg viewBox=\"0 0 1 1\"><style> </style><defs><g id=\"a\"/></defs><g> t <b x=\"0.239\"/></g><b x=\"0.239\"/><path d=\"M0 0 L1 1\"/><path fill=\"none\"/><path d=\"M2 2h1\"/><a fill=\"rgb(1,2,3)\"/></svg>" = .ok d ∧
      ∃ e ∈ d.rootElement?, e.is "svg" = true ∧ ∀ p ∈ Pass.all,
        (p.apply 2 d).2 ≠ 0 ∧ p.apply 2 (p.apply 2 d).1 = ((p.apply 2 d).1, 0) := by
  obtain ⟨d, hd, e, hroot, hsvg, hbusy⟩ : ∃ d, Document.parse "<svg viewBox=\"0 0 1 1\"><style> </style><defs><g id=\"a\"/></defs><g> t <b x=\"0.239\"/></g><b x=\"0.239\"/><path d=\"M0 0 L1 1\"/><path fill=\"none\"/><path d=\"M2 2h1\"/><a fill=\"rgb(1,2,3)\"/></svg>" = .ok d ∧
      ∃ e ∈ d.rootElement?, e.is "svg" = true ∧ ∀ p ∈ Pass.all, (p.apply 2 d).2 ≠ 0 := by
    decide +kernel
  exact ⟨d, hd, e, hroot, hsvg, fun p hp => ⟨hbusy p hp, apply_idempotent 2 p hroot hsvg⟩⟩

end SvgComponent.Clean
