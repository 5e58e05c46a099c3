/-
  SvgComponent.Proofs.Clean.Dangling — which references dangle after cleaning.

  Take an id that an attached element carries before cleaning and that is referred to after it. Cleaning loses it in three
  cases (`Lost`) and in no others (`carries_runPasses_iff`):
  - rounding is on, and the id is a decimal fraction that is rounded;
  - every element that carries it when the last two passes begin is cut off by them (`Goes`): it is an empty style
    element, or it is at or below a path that is merged into another;
  - no element carries it any more by then, since nothing referred to it when unused definitions were removed. Trimming
    the text of a style element made the reference afterwards.

  Duplicates are no reason: one of the elements with the id stays. Neither is an unused definition, as long as anything
  refers to the id when definitions are removed. `reference_dangles` has a run for each case.
-/

import SvgComponent.Proofs.Clean.Accounting
import SvgComponent.Proofs.Clean.Grouped

namespace SvgComponent.Markup

variable {d : Document} {i k : Nat}

/-! ## What is cut off -/

theorem not_below_removeEmptyStyles (hne : k ≠ 0) (hk : k ∈ d.emptyStyles) : ¬ d.removeEmptyStyles.1.Below 0 k := by
  intro hbelow
  have hparent := Document.parent?_detachAll d.emptyStyles d k
  rw [if_pos hk] at hparent
  exact Cuts.parent?_ne_none hbelow hne hparent

theorem head?_ne_of_sublist {l : List Nat} (hnodup : l.Nodup) (h : [i, k].Sublist l) : l.head? ≠ some k := by
  intro hhead
  cases l with
  | nil => cases hhead
  | cons j rest =>
    cases hhead
    have hrest : [k].Sublist rest := by
      cases h with
      | cons _ h => exact (List.sublist_cons_self i [k]).trans h
      | cons_cons _ h => exact h
    exact (List.nodup_cons.mp hnodup).1 (List.singleton_sublist.mp hrest)

/-- What follows a path in document order does not lead the paths that are like it. -/
theorem leads_of_follows {p first : Nat} {paint : Paint} (hsub : [first, i].Sublist (d.children p))
    (hfirst : (d.content first).IsPath paint) (hi : (d.content i).IsPath paint) : d.leads p i = false := by
  have halike : [first, i].Sublist (d.alike p i) := by
    have hsame : d.paint? first = d.paint? i := by
      rw [Document.paint?_of_isPath hfirst, Document.paint?_of_isPath hi]
    have hpair : (([first, i].filter d.isPath).filter fun j => decide (d.paint? j = d.paint? i)) = [first, i] := by
      simp [Document.isPath_iff.mpr ⟨paint, hfirst⟩, Document.isPath_iff.mpr ⟨paint, hi⟩, hsame]
    have hpaths := (hsub.filter d.isPath).filter fun j => decide (d.paint? j = d.paint? i)
    rwa [hpair] at hpaths
  have hnodup : (d.alike p i).Nodup := ((d.linked.nodup p).filter _).filter _
  exact decide_eq_false (head?_ne_of_sublist hnodup halike)

theorem isMerged_iff : d.IsMerged i ↔ i ∈ d.elementIds.flatMap d.mergedBelow := by
  rw [List.mem_flatMap]
  constructor
  · intro hmerged
    obtain ⟨p, hp, first, paint, hsub, hfirst, hi⟩ := hmerged
    refine ⟨p, hp, Document.mem_mergedBelow_iff.mpr ⟨hsub.subset (by simp), ?_, leads_of_follows hsub hfirst hi⟩⟩
    exact Document.isPath_iff.mpr ⟨paint, hi⟩
  · intro hmerged
    obtain ⟨p, hp, hi⟩ := hmerged
    obtain ⟨g, hg, hi⟩ := List.mem_flatMap.mp hi
    have hlies := Document.lies_pathGroups g hg
    obtain ⟨hpath, hsub⟩ := hlies.others hi
    exact ⟨p, hp, g.first, g.paint, hsub, hlies.first, hpath⟩

instance (d : Document) (i : Nat) : Decidable (d.IsMerged i) := decidable_of_iff _ isMerged_iff.symm

theorem not_below_mergePaths (hi : d.IsMerged i) (hik : d.Below i k) : ¬ d.mergePaths.1.Below 0 k := by
  intro hk
  have hattached := hk.of_attached ((takes_mergePaths d).below_of_attached hk hik)
  have hparent := Document.parent?_mergePaths d i
  rw [if_pos (isMerged_iff.mp hi)] at hparent
  refine Cuts.parent?_ne_none hattached ?_ hparent
  intro hzero
  obtain ⟨p, _, first, _, hsub, _⟩ := hi
  have hlt := d.linked.lt_of_mem_children (hsub.subset (List.mem_cons_of_mem first List.mem_cons_self))
  omega

end SvgComponent.Markup

namespace SvgComponent.Clean

open Markup

variable {o : Options} {x : String} {d : Document} {k : Nat}

/-! ## Passes after rounding -/

/-- An id that an element carries after some passes without rounding is one that it carried before. -/
theorem carried_before {l : List Pass} (hl : .rounding ∉ l) (hk : (l.foldl (stage o) d).Below 0 k)
    (hid : (l.foldl (stage o) d).idOf? k = some x) : d.Below 0 k ∧ d.idOf? k = some x := by
  induction l generalizing d with
  | nil => exact ⟨hk, hid⟩
  | cons p l ih =>
    rw [List.mem_cons, not_or] at hl
    obtain ⟨hk, hid⟩ := ih hl.2 hk hid
    exact ⟨(takes_stage o p d).below hk, (idOf_stage (Ne.symm hl.1)).mp hid⟩

theorem carries_before {l : List Pass} (hl : .rounding ∉ l) (h : (l.foldl (stage o) d).Carries x) : d.Carries x := by
  obtain ⟨k, hk, hid⟩ := carries_iff.mp h
  exact carries_iff.mpr ⟨k, carried_before hl hk hid⟩

/-- What rounding rounds is no value after it. -/
theorem not_carries_rounding (hon : o.optimizePrecision = true) (hv : (roundedValue? o.places x).isSome = true) :
    ¬ (stage o d .rounding).Carries x := by
  have hstage : stage o d .rounding = (d.roundValues o.places).1 := if_pos hon
  rw [hstage, Document.roundValues, carries_iff]
  intro hcarried
  obtain ⟨k, hk, hid⟩ := hcarried
  obtain ⟨e, he, hx⟩ := idOf_eq_some.mp hid
  rw [Document.below_editElements] at hk
  rw [Document.content_edited_of_below hk] at he
  obtain ⟨e', _, rfl⟩ := Content.edited_eq_element he
  obtain ⟨a, ha, hvalue⟩ := Option.map_eq_some_iff.mp hx
  have hnone := Element.eq_none_of_mem_replaceValues (f := fun a => roundedValue? o.places a.value)
    (fun a v hv => roundedValue?_roundedValue? hv) (List.mem_of_find?_eq_some ha)
  rw [hvalue] at hnone
  rw [hnone] at hv
  cases hv

/-! ## What the last two passes take away -/

/-- The last two passes cut the node off: an empty style element, or what is at or below a path that is merged into
    another. -/
def Goes (o : Options) (d : Document) (k : Nat) : Prop :=
  (o.removeUnusedStyles = true ∧ k ∈ d.emptyStyles) ∨
    (o.mergePaths = true ∧ ∃ i, (stage o d .styles).IsMerged i ∧ (stage o d .styles).Below i k)

instance (o : Options) (d : Document) (k : Nat) : Decidable (Goes o d k) := by
  have hmerged : Decidable (∃ i, (stage o d .styles).IsMerged i ∧ (stage o d .styles).Below i k) := by
    refine decidable_of_iff (∃ i ∈ (stage o d .styles).elementIds.flatMap (stage o d .styles).mergedBelow,
      k ∈ (stage o d .styles).descendants i) (exists_congr fun i => ?_)
    rw [isMerged_iff, Document.mem_descendants_iff]
  unfold Goes
  infer_instance

theorem below_last_iff (hf : d.Flat) (himage : IsImage d) (hk : d.Below 0 k) (hid : d.idOf? k = some x) :
    (stage o (stage o d .styles) .merging).Below 0 k ↔ ¬ Goes o d k := by
  constructor
  · intro hkept hgoes
    rcases hgoes with ⟨hon, hempty⟩ | ⟨hon, i, hi, hik⟩
    · have hstage : stage o d .styles = d.removeEmptyStyles.1 := if_pos hon
      have hbelow := (takes_stage o .merging _).below hkept
      rw [hstage] at hbelow
      refine not_below_removeEmptyStyles ?_ hempty hbelow
      intro hzero
      subst hzero
      obtain ⟨e, he, hs⟩ := himage.content
      obtain ⟨_, f, hf, hstyle, _⟩ := mem_emptyStyles.mp hempty
      rw [he, Content.element.injEq] at hf
      rw [hf, hstyle] at hs
      cases hs
    · have hstage : stage o (stage o d .styles) .merging = (stage o d .styles).mergePaths.1 := if_pos hon
      rw [hstage] at hkept
      exact not_below_mergePaths hi hik hkept
  · intro hstays
    refine below_merging (below_styles hf hk hid ?_) ?_
    · exact fun hon hempty => hstays (.inl ⟨hon, hempty⟩)
    · exact fun hon i hi hik => hstays (.inr ⟨hon, i, hi, hik⟩)

/-! ## What cleaning loses -/

/-- Trimming the text of a style element makes a reference to the id. -/
def MadeByTrimming (d : Document) (x : String) : Prop :=
  ∃ i ∈ d.elementIds, (d.element? i).any (·.is "style") = true ∧
    x ∉ Analysis.references (d.textContent i) ∧ x ∈ Analysis.references (d.tree i).trimmedContent

instance (d : Document) (x : String) : Decidable (MadeByTrimming d x) := by
  unfold MadeByTrimming
  infer_instance

/-- Cleaning loses an id that is referred to afterwards: it is rounded; all that carries it goes in the last two passes;
    or it went with unused definitions, and trimming the text of a style element made the reference. -/
inductive Lost (o : Options) (d : Document) (x : String) : Prop
  | rounded (on : o.optimizePrecision = true) (value : (roundedValue? o.places x).isSome = true)
  | removed (carried : (found o d .styles).Carries x)
      (carriers : ∀ k ∈ (found o d .styles).elementIds, (found o d .styles).idOf? k = some x →
        Goes o (found o d .styles) k)
  | unreferenced (definitions : o.cleanupDefinitions = true) (whitespace : o.normalizeWhitespace = true)
      (gone : ¬ (found o d .styles).Carries x) (before : x ∉ (found o d .rounding).references)
      (made : MadeByTrimming d x)

instance (o : Options) (d : Document) (x : String) : Decidable (Lost o d x) := by
  refine decidable_of_iff
    ((o.optimizePrecision = true ∧ (roundedValue? o.places x).isSome = true) ∨
      ((found o d .styles).Carries x ∧ ∀ k ∈ (found o d .styles).elementIds, (found o d .styles).idOf? k = some x →
        Goes o (found o d .styles) k) ∨
      (o.cleanupDefinitions = true ∧ o.normalizeWhitespace = true ∧ ¬ (found o d .styles).Carries x ∧
        x ∉ (found o d .rounding).references ∧ MadeByTrimming d x)) ?_
  constructor
  · intro h
    rcases h with ⟨hon, hv⟩ | ⟨hcarried, hgoes⟩ | ⟨hdefs, hspace, hgone, hbefore, hmade⟩
    · exact .rounded hon hv
    · exact .removed hcarried hgoes
    · exact .unreferenced hdefs hspace hgone hbefore hmade
  · intro h
    cases h with
    | rounded hon hv => exact Or.inl ⟨hon, hv⟩
    | removed hcarried hgoes => exact Or.inr (Or.inl ⟨hcarried, hgoes⟩)
    | unreferenced hdefs hspace hgone hbefore hmade => exact Or.inr (Or.inr ⟨hdefs, hspace, hgone, hbefore, hmade⟩)

theorem runPasses_eq_last (o : Options) (d : Document) :
    (runPasses o d).1 = stage o (stage o (found o d .styles) .styles) .merging := runPasses_eq o d

/-- What is lost is carried by nothing. -/
theorem not_carries_of_lost (hf : (found o d .styles).Flat) (himage : IsImage (found o d .styles)) (h : Lost o d x) :
    ¬ (runPasses o d).1.Carries x := by
  intro hcarried
  cases h with
  | rounded hon hv =>
    have hrun : (runPasses o d).1 =
        [Pass.paths, .colors, .whitespace, .styles, .merging].foldl (stage o) (stage o (found o d .rounding) .rounding) :=
      runPasses_eq o d
    rw [hrun] at hcarried
    exact not_carries_rounding hon hv (carries_before (by decide) hcarried)
  | removed _ hgoes =>
    rw [runPasses_eq_last] at hcarried
    obtain ⟨k, hkept, hid⟩ := carries_iff.mp hcarried
    obtain ⟨hk, hid⟩ := carried_before (l := [.styles, .merging]) (by decide) hkept hid
    obtain ⟨e, he, _⟩ := idOf_eq_some.mp hid
    exact (below_last_iff hf himage hk hid).mp hkept (hgoes k (Document.mem_elementIds.mpr ⟨hk, e, he⟩) hid)
  | unreferenced _ _ hgone _ _ =>
    rw [runPasses_eq_last] at hcarried
    exact hgone (carries_before (l := [.styles, .merging]) (by decide) hcarried)

/-! ## What is there before the last two passes -/

section

variable (hround : o.optimizePrecision = true → roundedValue? o.places x = none)

include hround

theorem pruning_definitions (d : Document) : (pruning x).Takes d (found o d .rounding) :=
  (pruning_stage (fun _ => hround) (by decide) d).trans (pruning_stage (fun _ => hround) (by decide) _)

theorem editing_values (d : Document) : (editing x).Takes (found o d .rounding) (found o d .whitespace) :=
  ((editing_stage (fun _ => hround) (by decide) _).trans (editing_stage (fun _ => hround) (by decide) _)).trans
    (editing_stage (fun _ => hround) (by decide) _)

theorem pruning_values (d : Document) : (pruning x).Takes d (found o d .whitespace) :=
  (pruning_definitions hround d).trans (takes_pruning_of_editing (editing_values hround d))

/-- An id that is referred to when definitions are removed is carried until the last two passes begin. -/
theorem carries_found_styles (hr : d.root.outline.All WasRead) (hf : d.Flat) (hx : d.Carries x)
    (href : o.cleanupDefinitions = true → x ∈ (found o d .rounding).references) : (found o d .styles).Carries x := by
  obtain ⟨k, hk, hid⟩ := carried_duplicates hr o hx
  have hid₁ : (stage o d .duplicates).idOf? k = some x := (idOf_stage (by decide)).mpr hid
  have hk₂ : (found o d .rounding).Below 0 k := below_definitions (flat_stage hf o .duplicates) hk hid₁ href
  have hid₃ := idOf_of_pruning (pruning_values hround d) hid
  have hf₃ := hf.takes (takes_naming_of_pruning (pruning_values hround d))
  exact carries_iff.mpr ⟨k, below_whitespace hf₃ o (below_of_editing (editing_values hround d) hk₂) hid₃⟩

/-- A reference that is there after cleaning was there when definitions were removed, or trimming made it. -/
theorem references_runPasses (hf : d.Flat) (href : x ∈ (runPasses o d).1.references) :
    x ∈ (found o d .rounding).references ∨ (o.normalizeWhitespace = true ∧ MadeByTrimming d x) := by
  have h₂ := pruning_definitions hround d
  have h₅ := takes_pruning_of_editing (editing_values hround d)
  have hall := pruning_values hround d
  have hf₂ := hf.takes (takes_naming_of_pruning h₂)
  have hf₅ := hf.takes (takes_naming_of_pruning hall)
  -- what comes after trimming makes no reference
  have hlast := (pruning_stage (o := o) (x := x) (p := .styles) (fun _ => hround) (by decide) (found o d .styles)).trans
    (pruning_stage (p := .merging) (fun _ => hround) (by decide) _)
  rw [runPasses_eq_last] at href
  have href := references_of_pruning hlast (flat_stage hf₅ o .whitespace) href
  change x ∈ (stage o (found o d .whitespace) .whitespace).references at href
  rcases stage_eq o (found o d .whitespace) .whitespace with ⟨hon, h⟩ | h
  · rw [h] at href
    rcases references_trimTexts hf₅ href with href | ⟨i, e, hi, he, hs, href⟩
    · exact Or.inl (references_of_pruning h₅ hf₂ href)
    · obtain ⟨e', he', hnames⟩ := sameNames_of_naming (takes_naming_of_pruning hall) he
      have hs' : e'.is "style" = true := by rwa [Element.is, ← hnames.name]
      rw [trimmedContent_of_pruning hall hf hi he' hs'] at href
      by_cases hbefore : x ∈ Analysis.references (d.textContent i)
      · left
        obtain ⟨e₂, he₂, hnames₂⟩ := sameNames_of_naming (takes_naming_of_pruning h₅) he
        have hi₂ := h₅.below hi
        rw [← textContent_of_pruning h₂ hf hi₂ he' hs'] at hbefore
        exact mem_references_iff.mpr ⟨i, e₂, hi₂, he₂, Or.inl ⟨by rwa [Element.is, ← hnames₂.name], hbefore⟩⟩
      · have hmem : i ∈ d.elementIds := Document.mem_elementIds.mpr ⟨hall.below hi, e', he'⟩
        refine Or.inr ⟨hon, i, hmem, ?_, hbefore, href⟩
        rw [Change.element?_eq_some.mpr he', Option.any_some]
        exact hs'
  · rw [h] at href
    exact Or.inl (references_of_pruning h₅ hf₂ href)

end

theorem isImage_of_parse {svg : String} (h : Document.parse svg = .ok d) : IsImage d := by
  obtain ⟨⟨_, _, _, _, hvalid⟩⟩ := Markup.parsed_of_parse h
  obtain ⟨e, he, hsvg, _⟩ := validate_iff.mp hvalid
  exact ⟨e, Change.element?_eq_some.mpr he, hsvg⟩

/-- What is not lost is carried when the last two passes begin. -/
theorem carries_found_of_not_lost (hr : d.root.outline.All WasRead) (hf : d.Flat) (hx : d.Carries x)
    (href : x ∈ (runPasses o d).1.references) (hkept : ¬ Lost o d x) : (found o d .styles).Carries x := by
  have hround : o.optimizePrecision = true → roundedValue? o.places x = none := by
    intro hon
    rw [← Option.not_isSome_iff_eq_none]
    exact fun hv => hkept (.rounded hon hv)
  by_contra hgone
  by_cases hdefs : o.cleanupDefinitions = true → x ∈ (found o d .rounding).references
  · exact hgone (carries_found_styles hround hr hf hx hdefs)
  · rw [Classical.not_imp] at hdefs
    rcases references_runPasses hround hf href with hbefore | ⟨hspace, hmade⟩
    · exact hdefs.2 hbefore
    · exact hkept (.unreferenced hdefs.1 hspace hgone hdefs.2 hmade)

/-- Of the elements that carry it then one stays. -/
theorem carries_of_not_lost (hf : (found o d .styles).Flat) (himage : IsImage (found o d .styles))
    (hx : (found o d .styles).Carries x) (hkept : ¬ Lost o d x) : (runPasses o d).1.Carries x := by
  have hstays : ∃ k ∈ (found o d .styles).elementIds, (found o d .styles).idOf? k = some x ∧
      ¬ Goes o (found o d .styles) k := by
    by_contra hnone
    refine hkept (.removed hx fun k hk hid => ?_)
    by_contra hgoes
    exact hnone ⟨k, hk, hid, hgoes⟩
  obtain ⟨k, hk, hid, hgoes⟩ := hstays
  rw [runPasses_eq_last, carries_iff]
  refine ⟨k, (below_last_iff hf himage (Document.mem_elementIds.mp hk).1 hid).mpr hgoes, ?_⟩
  rw [idOf_stage (by decide), idOf_stage (by decide)]
  exact hid

/-- A reference that resolves before cleaning and dangles after. -/
def Dangles (o : Options) (svg x : String) : Prop :=
  ∃ d, Document.parse svg = .ok d ∧ d.StylesHoldText ∧ x ∈ d.references ∧ d.Carries x ∧
    x ∈ (runPasses o d).1.references ∧ ¬ (runPasses o d).1.Carries x

instance (o : Options) (svg x : String) : Decidable (Dangles o svg x) := by
  unfold Dangles
  infer_instance

/-- All of this happens: an id is rounded, goes with an empty style element, goes with a merged path, or goes with an
    unused definition before trimming makes the reference. -/
theorem reference_dangles :
    Dangles { Options.none with optimizePrecision := true }
      "<svg viewBox=\"0 0 1 1\"><defs><g id=\"1.2345\"/></defs><rect fill=\"url(#1.2345)\"/></svg>" "1.2345" ∧
    Dangles { Options.none with removeUnusedStyles := true }
      "<svg viewBox=\"0 0 1 1\"><style id=\"s\"/><rect fill=\"url(#s)\"/></svg>" "s" ∧
    Dangles { Options.none with mergePaths := true }
      "<svg viewBox=\"0 0 1 1\"><path d=\"M0 0\"/><path id=\"p\" d=\"M1 1\"/><rect fill=\"url(#p)\"/></svg>" "p" ∧
    Dangles { Options.none with cleanupDefinitions := true, normalizeWhitespace := true }
      "<svg viewBox=\"0 0 1 1\"><style>u <!-- -->rl(#a)</style><defs><g id=\"a\"/><g id=\"b\" fill=\"url(#a)\"/></defs></svg>"
      "a" := by
  decide +kernel

/-- An id that is carried before cleaning and referred to after it is still carried, exactly if it is not lost in one of
    the three ways. -/
theorem carries_runPasses_iff {svg : String} (h : Document.parse svg = .ok d) (hs : d.StylesHoldText) (o : Options)
    (hx : d.Carries x) (href : x ∈ (runPasses o d).1.references) :
    (runPasses o d).1.Carries x ↔ ¬ Lost o d x := by
  have hr := wasRead_of_parse h
  have hf := flat_of_wasRead hr hs
  have hf' : (found o d .styles).Flat := by
    refine List.foldlRecOn (Pass.all.takeWhile (· != .styles)) (stage o) (motive := Document.Flat) hf ?_
    exact fun d' hd' p _ => flat_stage hd' o p
  have himage : IsImage (found o d .styles) := isImage_foldl_stage (isImage_of_parse h) _
  constructor
  · exact fun hcarried hlost => not_carries_of_lost hf' himage hlost hcarried
  · exact fun hkept => carries_of_not_lost hf' himage (carries_found_of_not_lost hr hf hx href hkept) hkept

/-- An empty style element, a duplicate and a path that is merged carry the id, and so does an element that stays. -/
theorem carries_runPasses_duplicate :
    ∃ d, Document.parse
      "<svg viewBox=\"0 0 1 1\"><style id=\"a\"/><defs><g id=\"a\"/><g id=\"a\"/></defs><path d=\"M0 0\"/><path id=\"a\" d=\"M1 1\"/><rect fill=\"url(#a)\"/></svg>" = .ok d ∧
      d.StylesHoldText ∧ d.Carries "a" ∧ "a" ∈ (runPasses .every d).1.references ∧ (runPasses .every d).1.Carries "a" := by
  obtain ⟨d, hd, hs, hx, href, hkept⟩ : ∃ d, Document.parse
      "<svg viewBox=\"0 0 1 1\"><style id=\"a\"/><defs><g id=\"a\"/><g id=\"a\"/></defs><path d=\"M0 0\"/><path id=\"a\" d=\"M1 1\"/><rect fill=\"url(#a)\"/></svg>" = .ok d ∧
      d.StylesHoldText ∧ d.Carries "a" ∧ "a" ∈ (runPasses .every d).1.references ∧ ¬ Lost .every d "a" := by
    decide +kernel
  exact ⟨d, hd, hs, hx, href, (carries_runPasses_iff hd hs .every hx href).mpr hkept⟩

end SvgComponent.Clean
