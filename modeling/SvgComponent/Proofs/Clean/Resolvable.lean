/-
  SvgComponent.Proofs.Clean.Resolvable — what cleaning leaves of the elements that carry an id.

  `Document.Carries` says that an attached element carries an id. An id that is not rounded stays on its element
  (`idOf_of_pruning`, `idOf_trimTexts`), so what matters is whether the element stays attached: a definition with an id
  that is referred to does (`below_removeUnusedDefinitions`), and so does what is neither an empty style element
  (`below_removeEmptyStyles`) nor at or below a path that is merged into another (`below_mergePaths`). Trimming cuts off
  no element at all. `stage` takes these from the passes to a run.
-/

import SvgComponent.Convert.Pipeline
import SvgComponent.Proofs.Clean.Sweep

namespace SvgComponent.Markup

open Change (cutting)

variable {x : String} {d d' : Document}

/-- An attached element carries the id. -/
def Document.Carries (d : Document) (x : String) : Prop := ∃ i ∈ d.elementIds, d.idOf? i = some x

instance (d : Document) (x : String) : Decidable (d.Carries x) :=
  inferInstanceAs (Decidable (∃ i ∈ d.elementIds, d.idOf? i = some x))

/-- No attached element stands in a style element. -/
def Document.StylesHoldText (d : Document) : Prop := ∀ i ∈ d.elementIds, d.hasAncestor i "style" = false

instance (d : Document) : Decidable d.StylesHoldText :=
  inferInstanceAs (Decidable (∀ i ∈ d.elementIds, d.hasAncestor i "style" = false))

theorem carries_iff : d.Carries x ↔ ∃ k, d.Below 0 k ∧ d.idOf? k = some x := by
  constructor
  · intro hcarried
    obtain ⟨k, hk, hx⟩ := hcarried
    exact ⟨k, (Document.mem_elementIds.mp hk).1, hx⟩
  · intro hcarried
    obtain ⟨k, hk, hx⟩ := hcarried
    obtain ⟨e, he, _⟩ := idOf_eq_some.mp hx
    exact ⟨k, Document.mem_elementIds.mpr ⟨hk, e, he⟩, hx⟩

/-! ## What stays where it is -/

theorem idOf_of_pruning (h : (pruning x).Takes d d') {k : Nat} (hx : d.idOf? k = some x) : d'.idOf? k = some x := by
  obtain ⟨e, he, hid⟩ := idOf_eq_some.mp hx
  have hedit : (d.content k).Holds x (d'.content k) := h.content k
  rw [he] at hedit
  rw [idOf_eq_some]
  generalize d'.content k = c at hedit
  cases hedit with
  | element h => exact ⟨_, rfl, h.id hid⟩
  | other => exact ⟨e, rfl, hid⟩

theorem idOf_trimTexts {k : Nat} : d.trimTexts.1.idOf? k = some x ↔ d.idOf? k = some x := by
  simp only [idOf_eq_some, element_of_trimming (takes_trimTexts d)]

/-- What stands above an element is an element. -/
theorem element_of_below (hf : d.Flat) {c k : Nat} (hc : d.Below 0 c) (h : d.Below c k) (hx : d.idOf? k = some x) :
    ∃ e, d.content c = .element e := by
  rcases Relation.ReflTransGen.cases_head h with rfl | ⟨m, hm, _⟩
  · obtain ⟨e, he, _⟩ := idOf_eq_some.mp hx
    exact ⟨e, he⟩
  · exact hf.parent hc hm

theorem below_of_editing (h : (editing x).Takes d d') {k : Nat} (hk : d.Below 0 k) : d'.Below 0 k :=
  h.below_of_kept hk fun _ _ _ _ _ hcut => hcut

/-- Trimming cuts off no element. -/
theorem below_trimTexts (hf : d.Flat) {k : Nat} (hk : d.Below 0 k) (hx : d.idOf? k = some x) :
    d.trimTexts.1.Below 0 k := by
  refine (takes_trimTexts d).below_of_kept hk ?_
  intro p c hp hc hck hcut
  obtain ⟨e, he⟩ := element_of_below hf (hp.child hc) hck hx
  have : (d.content c).trimmed = .text "" := hcut
  rw [he] at this
  cases this

/-- A definition with an id that is referred to stays. -/
theorem below_pruneUnused {k : Nat} (hk : d.Below 0 k) (hx : d.idOf? k = some x) (href : x ∈ d.references) :
    (d.pruneAll d.unused).1.Below 0 k := by
  refine (Change.takes_pruneUnused d).below_of_kept hk ?_
  intro p c _ _ hck hcut
  obtain ⟨_, hunused⟩ := hcut
  have hcarries : (d.tree c).carriesAny d.references = true := by
    unfold Tree.carriesAny
    rw [List.any_eq_true]
    refine ⟨d.tree k, Document.mem_subtrees_iff.mpr ⟨k, hck, rfl⟩, ?_⟩
    rw [Tree.element?, Document.content_tree]
    rw [show (d.content k).element?.bind (·.get? "id") = some x from hx, Option.any_some]
    exact List.contains_iff_mem.mpr href
  have hnone := (List.mem_filter.mp hunused).2
  rw [Document.isUnused, hcarries, Bool.not_true, Bool.and_false] at hnone
  cases hnone

theorem below_removeUnusedDefinitions (hf : d.Flat) {k : Nat} (hk : d.Below 0 k) (hx : d.idOf? k = some x)
    (href : x ∈ d.removeUnusedDefinitions.1.references) : d.removeUnusedDefinitions.1.Below 0 k := by
  have h := Change.exhaust_keeps (p := Document.definitionPruning)
    (P := fun d' => (cutting fun _ => True).Takes d d' ∧ (x ∈ d'.references → d'.Below 0 k)) ?_ d
    ⟨Change.takes_refl _ d, fun _ => hk⟩
  · exact h.2 href
  · intro d' hinv
    obtain ⟨ht, hkept⟩ := hinv
    have hrun := Change.takes_pruneUnused d'
    refine ⟨ht.trans (hrun.of_cutting fun _ _ hc _ => ⟨hc, trivial⟩), ?_⟩
    intro hx'
    have hf' := hf.takes (takes_naming_of_cutting ht)
    have hx' := references_of_pruning (x := x) (hrun.of_cutting fun _ _ hc _ => hc) hf' hx'
    exact below_pruneUnused (hkept hx') ((idOf_of_cutting ht k).trans hx) hx'

/-- Only the element itself is an element in the tree of a style element. -/
theorem eq_of_below_style (hf : d.Flat) {i k : Nat} {e : Element} (hi : d.Below 0 i) (he : d.content i = .element e)
    (hs : e.is "style" = true) (h : d.Below i k) (hx : d.idOf? k = some x) : k = i := by
  rcases Relation.ReflTransGen.cases_head h with rfl | ⟨c, hc, hck⟩
  · rfl
  · obtain ⟨e', he'⟩ := element_of_below hf (hi.child hc) hck hx
    have := hf.style hi he hs hc
    rw [he'] at this
    cases this

theorem mem_emptyStyles {i : Nat} : i ∈ d.emptyStyles ↔ d.Below 0 i ∧ ∃ e, d.content i = .element e ∧
    e.is "style" = true ∧ Text.allBlank (d.textContent i) = true := by
  unfold Document.emptyStyles
  rw [List.mem_filter, Document.mem_elementIds, Bool.and_eq_true]
  constructor
  · intro hempty
    obtain ⟨⟨hi, e, he⟩, hs, hblank⟩ := hempty
    rw [Change.element?_eq_some.mpr he] at hs
    exact ⟨hi, e, he, hs, hblank⟩
  · intro hempty
    obtain ⟨hi, e, he, hs, hblank⟩ := hempty
    rw [Change.element?_eq_some.mpr he]
    exact ⟨⟨hi, e, he⟩, hs, hblank⟩

theorem below_removeEmptyStyles (hf : d.Flat) {k : Nat} (hk : d.Below 0 k) (hx : d.idOf? k = some x)
    (hne : k ∉ d.emptyStyles) : d.removeEmptyStyles.1.Below 0 k := by
  refine (Change.takes_removeEmptyStyles d).below_of_kept hk ?_
  intro p c hp hc hck hcut
  obtain ⟨_, hempty⟩ := hcut
  obtain ⟨hi, e, he, hs, _⟩ := mem_emptyStyles.mp hempty
  exact hne (eq_of_below_style hf hi he hs hck hx ▸ hempty)

theorem below_mergePaths {k : Nat} (hk : d.Below 0 k) (hne : ∀ i, d.IsMerged i → ¬ d.Below i k) :
    d.mergePaths.1.Below 0 k :=
  (takes_mergePaths d).below_of_kept hk fun _ c _ _ hck hcut => hne c hcut.2 hck

end SvgComponent.Markup

namespace SvgComponent.Clean

open Markup

/-! ## Pass by pass -/

/-- The pass if it is enabled. -/
def stage (o : Options) (d : Document) (p : Pass) : Document :=
  if o.enables p = true then (p.apply o.places d).1 else d

theorem runPasses_eq (o : Options) (d : Document) : (runPasses o d).1 = Pass.all.foldl (stage o) d := by
  unfold runPasses
  rw [List.foldl_filter]
  refine (List.foldl_hom Prod.fst ?_).symm
  intro s p
  unfold stage
  split
  · rfl
  · rfl

variable {o : Options} {x : String} {d : Document}

theorem stage_eq (o : Options) (d : Document) (p : Pass) :
    o.enables p = true ∧ stage o d p = (p.apply o.places d).1 ∨ stage o d p = d := by
  unfold stage
  split
  · rename_i h
    exact Or.inl ⟨h, rfl⟩
  · exact Or.inr rfl

theorem pruning_stage {p : Pass} (hx : p = .rounding → o.optimizePrecision = true → roundedValue? o.places x = none)
    (hp : p ≠ .whitespace) (d : Document) : (pruning x).Takes d (stage o d p) := by
  rcases stage_eq o d p with ⟨hon, h⟩ | h
  · rw [h]
    refine takes_pruning ?_ hp d
    intro heq
    subst heq
    exact hx rfl hon
  · rw [h]
    exact Change.takes_refl _ d

theorem editing_stage {p : Pass} (hx : p = .rounding → o.optimizePrecision = true → roundedValue? o.places x = none)
    (hp : p = .rounding ∨ p = .paths ∨ p = .colors) (d : Document) : (editing x).Takes d (stage o d p) := by
  rcases stage_eq o d p with ⟨hon, h⟩ | h
  · rw [h]
    refine takes_editing ?_ hp d
    intro heq
    subst heq
    exact hx rfl hon
  · rw [h]
    exact Change.takes_refl _ d

theorem takes_stage (o : Options) (p : Pass) (d : Document) : naming.Takes d (stage o d p) := by
  rcases stage_eq o d p with ⟨_, h⟩ | h
  · rw [h]
    exact takes_naming o.places p d
  · rw [h]
    exact Change.takes_refl _ d

theorem flat_stage (hf : d.Flat) (o : Options) (p : Pass) : (stage o d p).Flat := hf.takes (takes_stage o p d)

/-- Only rounding changes an id. -/
theorem idOf_stage {p : Pass} (hp : p ≠ .rounding) {k : Nat} : (stage o d p).idOf? k = some x ↔ d.idOf? k = some x := by
  have hkept : ∀ y, d.idOf? k = some y → (stage o d p).idOf? k = some y := by
    intro y hy
    by_cases hwhitespace : p = .whitespace
    · subst hwhitespace
      rcases stage_eq o d .whitespace with ⟨_, h⟩ | h
      · rw [h]
        exact idOf_trimTexts.mpr hy
      · rwa [h]
    · exact idOf_of_pruning (pruning_stage (fun heq => absurd heq hp) hwhitespace d) hy
  constructor
  · intro hx
    -- there was an id, for keys stay, and it is the one that is there now
    obtain ⟨e', he', hid⟩ := idOf_eq_some.mp hx
    obtain ⟨e, he, hnames⟩ := sameNames_of_naming (takes_stage o p d) he'
    have hhas : e.has "id" = true := by
      rw [← hnames.has]
      unfold Element.has
      rw [hid, Option.isSome_some]
    obtain ⟨y, hy⟩ := Option.isSome_iff_exists.mp hhas
    have hsame := hkept y (idOf_eq_some.mpr ⟨e, he, hy⟩)
    rw [hx] at hsame
    rw [idOf_eq_some, Option.some.inj hsame]
    exact ⟨e, he, hy⟩
  · exact hkept x

theorem carried_duplicates (hr : d.root.outline.All WasRead) (o : Options) (hx : d.Carries x) :
    ∃ k, (stage o d .duplicates).Below 0 k ∧ d.idOf? k = some x := by
  obtain ⟨k, hk, hid⟩ := carries_iff.mp hx
  rcases stage_eq o d .duplicates with ⟨_, h⟩ | h
  · rw [h]
    exact carried_removeDuplicates hr hk hid
  · rw [h]
    exact ⟨k, hk, hid⟩

theorem below_definitions (hf : d.Flat) {k : Nat} (hk : d.Below 0 k) (hx : d.idOf? k = some x)
    (href : o.cleanupDefinitions = true → x ∈ (stage o d .definitions).references) :
    (stage o d .definitions).Below 0 k := by
  rcases stage_eq o d .definitions with ⟨hon, h⟩ | h
  · have href := href hon
    rw [h] at href ⊢
    exact below_removeUnusedDefinitions hf hk hx href
  · rwa [h]

theorem below_whitespace (hf : d.Flat) (o : Options) {k : Nat} (hk : d.Below 0 k) (hx : d.idOf? k = some x) :
    (stage o d .whitespace).Below 0 k ∧ (stage o d .whitespace).idOf? k = some x := by
  rcases stage_eq o d .whitespace with ⟨_, h⟩ | h
  · rw [h]
    exact ⟨below_trimTexts hf hk hx, idOf_trimTexts.mpr hx⟩
  · rw [h]
    exact ⟨hk, hx⟩

theorem below_styles (hf : d.Flat) {k : Nat} (hk : d.Below 0 k) (hx : d.idOf? k = some x)
    (hne : o.removeUnusedStyles = true → k ∉ d.emptyStyles) : (stage o d .styles).Below 0 k := by
  rcases stage_eq o d .styles with ⟨hon, h⟩ | h
  · rw [h]
    exact below_removeEmptyStyles hf hk hx (hne hon)
  · rwa [h]

theorem below_merging {k : Nat} (hk : d.Below 0 k)
    (hne : o.mergePaths = true → ∀ i, d.IsMerged i → ¬ d.Below i k) : (stage o d .merging).Below 0 k := by
  rcases stage_eq o d .merging with ⟨hon, h⟩ | h
  · rw [h]
    exact below_mergePaths hk (hne hon)
  · rwa [h]

end SvgComponent.Clean
