/-
  SvgComponent.Proofs.Clean.Change — what a pass may do to a document, and that each pass does no more.

  A `Change` says which nodes may be cut off and how contents may be edited. Nodes are never made or moved, so a
  change only takes children away. Detaching and refilling are changes if they are allowed (`takes_detach`,
  `takes_setContent`); the passes are made of these, and each is a change that allows what it needs.
-/

import Mathlib.Logic.Function.Iterate
import SvgComponent.Clean.Pass
import SvgComponent.Proofs.Markup.Outline

namespace SvgComponent.Markup

/-- Which nodes may be cut off with what they hold, and what contents may become. -/
structure Change where
  cut : Nat → Content → Prop
  edit : Content → Content → Prop
  refl : ∀ c, edit c c
  trans : ∀ {a b c}, edit a b → edit b c → edit a c
  cut_iff : ∀ {i a b}, edit a b → (cut i a ↔ cut i b)

namespace Change

/-- The change takes the first document to the second. -/
structure Takes (k : Change) (d d' : Document) : Prop where
  size : d'.size = d.size
  children : ∀ i, (d'.children i).Sublist (d.children i)
  kept : ∀ i c, c ∈ d.children i → ¬ k.cut c (d.content c) → c ∈ d'.children i
  content : ∀ i, k.edit (d.content i) (d'.content i)

variable {k : Change} {d d' d'' : Document}

theorem takes_refl (k : Change) (d : Document) : k.Takes d d :=
  ⟨rfl, fun _ => .refl _, fun _ _ h _ => h, fun _ => k.refl _⟩

theorem Takes.trans (h : k.Takes d d') (h' : k.Takes d' d'') : k.Takes d d'' := by
  refine ⟨h'.size.trans h.size, fun i => (h'.children i).trans (h.children i), ?_, fun i =>
    k.trans (h.content i) (h'.content i)⟩
  intro i c hc hcut
  exact h'.kept i c (h.kept i c hc hcut) fun hcut' => hcut ((k.cut_iff (h.content c)).mpr hcut')

/-- What allows less allows no more. -/
theorem Takes.mono {l : Change} (h : k.Takes d d') (hcut : ∀ i c, k.cut i c → l.cut i c)
    (hedit : ∀ {a b}, k.edit a b → l.edit a b) : l.Takes d d' :=
  ⟨h.size, h.children, fun i c hc hl => h.kept i c hc fun hk => hl (hcut _ _ hk), fun i => hedit (h.content i)⟩

/-- Nothing is moved. -/
theorem Takes.below (h : k.Takes d d') {i j : Nat} (hij : d'.Below i j) : d.Below i j := by
  induction hij with
  | refl => exact .refl d i
  | tail _ hc ih => exact ih.child ((h.children _).subset hc)

/-- What is not cut off on the way down stays where it is. -/
theorem Takes.below_of_kept (h : k.Takes d d') {i j : Nat} (hij : d.Below i j)
    (hcut : ∀ p c, d.Below i p → c ∈ d.children p → d.Below c j → ¬ k.cut c (d.content c)) : d'.Below i j := by
  induction hij with
  | refl => exact .refl d' i
  | @tail p c hip hc ih =>
    have hp : d'.Below i p := ih fun q m hq hm hmp => hcut q m hq hm (hmp.child hc)
    exact hp.child (h.kept p c hc (hcut p c hip hc (.refl d c)))

/-- An attached node has all above it that it had. -/
theorem Takes.below_of_attached (h : k.Takes d d') {i j : Nat} (hj : d'.Below 0 j) (hij : d.Below i j) :
    d'.Below i j := by
  induction hj with
  | refl =>
    obtain rfl : i = 0 := Nat.le_zero.mp hij.le
    exact .refl d' 0
  | @tail p c _ hc ih =>
    by_cases hic : i = c
    · subst hic
      exact .refl d' i
    · have hpc := (h.children p).subset hc
      exact (ih (hij.parent hic ((d.linked.mem_children_iff p c).mp hpc))).child hc

theorem takes_detach {i : Nat} (h : k.cut i (d.content i)) : k.Takes d (d.detach i) := by
  have hchildren : ∀ j, (d.detach i).children j =
      if d.parent? i = some j then (d.children j).erase i else d.children j := Forest.children_detach d.toForest i
  have hcontent : ∀ j, (d.detach i).content j = d.content j := Forest.content_detach d.toForest i
  refine ⟨Forest.size_detach d.toForest i, ?_, ?_, ?_⟩
  · intro j
    rw [hchildren]
    split
    · exact List.erase_sublist
    · exact .refl _
  · intro j c hc hcut
    rw [hchildren]
    split
    · refine (List.mem_erase_of_ne ?_).mpr hc
      intro heq
      subst heq
      exact hcut h
    · exact hc
  · intro j
    rw [hcontent]
    exact k.refl _

theorem content_setContent (d : Document) (i : Nat) (c : Content) (j : Nat) :
    (d.setContent i c).content j = d.content j ∨ j = i ∧ (d.setContent i c).content j = c := by
  simp only [Document.setContent, Forest.setContent, Forest.content, Array.getElem?_modify]
  by_cases hj : i = j
  · subst hj
    cases d.nodes[i]? <;> simp
  · simp [hj]

theorem takes_setContent {i : Nat} {c : Content} (h : k.edit (d.content i) c) : k.Takes d (d.setContent i c) := by
  have hchildren : ∀ j, (d.setContent i c).children j = d.children j := fun j =>
    Forest.children_setContent d.toForest i j c
  refine ⟨Forest.size_setContent d.toForest i c, ?_, ?_, ?_⟩
  · exact fun j => hchildren j ▸ .refl _
  · intro j m hm _
    rwa [hchildren]
  · intro j
    rcases content_setContent d i c j with hj | ⟨rfl, hj⟩
    · rw [hj]
      exact k.refl _
    · rw [hj]
      exact h

/-- What every step of a fold does, the fold does, if the steps keep what they need. -/
theorem takes_foldl {α β : Type} (k : Change) (doc : β → Document) (step : β → α → β) (l : List α) (s : β)
    (h : ∀ s' a, a ∈ l → k.Takes (doc s) (doc s') → k.Takes (doc s') (doc (step s' a))) :
    k.Takes (doc s) (doc (l.foldl step s)) := by
  refine List.foldlRecOn l step (motive := fun s' => k.Takes (doc s) (doc s')) (takes_refl k _) ?_
  intro s' hs a ha
  exact hs.trans (h s' a ha hs)

theorem fst_forEach (step : Document → Nat → Document × Nat) (ids : List Nat) (d : Document) :
    (d.forEach step ids).1 = ids.foldl (fun d i => (step d i).1) d := by
  unfold Document.forEach
  exact (List.foldl_hom Prod.fst fun _ _ => rfl).symm

theorem takes_forEach {step : Document → Nat → Document × Nat} {ids : List Nat}
    (h : ∀ d' i, i ∈ ids → k.Takes d d' → k.Takes d' (step d' i).1) : k.Takes d (d.forEach step ids).1 := by
  rw [fst_forEach]
  exact takes_foldl k id (fun d i => (step d i).1) ids d h

/-! ## Cutting nodes off -/

theorem takes_prune {i : Nat} (h : k.cut i (d.content i)) : k.Takes d (d.prune i).1 := by
  unfold Document.prune
  split
  · exact takes_detach h
  · exact takes_refl k d

theorem takes_pruneAll {ids : List Nat} (h : ∀ i ∈ ids, k.cut i (d.content i)) : k.Takes d (d.pruneAll ids).1 :=
  takes_forEach fun _ i hi hs => takes_prune ((k.cut_iff (hs.content i)).mp (h i hi))

theorem takes_detachAll {ids : List Nat} (h : ∀ i ∈ ids, k.cut i (d.content i)) :
    k.Takes d (ids.foldl Document.detach d) :=
  takes_foldl k id Document.detach ids d fun _ i hi hs => takes_detach ((k.cut_iff (hs.content i)).mp (h i hi))

/-- What every run keeps, a repeated pass keeps. -/
theorem exhaust_keeps {p : Document.Pruning} {P : Document → Prop} (h : ∀ d, P d → P (p.run d).1) (d : Document)
    (hd : P d) : P (d.exhaust p).1 := by
  unfold Document.exhaust
  split
  · exact h d hd
  · exact exhaust_keeps h (p.run d).1 (h d hd)
termination_by d.linkCount
decreasing_by have := p.linkCount_run d; omega

/-- A repeated pass ends: after at most as many runs as there are links comes one that cuts nothing. -/
theorem exhaust_eq_iterate (p : Document.Pruning) (d : Document) : ∃ n ≤ d.linkCount,
    (p.run ((fun d => (p.run d).1)^[n] d)).2 = 0 ∧ (d.exhaust p).1 = (fun d => (p.run d).1)^[n + 1] d := by
  unfold Document.exhaust
  split
  · rename_i h
    exact ⟨0, Nat.zero_le _, h, rfl⟩
  · rename_i h
    have hcut := p.linkCount_run d
    obtain ⟨n, hn, hrun, hend⟩ := exhaust_eq_iterate p (p.run d).1
    refine ⟨n + 1, by omega, hrun, ?_⟩
    dsimp only
    rw [hend]
    rfl
termination_by d.linkCount

theorem takes_exhaust {p : Document.Pruning} (h : ∀ d, k.Takes d (p.run d).1) (d : Document) :
    k.Takes d (d.exhaust p).1 :=
  exhaust_keeps (P := fun d' => k.Takes d d') (fun d' hd => hd.trans (h d')) d (takes_refl k d)

/-! ## The passes that only cut -/

/-- Some elements may be cut off, and nothing is edited. -/
def cutting (t : Nat → Prop) : Change where
  cut i c := c.isElement = true ∧ t i
  edit a b := b = a
  refl _ := rfl
  trans h h' := h'.trans h
  cut_iff h := by rw [h]

theorem Takes.of_cutting {t : Nat → Prop} (h : (cutting t).Takes d d')
    (hcut : ∀ i c, c.isElement = true → t i → k.cut i c) : k.Takes d d' := by
  refine h.mono (fun i c hc => hcut i c hc.1 hc.2) ?_
  intro a b heq
  subst heq
  exact k.refl b

theorem isElement_of_mem_elementIds {i : Nat} (hi : i ∈ d.elementIds) : (d.content i).isElement = true := by
  obtain ⟨_, e, he⟩ := Document.mem_elementIds.mp hi
  rw [he]
  rfl

theorem takes_duplicateSweep (d : Document) : (cutting fun _ => True).Takes d d.duplicateSweep.document := by
  apply takes_foldl _ Document.DuplicateSweep.document Document.DuplicateSweep.visit d.elementIds ⟨d, [], 0⟩
  intro s i hi hs
  have hcut : (s.document.content i).isElement = true ∧ True :=
    ⟨by rw [show s.document.content i = d.content i from hs.content i]; exact isElement_of_mem_elementIds hi, trivial⟩
  unfold Document.DuplicateSweep.visit
  split
  · dsimp only
    split
    · exact takes_prune hcut
    · exact takes_refl _ _
  · exact takes_refl _ _

theorem takes_removeDuplicates (d : Document) : (cutting fun _ => True).Takes d d.removeDuplicates.1 :=
  takes_exhaust takes_duplicateSweep d

theorem takes_pruneUnused (d : Document) : (cutting (· ∈ d.unused)).Takes d (d.pruneAll d.unused).1 :=
  takes_pruneAll fun _ hi => ⟨isElement_of_mem_elementIds (List.mem_filter.mp hi).1, hi⟩

theorem takes_removeUnusedDefinitions (d : Document) :
    (cutting fun _ => True).Takes d d.removeUnusedDefinitions.1 := by
  apply takes_exhaust
  intro d
  exact (takes_pruneUnused d).of_cutting fun _ _ hc _ => ⟨hc, trivial⟩

theorem takes_removeEmptyStyles (d : Document) : (cutting (· ∈ d.emptyStyles)).Takes d d.removeEmptyStyles.1 :=
  takes_detachAll fun _ hi => ⟨isElement_of_mem_elementIds (List.mem_filter.mp hi).1, hi⟩

/-! ## Editing -/

theorem element?_eq_some {i : Nat} {e : Element} : d.element? i = some e ↔ d.content i = .element e := by
  rw [Forest.element?]
  cases d.content i <;> simp [Content.element?]

theorem takes_editElement {f : Element → Element × Nat} {i : Nat}
    (h : ∀ e, d.content i = .element e → k.edit (.element e) (.element (f e).1)) : k.Takes d (d.editElement f i).1 := by
  unfold Document.editElement
  split
  · rename_i e he
    have he := element?_eq_some.mp he
    exact takes_setContent (he ▸ h e he)
  · exact takes_refl k d

theorem takes_editElements {f : Element → Element × Nat} (h : ∀ e, k.edit (.element e) (.element (f e).1))
    (d : Document) : k.Takes d (d.editElements f).1 :=
  takes_forEach fun _ _ _ _ => takes_editElement fun e _ => h e

theorem takes_trimText (hcut : ∀ i s, Text.trimmed s = "" → k.cut i (.text s))
    (hedit : ∀ s, Text.trimmed s ≠ "" → k.edit (.text s) (.text (Text.trimmed s))) (d : Document) (i : Nat) :
    k.Takes d (d.trimText i).1 := by
  unfold Document.trimText
  split
  · rename_i s hs
    dsimp only
    split
    · exact takes_refl k d
    · split
      · rename_i hempty
        exact takes_detach (hs ▸ hcut i s (String.isEmpty_iff.mp hempty))
      · rename_i hne
        refine takes_setContent (hs ▸ hedit s ?_)
        simpa using hne
  · exact takes_refl k d

theorem takes_trimTexts (hcut : ∀ i s, Text.trimmed s = "" → k.cut i (.text s))
    (hedit : ∀ s, Text.trimmed s ≠ "" → k.edit (.text s) (.text (Text.trimmed s))) (d : Document) :
    k.Takes d d.trimTexts.1 :=
  takes_forEach fun d i _ _ => takes_trimText hcut hedit d i

end Change

end SvgComponent.Markup
