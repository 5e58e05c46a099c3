/-
  SvgComponent.Proofs.Clean.References — what passes do to the references of a document.

  Style elements of what is cleaned here hold no elements, and only elements have children (`Document.Flat`); therefore
  a pass that cuts elements off leaves the text of style elements as it is, and no reference is new
  (`references_of_pruning`). Trimming does change that text (`textContent_trimTexts`), and this alone can make a
  reference.
-/

import SvgComponent.Proofs.Clean.Holding

namespace SvgComponent.Markup

open Analysis (attributeReferences)

theorem Content.SameNames.isElement {a b : Content} (h : a.SameNames b) : b.isElement = a.isElement := by
  cases a with
  | element e =>
    obtain ⟨e', rfl, _⟩ := h
    rfl
  | text s =>
    obtain ⟨s', rfl, _⟩ := h
    rfl
  | comment s => rw [show b = .comment s from h]
  | cdata s => rw [show b = .cdata s from h]

/-- An element was the element before that it has its names from. -/
theorem sameNames_of_naming {d d' : Document} (h : naming.Takes d d') {i : Nat} {e' : Element}
    (he' : d'.content i = .element e') : ∃ e, d.content i = .element e ∧ e.SameNames e' := by
  have hedit : (d.content i).SameNames (d'.content i) := h.content i
  have helement : (d.content i).isElement = true := by
    rw [← hedit.isElement, he']
    rfl
  obtain ⟨e, he⟩ := isElement_iff.mp helement
  rw [he, he'] at hedit
  obtain ⟨_, heq, hs⟩ := hedit
  cases heq
  exact ⟨e, he, hs⟩

/-- Only elements have children, and those of style elements are none. -/
structure Document.Flat (d : Document) : Prop where
  parent : ∀ {p c}, d.Below 0 p → c ∈ d.children p → ∃ e, d.content p = .element e
  style : ∀ {i e c}, d.Below 0 i → d.content i = .element e → e.is "style" = true → c ∈ d.children i →
    (d.content c).isElement = false

theorem flat_of_wasRead {d : Document} (h : d.root.outline.All WasRead)
    (hstyle : ∀ i ∈ d.elementIds, d.hasAncestor i "style" = false) : d.Flat := by
  refine ⟨?_, ?_⟩
  · exact fun hp hc => element_of_mem_children (all_below h hp) hc
  · intro i e c hi he hs hc
    cases helement : (d.content c).isElement with
    | false => rfl
    | true =>
      have := hstyle c (Document.mem_elementIds.mpr ⟨hi.child hc, isElement_iff.mp helement⟩)
      unfold Document.hasAncestor at this
      rw [Document.ancestors_eq, (d.linked.mem_children_iff i c).mp hc, List.any_cons,
        Change.element?_eq_some.mpr he, Option.any_some, hs] at this
      cases this

namespace Document.Flat

variable {d d' : Document}

theorem takes (hf : d.Flat) (h : naming.Takes d d') : d'.Flat := by
  refine ⟨?_, ?_⟩
  · intro p c hp hc
    obtain ⟨e, he⟩ := hf.parent (h.below hp) ((h.children p).subset hc)
    have hedit : (d.content p).SameNames (d'.content p) := h.content p
    rw [he] at hedit
    obtain ⟨e', he', _⟩ := hedit
    exact ⟨e', he'⟩
  · intro i e' c hi he' hs hc
    obtain ⟨e, he, hnames⟩ := sameNames_of_naming h he'
    have hedit : (d.content c).SameNames (d'.content c) := h.content c
    rw [hedit.isElement]
    refine hf.style (h.below hi) he ?_ ((h.children i).subset hc)
    rwa [Element.is, ← hnames.name]

/-- The node that hangs in a style element is alone in its tree. -/
theorem join_subtrees {i : Nat} {e : Element} (hf : d.Flat) (hi : d.Below 0 i) (he : d.content i = .element e)
    (hs : e.is "style" = true) {f : Content → String} (hfe : f (.element e) = "") :
    String.join ((d.tree i).subtrees.map fun t => f t.content) =
      String.join ((d.children i).map fun c => f (d.content c)) := by
  have hleaf : ∀ c ∈ d.children i, (d.tree c).subtrees.map (fun t => f t.content) = [f (d.content c)] := by
    intro c hc
    have hnil : d.children c = [] := by
      rw [List.eq_nil_iff_forall_not_mem]
      intro m hm
      obtain ⟨e', he'⟩ := hf.parent (hi.child hc) hm
      have := hf.style hi he hs hc
      rw [he'] at this
      cases this
    rw [tree_eq, hnil]
    rfl
  rw [tree_eq, Tree.subtrees, Tree.subtreesOf_eq_flatMap, List.flatMap_map, List.map_cons, Tree.content, he, hfe,
    String.join_cons, String.empty_append, List.map_flatMap, List.flatMap_congr hleaf, ← List.map_eq_flatMap]

end Document.Flat

/-! ## Cutting elements off -/

variable {x : String} {d d' : Document}

/-- A reference stands in an attribute, or in the text of a style element. -/
theorem mem_references_iff {y : String} : y ∈ d.references ↔ ∃ i e, d.Below 0 i ∧ d.content i = .element e ∧
    (e.is "style" = true ∧ y ∈ Analysis.references (d.textContent i) ∨
      y ∈ e.attributes.flatMap attributeReferences) := by
  have hown : ∀ i e, y ∈ Analysis.elementReferences (d.tree i) e ↔
      e.is "style" = true ∧ y ∈ Analysis.references (d.textContent i) ∨
        y ∈ e.attributes.flatMap attributeReferences := by
    intro i e
    rw [Analysis.elementReferences, List.mem_append]
    cases e.is "style" <;> simp [Document.textContent]
  unfold Document.references Analysis.treeReferences Document.root
  rw [List.mem_flatMap]
  constructor
  · intro href
    obtain ⟨t, ht, hy⟩ := href
    obtain ⟨i, hi, rfl⟩ := Document.mem_subtrees_iff.mp ht
    cases he : (d.tree i).element? with
    | none =>
      rw [he] at hy
      cases hy
    | some e =>
      rw [he] at hy
      rw [Tree.element?, Document.content_tree] at he
      exact ⟨i, e, hi, Change.element?_eq_some.mp he, (hown i e).mp hy⟩
  · intro href
    obtain ⟨i, e, hi, he, hy⟩ := href
    refine ⟨d.tree i, Document.mem_subtrees_iff.mpr ⟨i, hi, rfl⟩, ?_⟩
    rw [Tree.element?, Document.content_tree, he]
    exact (hown i e).mpr hy

theorem eq_of_sublist {l l' : List Nat} (h : l'.Sublist l) (hnodup : l.Nodup) (hsub : l ⊆ l') : l' = l :=
  h.eq_of_length_le (List.Nodup.length_le_of_subset hnodup hsub)

/-- What hangs in a style element stays, as it is. -/
theorem children_of_pruning (h : (pruning x).Takes d d') (hf : d.Flat) {i : Nat} {e : Element} (hi : d.Below 0 i)
    (he : d.content i = .element e) (hs : e.is "style" = true) :
    d'.children i = d.children i ∧ ∀ c ∈ d.children i, d'.content c = d.content c := by
  constructor
  · refine eq_of_sublist (h.children i) (d.linked.nodup i) fun c hc => h.kept i c hc ?_
    show ¬ (d.content c).isElement = true
    rw [hf.style hi he hs hc]
    exact Bool.false_ne_true
  · intro c hc
    have hedit : (d.content c).Holds x (d'.content c) := h.content c
    have := hf.style hi he hs hc
    generalize d.content c = a at hedit this
    generalize d'.content c = b at hedit
    cases hedit with
    | element _ => cases this
    | other _ => rfl

theorem join_of_pruning (h : (pruning x).Takes d d') (hf : d.Flat) {i : Nat} {e : Element} (hi : d'.Below 0 i)
    (he : d.content i = .element e) (hs : e.is "style" = true) {f : Content → String} (hfe : ∀ e, f (.element e) = "") :
    String.join ((d'.tree i).subtrees.map fun t => f t.content) =
      String.join ((d.tree i).subtrees.map fun t => f t.content) := by
  obtain ⟨hchildren, hcontent⟩ := children_of_pruning h hf (h.below hi) he hs
  have hnaming := takes_naming_of_pruning h
  have hedit : (d.content i).SameNames (d'.content i) := hnaming.content i
  rw [he] at hedit
  obtain ⟨e', he', hnames⟩ := hedit
  have hs' : e'.is "style" = true := by rwa [Element.is, hnames.name]
  rw [(hf.takes hnaming).join_subtrees hi he' hs' (hfe e'), hf.join_subtrees (h.below hi) he hs (hfe e), hchildren]
  congr 1
  exact List.map_congr_left fun c hc => by rw [hcontent c hc]

theorem textContent_of_pruning (h : (pruning x).Takes d d') (hf : d.Flat) {i : Nat} {e : Element} (hi : d'.Below 0 i)
    (he : d.content i = .element e) (hs : e.is "style" = true) : d'.textContent i = d.textContent i :=
  join_of_pruning h hf hi he hs (f := Content.characters) fun _ => rfl

theorem references_of_pruning (h : (pruning x).Takes d d') (hf : d.Flat) : d'.references ⊆ d.references := by
  intro y hy
  obtain ⟨i, e', hi, he', hy⟩ := mem_references_iff.mp hy
  obtain ⟨e, he, hnames⟩ := sameNames_of_naming (takes_naming_of_pruning h) he'
  refine mem_references_iff.mpr ⟨i, e, h.below hi, he, ?_⟩
  rcases hy with ⟨hs, hy⟩ | hy
  · have hs : e.is "style" = true := by rwa [Element.is, ← hnames.name]
    rw [textContent_of_pruning h hf hi he hs] at hy
    exact Or.inl ⟨hs, hy⟩
  · have hedit : (d.content i).Holds x (d'.content i) := h.content i
    rw [he, he'] at hedit
    cases hedit with
    | element hholds => exact Or.inr (hholds.references hy)
    | other hc => exact Or.inr hy

/-! ## Trimming -/

def Content.trimmed : Content → Content
  | .text s => .text (Text.trimmed s)
  | c => c

theorem Content.trimmed_trimmed (c : Content) : c.trimmed.trimmed = c.trimmed := by
  cases c with
  | text s => exact congrArg Content.text (Text.trimmed_trimmed s)
  | _ => rfl

theorem Content.trimmed_eq_element {c : Content} {e : Element} : c.trimmed = .element e ↔ c = .element e := by
  cases c <;> simp [Content.trimmed]

/-- All text of the tree, each text trimmed by itself. -/
def Tree.trimmedContent (t : Tree) : String := String.join (t.subtrees.map (·.content.trimmed.characters))

theorem trimmedContent_of_pruning (h : (pruning x).Takes d d') (hf : d.Flat) {i : Nat} {e : Element}
    (hi : d'.Below 0 i) (he : d.content i = .element e) (hs : e.is "style" = true) :
    (d'.tree i).trimmedContent = (d.tree i).trimmedContent :=
  join_of_pruning h hf hi he hs (f := fun c => c.trimmed.characters) fun _ => rfl

/-- Text with nothing but blanks may be cut off, and other text trimmed. -/
def trimming : Change where
  cut _ c := c.trimmed = .text ""
  edit a b := b = a ∨ b = a.trimmed
  refl _ := Or.inl rfl
  trans := by
    intro a b c hab hbc
    rcases hab with rfl | rfl
    · exact hbc
    · rcases hbc with rfl | rfl
      · exact Or.inr rfl
      · exact Or.inr a.trimmed_trimmed
  cut_iff := by
    intro _ a b hcase
    rcases hcase with rfl | rfl
    · exact Iff.rfl
    · rw [Content.trimmed_trimmed]

theorem takes_trimText (d : Document) (i : Nat) : trimming.Takes d (d.trimText i).1 :=
  Change.takes_trimText (k := trimming) (fun _ _ hs => congrArg Content.text hs) (fun _ _ => Or.inr rfl) d i

theorem takes_trimTexts (d : Document) : trimming.Takes d d.trimTexts.1 :=
  Change.takes_forEach fun d i _ _ => takes_trimText d i

theorem trimmed_of_trimming (h : trimming.Takes d d') (i : Nat) : (d'.content i).trimmed = (d.content i).trimmed := by
  rcases h.content i with hi | hi
  · rw [hi]
  · rw [hi, Content.trimmed_trimmed]

theorem element_of_trimming (h : trimming.Takes d d') {i : Nat} {e : Element} :
    d'.content i = .element e ↔ d.content i = .element e := by
  rw [← Content.trimmed_eq_element, trimmed_of_trimming h, Content.trimmed_eq_element]

/-- Nothing is left to trim in the node, or it hangs nowhere. -/
def Document.Settled (d : Document) (i : Nat) : Prop :=
  (d.content i).trimmed = d.content i ∨ ∀ p, i ∉ d.children p

theorem settled_of_trimming (h : trimming.Takes d d') {i : Nat} (hi : d.Settled i) : d'.Settled i := by
  rcases hi with hi | hi
  · left
    rcases h.content i with hc | hc
    · rw [hc, hi]
    · rw [hc, Content.trimmed_trimmed]
  · exact Or.inr fun p hp => hi p ((h.children p).subset hp)

theorem settled_detach (d : Document) (i : Nat) : (d.detach i).Settled i := by
  refine Or.inr fun p hp => ?_
  have hparent : (d.detach i).parent? i = some p := ((d.detach i).linked.mem_children_iff p i).mp hp
  rw [show (d.detach i).parent? i = _ from Forest.parent?_detach d.toForest i i, if_pos rfl] at hparent
  cases hparent

theorem settled_trimText (d : Document) (i : Nat) : (d.trimText i).1.Settled i := by
  unfold Document.trimText
  split
  · rename_i s hs
    dsimp only
    split
    · rename_i heq
      exact Or.inl (by rw [hs, Content.trimmed, heq])
    · split
      · exact settled_detach d i
      · by_cases hsize : i < d.size
        · left
          have hc : (d.setContent i (.text (Text.trimmed s))).content i = .text (Text.trimmed s) := by
            rw [show (d.setContent i _).content i = _ from Forest.content_setContent hsize _ i, if_pos rfl]
          rw [hc]
          exact Content.trimmed_trimmed (.text s)
        · refine Or.inr fun p hp => hsize (d.linked.mem_children_lt_size (p := p) ?_)
          rwa [show (d.setContent i _).children p = _ from Forest.children_setContent d.toForest i p _] at hp
  · rename_i hne
    left
    cases hc : d.content i with
    | text s => exact absurd hc (hne s)
    | _ => rfl

theorem settled_trimTexts {i : Nat} (hi : d.Below 0 i) : d.trimTexts.1.Settled i := by
  suffices ∀ (ids : List Nat) (d : Document), i ∈ ids → (ids.foldl (fun d i => (d.trimText i).1) d).Settled i by
    rw [Document.trimTexts, Change.fst_forEach]
    exact this _ d (Document.mem_descendants_iff.mpr hi)
  intro ids
  induction ids with
  | nil =>
    intro d h
    cases h
  | cons j ids ih =>
    intro d h
    rw [List.foldl_cons]
    rcases List.mem_cons.mp h with rfl | h
    · exact settled_of_trimming (Change.takes_foldl trimming id _ ids _ fun d j _ _ => takes_trimText d j)
        (settled_trimText d i)
    · exact ih _ h

theorem join_of_sublist {f : Nat → String} {l l' : List Nat} (h : l'.Sublist l) (hnodup : l.Nodup)
    (hmiss : ∀ c ∈ l, c ∉ l' → f c = "") : String.join (l'.map f) = String.join (l.map f) := by
  induction h with
  | slnil => rfl
  | @cons l' l a h ih =>
    rw [List.nodup_cons] at hnodup
    rw [List.forall_mem_cons] at hmiss
    rw [List.map_cons, String.join_cons, hmiss.1 fun ha => hnodup.1 (h.subset ha), String.empty_append,
      ih hnodup.2 hmiss.2]
  | @cons_cons l' l a h ih =>
    rw [List.nodup_cons] at hnodup
    rw [List.map_cons, List.map_cons, String.join_cons, String.join_cons, ih hnodup.2]
    intro c hc hc'
    refine hmiss c (List.mem_cons_of_mem a hc) fun hmem => ?_
    rcases List.mem_cons.mp hmem with rfl | hmem
    · exact hnodup.1 hc
    · exact hc' hmem

/-- Trimming leaves of the text of a style element each text trimmed. -/
theorem textContent_trimTexts (hf : d.Flat) {i : Nat} {e : Element} (hi : d.trimTexts.1.Below 0 i)
    (he : d.content i = .element e) (hs : e.is "style" = true) :
    d.trimTexts.1.textContent i = (d.tree i).trimmedContent := by
  have h := takes_trimTexts d
  have hf' : d.trimTexts.1.Flat := hf.takes (takes_naming 0 .whitespace d)
  have hleft : ∀ c ∈ d.trimTexts.1.children i,
      (d.trimTexts.1.content c).characters = (d.content c).trimmed.characters := by
    intro c hc
    rcases settled_trimTexts ((h.below hi).child ((h.children i).subset hc)) with hsettled | hnone
    · rw [← hsettled, trimmed_of_trimming h]
    · exact absurd hc (hnone i)
  rw [Document.textContent, Tree.textContent, Tree.trimmedContent,
    hf'.join_subtrees hi ((element_of_trimming h).mpr he) hs (f := Content.characters) rfl,
    hf.join_subtrees (h.below hi) he hs (f := fun c => c.trimmed.characters) rfl, List.map_congr_left hleft]
  refine join_of_sublist (h.children i) (d.linked.nodup i) ?_
  intro c hc hc'
  by_cases hcut : (d.content c).trimmed = .text ""
  · rw [hcut]
    rfl
  · exact absurd (h.kept i c hc hcut) hc'

/-- A reference after trimming was there before, or the text of a style element makes it once it is trimmed. -/
theorem references_trimTexts (hf : d.Flat) {y : String} (hy : y ∈ d.trimTexts.1.references) : y ∈ d.references ∨
    ∃ i e, d.Below 0 i ∧ d.content i = .element e ∧ e.is "style" = true ∧
      y ∈ Analysis.references (d.tree i).trimmedContent := by
  have h := takes_trimTexts d
  obtain ⟨i, e, hi, he', hy⟩ := mem_references_iff.mp hy
  have he := (element_of_trimming h).mp he'
  rcases hy with ⟨hs, hy⟩ | hy
  · rw [textContent_trimTexts hf hi he hs] at hy
    exact Or.inr ⟨i, e, h.below hi, he, hs, hy⟩
  · exact Or.inl (mem_references_iff.mpr ⟨i, e, h.below hi, he, Or.inr hy⟩)

end SvgComponent.Markup
