/-
  SvgComponent.Proofs.Component.Tidying — the document that a component is made of.

  Tidying detaches nodes and takes attributes away, and nothing else (`takes_tidy`), so what holds of all contents and does
  not mind an attribute less holds afterwards (`Takes.forall_subtrees`), and the root is still there
  (`rootElement?_prepare`). Every document with an `svg` at its root has markup, and a component (`generate?_eq`).
-/

import SvgComponent.Component.Generate
import SvgComponent.Proofs.Clean.Change

namespace SvgComponent.Markup

/-- The same name, and some of the attributes in the same order. -/
structure Element.Keeps (e e' : Element) : Prop where
  name : e'.name = e.name
  attributes : e'.attributes.Sublist e.attributes

theorem Element.Keeps.refl (e : Element) : e.Keeps e := ⟨rfl, .refl _⟩

theorem Element.Keeps.trans {e e' e'' : Element} (h : e.Keeps e') (h' : e'.Keeps e'') : e.Keeps e'' :=
  ⟨h'.name.trans h.name, h'.attributes.trans h.attributes⟩

theorem Element.keeps_tidy (e : Element) : e.Keeps e.tidy.1 := ⟨rfl, List.filter_sublist⟩

/-- An element that keeps its name, or content that stays as it is. -/
inductive Content.Keeps : Content → Content → Prop where
  | refl (c : Content) : Keeps c c
  | element {e e' : Element} (h : e.Keeps e') : Keeps (.element e) (.element e')

namespace Change

variable {d d' : Document}

/-- Any node may be cut off, and elements may lose attributes. -/
def tidying : Change where
  cut _ _ := True
  edit := Content.Keeps
  refl := .refl
  trans h h' := by
    cases h with
    | refl => exact h'
    | element h =>
      cases h' with
      | refl => exact .element h
      | element h' => exact .element (h.trans h')
  cut_iff _ := Iff.rfl

theorem takes_tidyNode (d : Document) (i : Nat) : tidying.Takes d (d.tidyNode i).1 := by
  unfold Document.tidyNode
  split
  · split
    · exact takes_detach trivial
    · exact takes_editElement fun e _ => .element e.keeps_tidy
  · exact takes_refl tidying d

theorem takes_dropEmptyGroup (d : Document) (i : Nat) : tidying.Takes d (d.dropEmptyGroup i).1 := by
  unfold Document.dropEmptyGroup
  split
  · exact takes_prune trivial
  · exact takes_refl tidying d

theorem takes_tidy (d : Document) : tidying.Takes d d.tidy.1 :=
  (takes_forEach fun d i _ _ => takes_tidyNode d i).trans (takes_forEach fun d i _ _ => takes_dropEmptyGroup d i)

theorem takes_prepare (o : Component.Options) (d : Document) : tidying.Takes d (Component.prepare o d).1 := by
  unfold Component.prepare
  split
  · exact takes_tidy d
  · exact takes_refl tidying d

theorem Takes.element_of_tidying (h : tidying.Takes d d') {i : Nat} {e : Element} (he : d.content i = .element e) :
    ∃ e', d'.content i = .element e' ∧ e.Keeps e' := by
  have hcontent := h.content i
  rw [he] at hcontent
  generalize d'.content i = c at hcontent
  cases hcontent with
  | refl => exact ⟨e, rfl, .refl e⟩
  | element hkeeps => exact ⟨_, rfl, hkeeps⟩

/-- What a change of this kind keeps true of contents, it keeps true throughout. -/
theorem Takes.forall_subtrees (h : tidying.Takes d d') {P : Content → Prop} (hP : ∀ c c', Content.Keeps c c' → P c → P c')
    (hd : ∀ t ∈ d.root.subtrees, P t.content) : ∀ t ∈ d'.root.subtrees, P t.content := by
  intro t ht
  obtain ⟨j, hj, rfl⟩ := Document.mem_subtrees_iff.mp ht
  have hbefore := hd _ (Document.mem_subtrees_iff.mpr ⟨j, h.below hj, rfl⟩)
  rw [Document.content_tree] at hbefore ⊢
  exact hP _ _ (h.content j) hbefore

end Change

end SvgComponent.Markup

namespace SvgComponent.Component

open Markup (Document Element Change)

variable {d : Document} {e : Element}

/-- What holds of the contents of a document with a root holds of the root and of what is below it. -/
theorem forall_root {P : Markup.Content → Prop} (he : d.content 0 = .element e) (h : ∀ t ∈ d.root.subtrees, P t.content) :
    P (.element e) ∧ ∀ u ∈ Markup.Tree.subtreesOf d.root.children, P u.content := by
  rw [Document.root, Document.tree_eq, Markup.Tree.subtrees, List.forall_mem_cons] at h
  rw [Document.root, Document.children_tree, ← he]
  exact h

/-- What holds of the contents of a document, and of elements with fewer attributes, holds of what a component is made
    of. -/
theorem forall_prepare (o : Options) {P : Markup.Content → Prop} (he : (prepare o d).1.content 0 = .element e)
    (hP : ∀ {c c' : Markup.Content}, c.Keeps c' → P c → P c') (h : ∀ t ∈ d.root.subtrees, P t.content) :
    P (.element e) ∧ ∀ u ∈ Markup.Tree.subtreesOf (prepare o d).1.root.children, P u.content :=
  forall_root he ((Change.takes_prepare o d).forall_subtrees (fun _ _ => hP) h)

theorem rootElement?_prepare (o : Options) (h : d.rootElement? = some e) :
    ∃ e', (prepare o d).1.rootElement? = some e' ∧ e.Keeps e' := by
  obtain ⟨e', he', hkeeps⟩ := (Change.takes_prepare o d).element_of_tidying (Change.element?_eq_some.mp h)
  exact ⟨e', Change.element?_eq_some.mpr he', hkeeps⟩

/-- How the markup of a component with this sheet is printed. -/
def Options.printer (o : Options) (sheet : Style.Sheet) : Jsx.Printer := ⟨sheet.toText?.isSome, o.normalizeQuoting⟩

/-- A document with an `svg` at its root has markup, and its component is made of it. -/
theorem generate?_eq (o : Options) (hroot : d.rootElement? = some e) (hsvg : e.is "svg" = true) :
    ∃ e', e.Keeps e' ∧ (prepare o d).1.content 0 = .element e' ∧
      let drawn := Jsx.convertRoot o.rules e' (prepare o d).1.root.children
      markup? o (prepare o d).1 = some drawn ∧
        generate? o d = some ⟨assemble o drawn.1 drawn.2.toText?, (prepare o d).2⟩ := by
  obtain ⟨e', he', hkeeps⟩ := rootElement?_prepare o hroot
  have hmarkup : markup? o (prepare o d).1 = some (Jsx.convertRoot o.rules e' (prepare o d).1.root.children) := by
    rw [markup?, he']
    rfl
  refine ⟨e', hkeeps, Change.element?_eq_some.mp he', hmarkup, ?_⟩
  rw [generate?, hroot]
  simp only [hsvg, if_true, hmarkup, Option.map_some]

end SvgComponent.Component
