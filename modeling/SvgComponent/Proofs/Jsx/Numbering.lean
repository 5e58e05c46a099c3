/-
  SvgComponent.Proofs.Jsx.Numbering — which nodes of an image the extracted rules and style texts come from.

  The elements that are drawn are those of the nodes `drawnIds`, one by one (`lists_drawn`). A rule belongs to the node
  whose style it is (`owners`). If styles are extracted, the sheet has the rules of the image and the texts of the style
  elements that are reached (`rules_convertRoot`, `blocks_convertRoot`), and the markup refers to each rule once, at the
  element of its owner (`numbers_convertRoot`, `owners_convertRoot`). The counter that numbers rules needs no invariant
  beyond `Binds`: numbers are places among the owners, however the tree is shaped (`owns_numbersFrom`).
-/

import Mathlib.Data.List.Forall2
import SvgComponent.Proofs.Clean.Change
import SvgComponent.Proofs.Jsx.Extracting
import SvgComponent.Proofs.Markup.Restriction
import SvgComponent.Proofs.Text.Blank

namespace SvgComponent.Markup

open Style (Declaration)

/-! ## The style attribute -/

/-- The declarations of the style attribute, if there are any. -/
def Element.rule? (e : Element) : Option (List Declaration) :=
  (e.attributes.find? (·.name.full == "style")).bind Attribute.rule?

/-- Of attributes with different names at most one makes a rule. -/
theorem Element.rules_of_nodup {e : Element} (h : (e.attributes.map (·.name.full)).Nodup) : e.rules = e.rule?.toList := by
  unfold rules rule?
  generalize e.attributes = as at h
  induction as with
  | nil => rfl
  | cons a as ih =>
    rw [List.map_cons, List.nodup_cons] at h
    by_cases ha : a.name.full = "style"
    · have hothers : as.filterMap Attribute.rule? = [] := by
        refine List.filterMap_eq_nil_iff.mpr fun b hb => if_neg fun hstyle => h.1 ?_
        rw [ha, ← hstyle.1]
        exact List.mem_map_of_mem hb
      rw [List.find?_cons_of_pos (by simpa using ha), List.filterMap_cons, hothers, Option.bind_some]
      cases a.rule? <;> rfl
    · have hnone : a.rule? = none := if_neg fun hstyle => ha hstyle.1
      rw [List.find?_cons_of_neg (by simpa using ha), List.filterMap_cons, hnone]
      exact ih h.2

/-! ## Drawn nodes -/

theorem Tree.drawnOf_eq_flatMap (ts : List Tree) : drawnOf ts = ts.flatMap drawn := by
  induction ts with
  | nil => rfl
  | cons t ts ih => rw [drawnOf, ih, List.flatMap_cons]

theorem Tree.drawn_of_not_isElement {c : Content} (h : ¬ c.isElement = true) (i : Nat) (ts : List Tree) :
    (Tree.node i c ts).drawn = [] := by
  cases c with
  | element e => exact absurd rfl h
  | _ => rw [drawn]

theorem Content.isDrawn_of_not_isElement {c : Content} (h : ¬ c.isElement = true) : c.isDrawn = false := by
  cases c with
  | element e => exact absurd rfl h
  | _ => rfl

namespace Document

variable {d : Document}

/-- The elements are those of the nodes, in this order. -/
def Lists (d : Document) : List Nat → List Element → Prop := List.Forall₂ fun i e => d.content i = .element e

theorem lists_flatMap {l : List Nat} {ids : Nat → List Nat} {es : Nat → List Element} (h : ∀ c ∈ l, d.Lists (ids c) (es c)) :
    d.Lists (l.flatMap ids) (l.flatMap es) := by
  induction l with
  | nil => exact .nil
  | cons c l ih =>
    rw [List.forall_mem_cons] at h
    rw [List.flatMap_cons, List.flatMap_cons]
    exact List.rel_append h.1 (ih h.2)

/-- The elements that are drawn are those of the nodes that are drawn. -/
theorem lists_drawn {i : Nat} (hi : d.isReached i = true) : d.Lists ((d.descendants i).filter d.draws) (d.tree i).drawn := by
  refine reached_induction hi ?_
  intro i hi hchildren
  have hundrawn : (d.content i).isDrawn = false → (d.descendants i).filter d.draws = [] := by
    intro h
    rw [filter_descendants_undrawn (fun _ => isReached_of_draws) h, draws, h, Bool.and_false]
    rfl
  rw [d.tree_eq i]
  by_cases helement : (d.content i).isElement = true
  · obtain ⟨e, hcontent⟩ := isElement_iff.mp helement
    rw [hcontent] at hchildren hundrawn ⊢
    rw [Tree.drawn]
    by_cases hspace : e.name.space.isSome = true
    · rw [if_pos hspace, hundrawn (Content.isDrawn_spaced hspace)]
      exact .nil
    · by_cases hstyle : e.is "style" = true
      · rw [if_neg hspace, if_pos hstyle, hundrawn (Content.isDrawn_style hstyle)]
        exact .nil
      · have hdrawn := Content.isDrawn_element.mpr ⟨hspace, hstyle⟩
        rw [if_neg hspace, if_neg hstyle, filter_descendants, draws, hi, hcontent, hdrawn, Tree.drawnOf_eq_flatMap,
          List.flatMap_map]
        exact .cons hcontent (lists_flatMap (hchildren hdrawn))
  · rw [hundrawn (Content.isDrawn_of_not_isElement helement), Tree.drawn_of_not_isElement helement]
    exact .nil

theorem drawn_eq_cons {e : Element} (he : d.content 0 = .element e) : d.drawn = e :: Tree.drawnOf d.root.children := by
  rw [drawn, rootElement?, Change.element?_eq_some.mpr he]
  rfl

theorem lists_drawnIds {e : Element} (he : d.content 0 = .element e) (hdrawn : (Content.element e).isDrawn = true) :
    d.Lists d.drawnIds d.drawn := by
  have hcases := Content.isDrawn_element.mp hdrawn
  have hroot : d.drawn = d.root.drawn := by
    rw [drawn_eq_cons he, root, children_tree, tree_eq, he, Tree.drawn, if_neg hcases.1, if_neg hcases.2]
  rw [hroot]
  exact lists_drawn d.isReached_root

/-! ## The owners of rules -/

def rulesOf (d : Document) (i : Nat) : List (List Declaration) := (d.element? i).elim [] Element.rules

/-- The rules that the styles of nodes make, each with the node that it belongs to. -/
def owners (d : Document) (ids : List Nat) : List (Nat × List Declaration) :=
  ids.flatMap fun i => (d.rulesOf i).map (i, ·)

/-- The rules of an image, each with the node that it belongs to. -/
def styled (d : Document) : List (Nat × List Declaration) := d.owners d.drawnIds

theorem rulesOf_eq {i : Nat} {e : Element} (he : d.content i = .element e) : d.rulesOf i = e.rules := by
  rw [rulesOf, Change.element?_eq_some.mpr he]
  rfl

theorem snd_owners {ids : List Nat} {es : List Element} (h : d.Lists ids es) :
    (d.owners ids).map Prod.snd = es.flatMap Element.rules := by
  induction h with
  | nil => rfl
  | @cons i e ids es he _ ih =>
    rw [owners, List.flatMap_cons, List.map_append, List.map_map, rulesOf_eq he, List.flatMap_cons, ← ih]
    exact congrArg (· ++ _) (List.map_id _)

theorem mem_of_mem_owners {ids : List Nat} {x : Nat × List Declaration} (h : x ∈ d.owners ids) : x.1 ∈ ids := by
  obtain ⟨i, hi, hx⟩ := List.mem_flatMap.mp h
  obtain ⟨_, _, rfl⟩ := List.mem_map.mp hx
  exact hi

/-- What a node owns stands together. -/
theorem mem_range'_iff_owner {i : Nat} {front back : List (Nat × List Declaration)} {own : List (List Declaration)}
    (hfront : ∀ x ∈ front, x.1 ≠ i) (hback : ∀ x ∈ back, x.1 ≠ i) (k : Nat) :
    k ∈ List.range' front.length own.length ↔ (front ++ (own.map (i, ·) ++ back))[k]?.map Prod.fst = some i := by
  rw [List.mem_range'_1]
  by_cases hk : k < front.length
  · rw [List.getElem?_append_left hk]
    refine iff_of_false (by omega) fun h => ?_
    obtain ⟨x, hx, heq⟩ := Option.map_eq_some_iff.mp h
    exact hfront x (List.mem_of_getElem? hx) heq
  · obtain ⟨j, rfl⟩ := Nat.exists_eq_add_of_le (Nat.le_of_not_lt hk)
    rw [List.getElem?_append_right (Nat.le_add_right _ _), Nat.add_sub_cancel_left]
    by_cases hj : j < own.length
    · rw [List.getElem?_append_left (by rwa [List.length_map]), List.getElem?_map, List.getElem?_eq_getElem hj]
      exact iff_of_true (by omega) rfl
    · rw [List.getElem?_append_right (by rw [List.length_map]; omega)]
      refine iff_of_false (by omega) fun h => ?_
      obtain ⟨x, hx, heq⟩ := Option.map_eq_some_iff.mp h
      exact hback x (List.mem_of_getElem? hx) heq

/-- The numbers of an element, from that of the first, are the places of its node among the owners. -/
theorem owns_numbersFrom {ids : List Nat} {es : List Element} (h : d.Lists ids es) (hnodup : ids.Nodup)
    {front : List (Nat × List Declaration)} (hfront : ∀ x ∈ front, x.1 ∉ ids) :
    List.Forall₂ (fun i ns => ∀ k, k ∈ ns ↔ (front ++ d.owners ids)[k]?.map Prod.fst = some i) ids
      (numbersFrom front.length es) := by
  -- `front` holds the rules that were numbered before
  induction h generalizing front with
  | nil => exact .nil
  | @cons i e ids es he _ ih =>
    rw [List.nodup_cons] at hnodup
    have howners : d.owners (i :: ids) = e.rules.map (i, ·) ++ d.owners ids := by
      rw [owners, List.flatMap_cons, rulesOf_eq he]
      rfl
    rw [howners, numbersFrom]
    refine .cons (mem_range'_iff_owner ?_ ?_) ?_
    · rintro x hx rfl
      exact hfront x hx List.mem_cons_self
    · rintro x hx rfl
      exact hnodup.1 (mem_of_mem_owners hx)
    · have hnext : (front ++ e.rules.map (i, ·)).length = front.length + e.rules.length := by
        rw [List.length_append, List.length_map]
      rw [← List.append_assoc, ← hnext]
      refine ih hnodup.2 fun x hx => ?_
      rcases List.mem_append.mp hx with hx | hx
      · exact fun hmem => hfront x hx (List.mem_cons_of_mem i hmem)
      · obtain ⟨_, _, rfl⟩ := List.mem_map.mp hx
        exact hnodup.1

theorem flatten_numbersFrom (k : Nat) (es : List Element) :
    (numbersFrom k es).flatten = List.range' k (es.flatMap Element.rules).length := by
  induction es generalizing k with
  | nil => rfl
  | cons e es ih =>
    rw [numbersFrom, List.flatten_cons, ih, List.range'_append_1, List.flatMap_cons, List.length_append]

/-- If no element has two style attributes, the elements with a style own one rule each. -/
theorem styled_of_nodup (h : ∀ i ∈ d.drawnIds, ∀ e, d.content i = .element e → (e.attributes.map (·.name.full)).Nodup) :
    d.styled = d.drawnIds.filterMap fun i => ((d.element? i).bind Element.rule?).map (i, ·) := by
  rw [styled, owners, List.filterMap_eq_flatMap_toList]
  refine List.flatMap_congr fun i hi => ?_
  cases he : d.element? i with
  | none =>
    rw [rulesOf, he]
    rfl
  | some e =>
    have hcontent := Change.element?_eq_some.mp he
    rw [rulesOf_eq hcontent, Element.rules_of_nodup (h i hi e hcontent), Option.bind_some]
    cases e.rule? <;> rfl

/-! ## Style elements -/

/-- The node is reached, and a style element. -/
def styles (d : Document) (i : Nat) : Bool := d.isReached i && (d.element? i).any (·.is "style")

/-- The style elements that are reached, in document order. -/
def styleIds (d : Document) : List Nat := (d.descendants 0).filter d.styles

/-- The text of a style element, if it is not blank. -/
def styleBlock (d : Document) (i : Nat) : List (List Char) :=
  if Text.allBlank (d.textContent i) then [] else [Text.trim (d.textContent i).toList]

theorem isReached_of_styles {i : Nat} (h : d.styles i = true) : d.isReached i = true := by
  rw [styles, Bool.and_eq_true] at h
  exact h.1

theorem styles_of_isDrawn {i : Nat} (h : (d.content i).isDrawn = true) : d.styles i = false := by
  rw [styles, Forest.element?]
  cases hcontent : d.content i with
  | element e =>
    rw [hcontent] at h
    rw [Content.element?, Option.any_some, Bool.eq_false_iff.mpr (Content.isDrawn_element.mp h).2, Bool.and_false]
  | _ => exact Bool.and_false _

end Document

end SvgComponent.Markup

namespace SvgComponent.Jsx

open Markup (Document Content Element)
open Style (Sheet)

variable {r : Rules} {d : Document}

theorem mem_numbers_iff {tokens : List ClassToken} {k : Nat} :
    k ∈ tokens.filterMap ClassToken.number? ↔ .extracted k ∈ tokens := by
  rw [List.mem_filterMap]
  constructor
  · intro h
    obtain ⟨t, ht, hk⟩ := h
    cases t with
    | literal name => cases hk
    | extracted j =>
      cases hk
      exact ht
  · exact fun h => ⟨.extracted k, h, rfl⟩

/-! ## What goes to the sheet and to the markup -/

theorem blocks_parts (r : Rules) (root : Bool) (as : List Markup.Attribute) (sheet : Sheet) :
    (parts r root as sheet).2.blocks = sheet.blocks := by
  induction as generalizing sheet with
  | nil => rfl
  | cons a as ih =>
    rw [parts_cons]
    dsimp only
    rw [ih]
    split
    · unfold stylePart
      split_ifs <;> rfl
    · rfl

theorem blocks_convertAll {cs : List Nat} {block : Nat → List (List Char)}
    (h : ∀ c ∈ cs, ∀ sheet, (convert r (d.tree c) sheet).2.blocks = sheet.blocks ++ block c) (sheet : Sheet) :
    (convertAll r (cs.map d.tree) sheet).2.blocks = sheet.blocks ++ cs.flatMap block := by
  induction cs generalizing sheet with
  | nil => exact (List.append_nil _).symm
  | cons c cs ih =>
    rw [List.forall_mem_cons] at h
    rw [List.map_cons, convertAll_cons, ih h.2, h.1, List.append_assoc, List.flatMap_cons]

theorem convert_of_not_isElement {c : Content} (h : ¬ c.isElement = true) (i : Nat) (ts : List Markup.Tree) (sheet : Sheet) :
    (convert r (.node i c ts) sheet).2 = sheet := by
  cases c with
  | element e => exact absurd rfl h
  | _ => rw [convert]

/-- The texts of the reached style elements that are not blank go to the sheet in document order. -/
theorem blocks_convert (hr : r.extractStylesheet = true) {i : Nat} (hi : d.isReached i = true) : ∀ sheet : Sheet,
    (convert r (d.tree i) sheet).2.blocks = sheet.blocks ++ ((d.descendants i).filter d.styles).flatMap d.styleBlock := by
  refine Document.reached_induction hi ?_
  intro i hi hchildren sheet
  have hstyles : d.styles i = (d.content i).element?.any (·.is "style") := by
    rw [Document.styles, hi, Bool.true_and]
    rfl
  have hundrawn : (d.content i).isDrawn = false → ((d.descendants i).filter d.styles).flatMap d.styleBlock =
      if d.styles i then d.styleBlock i else [] := by
    intro h
    rw [Document.filter_descendants_undrawn (fun _ => Document.isReached_of_styles) h]
    split
    · exact List.flatMap_singleton ..
    · rfl
  have htext : d.textContent i = (d.tree i).textContent := rfl
  rw [d.tree_eq i] at htext ⊢
  by_cases helement : (d.content i).isElement = true
  · obtain ⟨e, hcontent⟩ := Markup.isElement_iff.mp helement
    rw [hcontent] at htext hchildren hundrawn hstyles ⊢
    by_cases hspace : e.name.space.isSome = true
    · have hnone : d.styles i = false := by
        rw [hstyles, Content.element?, Option.any_some, Element.is, Markup.Name.is, ← Option.not_isSome, hspace]
        rfl
      rw [convert_spaced _ sheet hspace, hundrawn (Content.isDrawn_spaced hspace), hnone]
      exact (List.append_nil _).symm
    · by_cases hstyle : e.is "style" = true
      · have hsome : d.styles i = true := by rwa [hstyles, Content.element?, Option.any_some]
        rw [convert_style _ sheet hspace hstyle, hundrawn (Content.isDrawn_style hstyle), hsome, ← htext, styleElement,
          if_pos hr, Document.styleBlock, Text.isEmpty_trim]
        cases Text.allBlank (d.textContent i) with
        | true => exact (List.append_nil _).symm
        | false => rfl
      · have hdrawn := Content.isDrawn_element.mpr ⟨hspace, hstyle⟩
        have hnone : d.styles i = false := Document.styles_of_isDrawn (hcontent ▸ hdrawn)
        rw [convert_drawn _ sheet hspace hstyle, Document.filter_descendants, hnone]
        refine (blocks_convertAll (hchildren hdrawn) _).trans ?_
        rw [blocks_parts, ← List.flatMap_assoc]
        rfl
  · have hnone : d.styles i = false := by
      rw [hstyles, Option.not_isSome_iff_eq_none.mp helement]
      rfl
    rw [convert_of_not_isElement helement, hundrawn (Markup.Content.isDrawn_of_not_isElement helement), hnone]
    exact (List.append_nil _).symm

section

variable (hr : r.extractStylesheet = true) {e : Element} (he : d.content 0 = .element e)
  (hdrawn : (Content.element e).isDrawn = true)

include hr he hdrawn

/-- The blocks of the sheet are the texts of the reached style elements that are not blank. -/
theorem blocks_convertRoot : (convertRoot r e d.root.children).2.blocks = d.styleIds.flatMap d.styleBlock := by
  have hreached : ∀ c ∈ d.children 0, d.isReached c = true := fun c hc =>
    Document.isReached_of_drawn hc (he ▸ hdrawn) d.isReached_root
  have hnone : d.styles 0 = false := Document.styles_of_isDrawn (he ▸ hdrawn)
  rw [Document.root, Document.children_tree, Document.styleIds, Document.filter_descendants, hnone]
  refine (blocks_convertAll (fun c hc => blocks_convert hr (hreached c hc)) _).trans ?_
  rw [blocks_parts, ← List.flatMap_assoc]
  rfl

/-- The rules of the sheet are the rules of the image, in document order. -/
theorem rules_convertRoot : (convertRoot r e d.root.children).2.rules = d.styled.map Prod.snd := by
  rw [(convertRoot_extract hr e d.root.children).1, ← Document.drawn_eq_cons he]
  exact (Document.snd_owners (Document.lists_drawnIds he hdrawn)).symm

/-- An element of the markup refers to the rules that its node owns. -/
theorem owners_convertRoot :
    List.Forall₂ (fun i tokens => ∀ k, ClassToken.extracted k ∈ tokens ↔ d.styled[k]?.map Prod.fst = some i) d.drawnIds
      (convertRoot r e d.root.children).1.classTokens := by
  have hbinds := (convertRoot_extract hr e d.root.children).2
  rw [← Document.drawn_eq_cons he] at hbinds
  have hnodup : d.drawnIds.Nodup := (d.nodup_descendants 0).filter _
  have hfront : ∀ x ∈ ([] : List (Nat × List Style.Declaration)), x.1 ∉ d.drawnIds := fun x hx =>
    absurd hx List.not_mem_nil
  have howns := Document.owns_numbersFrom (Document.lists_drawnIds he hdrawn) hnodup hfront
  rw [List.length_nil, ← hbinds.numbers, List.forall₂_map_right_iff] at howns
  refine howns.imp fun i tokens h k => ?_
  rw [← mem_numbers_iff, h, List.nil_append]
  rfl

/-- The markup refers to each rule once, and in the order of their numbers. -/
theorem numbers_convertRoot : (convertRoot r e d.root.children).1.classTokens.flatten.filterMap ClassToken.number? =
    List.range d.styled.length := by
  obtain ⟨hrules, hbinds⟩ := convertRoot_extract hr e d.root.children
  rw [rules_convertRoot hr he hdrawn] at hrules
  have hlength := congrArg List.length hrules
  rw [List.length_map] at hlength
  rw [List.filterMap_flatten, hbinds.numbers, Document.flatten_numbersFrom, ← hlength, List.range_eq_range']

end

end SvgComponent.Jsx
