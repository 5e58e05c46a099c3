/-
  SvgComponent.Proofs.Markup.Unambiguous — what the written form of an element says about what is in it.

  The form of a legible element is read in one way only, so elements that are written alike are the same but for where
  text is cut in two (`joined_of_written`). Cutting text makes no element and takes none away (`elements_joined`): what is written
  alike holds the same elements, with the same forms, in the same order. Names without marks, and a name or an
  attribute in every tag, make a document legible (`isLegible_of_plain`).
-/

import SvgComponent.Proofs.Markup.Stable

namespace SvgComponent.Markup

open Event (written joinTexts)
open Outline (AllOf joinAll)

/-! ## Forms that are read in one way -/

/-- Elements that are written alike are the same, but for text that stands side by side or is empty. -/
theorem joined_of_written {e e' : Element} {ts ts' : List Outline} (h : (Outline.node (.element e) ts).All Readable)
    (h' : (Outline.node (.element e') ts').All Readable)
    (heq : (Outline.node (.element e) ts).events.flatMap written =
      (Outline.node (.element e') ts').events.flatMap written) :
    (Outline.node (.element e) ts).joined = (Outline.node (.element e') ts').joined := by
  have hscan := Stream.scan_written (delimited_events h)
  rw [heq, Stream.scan_written (delimited_events h')] at hscan
  obtain ⟨d, hd, ho⟩ := Builder.document_root (spellsRoot_joinTexts h)
  obtain ⟨d', hd', ho'⟩ := Builder.document_root (spellsRoot_joinTexts h')
  rw [hscan, hd] at hd'
  cases hd'
  exact ho.symm.trans ho'

/-! ## The elements of an outline -/

namespace Outline

mutual

/-- The elements in an outline, each before what is in it. -/
def elements : Outline → List Outline
  | node c ts => if c.isElement then node c ts :: elementsOf ts else elementsOf ts

def elementsOf : List Outline → List Outline
  | [] => []
  | t :: ts => elements t ++ elementsOf ts

end

theorem elementsOf_eq_flatMap (ts : List Outline) : elementsOf ts = ts.flatMap elements := by
  induction ts with
  | nil => rfl
  | cons t ts ih => rw [elementsOf, ih, List.flatMap_cons]

theorem elementsOf_addText (s : String) (ts : List Outline) : elementsOf (addText s ts) = elementsOf ts := by
  unfold addText
  split
  · rfl
  · split
    · rfl
    · rfl

/-- Where text is cut makes no difference to the elements. -/
theorem elementsOf_joinAll : ∀ {ts : List Outline}, AllOf WasRead ts →
    elementsOf (joinAll ts) = (elementsOf ts).map joined
  | [], _ => rfl
  | .node c us :: ts, ⟨⟨hc, hus⟩, hts⟩ => by
    have ih := elementsOf_joinAll hts
    have ih' := elementsOf_joinAll hus
    rw [elementsOf, List.map_append, ← ih]
    cases c with
    | element e =>
      show elementsOf (.node (.element e) (joinAll us) :: joinAll ts) = _
      rw [elementsOf, elements, elements, ih']
      rfl
    | text s =>
      obtain ⟨rfl, _⟩ := hc
      exact elementsOf_addText s (joinAll ts)
    | comment s =>
      obtain ⟨rfl, _⟩ := hc
      rfl
    | cdata s =>
      obtain ⟨rfl, _⟩ := hc
      rfl

theorem elements_joined {e : Element} {ts : List Outline} (h : (node (.element e) ts).All WasRead) :
    (node (.element e) ts).joined.elements = (node (.element e) ts).elements.map joined := by
  have hall : AllOf WasRead [node (.element e) ts] := ⟨h, trivial⟩
  have := elementsOf_joinAll hall
  simpa [elementsOf, joinAll, put, joined] using this

end Outline

namespace Document

variable {d d' : Document}

/-- The elements in the outline of a node are those below it. -/
theorem elements_outline (d : Document) (i : Nat) :
    (d.outline i).elements = ((d.descendants i).filter fun m => (d.content m).isElement).map d.outline := by
  have ih : Outline.elementsOf ((d.children i).map d.outline) =
      (((d.children i).flatMap d.descendants).filter fun m => (d.content m).isElement).map d.outline := by
    rw [Outline.elementsOf_eq_flatMap, List.flatMap_map, List.filter_flatMap, List.map_flatMap]
    refine List.flatMap_congr fun c hc => ?_
    have hlt := d.linked.lt_of_mem_children hc
    have hsize := d.linked.mem_children_lt_size hc
    exact elements_outline d c
  rw [outline_eq, Outline.elements, ih, descendants_eq, List.filter_cons]
  split
  · rw [List.map_cons, outline_eq d i]
  · rfl
termination_by d.size - i

theorem mem_elements_outline {i : Nat} {o : Outline} : o ∈ (d.outline i).elements ↔
    ∃ k, d.Below i k ∧ ∃ e, d.content k = .element e ∧ d.outline k = o := by
  rw [elements_outline, List.mem_map]
  simp only [List.mem_filter, mem_descendants_iff, isElement_iff, and_assoc, exists_and_right]

/-- No other element hangs below it. -/
def IsLeaf (d : Document) (i : Nat) : Prop := ∀ m ∈ d.descendants i, (d.content m).isElement = true → m = i

instance (d : Document) (i : Nat) : Decidable (d.IsLeaf i) :=
  inferInstanceAs (Decidable (∀ m ∈ d.descendants i, (d.content m).isElement = true → m = i))

theorem isLeaf_iff {i : Nat} (he : (d.content i).isElement = true) :
    d.IsLeaf i ↔ (d.outline i).elements.length = 1 := by
  have hbelow : ∀ m ∈ (d.children i).flatMap d.descendants, m ≠ i := by
    intro m hm
    obtain ⟨c, hc, hcm⟩ := List.mem_flatMap.mp hm
    have hlt := d.linked.lt_of_mem_children hc
    have hle := (mem_descendants_iff.mp hcm).le
    omega
  rw [elements_outline, List.length_map, descendants_eq, List.filter_cons, if_pos he, List.length_cons,
    Nat.add_eq_right, List.length_eq_zero_iff, List.filter_eq_nil_iff]
  unfold IsLeaf
  rw [descendants_eq, List.forall_mem_cons]
  constructor
  · intro h m hm hme
    exact hbelow m hm (h.2 m hm hme)
  · intro h
    exact ⟨fun _ => rfl, fun m hm hme => absurd hme (h m hm)⟩

end Document

/-! ## Names that make an element legible -/

def Element.IsPlain (e : Element) : Prop := e.name.IsPlain ∧ ∀ a ∈ e.attributes, a.name.IsPlain

instance (e : Element) : Decidable e.IsPlain :=
  inferInstanceAs (Decidable (e.name.IsPlain ∧ ∀ a ∈ e.attributes, a.name.IsPlain))

/-- Nothing stands in the tag of the element. -/
def Element.IsBare (e : Element) : Prop := e.name.full = "" ∧ e.attributes = []

instance (e : Element) : Decidable e.IsBare := inferInstanceAs (Decidable (e.name.full = "" ∧ e.attributes = []))

/-- An element with plain names is legible with children and without, if its tag is not empty. -/
theorem isLegible_of_plain {e : Element} (h : e.IsPlain) (hb : ¬ e.IsBare) (leaf : Bool) :
    (Content.element e).IsLegible leaf := by
  refine ⟨(closed_of_inert h.1.inert).append (closed_attributes fun a ha => closed_attribute (h.2 a ha).inert), ?_⟩
  by_cases hnil : e.attributes = []
  · have hcontent : e.content = e.name.full.toList := by
      rw [Element.content, hnil, List.flatMap_nil, List.append_nil]
    rw [hcontent]
    split
    · intro hempty
      exact hb ⟨String.toList_eq_nil_iff.mp hempty, hnil⟩
    · intro hlast
      exact h.1 '/' (List.mem_of_getLast? hlast) (by decide)
  · have hlast := getLast_content hnil
    split
    · intro hempty
      rw [hempty] at hlast
      cases hlast
    · rw [hlast]
      decide

end SvgComponent.Markup
