/-
  SvgComponent.Proofs.Clean.Forms — what elements with one written form have in common.

  The tag of an element with attributes is found in every written form that is equal (`exists_same_tag`), so that
  equal forms carry the same ids. A form is longer than the forms inside it (`length_form_lt`): what has the form of
  another node hangs not below that one.
-/

import Mathlib.Algebra.GroupWithZero.Nat
import Mathlib.Algebra.Order.BigOperators.Group.List
import Mathlib.Algebra.Order.Group.Nat
import SvgComponent.Proofs.Clean.References
import SvgComponent.Proofs.Markup.Pieces

namespace SvgComponent.Markup

open Event (written joinTexts)
open Outline (eventsOf)

/-! ## Tags -/

/-- What a start tag or an empty one says. -/
def Event.tag? : Event → Option (List Char)
  | start content => some content
  | empty content => some content
  | _ => none

theorem mem_eventsOf {f : Event} {ts : List Outline} : f ∈ eventsOf ts ↔ ∃ t ∈ ts, f ∈ t.events := by
  induction ts with
  | nil => simp [eventsOf]
  | cons t ts ih => simp [eventsOf, ih]

variable {d d' : Document}

/-- Every element is written with its tag. -/
theorem tag_mem_events {i k : Nat} {e : Element} (hr : (d.outline i).All WasRead) (h : d.Below i k)
    (he : d.content k = .element e) : ∃ f ∈ (d.outline i).events, f.tag? = some e.content := by
  induction h using Relation.ReflTransGen.head_induction_on with
  | refl =>
    rw [Document.outline_eq, he]
    by_cases hnil : (d.children k).map d.outline = []
    · rw [hnil]
      exact ⟨.empty e.content, List.mem_cons_self, rfl⟩
    · rw [Outline.events_element e hnil]
      exact ⟨.start e.content, List.mem_cons_self, rfl⟩
  | @head i c hc _ ih =>
    obtain ⟨f, hmem, htag⟩ := ih (all_below hr (Document.below_of_mem_children hc))
    obtain ⟨e', he'⟩ := element_of_mem_children hr hc
    have hne : (d.children i).map d.outline ≠ [] := List.ne_nil_of_mem (List.mem_map_of_mem hc)
    refine ⟨f, ?_, htag⟩
    rw [Document.outline_eq, he', Outline.events_element e' hne]
    refine List.mem_cons_of_mem _ (List.mem_append_left _ ?_)
    exact mem_eventsOf.mpr ⟨d.outline c, List.mem_map_of_mem hc, hmem⟩

/-- Every tag that is written is an element's. -/
theorem element_of_tag {i : Nat} {f : Event} {content : List Char} (hmem : f ∈ (d.outline i).events)
    (htag : f.tag? = some content) : ∃ k e, d.Below i k ∧ d.content k = .element e ∧ content = e.content := by
  rw [Document.outline_eq] at hmem
  cases hc : d.content i with
  | element e =>
    rw [hc] at hmem
    by_cases hnil : (d.children i).map d.outline = []
    · rw [hnil] at hmem
      obtain rfl := List.mem_singleton.mp hmem
      exact ⟨i, e, .refl d i, hc, (Option.some.inj htag).symm⟩
    · rw [Outline.events_element e hnil, List.mem_cons, List.mem_append, List.mem_singleton] at hmem
      rcases hmem with rfl | hmem | rfl
      · exact ⟨i, e, .refl d i, hc, (Option.some.inj htag).symm⟩
      · obtain ⟨t, ht, hmem⟩ := mem_eventsOf.mp hmem
        obtain ⟨c, hchild, rfl⟩ := List.mem_map.mp ht
        have hlt := d.linked.lt_of_mem_children hchild
        have hsize := d.linked.mem_children_lt_size hchild
        obtain ⟨k, e', hk, he'⟩ := element_of_tag hmem htag
        exact ⟨k, e', (Document.below_of_mem_children hchild).trans hk, he'⟩
      · cases htag
  | _ =>
    rw [hc] at hmem
    obtain rfl := List.mem_singleton.mp hmem
    cases htag
termination_by d.size - i

/-- A piece that is written like a tag with attributes is a tag with the same. -/
theorem tag_of_written {f : Event} {e : Element} (hf : f.Formed) (hr : e.WasRead) (hne : e.attributes ≠ [])
    {z : List Char} (hz : z = [] ∨ z = ['/']) (h : f.written = '<' :: (e.content ++ (z ++ ['>']))) :
    ∃ content, f.tag? = some content ∧ ∀ e' : Element, e'.WasRead → e'.content = content →
      e'.attributes = e.attributes := by
  have hhead : ∀ x, (e.content ++ (z ++ ['>'])) ≠ '!' :: x := by
    intro x
    have := tag_ne_declaration (x := []) (y := x) (head_content hr hz) (Or.inl rfl)
    rwa [List.append_assoc] at this
  -- a tag that is written like this one has attributes too, and they are the same
  have htag : ∀ {e' : Element} (z' : List Char), e'.WasRead → z' = [] ∨ z' = ['/'] →
      e'.content ++ (z' ++ ['>']) = e.content ++ (z ++ ['>']) → e'.attributes = e.attributes := by
    intro e' z' hr' hz' heq
    by_cases hnil : e'.attributes = []
    · obtain ⟨hc, hb⟩ := bare_content hr' hnil hz'
      rw [← List.append_assoc] at heq
      exact absurd heq (bare_ne_rich hc hb hr hne)
    · exact (rich_unique hr' hr hnil hne hz' hz heq).2
  cases f with
  | text raw =>
    rw [written] at h
    exact absurd rfl (hf.2 '<' (by rw [h]; exact List.mem_cons_self))
  | start content =>
    refine ⟨content, rfl, ?_⟩
    intro e' hr' heq₁
    subst heq₁
    exact htag [] hr' (Or.inl rfl) (List.cons.inj h).2
  | empty content =>
    refine ⟨content, rfl, ?_⟩
    intro e' hr' heq₁
    subst heq₁
    exact htag ['/'] hr' (Or.inr rfl) (List.cons.inj h).2
  | finish name =>
    have hc : IsClosed ('/' :: name) := (closed_cons_inert (by decide) name).mpr hf.1
    have hb : ∀ c ∈ '/' :: name, isSpace c = false := by
      rw [List.forall_mem_cons]
      exact ⟨rfl, hf.2⟩
    exact absurd (List.cons.inj h).2 (bare_ne_rich (x := []) hc hb hr hne)
  | comment s => exact absurd (List.cons.inj h).2.symm (hhead _)
  | cdata s => exact absurd (List.cons.inj h).2.symm (hhead _)
  | skipped => exact hf.elim

theorem form_eq_written (d : Document) (i : Nat) :
    (d.nodeMarkup i).toList = (joinTexts (d.outline i).events).flatMap written := by
  rw [Document.nodeMarkup, String.toList_ofList, markup_eq_written, Event.written_joinTexts]
  rfl

theorem wasRead_of_below {i k : Nat} {e : Element} (hr : (d.outline i).All WasRead) (hk : d.Below i k)
    (he : d.content k = .element e) : e.WasRead := by
  have := Document.all_outline_iff_below.mp hr k hk
  rw [he] at this
  exact this.1

/-- In an equal form every element with attributes has a counterpart with the same attributes. -/
theorem exists_same_tag {i j k : Nat} {e : Element} (hr : (d.outline i).All WasRead) (hr' : (d'.outline j).All WasRead)
    (h : d.nodeMarkup i = d'.nodeMarkup j) (hk : d.Below i k) (he : d.content k = .element e)
    (hne : e.attributes ≠ []) :
    ∃ k' e', d'.Below j k' ∧ d'.content k' = .element e' ∧ e'.attributes = e.attributes := by
  have hform := congrArg String.toList h
  rw [form_eq_written, form_eq_written] at hform
  have hpieces := written_unique (formed_joinTexts (formed_events hr)) (formed_joinTexts (formed_events hr'))
    (apart_joinTexts _) (apart_joinTexts _) hform
  obtain ⟨f, hmem, htag⟩ := tag_mem_events hr hk he
  have hz : f.isText = false ∧ ∃ z, (z = [] ∨ z = ['/']) ∧ f.written = '<' :: (e.content ++ (z ++ ['>'])) := by
    cases f with
    | start content =>
      cases htag
      exact ⟨rfl, [], Or.inl rfl, rfl⟩
    | empty content =>
      cases htag
      exact ⟨rfl, ['/'], Or.inr rfl, rfl⟩
    | _ => cases htag
  obtain ⟨htext, z, hz, hwritten⟩ := hz
  have hin : f.written ∈ (joinTexts (d'.outline j).events).map written := by
    rw [← hpieces]
    exact List.mem_map_of_mem ((Event.mem_joinTexts htext).mpr hmem)
  obtain ⟨g, hg, heq⟩ := List.mem_map.mp hin
  obtain ⟨content, hcontent, hsame⟩ := tag_of_written (formed_joinTexts (formed_events hr') g hg)
    (wasRead_of_below hr hk he) hne hz (heq.trans hwritten)
  have hgtext : g.isText = false := by
    cases g with
    | text raw => cases hcontent
    | _ => rfl
  obtain ⟨k', e', hk', he', rfl⟩ := element_of_tag ((Event.mem_joinTexts hgtext).mp hg) hcontent
  exact ⟨k', e', hk', he', hsame e' (wasRead_of_below hr' hk' he') rfl⟩

/-! ## Lengths -/

theorem length_form (d : Document) (i : Nat) :
    (d.nodeMarkup i).length = ((d.outline i).events.flatMap written).length := by
  rw [Document.nodeMarkup, String.length_ofList, markup_eq_written]
  rfl

theorem length_eventsOf (ts : List Outline) :
    ((eventsOf ts).flatMap written).length = (ts.map fun t => (t.events.flatMap written).length).sum := by
  induction ts with
  | nil => rfl
  | cons t ts ih => rw [eventsOf, List.flatMap_append, List.length_append, ih, List.map_cons, List.sum_cons]

theorem length_form_element {i : Nat} {e : Element} (he : d.content i = .element e) (hne : d.children i ≠ []) :
    (d.nodeMarkup i).length = e.content.length + 2 + ((d.children i).map fun c => (d.nodeMarkup c).length).sum +
      (e.name.full.toList.length + 3) := by
  have hsum : ((eventsOf ((d.children i).map d.outline)).flatMap written).length =
      ((d.children i).map fun c => (d.nodeMarkup c).length).sum := by
    rw [length_eventsOf, List.map_map]
    congr 1
    exact List.map_congr_left fun c _ => (length_form d c).symm
  rw [length_form, Document.outline_eq, he, Outline.events_element e (by simpa using hne), List.flatMap_cons,
    List.flatMap_append, List.length_append, List.length_append, hsum]
  simp [written]
  omega

theorem length_form_lt_parent {p c : Nat} {e : Element} (he : d.content p = .element e) (hc : c ∈ d.children p) :
    (d.nodeMarkup c).length < (d.nodeMarkup p).length := by
  rw [length_form_element he (List.ne_nil_of_mem hc)]
  have := List.single_le_sum (l := (d.children p).map fun c => (d.nodeMarkup c).length) (by simp) _
    (List.mem_map_of_mem hc)
  omega

/-- What hangs below a node has a shorter form. -/
theorem length_form_lt {i j : Nat} (hr : (d.outline i).All WasRead) (h : d.Below i j) (hne : i ≠ j) :
    (d.nodeMarkup j).length < (d.nodeMarkup i).length := by
  induction h with
  | refl => exact absurd rfl hne
  | @tail p c hip hc ih =>
    obtain ⟨e, he⟩ := element_of_mem_children (all_below hr hip) hc
    have hlt := length_form_lt_parent he hc
    by_cases hp : i = p
    · rwa [hp]
    · exact Nat.lt_trans hlt (ih hp)

end SvgComponent.Markup
