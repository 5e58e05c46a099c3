/-
  SvgComponent.Proofs.Markup.Reading — what holds of every document that was read.

  Whatever the text, a name that was read hides its brackets, and a name that stood alone in a tag is closed
  (`WasRead`). Nothing of this says that the document can be read again once it is written.
-/

import SvgComponent.Proofs.Markup.RoundTrip

namespace SvgComponent.Markup

open Event (IsCut BeginsTag)
open Outline (AllOf)

/-- What the tag says of an element that it was read from. -/
structure Element.WasRead (e : Element) : Prop where
  spelled : e.Spelled
  begins : BeginsTag e.content
  hides : HidesBrackets e.name.full.toList
  bare : e.attributes = [] → IsClosed e.name.full.toList

/-- What holds of a node that was read, with its children. -/
def WasRead : Content → List Outline → Prop
  | .element e, ts => e.WasRead ∧ (ts ≠ [] → IsClosed e.name.full.toList)
  | .text s, ts => ts = [] ∧ s ≠ ""
  | .comment s, ts => ts = [] ∧ ¬ ['-', '-', '>'] <:+: s.toList
  | .cdata s, ts => ts = [] ∧ ¬ [']', ']', '>'] <:+: s.toList

theorem element_wasRead {content : List Char} {e : Element} (read : TagAttributes.element content = .ok e)
    (hc : IsClosed content) (hb : BeginsTag content) : e.WasRead := by
  have hsplit : Stream.tagName content ++ content.dropWhile (!isSpace ·) = content :=
    List.takeWhile_append_dropWhile
  have hfull := full_of_element read
  refine ⟨spelled_of_element read, ?_, ?_, ?_⟩
  · intro c hmem
    rw [Element.content, hfull] at hmem
    cases hname : Stream.tagName content with
    | nil =>
      rw [hname] at hmem
      cases has : e.attributes with
      | nil =>
        rw [has] at hmem
        cases hmem
      | cons a as =>
        rw [has] at hmem
        cases hmem
        decide
    | cons d s =>
      rw [hname] at hmem hsplit
      apply hb c
      rw [← hsplit]
      exact hmem
  · rw [hfull]
    rw [← hsplit] at hc
    exact hc.hides.of_append
  · intro hnil
    rcases TagAttributes.read_ok (element_ok read).2 with ⟨hblank, _⟩ | ⟨a, as, rest, k, raw, hcons, _⟩
    · rw [List.dropWhile_eq_nil_iff] at hblank
      rw [hfull]
      rw [← hsplit] at hc
      exact (closed_append_inert fun c hc => isInert_of_isSpace (hblank c hc)).mp hc
    · rw [hnil] at hcons
      cases hcons

theorem wasRead_spells {es : List Event} {ts : List Outline} (h : Spells es ts) (hes : ∀ e ∈ es, e.IsCut) :
    AllOf WasRead ts := by
  induction h with
  | nil => trivial
  | skipped h ih => exact ih fun e he => hes e (List.mem_cons_of_mem _ he)
  | @text es ts raw s read h ih =>
    obtain ⟨_, hne⟩ := hes _ List.mem_cons_self
    refine ⟨⟨⟨rfl, ?_⟩, trivial⟩, ih fun e he => hes e (List.mem_cons_of_mem _ he)⟩
    intro hs
    rw [← String.toList_eq_nil_iff, String.toList_ofList] at hs
    subst hs
    exact hne (by rw [eq_nil_of_expandEnd read])
  | comment s h ih =>
    have hd := (hes _ List.mem_cons_self).1.resolve_left (by simp)
    refine ⟨⟨⟨rfl, ?_⟩, trivial⟩, ih fun e he => hes e (List.mem_cons_of_mem _ he)⟩
    rwa [String.toList_ofList]
  | cdata s h ih =>
    have hd := (hes _ List.mem_cons_self).1.resolve_left (by simp)
    refine ⟨⟨⟨rfl, ?_⟩, trivial⟩, ih fun e he => hes e (List.mem_cons_of_mem _ he)⟩
    rwa [String.toList_ofList]
  | empty read h ih =>
    obtain ⟨hc, hb, _⟩ := (hes _ List.mem_cons_self).1.resolve_left (by simp)
    exact ⟨⟨⟨element_wasRead read hc hb, fun h => absurd rfl h⟩, trivial⟩,
      ih fun e he => hes e (List.mem_cons_of_mem _ he)⟩
  | element read inside h ih₁ ih₂ =>
    rw [List.forall_mem_cons, List.forall_mem_append, List.forall_mem_cons] at hes
    obtain ⟨hstart, hinside, hfinish, hrest⟩ := hes
    obtain ⟨hc, hb, _⟩ := hstart.1.resolve_left (by simp)
    obtain ⟨hname, _⟩ := hfinish.1.resolve_left (by simp)
    rw [← full_of_element read] at hname
    exact ⟨⟨⟨element_wasRead read hc hb, fun _ => hname⟩, ih₁ hinside⟩, ih₂ hrest⟩

theorem wasRead_root {es : List Event} {o : Outline} (h : SpellsRoot es o) (hes : ∀ e ∈ es, e.IsCut) :
    o.All WasRead := by
  cases h with
  | empty read => exact (wasRead_spells (.empty read .nil) hes).1
  | element read inside => exact (wasRead_spells (.element read inside .nil) hes).1

/-- A text that was read, in pieces. -/
structure Parsed (s : List Char) (d : Document) where
  pieces : List Event
  cuts : Event.Cuts (if s.head? = some '\uFEFF' then s.drop 1 else s) pieces
  apart : Event.Apart pieces
  whole : Builder.Whole pieces d
  valid : d.validate = .ok d

theorem parsed_of_parse {s : String} {d : Document} (h : Document.parse s = .ok d) : Nonempty (Parsed s.toList d) := by
  unfold Document.parse at h
  cases hd : (Stream.ofText s.toList).document with
  | error f => rw [hd] at h; cases h
  | ok d' =>
    rw [hd] at h
    obtain rfl := validate_ok h
    have hfault : (Stream.ofText s.toList).fault = none := by
      unfold Stream.document at hd
      cases hrun : (Stream.ofText s.toList).events.foldlM Builder.step Builder.start with
      | error f => simp [hrun, bind, Except.bind] at hd
      | ok b =>
        simp only [hrun, bind, Except.bind] at hd
        split at hd
        · cases hd
        · assumption
    unfold Stream.ofText at hd hfault
    obtain ⟨hscan, hm⟩ := Stream.matched_of_matchTags hfault
    rw [Stream.matchTags_of_matched hm, hscan] at hd
    obtain ⟨hw⟩ := whole_of_document hd hm
    exact ⟨⟨_, Stream.cuts_scan _ hscan, Stream.apart_scan _, hw, h⟩⟩

/-- Every node of a document that was read was read. -/
theorem wasRead_of_parse {s : String} {d : Document} (h : Document.parse s = .ok d) : d.root.outline.All WasRead := by
  obtain ⟨⟨es, cuts, _, ⟨before, root, after, o, rfl, _, hs, ho⟩, _⟩⟩ := parsed_of_parse h
  have hcut := cuts.isCut
  rw [show d.root.outline = o from ho]
  exact wasRead_root hs fun e he => hcut e (by simp [he])

/-- Only elements have children. -/
theorem element_of_mem_children {d : Document} {p c : Nat} (h : (d.outline p).All WasRead) (hc : c ∈ d.children p) :
    ∃ e, d.content p = .element e := by
  have hp := Document.all_outline_iff_below.mp h p (.refl d p)
  have hne : (d.children p).map d.outline ≠ [] := List.ne_nil_of_mem (List.mem_map_of_mem hc)
  cases hcontent : d.content p with
  | element e => exact ⟨e, rfl⟩
  | _ =>
    rw [hcontent] at hp
    exact absurd hp.1 hne

/-- What holds of the document that a given text is read as can be computed. -/
instance (s : String) (p : Document → Prop) [DecidablePred p] : Decidable (∃ d, Document.parse s = .ok d ∧ p d) :=
  decidable_of_iff ((Document.parse s).toOption.any fun d => decide (p d)) <| by
    cases Document.parse s with
    | error f => simp [Except.toOption]
    | ok d => simp [Except.toOption]

/-- The same for a text whose characters are known. To read them off a literal takes most of the time otherwise. -/
theorem exists_parse {s : String} {cs : List Char} (hs : s.toList = cs) {p : Document → Prop} [DecidablePred p]
    (h : ((Stream.ofText cs).document >>= Document.validate).toOption.any (fun d => decide (p d)) = true) :
    ∃ d, Document.parse s = .ok d ∧ p d := by
  subst hs
  change (Document.parse s).toOption.any _ = true at h
  cases hparse : Document.parse s with
  | error f =>
    rw [hparse] at h
    cases h
  | ok d =>
    rw [hparse] at h
    exact ⟨d, rfl, of_decide_eq_true h⟩

end SvgComponent.Markup
