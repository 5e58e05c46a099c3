/-
  SvgComponent.Proofs.Markup.RoundTrip — parsing undoes writing.

  Pieces of an outline that is `Readable` are cut out of its written form again and spell it, with adjacent text
  joined (`parse_of_readable`). Names that are single words without markup make every outline readable
  (`parse_markup`).
-/

import SvgComponent.Proofs.Markup.Nesting

namespace SvgComponent.Markup

open Event (joinTexts)
open Outline (eventsOf joinAll AllOf)

/-! ## Outlines that are read from their pieces -/

/-- What a node has to be for its tags to be cut out and read as they are written. -/
def Readable : Content → List Outline → Prop
  | .element e, ts =>
    e.Spelled ∧
      if ts = [] then (Event.empty e.content).Delimited
      else (Event.start e.content).Delimited ∧ (Event.finish e.name.full.toList).Delimited
  | .text _, ts => ts = []
  | .comment s, ts => ts = [] ∧ (Event.comment s.toList).Delimited
  | .cdata s, ts => ts = [] ∧ (Event.cdata s.toList).Delimited

theorem tagName_content {e : Element} (h : e.Spelled) : Stream.tagName e.content = e.name.full.toList := by
  rw [← full_of_element (element_content h)]

mutual

theorem delimited_events : ∀ {o : Outline}, o.All Readable → ∀ e ∈ o.events, e.Delimited
  | .node (.element e) ts, ⟨⟨_, hd⟩, ht⟩, f, hf => by
    by_cases hts : ts = []
    · subst hts
      rw [if_pos rfl] at hd
      obtain rfl := List.mem_singleton.mp hf
      exact hd
    · rw [if_neg hts] at hd
      rw [Outline.events_element e hts] at hf
      rcases List.mem_cons.mp hf with rfl | hf
      · exact hd.1
      · rcases List.mem_append.mp hf with hf | hf
        · exact delimited_eventsOf ht f hf
        · obtain rfl := List.mem_singleton.mp hf
          exact hd.2
  | .node (.text s) ts, _, f, hf => by
    obtain rfl := List.mem_singleton.mp hf
    exact fun c hc => (escapedText_brackets _ c hc).1
  | .node (.comment s) ts, ⟨⟨_, hd⟩, _⟩, f, hf => by
    obtain rfl := List.mem_singleton.mp hf
    exact hd
  | .node (.cdata s) ts, ⟨⟨_, hd⟩, _⟩, f, hf => by
    obtain rfl := List.mem_singleton.mp hf
    exact hd

theorem delimited_eventsOf : ∀ {ts : List Outline}, AllOf Readable ts → ∀ e ∈ eventsOf ts, e.Delimited
  | [], _, f, hf => by cases hf
  | t :: ts, ⟨ht, hts⟩, f, hf => by
    rcases List.mem_append.mp hf with hf | hf
    · exact delimited_events ht f hf
    · exact delimited_eventsOf hts f hf

end

/-- Text in front of pieces that spell outlines goes in front of these. -/
theorem spells_addText {es : List Event} {ts : List Outline} (h : Spells es ts) (hs : .skipped ∉ es) (s : String) :
    Spells (Event.addText (s.toList.flatMap escapeText) es) (Outline.addText s ts) := by
  unfold Event.addText Outline.addText
  by_cases hempty : s = ""
  · subst hempty
    exact h
  · rw [if_neg (escapedText_ne_nil hempty), if_neg hempty]
    have alone := Spells.text (expand_escapeText s.toList) h
    rw [String.ofList_toList] at alone
    cases h with
    | skipped h => exact absurd List.mem_cons_self hs
    | text read h =>
      have := Spells.text (expand_append (s := s.toList) read) h
      rwa [String.ofList_append, String.ofList_toList] at this
    | _ => exact alone

theorem skipped_not_mem_joinTexts {es : List Event} (h : .skipped ∉ es) : .skipped ∉ joinTexts es := by
  induction es with
  | nil => exact h
  | cons e es ih =>
    rw [List.mem_cons, not_or] at h
    have ih := ih h.2
    rw [Event.joinTexts_cons]
    cases e with
    | text raw =>
      rw [Event.put]
      unfold Event.addText
      split
      · exact ih
      · split
        · rename_i hes
          rw [hes] at ih
          simpa using ih
        · simpa using ih
    | skipped => exact absurd rfl h.1
    | _ => simpa [Event.put] using ih

/-- The pieces of an element with children, joined. -/
theorem joinTexts_element {e : Element} {ts : List Outline} (hts : ts ≠ []) (es : List Event) :
    joinTexts ((Outline.node (.element e) ts).events ++ es) =
      .start e.content :: (joinTexts (eventsOf ts) ++ .finish e.name.full.toList :: joinTexts es) := by
  rw [Outline.events_element e hts, List.cons_append, List.append_assoc, Event.joinTexts_cons,
    Event.put_of_not_isText rfl, List.singleton_append, Event.joinTexts_append_cons rfl]

/-- The pieces of outlines spell them, with adjacent text joined. -/
theorem spells_joinTexts : ∀ {ts : List Outline}, AllOf Readable ts → Spells (joinTexts (eventsOf ts)) (joinAll ts)
  | [], _ => .nil
  | .node c us :: ts, ⟨⟨hc, hus⟩, hts⟩ => by
    have ih := spells_joinTexts hts
    have hskip : .skipped ∉ joinTexts (eventsOf ts) :=
      skipped_not_mem_joinTexts fun h => delimited_eventsOf hts _ h
    cases c with
    | element e =>
      rw [Outline.eventsOf, Outline.joinAll]
      by_cases hnil : us = []
      · subst hnil
        exact .empty (element_content hc.1) ih
      · rw [joinTexts_element hnil, ← tagName_content hc.1]
        exact .element (element_content hc.1) (spells_joinTexts hus) ih
    | text s => exact spells_addText ih hskip s
    | comment s =>
      have := Spells.comment s.toList ih
      rw [String.ofList_toList] at this
      obtain ⟨rfl, _⟩ := hc
      exact this
    | cdata s =>
      have := Spells.cdata s.toList ih
      rw [String.ofList_toList] at this
      obtain ⟨rfl, _⟩ := hc
      exact this

theorem spellsRoot_joinTexts {e : Element} {ts : List Outline} (h : (Outline.node (.element e) ts).All Readable) :
    SpellsRoot (joinTexts (Outline.node (.element e) ts).events) (Outline.node (.element e) ts).joined := by
  obtain ⟨⟨hs, _⟩, ht⟩ := h
  by_cases hnil : ts = []
  · subst hnil
    exact .empty (element_content hs)
  · have hjoin := joinTexts_element (e := e) hnil []
    rw [List.append_nil] at hjoin
    rw [hjoin, ← tagName_content hs]
    exact .element (element_content hs) (spells_joinTexts ht)

theorem matched_root {es : List Event} {o : Outline} (h : SpellsRoot es o) : Matched [] es := by
  cases h with
  | empty read => trivial
  | element read inside => exact matched_spells inside ⟨rfl, trivial⟩

/-! ## Documents -/

theorem validate_iff {d : Document} :
    d.validate = .ok d ↔ ∃ e, d.content 0 = .element e ∧ e.is "svg" = true ∧ e.isSized = true := by
  have hroot : ∀ {e}, d.rootElement? = some e ↔ d.content 0 = .element e := by
    intro e
    rw [Document.rootElement?, Forest.element?]
    cases d.content 0 <;> simp [Content.element?]
  unfold Document.validate
  constructor
  · intro h
    split at h
    · cases h
    · rename_i e he
      refine ⟨e, hroot.mp he, ?_⟩
      by_cases h1 : e.is "svg" = true <;> by_cases h2 : e.isSized = true <;> simp_all
  · intro hvalid
    obtain ⟨e, he, h1, h2⟩ := hvalid
    rw [hroot.mpr he]
    simp [h1, h2]

theorem validate_ok {d d' : Document} (h : d.validate = .ok d') : d' = d := by
  unfold Document.validate at h
  split at h
  · cases h
  · split at h
    · cases h
    · split at h
      · cases h
      · cases h
        rfl

theorem ofText_of_scan {s : List Char} {es : List Event} (hmark : s.head? ≠ some '\uFEFF')
    (h : Stream.scan s = ⟨es, none⟩) (hm : Matched [] es) : Stream.ofText s = ⟨es, none⟩ := by
  unfold Stream.ofText
  rw [if_neg hmark, h]
  exact Stream.matchTags_of_matched hm none

theorem written_element_head (e : Element) (ts : List Outline) :
    ((Outline.node (.element e) ts).events.flatMap Event.written).head? = some '<' := by
  by_cases h : ts = []
  · rw [h]
    rfl
  · rw [Outline.events_element e h]
    rfl

/-- What is written of a readable image is read as it, with adjacent text joined and empty text dropped. -/
theorem parse_of_readable {d : Document} (hv : d.validate = .ok d) (h : d.root.outline.All Readable) :
    ∃ d', Document.parse d.markup = .ok d' ∧ d'.root.outline = d.root.outline.joined := by
  obtain ⟨e, he, hsvg, hsized⟩ := validate_iff.mp hv
  obtain ⟨ts, hroot⟩ : ∃ ts, d.root.outline = .node (.element e) ts := ⟨_, he ▸ d.outline_eq 0⟩
  have hmarkup := markup_toList d
  have hscan := Stream.scan_written (delimited_events h)
  rw [hroot] at h hscan hmarkup ⊢
  have hspells := spellsRoot_joinTexts h
  have hmark : d.markup.toList.head? ≠ some '\uFEFF' := by
    rw [hmarkup, written_element_head]
    decide
  obtain ⟨d', hd', ho⟩ := Builder.document_root hspells
  rw [← hmarkup] at hscan
  refine ⟨d', ?_, ho⟩
  rw [Document.parse, ofText_of_scan hmark hscan (matched_root hspells), hd']
  refine validate_iff.mpr ⟨e, ?_, hsvg, hsized⟩
  rw [Document.outline_eq, Outline.joined] at ho
  exact (Outline.node.inj ho).1

/-! ## Names that are words -/

/-- No mark that a tag is cut at stands in the name. -/
def Name.IsPlain (n : Name) : Prop := ∀ c ∈ n.full.toList, c ∉ ['\"', '\'', '<', '>', '/', '=']

instance (n : Name) : Decidable n.IsPlain := List.decidableBAll _ n.full.toList

theorem Name.IsPlain.inert {n : Name} (h : n.IsPlain) : ∀ c ∈ n.full.toList, isInert c = true := by
  intro c hc
  have := h c hc
  simp only [List.mem_cons, List.not_mem_nil, or_false, not_or] at this
  simp [isInert, isQuoteMark, this]

/-- A name that markup cannot mistake for anything else. -/
structure Name.IsWord (n : Name) : Prop where
  parsed : Name.parse n.full = n
  nonempty : n.full.toList ≠ []
  plain : ∀ c ∈ n.full.toList, isSpace c = false ∧ c ∉ ['\"', '\'', '<', '>', '/', '=']
  begins : ∀ c ∈ n.full.toList.head?, c ≠ '!' ∧ c ≠ '?'

/-- An element whose names are words, and none of whose attributes comes twice. -/
structure Element.IsWorded (e : Element) : Prop where
  name : e.name.IsWord
  attributes : ∀ a ∈ e.attributes, a.name.IsWord
  unique : (e.attributes.map (·.name.full)).Nodup

/-- A node that can be written so that it can be read; only elements have children. -/
def Tree.IsWritable (t : Tree) : Prop :=
  match t.content with
  | .element e => e.IsWorded
  | .text _ => t.children = []
  | .comment s => t.children = [] ∧ ¬ ['-', '-', '>'] <:+: s.toList
  | .cdata s => t.children = [] ∧ ¬ [']', ']', '>'] <:+: s.toList

theorem Name.IsWord.blank {n : Name} (h : n.IsWord) : ∀ c ∈ n.full.toList, isSpace c = false :=
  fun c hc => (h.plain c hc).1

theorem Name.IsWord.inert {n : Name} (h : n.IsWord) : ∀ c ∈ n.full.toList, isInert c = true :=
  Name.IsPlain.inert fun c hc => (h.plain c hc).2

theorem Name.IsWord.ne {n : Name} (h : n.IsWord) {d : Char} (hd : d ∈ ['\"', '\'', '<', '>', '/', '=']) :
    ∀ c ∈ n.full.toList, c ≠ d := by
  intro c hc heq
  subst heq
  exact (h.plain c hc).2 hd

theorem Element.IsWorded.spelled {e : Element} (h : e.IsWorded) : e.Spelled := by
  refine ⟨h.name.parsed, h.name.blank, ?_, h.unique⟩
  intro a ha
  have hw := h.attributes a ha
  exact ⟨hw.parsed, hw.nonempty, hw.blank, fun c hc => hw.ne (by decide) c (List.mem_of_mem_tail hc)⟩

/-- A written attribute hides its brackets and closes its quotes, if its key does. -/
theorem closed_attribute {a : Attribute} (h : ∀ c ∈ a.name.full.toList, isInert c = true) : IsClosed a.markup := by
  have hkey : IsClosed (a.name.full.toList ++ ['=']) :=
    (closed_append_inert (List.forall_mem_singleton.mpr rfl)).mpr (closed_of_inert h)
  have hvalue := closed_quoted fun hm => (escapedValue_quote a.value.toList _ hm).1 rfl
  have := (closed_cons_inert (c := ' ') (by decide) _).mpr (hkey.append hvalue)
  simpa [Attribute.markup] using this

theorem closed_attributes {as : List Attribute} (h : ∀ a ∈ as, IsClosed a.markup) :
    IsClosed (as.flatMap Attribute.markup) := by
  induction as with
  | nil => rfl
  | cons a as ih =>
    rw [List.flatMap_cons]
    exact (h a List.mem_cons_self).append (ih fun b hb => h b (List.mem_cons_of_mem _ hb))

/-- With attributes a tag ends with a quote. -/
theorem getLast_content {e : Element} (h : e.attributes ≠ []) : e.content.getLast? = some '\"' := by
  obtain ⟨as, a, has⟩ := List.eq_nil_or_concat'  e.attributes |>.resolve_left h
  rw [Element.content, has, List.flatMap_append, ← List.append_assoc, List.flatMap_singleton, Attribute.markup,
    ← List.append_assoc, List.getLast?_concat]

theorem endName_of_not_isSpace {s : List Char} (h : ∀ c ∈ s, isSpace c = false) : Event.endName s = s := by
  obtain ⟨b, hb, hs⟩ := Event.endName_split s
  cases b with
  | nil => rw [List.append_nil] at hs; exact hs.symm
  | cons c b =>
    have h1 := hb c List.mem_cons_self
    have h2 := h c (by rw [hs]; simp)
    rw [h1] at h2
    cases h2

theorem readable_of_isWorded {e : Element} (h : e.IsWorded) (ts : List Outline) : Readable (.element e) ts := by
  have hname := h.name
  obtain ⟨c, s, hcs⟩ := List.exists_cons_of_ne_nil hname.nonempty
  have hclosed : IsClosed e.content :=
    (closed_of_inert hname.inert).append (closed_attributes fun a ha => closed_attribute (h.attributes a ha).inert)
  have hhead : e.content.head? = some c := by
    rw [Element.content, hcs]
    rfl
  have hbegins : Event.BeginsTag e.content := by
    intro d hd
    rw [hhead] at hd
    cases hd
    have hb := hname.begins c (by rw [hcs]; rfl)
    exact ⟨hb.1, hb.2, hname.ne (by decide) c (by rw [hcs]; exact List.mem_cons_self)⟩
  have hlast : e.content.getLast? ≠ some '/' := by
    by_cases hnil : e.attributes = []
    · rw [Element.content, hnil, List.flatMap_nil, List.append_nil]
      intro hl
      exact hname.ne (by decide) '/' (List.mem_of_getLast? hl) rfl
    · rw [getLast_content hnil]
      decide
  refine ⟨h.spelled, ?_⟩
  split
  · refine ⟨hclosed, hbegins, ?_⟩
    intro hnil
    rw [hnil] at hhead
    cases hhead
  · exact ⟨⟨hclosed, hbegins, hlast⟩, closed_of_inert hname.inert, endName_of_not_isSpace hname.blank⟩

theorem readable_of_isWritable {t : Tree} (h : t.IsWritable) : Readable t.content (Tree.outlines t.children) := by
  unfold Tree.IsWritable at h
  split at h
  · rename_i e he
    rw [he]
    exact readable_of_isWorded h _
  · rename_i s hs
    rw [hs, h]
    rfl
  · rename_i s hs
    rw [hs, h.1]
    exact ⟨rfl, h.2⟩
  · rename_i s hs
    rw [hs, h.1]
    exact ⟨rfl, h.2⟩

/-- Parsing undoes writing, but for text that stands side by side or is empty. -/
theorem parse_markup {d : Document} (hv : d.validate = .ok d) (hw : ∀ t ∈ d.root.subtrees, t.IsWritable) :
    ∃ d', Document.parse d.markup = .ok d' ∧ d'.root.outline = d.root.outline.joined :=
  parse_of_readable hv (all_outline_iff.mpr fun t ht => readable_of_isWritable (hw t ht))

theorem parse_markup_adjacent :
    let svg : Element := ⟨⟨none, "svg"⟩, [⟨⟨none, "viewBox"⟩, "0 0 1 1"⟩]⟩
    let d := ((Document.single (.element svg)).append 0 (.text "a<")).append 0 (.text "b")
    ∃ d', Document.parse d.markup = .ok d' ∧ d'.root.outline = .node (.element svg) [.node (.text "a<b") []] := by
  intro svg d
  have word : svg.IsWorded := by
    have begins : ∀ c ∈ svg.name.full.toList.head?, c ≠ '!' ∧ c ≠ '?' := fun c hc =>
      Text.forall_mem_of_all (q := fun c => c ≠ '!' ∧ c ≠ '?') (by decide) c (List.mem_of_head? hc)
    refine ⟨⟨by decide +kernel, by decide, Text.forall_mem_of_all (by decide), begins⟩, ?_, by decide⟩
    intro a ha
    obtain rfl := List.mem_singleton.mp ha
    exact ⟨by decide +kernel, by decide, Text.forall_mem_of_all (by decide),
      fun c hc => Text.forall_mem_of_all (q := fun c => c ≠ '!' ∧ c ≠ '?') (by decide) c (List.mem_of_head? hc)⟩
  have hd : d.root.outline = .node (.element svg) [.node (.text "a<") [], .node (.text "b") []] := by
    have h1 : d.outline 1 = .node (.text "a<") [] := d.outline_eq 1
    have h2 : d.outline 2 = .node (.text "b") [] := d.outline_eq 2
    rw [← h1, ← h2]
    exact d.outline_eq 0
  obtain ⟨d', hp, ho⟩ := parse_markup (d := d) (validate_iff.mpr ⟨svg, rfl, by decide +kernel, by decide +kernel⟩) <| by
    intro t ht
    obtain ⟨j, hj, rfl⟩ := Document.mem_subtrees_iff.mp ht
    have hj : j < 3 := hj.eq_or_lt_size.elim (fun h => by rw [h]; decide) id
    rw [Document.tree_eq]
    match j, hj with
    | 0, _ => exact word
    | 1, _ => exact rfl
    | 2, _ => exact rfl
  refine ⟨d', hp, ?_⟩
  rw [ho, hd]
  rfl

end SvgComponent.Markup
