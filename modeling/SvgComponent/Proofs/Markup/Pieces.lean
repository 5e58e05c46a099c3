/-
  SvgComponent.Proofs.Markup.Pieces — written forms come apart in one way only.

  The pieces of a document that was read are `Formed`. Two lists of such pieces with one written form are written
  alike piece by piece (`written_unique`), though the pieces may differ: `</>` is an end tag or an empty one, and a
  slash may end a name or the tag.
-/

import SvgComponent.Proofs.Markup.Reading

namespace SvgComponent.Markup

open Event (written joinTexts Apart IsCut)
open Outline (eventsOf AllOf)

/-! ## Pieces of what was read -/

/-- A piece of a document that was read. -/
def Event.Formed : Event → Prop
  | text raw => raw ≠ [] ∧ ∀ c ∈ raw, c ≠ '<'
  | start content => ∃ e : Element, e.WasRead ∧ content = e.content ∧ IsClosed e.name.full.toList
  | empty content => ∃ e : Element, e.WasRead ∧ content = e.content
  | finish name => IsClosed name ∧ ∀ c ∈ name, isSpace c = false
  | comment s => ¬ ['-', '-', '>'] <:+: s
  | cdata s => ¬ [']', ']', '>'] <:+: s
  | skipped => False

mutual

theorem formed_events : ∀ {o : Outline}, o.All WasRead → ∀ e ∈ o.events, e.Formed
  | .node (.element e) ts, ⟨⟨hr, hc⟩, ht⟩, f, hf => by
    by_cases hts : ts = []
    · subst hts
      obtain rfl := List.mem_singleton.mp hf
      exact ⟨e, hr, rfl⟩
    · rw [Outline.events_element e hts] at hf
      rcases List.mem_cons.mp hf with rfl | hf
      · exact ⟨e, hr, rfl, hc hts⟩
      · rcases List.mem_append.mp hf with hf | hf
        · exact formed_eventsOf ht f hf
        · obtain rfl := List.mem_singleton.mp hf
          exact ⟨hc hts, hr.spelled.blank⟩
  | .node (.text s) ts, ⟨⟨_, hne⟩, _⟩, f, hf => by
    obtain rfl := List.mem_singleton.mp hf
    exact ⟨escapedText_ne_nil hne, fun c hc => (escapedText_brackets _ c hc).1⟩
  | .node (.comment s) ts, ⟨⟨_, hd⟩, _⟩, f, hf => by
    obtain rfl := List.mem_singleton.mp hf
    exact hd
  | .node (.cdata s) ts, ⟨⟨_, hd⟩, _⟩, f, hf => by
    obtain rfl := List.mem_singleton.mp hf
    exact hd

theorem formed_eventsOf : ∀ {ts : List Outline}, AllOf WasRead ts → ∀ e ∈ eventsOf ts, e.Formed
  | [], _, f, hf => by cases hf
  | t :: ts, ⟨ht, hts⟩, f, hf => by
    rcases List.mem_append.mp hf with hf | hf
    · exact formed_events ht f hf
    · exact formed_eventsOf hts f hf

end

theorem formed_joinTexts {es : List Event} (h : ∀ e ∈ es, e.Formed) : ∀ e ∈ joinTexts es, e.Formed := by
  induction es with
  | nil => exact h
  | cons e es ih =>
    rw [List.forall_mem_cons] at h
    have ih := ih h.2
    rw [Event.joinTexts_cons]
    cases e with
    | text raw =>
      rw [Event.put]
      unfold Event.addText
      split
      · exact ih
      · split
        · rename_i raw' fs hes
          rw [hes, List.forall_mem_cons] at ih
          rw [List.forall_mem_cons]
          refine ⟨⟨by simp [h.1.1], ?_⟩, ih.2⟩
          intro c hc
          rcases List.mem_append.mp hc with hc | hc
          · exact h.1.2 c hc
          · exact ih.1.2 c hc
        · rw [List.forall_mem_cons]
          exact ⟨h.1, ih⟩
    | _ =>
      rw [Event.put_of_not_isText rfl, List.forall_mem_cons]
      exact ⟨h.1, ih⟩

theorem apart_joinTexts (es : List Event) : Apart (joinTexts es) := by
  induction es with
  | nil => exact .nil
  | cons e es ih =>
    rw [Event.joinTexts_cons]
    cases e with
    | text raw =>
      rw [Event.put]
      unfold Event.addText
      split
      · exact ih
      · split
        · rename_i hes
          rw [hes] at ih
          exact List.isChain_cons.mpr (List.isChain_cons.mp ih)
        · rename_i hne
          refine List.isChain_cons.mpr ⟨?_, ih⟩
          intro f hf _
          cases f with
          | text raw' =>
            obtain ⟨fs, hfs⟩ := List.head?_eq_some_iff.mp hf
            exact absurd hfs (hne raw' fs)
          | _ => rfl
    | _ =>
      rw [Event.put_of_not_isText rfl]
      refine List.isChain_cons.mpr ⟨?_, ih⟩
      intro f _ ht
      cases ht

/-! ## Tags -/

/-- The inside of a tag: a name that stands alone, or an element with attributes, perhaps with a slash at its end. -/
inductive IsInside (s : List Char) : Prop
  | bare (closed : IsClosed s) (blank : ∀ c ∈ s, isSpace c = false)
  | rich (e : Element) (read : e.WasRead) (ne : e.attributes ≠ []) (z : List Char) (hz : z = [] ∨ z = ['/'])
      (eq : s = e.content ++ z)

theorem takeWhile_name {e : Element} (h : e.Spelled) (hne : e.attributes ≠ []) (x : List Char) :
    (e.content ++ x).takeWhile (!isSpace ·) = e.name.full.toList := by
  have hname : ∀ c ∈ e.name.full.toList, (!isSpace c) = true := by
    intro c hc
    rw [h.blank c hc]
    rfl
  obtain ⟨a, as, has⟩ := List.exists_cons_of_ne_nil hne
  rw [Element.content, has, List.flatMap_cons, Attribute.markup]
  simp only [List.append_assoc, List.cons_append]
  exact Text.takeWhile_append_stop hname (Text.stops_cons (by decide) _)

/-- A name alone cannot be the beginning of a tag with attributes: its bracket would stand in the other's name. -/
theorem bare_ne_rich {s x y : List Char} {e : Element} (hc : IsClosed s) (hb : ∀ c ∈ s, isSpace c = false)
    (hr : e.WasRead) (hne : e.attributes ≠ []) : s ++ '>' :: x ≠ e.content ++ y := by
  intro h
  have hs : ∀ c ∈ s ++ ['>'], (!isSpace c) = true := by
    intro c hmem
    rcases List.mem_append.mp hmem with hmem | hmem
    · rw [hb c hmem]
      rfl
    · obtain rfl := List.mem_singleton.mp hmem
      rfl
  have hname := takeWhile_name hr.spelled hne y
  rw [← h, List.append_cons, List.takeWhile_append_of_pos hs, List.append_assoc, List.singleton_append] at hname
  have := hr.hides
  rw [← hname] at this
  exact not_hides_of_closed hc _ this

/-- Tags with attributes that are written alike have the same name and the same attributes. -/
theorem rich_unique {e e' : Element} (hr : e.WasRead) (hr' : e'.WasRead) (hne : e.attributes ≠ [])
    (hne' : e'.attributes ≠ []) {z z' x y : List Char} (hz : z = [] ∨ z = ['/']) (hz' : z' = [] ∨ z' = ['/'])
    (h : e.content ++ (z ++ '>' :: x) = e'.content ++ (z' ++ '>' :: y)) :
    e.content = e'.content ∧ e.attributes = e'.attributes := by
  have hname := takeWhile_name hr.spelled hne (z ++ '>' :: x)
  rw [h, takeWhile_name hr'.spelled hne'] at hname
  have stops : ∀ {z x : List Char}, z = [] ∨ z = ['/'] → Text.Stops isSpace (z ++ '>' :: x) := by
    intro z x hcase
    rcases hcase with rfl | rfl <;> exact Text.stops_cons (by decide) _
  rw [Element.content, Element.content, hname, List.append_assoc, List.append_assoc, List.append_cancel_left_eq] at h
  have has := attributes_unique hr.spelled.attributes hr'.spelled.attributes (stops hz) (stops hz') h
  rw [Element.content, Element.content, hname, has]
  exact ⟨rfl, rfl⟩

theorem inside_unique {s t x y : List Char} (hs : IsInside s) (ht : IsInside t) (h : s ++ '>' :: x = t ++ '>' :: y) :
    s = t ∧ x = y := by
  suffices s = t by
    subst this
    rw [List.append_cancel_left_eq] at h
    exact ⟨rfl, (List.cons.inj h).2⟩
  cases hs with
  | bare hc hb =>
    cases ht with
    | bare hc' hb' => exact (closed_unique hc hc' h).1
    | rich e hr hne z hz heq =>
      rw [heq, List.append_assoc] at h
      exact absurd h (bare_ne_rich hc hb hr hne)
  | rich e hr hne z hz heq =>
    cases ht with
    | bare hc' hb' =>
      rw [heq, List.append_assoc] at h
      exact absurd h.symm (bare_ne_rich hc' hb' hr hne)
    | rich e' hr' hne' z' hz' heq' =>
      rw [heq, heq', List.append_assoc, List.append_assoc] at h
      have hcontent := (rich_unique hr hr' hne hne' hz hz' h).1
      rw [hcontent, List.append_cancel_left_eq] at h
      have hzz : z = z' := by
        rcases hz with rfl | rfl <;> rcases hz' with rfl | rfl
        · rfl
        · cases h
        · cases h
        · rfl
      rw [heq, heq', hcontent, hzz]

/-! ## One way to take written forms apart -/

/-- What a piece that is no text looks like. -/
inductive IsMarkup (s : List Char) : Prop
  | tag (w : List Char) (inside : IsInside w) (head : ∀ c ∈ w.head?, c ≠ '!' ∧ c ≠ '?') (eq : s = '<' :: (w ++ ['>']))
  | comment (w : List Char) (free : ¬ ['-', '-', '>'] <:+: w) (eq : s = (Event.comment w).written)
  | cdata (w : List Char) (free : ¬ [']', ']', '>'] <:+: w) (eq : s = (Event.cdata w).written)

/-- A name that stood alone is closed also with the slash that is written after it. -/
theorem bare_content {e : Element} (h : e.WasRead) (hnil : e.attributes = []) {z : List Char}
    (hz : z = [] ∨ z = ['/']) : IsClosed (e.content ++ z) ∧ ∀ c ∈ e.content ++ z, isSpace c = false := by
  rw [Element.content, hnil, List.flatMap_nil, List.append_nil]
  refine ⟨(closed_append_inert ?_).mpr (h.bare hnil), ?_⟩
  · rcases hz with rfl | rfl <;> exact Text.forall_mem_of_all rfl
  · intro c hc
    rcases List.mem_append.mp hc with hc | hc
    · exact h.spelled.blank c hc
    · rcases hz with rfl | rfl
      · cases hc
      · obtain rfl := List.mem_singleton.mp hc
        rfl

theorem isInside_content {e : Element} (h : e.WasRead) {z : List Char} (hz : z = [] ∨ z = ['/']) :
    IsInside (e.content ++ z) := by
  by_cases hnil : e.attributes = []
  · exact .bare (bare_content h hnil hz).1 (bare_content h hnil hz).2
  · exact .rich e h hnil z hz rfl

theorem head_content {e : Element} (h : e.WasRead) {z : List Char} (hz : z = [] ∨ z = ['/']) :
    ∀ c ∈ (e.content ++ z).head?, c ≠ '!' ∧ c ≠ '?' := by
  intro c hhead
  cases hc : e.content with
  | nil =>
    rw [hc] at hhead
    rcases hz with rfl | rfl
    · cases hhead
    · cases hhead
      decide
  | cons d s =>
    rw [hc] at hhead
    have := h.begins c (by rw [hc]; exact hhead)
    exact ⟨this.1, this.2.1⟩

theorem isMarkup_written {e : Event} (h : e.Formed) (ht : e.isText = false) : IsMarkup e.written := by
  cases e with
  | text raw => cases ht
  | start content =>
    obtain ⟨e, hr, rfl, _⟩ := h
    have hi := isInside_content hr (z := []) (Or.inl rfl)
    have hh := head_content hr (z := []) (Or.inl rfl)
    rw [List.append_nil] at hi hh
    exact .tag e.content hi hh rfl
  | empty content =>
    obtain ⟨e, hr, rfl⟩ := h
    exact .tag _ (isInside_content hr (Or.inr rfl)) (head_content hr (Or.inr rfl)) (by simp [written])
  | finish name =>
    refine .tag ('/' :: name) (.bare ((closed_cons_inert (by decide) name).mpr h.1) ?_) (by simp) rfl
    rw [List.forall_mem_cons]
    exact ⟨rfl, h.2⟩
  | comment s => exact .comment s h rfl
  | cdata s => exact .cdata s h rfl
  | skipped => exact h.elim

theorem tag_ne_declaration {w x y : List Char} {c : Char} (h : ∀ c ∈ w.head?, c ≠ '!' ∧ c ≠ '?')
    (hc : c = '!' ∨ c = '?') : w ++ '>' :: x ≠ c :: y := by
  intro he
  cases w with
  | nil =>
    rw [List.nil_append, List.cons.injEq] at he
    rcases hc with rfl | rfl <;> cases he.1
  | cons d w =>
    rw [List.cons_append, List.cons.injEq] at he
    have := h d rfl
    rw [he.1] at this
    exact hc.elim this.1 this.2

/-- Text without the pattern in front of it ends where the pattern begins. -/
theorem pair_unique {p q : Char} (hpq : p ≠ q) {a b x y : List Char} (ha : ¬ [p, p, q] <:+: a)
    (hb : ¬ [p, p, q] <:+: b) (h : a ++ [p, p, q] ++ x = b ++ [p, p, q] ++ y) : a = b := by
  have hcut := Text.cutBefore_pair hpq ha x
  rw [h, Text.cutBefore_pair hpq hb, Option.some.injEq, Prod.mk.injEq] at hcut
  exact hcut.1.symm

theorem markup_unique {s t x y : List Char} (hs : IsMarkup s) (ht : IsMarkup t) (h : s ++ x = t ++ y) : s = t := by
  cases hs with
  | tag w hi hh heq =>
    cases ht with
    | tag w' hi' hh' heq' =>
      simp only [heq, heq', List.cons_append, List.append_assoc, List.nil_append, List.cons.injEq, true_and] at h
      rw [heq, heq', (inside_unique hi hi' h).1]
    | comment w' hf' heq' =>
      simp only [heq, heq', written, List.cons_append, List.append_assoc, List.nil_append, List.cons.injEq,
        true_and] at h
      exact absurd h (tag_ne_declaration hh (Or.inl rfl))
    | cdata w' hf' heq' =>
      simp only [heq, heq', written, List.cons_append, List.append_assoc, List.nil_append, List.cons.injEq,
        true_and] at h
      exact absurd h (tag_ne_declaration hh (Or.inl rfl))
  | comment w hf heq =>
    cases ht with
    | tag w' hi' hh' heq' =>
      simp only [heq, heq', written, List.cons_append, List.append_assoc, List.nil_append, List.cons.injEq,
        true_and] at h
      exact absurd h.symm (tag_ne_declaration hh' (Or.inl rfl))
    | comment w' hf' heq' =>
      simp only [heq, heq', written, List.cons_append, List.append_assoc, List.nil_append, List.cons.injEq,
        true_and] at h
      rw [heq, heq', pair_unique (by decide) hf hf' (x := x) (y := y) (by simpa using h)]
    | cdata w' hf' heq' => simp [heq, heq', written] at h
  | cdata w hf heq =>
    cases ht with
    | tag w' hi' hh' heq' =>
      simp only [heq, heq', written, List.cons_append, List.append_assoc, List.nil_append, List.cons.injEq,
        true_and] at h
      exact absurd h.symm (tag_ne_declaration hh' (Or.inl rfl))
    | comment w' hf' heq' => simp [heq, heq', written] at h
    | cdata w' hf' heq' =>
      simp only [heq, heq', written, List.cons_append, List.append_assoc, List.nil_append, List.cons.injEq,
        true_and] at h
      rw [heq, heq', pair_unique (by decide) hf hf' (x := x) (y := y) (by simpa using h)]

theorem head_written {e : Event} (h : e.Formed) (ht : e.isText = false) (s : List Char) :
    (e.written ++ s).head? = some '<' := by
  cases isMarkup_written h ht with
  | tag w hi hh heq => rw [heq]; rfl
  | comment w hf heq => rw [heq]; rfl
  | cdata w hf heq => rw [heq]; rfl

theorem written_ne_nil {e : Event} (h : e.Formed) : e.written ≠ [] := by
  cases ht : e.isText with
  | true =>
    cases e with
    | text raw => exact h.1
    | _ => cases ht
  | false =>
    intro hnil
    have := head_written h ht []
    rw [hnil] at this
    cases this

/-- Text ends where pieces that are none begin. -/
theorem stops_written {es : List Event} (h : ∀ e ∈ es, e.Formed) (ht : ∀ e ∈ es.head?, e.isText = false) :
    Text.Stops (· != '<') (es.flatMap written) := by
  cases es with
  | nil => exact Text.stops_nil
  | cons e es =>
    intro c hc
    rw [List.flatMap_cons, head_written (h e List.mem_cons_self) (ht e rfl)] at hc
    cases hc
    rfl

theorem text_ne_markup {raw x : List Char} {e : Event} (hr : (Event.text raw).Formed) (he : e.Formed)
    (ht : e.isText = false) (y : List Char) : raw ++ x ≠ e.written ++ y := by
  intro h
  obtain ⟨c, s, rfl⟩ := List.exists_cons_of_ne_nil hr.1
  have := head_written he ht y
  rw [← h] at this
  exact hr.2 c List.mem_cons_self (Option.some.inj this)

/-- Pieces that one text begins with are written alike. -/
theorem first_unique {e f : Event} {es fs : List Event} (he : ∀ e' ∈ e :: es, e'.Formed)
    (hf : ∀ f' ∈ f :: fs, f'.Formed) (hes : Apart (e :: es)) (hfs : Apart (f :: fs))
    (h : e.written ++ es.flatMap written = f.written ++ fs.flatMap written) : e.written = f.written := by
  rw [List.forall_mem_cons] at he hf
  cases hte : e.isText with
  | true =>
    cases e with
    | text raw =>
      cases htf : f.isText with
      | true =>
        cases f with
        | text raw' =>
          have run : ∀ {r : List Char}, (∀ c ∈ r, c ≠ '<') → ∀ c ∈ r, (c != '<') = true :=
            fun hr c hc => by simpa using hr c hc
          have hstop := stops_written he.2 fun e h => (List.isChain_cons.mp hes).1 e h rfl
          have hstop' := stops_written hf.2 fun f h => (List.isChain_cons.mp hfs).1 f h rfl
          have htake := Text.takeWhile_append_stop (run he.1.2) hstop
          rw [written, written] at h
          rw [h, Text.takeWhile_append_stop (run hf.1.2) hstop'] at htake
          exact htake.symm
        | _ => cases htf
      | false => exact absurd h (text_ne_markup he.1 hf.1 htf _)
    | _ => cases hte
  | false =>
    cases htf : f.isText with
    | true =>
      cases f with
      | text raw => exact absurd h.symm (text_ne_markup hf.1 he.1 hte _)
      | _ => cases htf
    | false => exact markup_unique (isMarkup_written he.1 hte) (isMarkup_written hf.1 htf) h

/-- Pieces with one written form are written alike, piece by piece. -/
theorem written_unique {es fs : List Event} (he : ∀ e ∈ es, e.Formed) (hf : ∀ f ∈ fs, f.Formed) (hes : Apart es)
    (hfs : Apart fs) (h : es.flatMap written = fs.flatMap written) : es.map written = fs.map written := by
  induction es generalizing fs with
  | nil =>
    cases fs with
    | nil => rfl
    | cons f fs =>
      rw [List.flatMap_nil, List.flatMap_cons, eq_comm, List.append_eq_nil_iff] at h
      exact absurd h.1 (written_ne_nil (hf f List.mem_cons_self))
  | cons e es ih =>
    cases fs with
    | nil =>
      rw [List.flatMap_nil, List.flatMap_cons, List.append_eq_nil_iff] at h
      exact absurd h.1 (written_ne_nil (he e List.mem_cons_self))
    | cons f fs =>
      rw [List.flatMap_cons, List.flatMap_cons] at h
      have hfirst := first_unique he hf hes hfs h
      rw [hfirst, List.append_cancel_left_eq] at h
      rw [List.forall_mem_cons] at he hf
      rw [List.map_cons, List.map_cons, hfirst,
        ih he.2 hf.2 (List.isChain_cons.mp hes).2 (List.isChain_cons.mp hfs).2 h]

end SvgComponent.Markup
