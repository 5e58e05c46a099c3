/-
  SvgComponent.Proofs.Markup.Stable — which documents are written in a form that is read as it is written.

  `Content.IsLegible` names what a tag needs beyond what holds of every tag that was read: its quotes close, it is
  not empty, and a start tag does not end with a slash. A document of nodes that were read is written in a stable
  form exactly if all its elements are legible (`stable_iff`).
  - If they are, parsing undoes writing, and joined text is written as it was apart.
  - If not, the pieces of a stable form are cut as they are written (`cuts_of_fixed`); against these the written
    form could only exchange tags that begin for tags that end, and a document has as many of both.
-/

import SvgComponent.Proofs.Markup.Pieces

namespace SvgComponent.Markup

open Event (written joinTexts Apart Cuts Source)
open Outline (eventsOf AllOf joinAll)

/-- The tags of the node can be found and told from others; `leaf` says that it has no children. -/
def Content.IsLegible (leaf : Bool) : Content → Prop
  | element e => IsClosed e.content ∧ if leaf then e.content ≠ [] else e.content.getLast? ≠ some '/'
  | _ => True

instance (leaf : Bool) (c : Content) : Decidable (c.IsLegible leaf) :=
  match c with
  | .element e =>
    inferInstanceAs (Decidable (IsClosed e.content ∧ if leaf then e.content ≠ [] else e.content.getLast? ≠ some '/'))
  | .text _ | .comment _ | .cdata _ => isTrue trivial

def Legible (c : Content) (ts : List Outline) : Prop := c.IsLegible ts.isEmpty

/-! ## Joined text is written as it was apart -/

theorem eventsOf_addText (s : String) (ts : List Outline) :
    eventsOf (Outline.addText s ts) = Event.addText (s.toList.flatMap escapeText) (eventsOf ts) := by
  by_cases hs : s = ""
  · subst hs
    rfl
  · have hraw := escapedText_ne_nil hs
    unfold Outline.addText Event.addText
    rw [if_neg hs, if_neg hraw]
    match ts with
    | [] => rfl
    | .node (.text s') us :: ts => simp [eventsOf, Outline.events]
    | .node (.comment s') us :: ts => rfl
    | .node (.cdata s') us :: ts => rfl
    | .node (.element e) us :: ts =>
      by_cases hus : us = []
      · rw [hus]
        rfl
      · simp only [eventsOf, Outline.events_element e hus]
        rfl

theorem joinAll_ne_nil {ts : List Outline} (h : AllOf WasRead ts) (hne : ts ≠ []) : joinAll ts ≠ [] := by
  match ts, h with
  | .node (.text s) us :: ts, ⟨⟨⟨_, hs⟩, _⟩, _⟩ =>
    show Outline.addText s (joinAll ts) ≠ []
    unfold Outline.addText
    rw [if_neg hs]
    split <;> simp
  | .node (.element e) us :: ts, _ => exact List.cons_ne_nil _ _
  | .node (.comment s) us :: ts, _ => exact List.cons_ne_nil _ _
  | .node (.cdata s) us :: ts, _ => exact List.cons_ne_nil _ _

/-- The pieces of joined outlines are the joined pieces. -/
theorem eventsOf_joinAll : ∀ {ts : List Outline}, AllOf WasRead ts → eventsOf (joinAll ts) = joinTexts (eventsOf ts)
  | [], _ => rfl
  | .node c us :: ts, ⟨⟨hc, hus⟩, hts⟩ => by
    have ih := eventsOf_joinAll hts
    have ih' := eventsOf_joinAll hus
    cases c with
    | element e =>
      show eventsOf (.node (.element e) (joinAll us) :: joinAll ts) = _
      rw [eventsOf, eventsOf, ih]
      by_cases hnil : us = []
      · subst hnil
        rfl
      · rw [joinTexts_element hnil, Outline.events_element e (joinAll_ne_nil hus hnil), ih', List.cons_append,
          List.append_assoc, List.singleton_append]
    | text s =>
      show eventsOf (Outline.addText s (joinAll ts)) = Event.addText _ (joinTexts (eventsOf ts))
      rw [eventsOf_addText, ih]
    | comment s =>
      show eventsOf (.node (.comment s) (joinAll us) :: joinAll ts) = .comment s.toList :: joinTexts (eventsOf ts)
      rw [eventsOf, ih]
      rfl
    | cdata s =>
      show eventsOf (.node (.cdata s) (joinAll us) :: joinAll ts) = .cdata s.toList :: joinTexts (eventsOf ts)
      rw [eventsOf, ih]
      rfl

theorem events_joined {e : Element} {ts : List Outline} (h : (Outline.node (.element e) ts).All WasRead) :
    (Outline.node (.element e) ts).joined.events = joinTexts (Outline.node (.element e) ts).events := by
  have hall : AllOf WasRead [.node (.element e) ts] := ⟨h, trivial⟩
  have := eventsOf_joinAll hall
  simpa [eventsOf, joinAll, Outline.joined, Outline.put] using this

/-! ## Legible elements are readable -/

theorem readable_of_legible {c : Content} {ts : List Outline} (hr : WasRead c ts) (hl : Legible c ts) :
    Readable c ts := by
  cases c with
  | element e =>
    obtain ⟨hr, hname⟩ := hr
    obtain ⟨hc, hend⟩ := hl
    refine ⟨hr.spelled, ?_⟩
    cases ts with
    | nil => exact ⟨hc, hr.begins, hend⟩
    | cons t ts => exact ⟨⟨hc, hr.begins, hend⟩, hname (by simp), endName_of_not_isSpace hr.spelled.blank⟩
  | text s => exact hr.1
  | comment s => exact hr
  | cdata s => exact hr

/-- What is written of a document that was read and is legible is read and written again without change. -/
theorem stable_of_legible {d : Document} (hv : d.validate = .ok d) (hr : d.root.outline.All WasRead)
    (hl : d.root.outline.All Legible) : ∃ d', Document.parse d.markup = .ok d' ∧ d'.markup = d.markup := by
  obtain ⟨d', hp, ho⟩ := parse_of_readable hv (hr.and hl fun _ _ => readable_of_legible)
  obtain ⟨e, he, _⟩ := validate_iff.mp hv
  obtain ⟨ts, hroot⟩ : ∃ ts, d.root.outline = .node (.element e) ts := ⟨_, he ▸ d.outline_eq 0⟩
  refine ⟨d', hp, ?_⟩
  rw [hroot] at hr ho
  rw [← String.toList_inj, markup_toList, markup_toList, ho, events_joined hr, Event.written_joinTexts, hroot]

/-! ## Pieces of a stable form -/

theorem head_source {e : Event} {s : List Char} (h : Source e s) (ht : e.isText = false) : s.head? = some '<' := by
  cases e with
  | text raw => cases ht
  | finish name =>
    obtain ⟨b, _, rfl⟩ := h
    rfl
  | skipped =>
    rcases h with ⟨w, rfl⟩ | ⟨d, w, rfl, _⟩ <;> rfl
  | _ => rw [show s = _ from h]; rfl

theorem source_ne_nil {e : Event} {s : List Char} (h : Source e s) : s ≠ [] := by
  cases ht : e.isText with
  | true =>
    cases e with
    | text raw =>
      obtain ⟨rfl, hne⟩ := h
      exact hne
    | _ => cases ht
  | false =>
    intro heq
    subst heq
    cases head_source h ht

/-- Text ends where a piece begins that is none. -/
theorem stops_cuts {s : List Char} {es : List Event} (h : Cuts s es) (ht : ∀ e ∈ es.head?, e.isText = false) :
    Text.Stops (· != '<') s := by
  cases h with
  | nil => exact Text.stops_nil
  | @cons src rest e es source delimited h =>
    intro c hc
    have hsrc := source_ne_nil source
    rw [List.head?_append_of_ne_nil _ hsrc, head_source source (ht e rfl)] at hc
    cases hc
    rfl

/-- What is skipped begins with no tag, comment or CDATA section. -/
theorem skipped_ne_markup {src x : List Char} (h : Source .skipped src) {f : Event} (hf : f.Formed)
    (ht : f.isText = false) (y : List Char) : src ++ x ≠ written f ++ y := by
  intro he
  cases isMarkup_written hf ht with
  | tag w hi hh heq =>
    simp only [heq, List.cons_append, List.append_assoc, List.nil_append] at he
    rcases h with ⟨v, rfl⟩ | ⟨d, v, rfl, _⟩
    · exact tag_ne_declaration hh (Or.inr rfl) (List.cons.inj he).2.symm
    · exact tag_ne_declaration hh (Or.inl rfl) (List.cons.inj he).2.symm
  | comment w hf' heq =>
    rw [heq] at he
    rcases h with ⟨v, rfl⟩ | ⟨d, v, rfl, hd, _⟩
    · cases he
    · simp only [written, List.cons_append, List.cons.injEq, true_and] at he
      exact hd he.1
  | cdata w hf' heq =>
    rw [heq] at he
    rcases h with ⟨v, rfl⟩ | ⟨d, v, rfl, _, hd⟩
    · cases he
    · simp only [written, List.cons_append, List.cons.injEq, true_and] at he
      exact hd he.1

/-- What is skipped stands in no written form. -/
theorem source_skipped_ne {src x v : List Char} {es : List Event} (h : Source .skipped src)
    (hes : ∀ e ∈ es, e.Formed) (hv : v = [] ∨ ∃ v', v = '<' :: '/' :: v') : src ++ x ≠ es.flatMap written ++ v := by
  intro he
  have hhead : (src ++ x).head? = some '<' := by
    rw [List.head?_append_of_ne_nil _ (source_ne_nil h), head_source h rfl]
  cases es with
  | nil =>
    rcases hv with rfl | ⟨v', rfl⟩
    · exact source_ne_nil h (List.append_eq_nil_iff.mp he).1
    · rcases h with ⟨w, rfl⟩ | ⟨d, w, rfl, _⟩ <;> cases he
  | cons f fs =>
    have hf := hes f List.mem_cons_self
    rw [List.flatMap_cons, List.append_assoc] at he
    cases ht : f.isText with
    | true =>
      cases f with
      | text raw =>
        obtain ⟨d, s, rfl⟩ := List.exists_cons_of_ne_nil hf.1
        rw [he] at hhead
        exact hf.2 d List.mem_cons_self (Option.some.inj hhead)
      | _ => cases ht
    | false => exact skipped_ne_markup h hf ht _ he

/-- A comment or a CDATA section that is cut out of its written form leaves what comes after it. -/
theorem cuts_written {e : Event} {es : List Event} {s x : List Char} (h : Cuts s (e :: es))
    (he : ∀ src, Source e src → src = written e) (hs : s = written e ++ x) : Cuts x es := by
  cases h with
  | cons source delimited h =>
    rw [he _ source, List.append_cancel_left_eq] at hs
    rwa [← hs]

/-- Text that is cut out of the written form of what it stands for is that form. -/
theorem cuts_text {raw t s x : List Char} {es : List Event} (h : Cuts s (.text raw :: es))
    (ha : Apart (.text raw :: es)) (read : Reference.expand raw = .ok t) (hs : s = t.flatMap escapeText ++ x) :
    raw = t.flatMap escapeText ∧ Cuts x es := by
  cases h with
  | @cons _ rest _ _ source delimited h =>
    rw [source.1] at hs
    have hstop : Text.Stops (· != '<') rest := stops_cuts h fun e he => (List.isChain_cons.mp ha).1 e he rfl
    have hraw : ∀ c ∈ raw, (c != '<') = true := by
      intro c hc
      simpa using delimited.resolve_left (by simp) c hc
    have hesc : ∀ c ∈ t.flatMap escapeText, (c != '<') = true := by
      intro c hc
      simpa using (escapedText_brackets t c hc).1
    -- the written text is a beginning of the text that was cut, so it is all of it
    have hrun := Text.takeWhile_append_stop hraw hstop
    rw [hs, List.takeWhile_append_of_pos hesc] at hrun
    have heq := eq_escapeText_of_expand read hrun.symm
    rw [heq, List.append_cancel_left_eq] at hs
    exact ⟨heq, hs ▸ h⟩

/-- The content of a tag that is cut out of a written tag is the one that is written. -/
theorem cuts_tag {content z s x : List Char} {e : Element} {f : Event} {es : List Event} (h : Cuts s (f :: es))
    (hf : ∀ src, Source f src → src = '<' :: (content ++ z)) (hz : Text.Stops isSpace x)
    (read : TagAttributes.element content = .ok e) (hs : s = '<' :: (e.content ++ x)) :
    content = e.content ∧ ∃ rest, x = z ++ rest ∧ Cuts rest es := by
  cases h with
  | @cons _ rest _ _ source delimited h =>
    rw [hf _ source] at hs
    simp only [List.cons_append, List.append_assoc, List.cons.injEq, true_and] at hs
    have hcontent := content_eq read hs hz
    rw [hcontent, List.append_cancel_left_eq] at hs
    exact ⟨hcontent, rest, hs.symm, h⟩

/-- An end tag that is cut out of a written one leaves what comes after it. -/
theorem cuts_finish {name s x : List Char} {es : List Event} (h : Cuts s (.finish name :: es))
    (hs : s = '<' :: '/' :: (name ++ '>' :: x)) : Cuts x es := by
  cases h with
  | cons source delimited h =>
    obtain ⟨b, hb, rfl⟩ := source
    simp only [List.cons_append, List.append_assoc, List.nil_append, List.cons.injEq, true_and,
      List.append_cancel_left_eq] at hs
    obtain rfl := eq_nil_of_stops hb (Text.stops_cons (by decide) _) hs
    rw [List.nil_append, List.cons.injEq] at hs
    exact hs.2 ▸ h

/-- Pieces that spell outlines and are cut out of these outlines' written form are written as they were cut. -/
theorem cuts_of_spells {es : List Event} {ts : List Outline} (h : Spells es ts) :
    ∀ {fs : List Event} {s v : List Char}, Cuts s (es ++ fs) → Apart (es ++ fs) →
      s = (eventsOf ts).flatMap written ++ v → (v = [] ∨ ∃ v', v = '<' :: '/' :: v') →
      es = eventsOf ts ∧ Cuts v fs := by
  induction h with
  | nil =>
    intro fs s v hcuts _ hs _
    rw [hs] at hcuts
    exact ⟨rfl, hcuts⟩
  | @skipped es ts h ih =>
    intro fs s v hcuts _ hs hv
    have hformed : ∀ e ∈ eventsOf ts, e.Formed :=
      formed_eventsOf (wasRead_spells h fun e he => hcuts.isCut e (by simp [he]))
    cases hcuts with
    | cons source _ _ => exact absurd hs (source_skipped_ne source hformed hv)
  | @text es ts raw t read h ih =>
    intro fs s v hcuts hapart hs hv
    have hpiece : eventsOf (.node (.text (String.ofList t)) [] :: ts) =
        .text (t.flatMap escapeText) :: eventsOf ts := by
      rw [eventsOf, Outline.events, String.toList_ofList, List.singleton_append]
    rw [hpiece, List.flatMap_cons, List.append_assoc] at hs
    obtain ⟨hraw, hcuts⟩ := cuts_text hcuts hapart read hs
    obtain ⟨hes, hv'⟩ := ih hcuts (List.isChain_cons.mp hapart).2 rfl hv
    exact ⟨by rw [hpiece, hraw, ← hes], hv'⟩
  | @comment es ts t h ih =>
    intro fs s v hcuts hapart hs hv
    have hpiece : eventsOf (.node (.comment (String.ofList t)) [] :: ts) = .comment t :: eventsOf ts := by
      rw [eventsOf, Outline.events, String.toList_ofList, List.singleton_append]
    rw [hpiece, List.flatMap_cons, List.append_assoc] at hs
    obtain ⟨hes, hv'⟩ := ih (cuts_written hcuts (fun _ h => h) hs) (List.isChain_cons.mp hapart).2 rfl hv
    exact ⟨by rw [hpiece, ← hes], hv'⟩
  | @cdata es ts t h ih =>
    intro fs s v hcuts hapart hs hv
    have hpiece : eventsOf (.node (.cdata (String.ofList t)) [] :: ts) = .cdata t :: eventsOf ts := by
      rw [eventsOf, Outline.events, String.toList_ofList, List.singleton_append]
    rw [hpiece, List.flatMap_cons, List.append_assoc] at hs
    obtain ⟨hes, hv'⟩ := ih (cuts_written hcuts (fun _ h => h) hs) (List.isChain_cons.mp hapart).2 rfl hv
    exact ⟨by rw [hpiece, ← hes], hv'⟩
  | @empty es ts content e read h ih =>
    intro fs s v hcuts hapart hs hv
    have hpiece : eventsOf (.node (.element e) [] :: ts) = .empty e.content :: eventsOf ts := rfl
    rw [hpiece, List.flatMap_cons, written] at hs
    simp only [List.cons_append, List.append_assoc] at hs
    obtain ⟨hcontent, rest, hrest, hcuts⟩ :=
      cuts_tag hcuts (fun _ h => h) (Text.stops_cons (by decide) _) read hs
    simp only [List.cons_append, List.nil_append, List.cons.injEq, true_and] at hrest
    obtain ⟨hes, hv'⟩ := ih hcuts (List.isChain_cons.mp hapart).2 hrest.symm hv
    exact ⟨by rw [hpiece, hcontent, ← hes], hv'⟩
  | @element es fs ts us content e read inside h ih₁ ih₂ =>
    intro gs s v hcuts hapart hs hv
    have hname := full_of_element read
    rw [List.cons_append, List.append_assoc, List.cons_append] at hcuts hapart
    have htail := (List.isChain_cons.mp hapart).2
    by_cases hnil : ts = []
    · -- an element without children is written as one tag, which ends in a slash
      subst hnil
      have hpiece : eventsOf (.node (.element e) [] :: us) = .empty e.content :: eventsOf us := rfl
      rw [hpiece, List.flatMap_cons, written] at hs
      simp only [List.cons_append, List.append_assoc] at hs
      obtain ⟨_, rest, hrest, _⟩ := cuts_tag hcuts (fun _ h => h) (Text.stops_cons (by decide) _) read hs
      cases hrest
    · rw [eventsOf, Outline.events_element e hnil] at hs ⊢
      simp only [List.cons_append, List.append_assoc, List.nil_append, List.flatMap_cons, List.flatMap_append,
        written] at hs
      obtain ⟨hcontent, rest, hrest, hcuts⟩ :=
        cuts_tag hcuts (fun _ h => h) (Text.stops_cons (by decide) _) read hs
      rw [List.singleton_append, List.cons.injEq] at hrest
      obtain ⟨hes, hcuts⟩ := ih₁ hcuts htail hrest.2.symm (Or.inr ⟨_, rfl⟩)
      have hcuts := cuts_finish hcuts (by rw [hname])
      obtain ⟨hfs, hv'⟩ := ih₂ hcuts (List.isChain_cons.mp htail.right_of_append).2 rfl hv
      refine ⟨?_, hv'⟩
      rw [← hes, ← hfs, hname, ← hcontent]
      simp

theorem spells_of_root {es : List Event} {o : Outline} (h : SpellsRoot es o) : Spells es [o] := by
  cases h with
  | empty read => exact .empty read .nil
  | element read inside => exact .element read inside .nil

/-- The written form of an element begins with a tag. -/
theorem written_element {e : Element} (h : e.WasRead) (ts : List Outline) :
    ∃ w y, (Outline.node (.element e) ts).events.flatMap written = '<' :: (w ++ '>' :: y) ∧
      ∀ c ∈ w.head?, c ≠ '!' ∧ c ≠ '?' := by
  by_cases hts : ts = []
  · subst hts
    exact ⟨e.content ++ ['/'], [], by simp [Outline.events, written], head_content h (Or.inr rfl)⟩
  · have hh := head_content h (z := []) (Or.inl rfl)
    rw [List.append_nil] at hh
    rw [Outline.events_element e hts]
    exact ⟨e.content, _, by simp [written]; rfl, hh⟩

/-- Nothing stands in front of a tag. -/
theorem source_ne_tag {e : Event} {src rest w y : List Char} (h : Source e src) (hcut : e.IsCut) (ha : e.isAside = true)
    (hw : ∀ c ∈ w.head?, c ≠ '!' ∧ c ≠ '?') : src ++ rest ≠ '<' :: (w ++ '>' :: y) := by
  intro he
  cases e with
  | text raw =>
    obtain ⟨rfl, hne⟩ := h
    obtain ⟨c, s, rfl⟩ := List.exists_cons_of_ne_nil hne
    rw [List.cons_append, List.cons.injEq] at he
    exact hcut.1.resolve_left (by simp) c List.mem_cons_self he.1
  | comment s =>
    rw [show src = _ from h, written] at he
    simp only [List.cons_append, List.append_assoc, List.nil_append, List.cons.injEq, true_and] at he
    exact tag_ne_declaration hw (Or.inl rfl) he.symm
  | skipped =>
    rcases h with ⟨v, rfl⟩ | ⟨d, v, rfl, _⟩
    · simp only [List.cons_append, List.cons.injEq, true_and] at he
      exact tag_ne_declaration hw (Or.inr rfl) he.symm
    · simp only [List.cons_append, List.cons.injEq, true_and] at he
      exact tag_ne_declaration hw (Or.inl rfl) he.symm
  | _ => cases ha

/-- A document whose written form it was read from is cut into the pieces that it is written as. -/
theorem cuts_of_fixed {s : String} {d : Document} (h : Document.parse s = .ok d) (hs : d.markup = s) :
    Cuts s.toList d.root.outline.events ∧ Apart d.root.outline.events := by
  obtain ⟨⟨es, cuts, apart, ⟨before, root, after, o, rfl, asides, spells, ho⟩, hv⟩⟩ := parsed_of_parse h
  have hread := wasRead_of_parse h
  obtain ⟨e, he, _⟩ := validate_iff.mp hv
  have hroot : d.root.outline = .node (.element e) ((d.children 0).map d.outline) := he ▸ d.outline_eq 0
  have htext := markup_toList d
  rw [hs] at htext
  rw [hroot] at hread
  obtain ⟨w, y, hw, hhead⟩ := written_element hread.1.1 ((d.children 0).map d.outline)
  rw [← hroot, ← htext] at hw
  have hmark : s.toList.head? ≠ some '\uFEFF' := by
    rw [hw, List.head?_cons]
    decide
  rw [if_neg hmark] at cuts
  have hbefore : before = [] := by
    cases before with
    | nil => rfl
    | cons f before =>
      have hcut := cuts.isCut f (by simp)
      have haside := asides f (by simp)
      rw [hw] at cuts
      generalize hx : '<' :: (w ++ '>' :: y) = x at cuts
      cases cuts with
      | cons source delimited cuts => exact absurd hx.symm (source_ne_tag source hcut haside hhead)
  subst hbefore
  have hone : s.toList = (eventsOf [o]).flatMap written ++ [] := by
    rw [htext, show d.root.outline = o from ho, eventsOf, eventsOf, List.append_nil, List.append_nil]
  obtain ⟨hes, hafter⟩ := cuts_of_spells (spells_of_root spells) cuts apart hone (Or.inl rfl)
  have hnil : after = [] := by
    generalize hx : ([] : List Char) = x at hafter
    cases hafter with
    | nil => rfl
    | cons source delimited cuts => exact absurd (List.append_eq_nil_iff.mp hx.symm).1 (source_ne_nil source)
  rw [hnil, List.nil_append, List.append_nil, hes, eventsOf, eventsOf, List.append_nil] at cuts apart
  rw [show d.root.outline = o from ho]
  exact ⟨cuts, apart⟩

/-! ## Tags that begin and tags that end -/

/-- What a piece does to the number of open tags. -/
def Event.balance : Event → Int
  | start _ => 1
  | finish _ => -1
  | _ => 0

/-- What pieces do to the number of open tags. -/
def balance (es : List Event) : Int := es.foldr (·.balance + ·) 0

theorem balance_cons (e : Event) (es : List Event) : balance (e :: es) = e.balance + balance es := rfl

theorem balance_append (es fs : List Event) : balance (es ++ fs) = balance es + balance fs := by
  induction es with
  | nil => exact (Int.zero_add _).symm
  | cons e es ih => rw [List.cons_append, balance_cons, balance_cons, ih, Int.add_assoc]

mutual

theorem balance_events : ∀ o : Outline, balance o.events = 0
  | .node (.element e) ts => by
    by_cases hts : ts = []
    · subst hts
      rfl
    · rw [Outline.events_element e hts, balance_cons, balance_append, balance_eventsOf]
      rfl
  | .node (.text _) _ => rfl
  | .node (.comment _) _ => rfl
  | .node (.cdata _) _ => rfl

theorem balance_eventsOf : ∀ ts : List Outline, balance (eventsOf ts) = 0
  | [] => rfl
  | t :: ts => by rw [eventsOf, balance_append, balance_events, balance_eventsOf, Int.add_zero]

end

theorem balance_joinTexts (es : List Event) : balance (joinTexts es) = balance es := by
  induction es with
  | nil => rfl
  | cons e es ih =>
    rw [Event.joinTexts_cons, balance_cons, ← ih]
    cases e with
    | text raw =>
      rw [Event.put]
      unfold Event.addText
      split
      · simp [Event.balance]
      · split
        · rename_i hes
          rw [hes]
          simp [balance_cons, Event.balance]
        · rw [balance_cons]
    | _ => rw [Event.put_of_not_isText rfl, balance_cons]

theorem begins_ne {content x y : List Char} {c : Char} (hb : Event.BeginsTag content) (hc : c = '!' ∨ c = '/')
    (hx : content = [] → x.head? ≠ some c) : content ++ x ≠ c :: y := by
  intro he
  cases content with
  | nil => exact hx rfl (by rw [← List.nil_append x, he]; rfl)
  | cons d s =>
    rw [List.cons_append, List.cons.injEq] at he
    have := hb d rfl
    rw [he.1] at this
    exact hc.elim this.1 this.2.2

theorem written_text_ne {raw s : List Char} (h : (Event.text raw).Formed) : written (.text raw) ≠ '<' :: s := by
  intro he
  exact h.2 '<' (by rw [show raw = '<' :: s from he]; exact List.mem_cons_self) rfl

/-- What is written as a tag that begins is one. -/
theorem opens_of_written {content z : List Char} {f : Event} (hb : Event.BeginsTag content)
    (hz : content = [] → ∀ c ∈ z.head?, c ≠ '!' ∧ c ≠ '/') (hf : f.Formed) (h : '<' :: (content ++ z) = f.written) :
    (∃ content', f = .start content') ∨ ∃ content', f = .empty content' := by
  have hne {c : Char} {y : List Char} (hc : c = '!' ∨ c = '/') : content ++ z ≠ c :: y := by
    refine begins_ne hb hc ?_
    intro hnil hhead
    have := hz hnil c hhead
    exact hc.elim this.1 this.2
  cases f with
  | text raw => exact absurd h.symm (written_text_ne hf)
  | skipped => exact hf.elim
  | start content' => exact Or.inl ⟨content', rfl⟩
  | empty content' => exact Or.inr ⟨content', rfl⟩
  | finish name => exact absurd (List.cons.inj h).2 (hne (Or.inr rfl))
  | comment s => exact absurd (List.cons.inj h).2 (hne (Or.inl rfl))
  | cdata s => exact absurd (List.cons.inj h).2 (hne (Or.inl rfl))

/-- What is written as a comment or a CDATA section is one, or a tag that begins. -/
theorem declares_of_written {y : List Char} {f : Event} (hf : f.Formed) (h : '<' :: '!' :: y = f.written) :
    (∃ content, f = .start content) ∨ (∃ s, f = .comment s) ∨ ∃ s, f = .cdata s := by
  cases f with
  | text raw => exact absurd h.symm (written_text_ne hf)
  | skipped => exact hf.elim
  | start content => exact Or.inl ⟨content, rfl⟩
  | empty content =>
    obtain ⟨e, hr, rfl⟩ := hf
    exact absurd (List.cons.inj h).2.symm (begins_ne hr.begins (Or.inl rfl) fun _ => by simp)
  | finish name => cases h
  | comment s => exact Or.inr (Or.inl ⟨s, rfl⟩)
  | cdata s => exact Or.inr (Or.inr ⟨s, rfl⟩)

/-- A piece that is written as one that can be cut out is that piece, unless it opens more tags. -/
theorem eq_or_balance_lt {e f : Event} (he : e.Delimited) (he' : e.Formed) (hf : f.Formed)
    (h : e.written = f.written) : e = f ∨ e.balance < f.balance := by
  cases e with
  | skipped => exact he.elim
  | text raw =>
    cases f with
    | text raw' => exact Or.inl (by rw [show raw = raw' from h])
    | skipped => exact hf.elim
    | _ => exact absurd h (written_text_ne he')
  | finish name =>
    cases f with
    | finish name' =>
      simp only [written, List.cons.injEq, true_and, List.append_cancel_right_eq] at h
      exact Or.inl (by rw [h])
    | skipped => exact hf.elim
    | _ => exact Or.inr (by simp [Event.balance])
  | start content =>
    obtain ⟨_, hb, hlast⟩ := he
    left
    rcases opens_of_written hb (fun _ => by simp) hf h with ⟨content', rfl⟩ | ⟨content', rfl⟩
    · simp only [written, List.cons.injEq, true_and, List.append_cancel_right_eq] at h
      rw [h]
    · simp only [written, List.cons.injEq, true_and] at h
      rw [List.append_cons content' '/' ['>'], List.append_cancel_right_eq] at h
      rw [h, List.getLast?_concat] at hlast
      exact absurd rfl hlast
  | empty content =>
    obtain ⟨_, hb, hne⟩ := he
    rcases opens_of_written hb (fun hnil => absurd hnil hne) hf h with ⟨content', rfl⟩ | ⟨content', rfl⟩
    · exact Or.inr (by simp [Event.balance])
    · simp only [written, List.cons.injEq, true_and, List.append_cancel_right_eq] at h
      exact Or.inl (by rw [h])
  | comment s =>
    rcases declares_of_written hf h with ⟨content, rfl⟩ | ⟨s', rfl⟩ | ⟨s', rfl⟩
    · exact Or.inr (by simp [Event.balance])
    · simp only [written, List.append_cancel_right_eq, List.append_cancel_left_eq] at h
      exact Or.inl (by rw [h])
    · cases h
  | cdata s =>
    rcases declares_of_written hf h with ⟨content, rfl⟩ | ⟨s', rfl⟩ | ⟨s', rfl⟩
    · exact Or.inr (by simp [Event.balance])
    · cases h
    · simp only [written, List.append_cancel_right_eq, List.append_cancel_left_eq] at h
      exact Or.inl (by rw [h])

/-- Pieces that are written as ones that can be cut out are those pieces, unless they open more tags. -/
theorem eq_or_balance_lt_list {es fs : List Event} (he : ∀ e ∈ es, e.Delimited ∧ e.Formed)
    (hf : ∀ f ∈ fs, f.Formed) (h : es.map written = fs.map written) : es = fs ∨ balance es < balance fs := by
  induction es generalizing fs with
  | nil =>
    rw [List.map_nil, eq_comm, List.map_eq_nil_iff] at h
    exact Or.inl h.symm
  | cons e es ih =>
    obtain ⟨f, fs, rfl⟩ : ∃ f fs', fs = f :: fs' := by
      cases fs with
      | nil => cases h
      | cons f fs => exact ⟨f, fs, rfl⟩
    rw [List.forall_mem_cons] at he hf
    rw [List.map_cons, List.map_cons, List.cons.injEq] at h
    rw [balance_cons, balance_cons]
    rcases eq_or_balance_lt he.1.1 he.1.2 hf.1 h.1 with rfl | hlt
    · rcases ih he.2 hf.2 h.2 with rfl | hlt
      · exact Or.inl rfl
      · right
        omega
    · right
      rcases ih he.2 hf.2 h.2 with rfl | hlt' <;> omega

/-- Pieces that are written alike are the same, if as many tags begin in them as end. -/
theorem eq_of_written {es fs : List Event} (he : ∀ e ∈ es, e.Delimited ∧ e.Formed) (hf : ∀ f ∈ fs, f.Formed)
    (h : es.map written = fs.map written) (hb : balance es = balance fs) : es = fs :=
  (eq_or_balance_lt_list he hf h).resolve_right (by omega)

mutual

theorem legible_of_delimited : ∀ {o : Outline}, o.All WasRead →
    (∀ e ∈ o.events, e.isText = false → e.Delimited) → o.All Legible
  | .node (.element e) ts, ⟨_, ht⟩, h => by
    by_cases hts : ts = []
    · subst hts
      obtain ⟨hc, _, hne⟩ := h (.empty e.content) (by simp [Outline.events]) rfl
      exact ⟨⟨hc, hne⟩, trivial⟩
    · rw [Outline.events_element e hts] at h
      obtain ⟨hc, _, hlast⟩ := h (.start e.content) (by simp) rfl
      refine ⟨⟨hc, ?_⟩, legible_of_delimitedOf ht fun f hf => h f (by simp [hf])⟩
      rw [if_neg (by simpa using hts)]
      exact hlast
  | .node (.text _) _, ⟨⟨hnil, _⟩, _⟩, _ => ⟨trivial, by rw [hnil]; trivial⟩
  | .node (.comment _) _, ⟨⟨hnil, _⟩, _⟩, _ => ⟨trivial, by rw [hnil]; trivial⟩
  | .node (.cdata _) _, ⟨⟨hnil, _⟩, _⟩, _ => ⟨trivial, by rw [hnil]; trivial⟩

theorem legible_of_delimitedOf : ∀ {ts : List Outline}, AllOf WasRead ts →
    (∀ e ∈ eventsOf ts, e.isText = false → e.Delimited) → AllOf Legible ts
  | [], _, _ => trivial
  | _ :: _, ⟨ht, hts⟩, h =>
    ⟨legible_of_delimited ht fun e he => h e (List.mem_append_left _ he),
      legible_of_delimitedOf hts fun e he => h e (List.mem_append_right _ he)⟩

end

/-- What was read and is written in a form that is read as it is written is legible. -/
theorem legible_of_stable {d d' : Document} (hr : d.root.outline.All WasRead)
    (hp : Document.parse d.markup = .ok d') (hm : d'.markup = d.markup) : d.root.outline.All Legible := by
  obtain ⟨hcuts, hapart⟩ := cuts_of_fixed hp hm
  have hformed := formed_events (wasRead_of_parse hp)
  have hformed' := formed_joinTexts (formed_events hr)
  have hdelimited : ∀ e ∈ d'.root.outline.events, e.Delimited ∧ e.Formed := by
    intro e he
    refine ⟨(hcuts.isCut e he).1.resolve_left ?_, hformed e he⟩
    intro heq
    subst heq
    exact hformed _ he
  have htext : d'.root.outline.events.flatMap written = (joinTexts d.root.outline.events).flatMap written := by
    rw [Event.written_joinTexts, ← markup_toList, ← markup_toList, hm]
  have hwritten := written_unique hformed hformed' hapart (apart_joinTexts _) htext
  have hsame := eq_of_written hdelimited hformed' hwritten (by rw [balance_joinTexts, balance_events, balance_events])
  apply legible_of_delimited hr
  intro e he ht
  have hmem := (Event.mem_joinTexts ht).mpr he
  rw [← hsame] at hmem
  exact (hdelimited e hmem).1

theorem stable_iff {d : Document} (hv : d.validate = .ok d) (hr : d.root.outline.All WasRead) :
    (∃ d', Document.parse d.markup = .ok d' ∧ d'.markup = d.markup) ↔ d.root.outline.All Legible :=
  ⟨fun ⟨_, hp, hm⟩ => legible_of_stable hr hp hm, stable_of_legible hv hr⟩

end SvgComponent.Markup
