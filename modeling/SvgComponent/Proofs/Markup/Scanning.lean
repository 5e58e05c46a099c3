/-
  SvgComponent.Proofs.Markup.Scanning — cutting text into pieces, and writing the pieces again.

  - `scan_written`: pieces that are `Delimited` are cut out of their written forms, adjacent text as one.
  - `cuts_scan`: whatever text is cut, every piece has its own part of it (`Source`) and is delimited, and no text
    comes right after text (`apart_scan`).
-/

import Mathlib.Data.List.Chain
import Mathlib.Data.List.DropRight
import SvgComponent.Proofs.Markup.Outline
import SvgComponent.Proofs.Markup.Quotes

namespace SvgComponent.Markup

namespace Event

/-- What keeps a tag's content from being read as other markup. -/
def BeginsTag (content : List Char) : Prop := ∀ c ∈ content.head?, c ≠ '!' ∧ c ≠ '?' ∧ c ≠ '/'

/-- In front of anything, the piece is cut out as it is written. -/
def Delimited : Event → Prop
  | text raw => ∀ c ∈ raw, c ≠ '<'
  | start content => IsClosed content ∧ BeginsTag content ∧ content.getLast? ≠ some '/'
  | empty content => IsClosed content ∧ BeginsTag content ∧ content ≠ []
  | finish name => IsClosed name ∧ endName name = name
  | comment s => ¬ ['-', '-', '>'] <:+: s
  | cdata s => ¬ [']', ']', '>'] <:+: s
  | skipped => False

/-! ## Tags -/

theorem markup_eq_cutTag {s : List Char} (h : ∀ c ∈ s.head?, c ≠ '!' ∧ c ≠ '?') :
    markup s =
      match cutTag none s with
      | some (content, rest) => .ok (ofTag content, rest)
      | none => .error (.unclosed .tag) := by
  unfold markup
  split
  · exact absurd rfl (h '!' rfl).1
  · exact absurd rfl (h '?' rfl).2
  · rfl

/-- A tag is cut at the first bracket that closes it. -/
theorem markup_closed {content : List Char} (hc : IsClosed content)
    (h : ∀ c ∈ content.head?, c ≠ '!' ∧ c ≠ '?') (rest : List Char) :
    markup (content ++ '>' :: rest) = .ok (ofTag content, rest) := by
  have hhead : ∀ c ∈ (content ++ '>' :: rest).head?, c ≠ '!' ∧ c ≠ '?' := by
    cases content with
    | nil =>
      intro c hc
      cases hc
      decide
    | cons d content => exact h
  rw [markup_eq_cutTag hhead, cutTag_of_closed hc]

theorem ofTag_start {content : List Char} (hb : BeginsTag content) (hl : content.getLast? ≠ some '/') :
    ofTag content = .start content := by
  have hh : content.head? ≠ some '/' := fun h => (hb '/' h).2.2 rfl
  simp [ofTag, hh, hl]

theorem ofTag_empty {content : List Char} (hb : BeginsTag content) (hne : content ≠ []) :
    ofTag (content ++ ['/']) = .empty content := by
  have hh : (content ++ ['/']).head? ≠ some '/' := by
    cases content with
    | nil => exact absurd rfl hne
    | cons c content =>
      intro h
      exact (hb '/' h).2.2 rfl
  rw [ofTag, if_neg hh, List.getLast?_concat, if_pos rfl, List.dropLast_concat]

theorem ofTag_finish (s : List Char) : ofTag ('/' :: s) = .finish (endName s) := rfl

/-! ## Writing in front of more -/

theorem markup_written {e : Event} (h : e.Delimited) (ht : e.isText = false) :
    ∃ w, e.written = '<' :: w ∧ ∀ rest, markup (w ++ rest) = .ok (e, rest) := by
  cases e with
  | text raw => cases ht
  | start content =>
    obtain ⟨hc, hb, hl⟩ := h
    refine ⟨content ++ ['>'], rfl, ?_⟩
    intro rest
    rw [List.append_assoc, List.singleton_append, markup_closed hc fun c hc => ⟨(hb c hc).1, (hb c hc).2.1⟩,
      ofTag_start hb hl]
  | empty content =>
    obtain ⟨hc, hb, hne⟩ := h
    refine ⟨content ++ ['/', '>'], rfl, ?_⟩
    intro rest
    have hc' : IsClosed (content ++ ['/']) := (closed_append_inert (List.forall_mem_singleton.mpr rfl)).mpr hc
    have hh : ∀ c ∈ (content ++ ['/']).head?, c ≠ '!' ∧ c ≠ '?' := by
      cases content with
      | nil => exact absurd rfl hne
      | cons d content => exact fun c hc => ⟨(hb c hc).1, (hb c hc).2.1⟩
    have := markup_closed hc' hh rest
    simp only [List.append_assoc, List.cons_append, List.nil_append] at this ⊢
    rw [this, ofTag_empty hb hne]
  | finish name =>
    obtain ⟨hc, hn⟩ := h
    refine ⟨'/' :: (name ++ ['>']), rfl, ?_⟩
    intro rest
    have hc' : IsClosed ('/' :: name) := (closed_cons_inert (by decide) name).mpr hc
    have := markup_closed hc' (by simp) rest
    simp only [List.cons_append, List.append_assoc, List.nil_append] at this ⊢
    rw [this, ofTag_finish, hn]
  | comment s =>
    refine ⟨['!', '-', '-'] ++ s ++ ['-', '-', '>'], rfl, ?_⟩
    intro rest
    have hcut := Text.cutBefore_pair (by decide) h rest
    simp only [List.append_assoc, List.cons_append, List.nil_append] at hcut ⊢
    simp [markup, declaration, comment?, List.isPrefixOf?, hcut]
  | cdata s =>
    refine ⟨['!', '[', 'C', 'D', 'A', 'T', 'A', '['] ++ s ++ [']', ']', '>'], rfl, ?_⟩
    intro rest
    have hcut := Text.cutBefore_pair (by decide) h rest
    simp only [List.append_assoc, List.cons_append, List.nil_append] at hcut ⊢
    simp [markup, declaration, cdata?, List.isPrefixOf?, hcut]
  | skipped => exact h.elim

theorem isText_ofTag (content : List Char) : (ofTag content).isText = false := by
  unfold ofTag
  split
  · rfl
  · split <;> rfl

theorem isText_of_markup {s rest : List Char} {e : Event} (h : markup s = .ok (e, rest)) : e.isText = false := by
  unfold markup at h
  split at h
  · unfold declaration doctype at h
    repeat' split at h
    all_goals first | cases h; rfl | cases h
  · split at h
    · cases h
      rfl
    · cases h
  · split at h
    · cases h
      exact isText_ofTag _
    · cases h

end Event

namespace Stream

open Event

theorem scan_nil : scan [] = ⟨[], none⟩ := by rw [scan]

theorem scan_markup {s rest : List Char} {e : Event} (h : markup s = .ok (e, rest)) :
    scan ('<' :: s) = (scan rest).cons e := by
  rw [scan, if_pos rfl]
  split
  · rename_i h'
    rw [h] at h'
    cases h'
    rfl
  · rename_i h'
    rw [h] at h'
    cases h'

theorem scan_fault {s : List Char} {f : MarkupFault} (h : markup s = .error f) : scan ('<' :: s) = ⟨[], some f⟩ := by
  rw [scan, if_pos rfl]
  split
  · rename_i h'
    rw [h] at h'
    cases h'
  · rename_i h'
    rw [h] at h'
    cases h'
    rfl

theorem scan_text {c : Char} (h : c ≠ '<') (s : List Char) :
    scan (c :: s) = (scan (s.dropWhile (· != '<'))).cons (.text (c :: s.takeWhile (· != '<'))) := by
  rw [scan, if_neg h]

theorem isText_head_scan {s : List Char} : ∀ e ∈ (scan ('<' :: s)).events.head?, e.isText = false := by
  intro e he
  rw [scan, if_pos rfl] at he
  split at he
  · rename_i h
    cases he
    exact isText_of_markup h
  · cases he

theorem scan_append_text {raw : List Char} (h : ∀ c ∈ raw, c ≠ '<') (s : List Char) :
    scan (raw ++ s) = ⟨addText raw (scan s).events, (scan s).fault⟩ := by
  cases raw with
  | nil => rfl
  | cons c raw =>
    have hrun : ∀ d ∈ raw, (d != '<') = true := by
      intro d hd
      simpa using h d (List.mem_cons_of_mem _ hd)
    rw [List.cons_append, scan_text (h c List.mem_cons_self)]
    cases s with
    | nil =>
      rw [Text.dropWhile_append_stop hrun Text.stops_nil, Text.takeWhile_append_stop hrun Text.stops_nil]
      simp [scan_nil, cons, addText]
    | cons d s =>
      by_cases hd : d = '<'
      · subst hd
        rw [Text.dropWhile_append_stop hrun (Text.stops_cons (by decide) _),
          Text.takeWhile_append_stop hrun (Text.stops_cons (by decide) _), addText_eq_cons (by simp) isText_head_scan]
        rfl
      · have hd' : (d != '<') = true := by simpa using hd
        rw [List.dropWhile_append_of_pos hrun, List.takeWhile_append_of_pos hrun, scan_text hd,
          List.dropWhile_cons_of_pos (p := (· != '<')) hd', List.takeWhile_cons_of_pos (p := (· != '<')) hd']
        simp [cons, addText]

theorem scan_written {es : List Event} (h : ∀ e ∈ es, e.Delimited) :
    scan (es.flatMap written) = ⟨joinTexts es, none⟩ := by
  induction es with
  | nil => exact scan_nil
  | cons e es ih =>
    have ih := ih fun f hf => h f (List.mem_cons_of_mem _ hf)
    have he := h e List.mem_cons_self
    rw [List.flatMap_cons, joinTexts_cons]
    cases hk : e.isText with
    | true =>
      cases e with
      | text raw => rw [written, scan_append_text he, ih, put]
      | _ => cases hk
    | false =>
      obtain ⟨w, hw, hm⟩ := markup_written he hk
      rw [hw, List.cons_append, scan_markup (hm _), ih, put_of_not_isText hk]
      rfl

end Stream

/-! ## The part of a text that a piece is cut out of -/

namespace Event

/-- What a piece may have been cut out of. -/
def Source : Event → List Char → Prop
  | text raw, s => s = raw ∧ raw ≠ []
  | finish name, s => ∃ b, (∀ c ∈ b, isSpace c = true) ∧ s = '<' :: '/' :: (name ++ b ++ ['>'])
  | skipped, s => (∃ w, s = '<' :: '?' :: w) ∨ ∃ d w, s = '<' :: '!' :: d :: w ∧ d ≠ '-' ∧ d ≠ '['
  | e, s => s = e.written

/-- A list of pieces, each with its part of the text. -/
inductive Cuts : List Char → List Event → Prop
  | nil : Cuts [] []
  | cons {src rest : List Char} {e : Event} {es : List Event} (source : e.Source src)
      (delimited : e = .skipped ∨ e.Delimited) (h : Cuts rest es) : Cuts (src ++ rest) (e :: es)

/-- A piece as it is cut: it is skipped, or it could be cut again, and no text is empty. -/
def IsCut (e : Event) : Prop := (e = .skipped ∨ e.Delimited) ∧ e ≠ .text []

theorem Cuts.isCut {s : List Char} {es : List Event} (h : Cuts s es) : ∀ e ∈ es, e.IsCut := by
  induction h with
  | nil => simp
  | cons source delimited h ih =>
    intro f hf
    rcases List.mem_cons.mp hf with rfl | hf
    · refine ⟨delimited, ?_⟩
      intro heq
      subst heq
      exact source.2 rfl
    · exact ih f hf

/-- No text comes right after text. -/
def Apart (es : List Event) : Prop := es.IsChain fun e f => e.isText = true → f.isText = false

theorem endName_split (s : List Char) : ∃ b, (∀ c ∈ b, isSpace c = true) ∧ s = endName s ++ b := by
  unfold endName
  split
  · exact ⟨[], by simp, by simp⟩
  · refine ⟨(s.reverse.takeWhile isSpace).reverse, ?_, ?_⟩
    · intro c hc
      exact List.mem_takeWhile_imp (List.mem_reverse.mp hc)
    · unfold Text.dropEndWhile
      rw [← List.reverse_append, List.takeWhile_append_dropWhile, List.reverse_reverse]

theorem endName_endName (s : List Char) : endName (endName s) = endName s := by
  by_cases h : s.all isSpace
  · have hs : endName s = s := by rw [endName, if_pos h]
    rw [hs, hs]
  · have hs : endName s = Text.dropEndWhile isSpace s := by rw [endName, if_neg h]
    rw [hs, endName, Text.dropEndWhile, Text.dropEndWhile, List.reverse_reverse, List.dropWhile_idempotent, ite_self]

theorem source_tag {content : List Char} (hc : IsClosed content)
    (hh : ∀ c ∈ content.head?, c ≠ '!' ∧ c ≠ '?') :
    (ofTag content).Source ('<' :: (content ++ ['>'])) ∧ (ofTag content).Delimited := by
  unfold ofTag
  split
  · rename_i hslash
    obtain ⟨s, rfl⟩ := List.head?_eq_some_iff.mp hslash
    obtain ⟨b, hb, hs⟩ := endName_split s
    have hclosed := (closed_cons_inert (by decide) s).mp hc
    rw [hs] at hclosed
    refine ⟨⟨b, hb, ?_⟩, ?_, endName_endName s⟩
    · rw [List.drop_one, List.tail_cons, ← hs]
      rfl
    · exact (closed_append_inert fun c hc => isInert_of_isSpace (hb c hc)).mp hclosed
  · rename_i hhead
    have begins : ∀ {s}, s <+: content → BeginsTag s := by
      intro s hs c hcs
      have : content.head? = some c := by
        obtain ⟨t, rfl⟩ := hs
        cases s with
        | nil => cases hcs
        | cons d s => exact hcs
      refine ⟨(hh c this).1, (hh c this).2, ?_⟩
      intro heq
      subst heq
      exact hhead this
    split
    · rename_i hlast
      obtain ⟨s, rfl⟩ := List.getLast?_eq_some_iff.mp hlast
      rw [List.dropLast_concat]
      refine ⟨?_, (closed_append_inert (List.forall_mem_singleton.mpr rfl)).mp hc, begins (List.prefix_append _ _), ?_⟩
      · simp [Source, written]
      · intro heq
        subst heq
        exact hhead rfl
    · rename_i hlast
      exact ⟨rfl, hc, begins List.prefix_rfl, hlast⟩

theorem source_doctype {s rest : List Char} {e : Event} {d : Char} (hd : s.head? = some d) (h1 : d ≠ '-')
    (h2 : d ≠ '[') (h : doctype s = .ok (e, rest)) :
    ∃ src, '<' :: '!' :: s = src ++ rest ∧ e.Source src ∧ (e = .skipped ∨ e.Delimited) := by
  unfold doctype at h
  split at h
  · cases h
  · rename_i content rest' hcut
    have hs := cutNested_eq_some hcut
    split at h
    · cases h
    · split at h
      · cases h
      · cases h
        obtain ⟨w, hw⟩ : ∃ w, content ++ ['>'] = d :: w := by
          rw [hs] at hd
          cases content with
          | nil =>
            cases hd
            exact ⟨[], rfl⟩
          | cons c content =>
            cases hd
            exact ⟨content ++ ['>'], rfl⟩
        exact ⟨'<' :: '!' :: (content ++ ['>']), by simp [hs], Or.inr ⟨d, w, by rw [hw], h1, h2⟩, Or.inl rfl⟩

theorem source_declaration {s rest : List Char} {e : Event} (h : declaration s = .ok (e, rest)) :
    ∃ src, '<' :: '!' :: s = src ++ rest ∧ e.Source src ∧ (e = .skipped ∨ e.Delimited) := by
  unfold declaration at h
  split at h
  · split at h
    · rename_i content rest' hc
      cases h
      obtain ⟨r, hr, hcut⟩ := Option.bind_eq_some_iff.1 hc
      refine ⟨(Event.comment content).written, ?_, rfl, Or.inr (Text.not_infix_of_cutBefore (by simp) hcut)⟩
      rw [Text.isPrefixOf?_eq_some hr, Text.cutBefore_eq_some hcut]
      simp [written]
    · cases h
  · split at h
    · rename_i content rest' hc
      cases h
      obtain ⟨r, hr, hcut⟩ := Option.bind_eq_some_iff.1 hc
      refine ⟨(Event.cdata content).written, ?_, rfl, Or.inr (Text.not_infix_of_cutBefore (by simp) hcut)⟩
      rw [Text.isPrefixOf?_eq_some hr, Text.cutBefore_eq_some hcut]
      simp [written]
    · cases h
  · rename_i hd
    exact source_doctype hd (by decide) (by decide) h
  · rename_i hd
    exact source_doctype hd (by decide) (by decide) h
  · cases h

theorem source_instruction {s content rest : List Char} (h : instruction? s = some (content, rest)) :
    ∃ src, '<' :: '?' :: s = src ++ rest ∧ Event.skipped.Source src := by
  unfold instruction? at h
  split at h
  · cases h
  · refine ⟨'<' :: '?' :: (content ++ ['?', '>']), ?_, Or.inl ⟨_, rfl⟩⟩
    rw [Text.cutBefore_eq_some h]
    simp

theorem source_markup {s rest : List Char} {e : Event} (h : markup s = .ok (e, rest)) :
    ∃ src, '<' :: s = src ++ rest ∧ e.Source src ∧ (e = .skipped ∨ e.Delimited) := by
  by_cases hh : ∀ c ∈ s.head?, c ≠ '!' ∧ c ≠ '?'
  · rw [markup_eq_cutTag hh] at h
    split at h
    · rename_i content rest' hcut
      cases h
      have hs := cutTag_eq_some hcut
      have hhead : ∀ c ∈ content.head?, c ≠ '!' ∧ c ≠ '?' := by
        intro c hc
        apply hh c
        rw [hs]
        cases content with
        | nil => cases hc
        | cons d content => exact hc
      obtain ⟨hsource, hdelimited⟩ := source_tag (quoteAfter_of_cutTag hcut) hhead
      exact ⟨'<' :: (content ++ ['>']), by simp [hs], hsource, Or.inr hdelimited⟩
    · cases h
  · unfold markup at h
    split at h
    · exact source_declaration h
    · split at h
      · rename_i hc
        cases h
        obtain ⟨src, hsrc, hsource⟩ := source_instruction hc
        exact ⟨src, hsrc, hsource, Or.inl rfl⟩
      · cases h
    · rename_i h1 h2
      refine absurd ?_ hh
      intro c hc
      obtain ⟨s', rfl⟩ := List.head?_eq_some_iff.mp hc
      exact ⟨fun he => h1 s' (by rw [he]), fun he => h2 s' (by rw [he])⟩

end Event

namespace Stream

open Event

theorem cuts_scan (s : List Char) (h : (scan s).fault = none) : Cuts s (scan s).events := by
  induction s using scan.induct with
  | case1 => rw [scan_nil]; exact .nil
  | case2 s e rest hm ih =>
    obtain ⟨src, hsrc, hs, hd⟩ := source_markup hm
    rw [scan_markup hm] at h ⊢
    rw [hsrc]
    exact .cons hs hd (ih h)
  | case3 s f hm =>
    rw [scan_fault hm] at h
    cases h
  | case4 c s hc ih =>
    have hsplit : c :: s = (c :: s.takeWhile (· != '<')) ++ s.dropWhile (· != '<') := by
      rw [List.cons_append, List.takeWhile_append_dropWhile]
    rw [scan_text hc] at h ⊢
    rw [hsplit]
    refine .cons ⟨rfl, by simp⟩ (Or.inr ?_) (ih h)
    intro d hd
    rcases List.mem_cons.mp hd with rfl | hd
    · exact hc
    · simpa using List.mem_takeWhile_imp hd

theorem apart_scan (s : List Char) : Apart (scan s).events := by
  induction s using scan.induct with
  | case1 => rw [scan_nil]; exact .nil
  | case2 s e rest hm ih =>
    rw [scan_markup hm]
    refine List.isChain_cons.mpr ⟨?_, ih⟩
    intro f _ ht
    rw [isText_of_markup hm] at ht
    cases ht
  | case3 s f hm =>
    rw [scan_fault hm]
    exact .nil
  | case4 c s hc ih =>
    rw [scan_text hc]
    refine List.isChain_cons.mpr ⟨?_, ih⟩
    intro f hf _
    have hstop := Text.stops_dropWhile (· != '<') s
    cases hrest : s.dropWhile (· != '<') with
    | nil =>
      rw [hrest, scan_nil] at hf
      cases hf
    | cons d rest =>
      rw [hrest] at hf hstop
      have hd : d = '<' := by simpa using hstop d rfl
      subst hd
      exact isText_head_scan f hf

end Stream

end SvgComponent.Markup
