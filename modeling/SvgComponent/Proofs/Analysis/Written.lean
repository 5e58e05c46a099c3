/-
  SvgComponent.Proofs.Analysis.Written — every reference that is written is found.

  A text is cut into the places where `url(` stands, up to the next closing parenthesis each (`Form`), and what comes
  behind the last of them. Each cut falls where it should, because `url(` cannot begin in what stands before it, and so
  the scanner looks at each form once, in order (`targets_forms`). A form that names an id, with or without quotes and
  with blanks around, refers to it (`Form.Names.target?_inner`).

  `references_complete` is the whole: texts of such forms refer to their ids and to nothing else, and a document refers
  to every id that is named in a reference attribute or in the text of a style element, and to each fragment in a link.
-/

import SvgComponent.Proofs.Clean.References
import SvgComponent.Proofs.Markup.Reading

namespace SvgComponent.Analysis

open Markup (Attribute Change Document Element Name)

def opening : List Char := ['u', 'r', 'l', '(']

/-- Text without `url(`, then `url(`, and what stands up to the closing parenthesis. -/
structure Form where
  before : List Char
  inner : List Char
  alone : ¬ opening <:+: before
  closed : ')' ∉ inner

namespace Form

def text (f : Form) : List Char := f.before ++ opening ++ (f.inner ++ [')'])

/-- `#id` in the parentheses, bare or between two quotes of one kind, with blanks around; the id has no blanks and no
    quotes in it. -/
def Names (f : Form) (id : List Char) : Prop :=
  id ≠ [] ∧ (∀ c ∈ id, Text.isBlank c = false ∧ isQuote c = false) ∧
    ∃ left quote right, (∀ c ∈ left, Text.isBlank c = true) ∧ (∀ c ∈ right, Text.isBlank c = true) ∧
      (quote = [] ∨ quote = ['\''] ∨ quote = ['\"']) ∧
      f.inner = left ++ (quote ++ '#' :: id ++ quote) ++ right

/-- Blanks go first, and then the quotes. -/
theorem Names.target?_inner {f : Form} {id : List Char} (h : f.Names id) : target? f.inner = some id := by
  obtain ⟨hne, hid, left, quote, right, hleft, hright, hquote, hinner⟩ := h
  have hmarks : ∀ c ∈ quote, Text.isBlank c = false ∧ isQuote c = true := by
    rcases hquote with rfl | rfl | rfl <;> decide
  have htarget : ∀ c ∈ '#' :: id, Text.isBlank c = false ∧ isQuote c = false := by
    rw [List.forall_mem_cons]
    exact ⟨by decide, hid⟩
  have htrim : Text.trim f.inner = quote ++ '#' :: id ++ quote := by
    rw [hinner, Text.trim, Text.trimWhile_append_right hright, Text.trimWhile_append_left hleft]
    refine Text.trimWhile_of_forall fun c hc => ?_
    rw [List.mem_append, List.mem_append] at hc
    rcases hc with (hc | hc) | hc
    · exact (hmarks c hc).1
    · exact (htarget c hc).1
    · exact (hmarks c hc).1
  have hquotes : ∀ c ∈ quote, isQuote c = true := fun c hc => (hmarks c hc).2
  rw [target?, htrim, Text.trimWhile_append_right hquotes, Text.trimWhile_append_left hquotes,
    Text.trimWhile_of_forall fun c hc => (htarget c hc).2, fragment?]
  exact if_neg fun hempty => hne (List.isEmpty_iff.mp hempty)

end Form

/-- A text of forms, and what comes behind them. -/
def formsText (forms : List Form) (after : List Char) : List Char := forms.flatMap Form.text ++ after

/-- The forms of a text are looked at one after the other. -/
theorem targets_forms (forms : List Form) {after : List Char} (h : ¬ opening <:+: after) :
    targets (formsText forms after) = forms.flatMap fun f => (target? f.inner).toList := by
  induction forms with
  | nil =>
    have hnone : Text.cutBefore ['u', 'r', 'l', '('] after = none := Text.cutBefore_eq_none h
    rw [formsText, List.flatMap_nil, List.nil_append, targets]
    split
    · rfl
    · rename_i hcut
      rw [hnone] at hcut
      cases hcut
  | cons f forms ih =>
    have htext : formsText (f :: forms) after = f.before ++ opening ++ (f.inner ++ ')' :: formsText forms after) := by
      simp [formsText, Form.text]
    have hopening : Text.cutBefore ['u', 'r', 'l', '('] (formsText (f :: forms) after) =
        some (f.before, f.inner ++ ')' :: formsText forms after) := by
      rw [htext]
      exact Text.cutBefore_of_nodup (by decide) f.alone _
    have hclosing : Text.cutAt ')' (f.inner ++ ')' :: formsText forms after) = some (f.inner, formsText forms after) :=
      Text.cutAt_append f.closed _
    rw [targets]
    split
    · rename_i hcut
      rw [hopening] at hcut
      cases hcut
    · rename_i hcut
      rw [hopening] at hcut
      cases hcut
      split
      · rename_i hcut
        rw [hclosing] at hcut
        cases hcut
      · rename_i hcut
        rw [hclosing] at hcut
        cases hcut
        rw [ih, List.flatMap_cons]

/-- What a form of a text names, the text refers to, whatever the other forms are. -/
theorem mem_references_of_names {s : String} {forms : List Form} {after : List Char} (h : ¬ opening <:+: after)
    (hs : s.toList = formsText forms after) {f : Form} (hf : f ∈ forms) {id : List Char} (hid : f.Names id) :
    String.ofList id ∈ references s := by
  rw [references, hs, targets_forms forms h]
  refine List.mem_map_of_mem (List.mem_flatMap.mpr ⟨f, hf, ?_⟩)
  rw [hid.target?_inner]
  exact List.mem_singleton_self id

theorem contains_referenceAttributes {full : String} (h : full ∈ referenceAttributes) :
    referenceAttributes.contains full = true := List.contains_iff_mem.mpr h

/-- A fragment in a link is a reference by itself. -/
theorem mem_attributeReferences_of_link {a : Attribute} (ha : a.name = Name.parse "href" ∨ a.name = Name.parse "xlink:href")
    {id : List Char} (hne : id ≠ []) (hvalue : Text.trim a.value.toList = '#' :: id) :
    String.ofList id ∈ attributeReferences a := by
  have hlink : a.name.full ∈ referenceAttributes ∧ a.name.base = "href" := by
    rcases ha with h | h <;> rw [h] <;> decide
  have hfragment : fragment? ('#' :: id) = some id := if_neg fun hempty => hne (List.isEmpty_iff.mp hempty)
  rw [attributeReferences, if_pos (contains_referenceAttributes hlink.1), if_pos hlink.2, hvalue, hfragment]
  exact List.mem_append_right _ (List.mem_singleton_self _)

/-- A text of forms that name ids refers to just these, in order. A document refers to every id that a form names in a
    reference attribute of an attached element or in all the text of an attached style element, and to what a link of
    an attached element has behind a number sign. -/
theorem references_complete :
    (∀ forms ids after, ¬ opening <:+: after → List.Forall₂ Form.Names forms ids →
      references (String.ofList (formsText forms after)) = ids.map String.ofList) ∧
    ∀ (d : Document) i e, d.isAttached i = true → d.content i = .element e →
      (∀ forms after, ¬ opening <:+: after → ∀ f ∈ forms, ∀ id, f.Names id →
        (∀ a ∈ e.attributes, a.name.full ∈ referenceAttributes → a.value.toList = formsText forms after →
          String.ofList id ∈ d.references) ∧
        (e.is "style" = true → (d.textContent i).toList = formsText forms after → String.ofList id ∈ d.references)) ∧
      ∀ a ∈ e.attributes, (a.name = Name.parse "href" ∨ a.name = Name.parse "xlink:href") →
        ∀ id, id ≠ [] → Text.trim a.value.toList = '#' :: id → String.ofList id ∈ d.references := by
  refine ⟨fun forms ids after hafter hnames => ?_, fun d i e hi he => ?_⟩
  · rw [references, String.toList_ofList, targets_forms forms hafter]
    congr 1
    induction hnames with
    | nil => rfl
    | cons h _ ih => rw [List.flatMap_cons, h.target?_inner, ih, Option.toList_some, List.singleton_append]
  · have hbelow := Document.isAttached_iff.mp hi
    refine ⟨fun forms after hafter f hf id hid => ⟨fun a ha hname hvalue => ?_, fun hstyle htext => ?_⟩,
      fun a ha hlink id hne hvalue => ?_⟩
    · refine Markup.mem_references_iff.mpr ⟨i, e, hbelow, he, .inr (List.mem_flatMap.mpr ⟨a, ha, ?_⟩)⟩
      rw [attributeReferences, if_pos (contains_referenceAttributes hname)]
      exact List.mem_append_left _ (mem_references_of_names hafter hvalue hf hid)
    · exact Markup.mem_references_iff.mpr
        ⟨i, e, hbelow, he, .inl ⟨hstyle, mem_references_of_names hafter htext hf hid⟩⟩
    · exact Markup.mem_references_iff.mpr ⟨i, e, hbelow, he,
        .inr (List.mem_flatMap.mpr ⟨a, ha, mem_attributeReferences_of_link hlink hne hvalue⟩)⟩

/-- An id in the text of a style element that is cut in the middle of the reference, one behind an address, and a link. -/
theorem references_complete_scattered :
    ∃ d, Document.parse "<svg viewBox=\"0 0 1 1\"><style>a\x7bfill:url( '<![CDATA[#s' )\x7d]]></style><use fill=\"url(http://x) url(&quot;#q&quot;)\" xlink:href=\" #h\"/></svg>" = .ok d ∧
      "s" ∈ d.references ∧ "q" ∈ d.references ∧ "h" ∈ d.references := by
  obtain ⟨d, hd, h1, h4, e1, he1, hstyle, htext, e4, he4, hattributes⟩ : ∃ d, Document.parse
      "<svg viewBox=\"0 0 1 1\"><style>a\x7bfill:url( '<![CDATA[#s' )\x7d]]></style><use fill=\"url(http://x) url(&quot;#q&quot;)\" xlink:href=\" #h\"/></svg>" = .ok d ∧
      d.isAttached 1 = true ∧ d.isAttached 4 = true ∧ ∃ e1 ∈ d.element? 1, e1.is "style" = true ∧
        (d.textContent 1).toList = "a\x7bfill:url( '#s' )\x7d".toList ∧ ∃ e4 ∈ d.element? 4,
          e4.attributes = [⟨Name.parse "fill", "url(http://x) url(\"#q\")"⟩, ⟨Name.parse "xlink:href", " #h"⟩] := by
    set_option maxRecDepth 1000 in
    refine Markup.exists_parse String.toList_ofList ?_
    decide +kernel
  obtain ⟨hforms1, -⟩ := references_complete.2 d 1 e1 h1 (Change.element?_eq_some.mp he1)
  obtain ⟨hforms4, hlinks⟩ := references_complete.2 d 4 e4 h4 (Change.element?_eq_some.mp he4)
  let styled : Form := ⟨"a\x7bfill:".toList, " '#s' ".toList, by decide +kernel, by decide +kernel⟩
  let address : Form := ⟨[], "http://x".toList, by decide +kernel, by decide +kernel⟩
  let painted : Form := ⟨[' '], "\"#q\"".toList, by decide +kernel, by decide +kernel⟩
  have hs : styled.Names ['s'] :=
    ⟨by simp, by decide, [' '], ['\''], [' '], by decide, by decide, .inr (.inl rfl), by decide +kernel⟩
  have hq : painted.Names ['q'] :=
    ⟨by simp, by decide, [], ['\"'], [], by decide, by decide, .inr (.inr rfl), by decide +kernel⟩
  refine ⟨d, hd, ?_, ?_, ?_⟩
  · exact (hforms1 [styled] ['\x7d'] (by decide) styled (by simp) ['s'] hs).2 hstyle (htext.trans (by decide +kernel))
  · exact (hforms4 [address, painted] [] (by decide) painted (by simp) ['q'] hq).1 ⟨Name.parse "fill", "url(http://x) url(\"#q\")"⟩
      (by simp [hattributes]) (by decide +kernel) (by decide +kernel)
  · exact hlinks ⟨Name.parse "xlink:href", " #h"⟩ (by simp [hattributes]) (.inr rfl) ['h'] (by simp) (by decide +kernel)

end SvgComponent.Analysis
