/-
  SvgComponent.Proofs.Clean.Naming — cleaning renames nothing.

  Every pass leaves the names of elements and the keys of their attributes as they are, and makes no text empty
  (`naming`, `takes_naming`). Therefore what holds of a document that was read holds of it still after cleaning
  (`wasRead_runPasses`, `validate_runPasses`).
-/

import SvgComponent.Proofs.Clean.Merging
import SvgComponent.Proofs.Markup.Reading

namespace SvgComponent.Markup

/-! ## The change that keeps names -/

/-- Names and keys stay, and so does what is neither element nor text; text does not become empty. -/
def Content.SameNames : Content → Content → Prop
  | .element e, c => ∃ e', c = .element e' ∧ e.SameNames e'
  | .text s, c => ∃ s', c = .text s' ∧ (s ≠ "" → s' ≠ "")
  | .comment s, c => c = .comment s
  | .cdata s, c => c = .cdata s

def naming : Change where
  cut _ _ := True
  edit := Content.SameNames
  refl c := by
    cases c with
    | element e => exact ⟨e, rfl, .refl e⟩
    | text s => exact ⟨s, rfl, id⟩
    | comment s => rfl
    | cdata s => rfl
  trans := by
    intro a b c hab hbc
    cases a with
    | element e =>
      obtain ⟨e', rfl, h⟩ := hab
      obtain ⟨e'', rfl, h'⟩ := hbc
      exact ⟨e'', rfl, h.trans h'⟩
    | text s =>
      obtain ⟨s', rfl, h⟩ := hab
      obtain ⟨s'', rfl, h'⟩ := hbc
      exact ⟨s'', rfl, h' ∘ h⟩
    | comment s =>
      obtain rfl : b = .comment s := hab
      exact hbc
    | cdata s =>
      obtain rfl : b = .cdata s := hab
      exact hbc
  cut_iff _ := Iff.rfl

/-- What every enabled pass does, cleaning does. -/
theorem Change.takes_runPasses {k : Change} {o : Clean.Options}
    (h : ∀ p, o.enables p = true → ∀ d, k.Takes d (p.apply o.places d).1) (d : Document) :
    k.Takes d (Clean.runPasses o d).1 := by
  apply takes_foldl k Prod.fst (Clean.Pass.runAfter o.places) (Clean.Pass.all.filter o.enables) (d, [])
  intro s p hp _
  exact h p (List.mem_filter.mp hp).2 s.1

theorem takes_naming_of_cutting {t : Nat → Prop} {d d' : Document} (h : (Change.cutting t).Takes d d') :
    naming.Takes d d' := h.of_cutting fun _ _ _ _ => trivial

theorem takes_naming (places : Nat) (p : Clean.Pass) (d : Document) : naming.Takes d (p.apply places d).1 := by
  cases p with
  | duplicates => exact takes_naming_of_cutting (Change.takes_removeDuplicates d)
  | definitions => exact takes_naming_of_cutting (Change.takes_removeUnusedDefinitions d)
  | rounding => exact Change.takes_editElements (k := naming) (fun e => ⟨_, rfl, sameNames_replaceValues _ e⟩) d
  | paths => exact Change.takes_editElements (k := naming) (fun e => ⟨_, rfl, (redrawn_simplifyPath e).names⟩) d
  | colors => exact Change.takes_editElements (k := naming) (fun e => ⟨_, rfl, sameNames_replaceValues _ e⟩) d
  | whitespace =>
    exact Change.takes_trimTexts (k := naming) (fun _ _ _ => trivial) (fun s hs => ⟨_, rfl, fun _ => hs⟩) d
  | styles => exact takes_naming_of_cutting (Change.takes_removeEmptyStyles d)
  | merging =>
    refine (takes_mergePaths d).mono (fun _ _ _ => trivial) ?_
    intro a b hab
    cases hab with
    | element h => exact ⟨_, rfl, h.names⟩
    | other => exact naming.refl a

theorem takes_naming_runPasses (o : Clean.Options) (d : Document) : naming.Takes d (Clean.runPasses o d).1 :=
  Change.takes_runPasses (fun p _ d => takes_naming o.places p d) d

/-! ## What stays true -/

theorem Element.SameNames.wasRead {e e' : Element} (h : e.SameNames e') (hr : e.WasRead) : e'.WasRead := by
  have hmem : ∀ a' ∈ e'.attributes, ∃ a ∈ e.attributes, a.name = a'.name := by
    intro a' ha'
    have := List.mem_map_of_mem (f := (·.name)) ha'
    rw [h.keys] at this
    exact List.mem_map.mp this
  have hunique : (e'.attributes.map (·.name.full)) = e.attributes.map (·.name.full) := by
    have := congrArg (List.map Name.full) h.keys
    simpa only [List.map_map, Function.comp_def] using this
  refine ⟨⟨h.name ▸ hr.spelled.name, h.name ▸ hr.spelled.blank, ?_, hunique ▸ hr.spelled.unique⟩, ?_, h.name ▸ hr.hides,
    fun hnil => h.name ▸ hr.bare (h.nil_iff.mp hnil)⟩
  · intro a' ha'
    obtain ⟨a, ha, hname⟩ := hmem a' ha'
    have := hr.spelled.attributes a ha
    exact ⟨hname ▸ this.name, hname ▸ this.nonempty, hname ▸ this.blank, hname ▸ this.equals⟩
  · intro c hc
    have hbegins := hr.begins
    rw [Element.content, h.name] at hc
    rw [Element.content] at hbegins
    cases hname : e.name.full.toList with
    | nil =>
      rw [hname, List.nil_append] at hc
      cases has : e'.attributes with
      | nil => rw [has] at hc; cases hc
      | cons a as =>
        rw [has] at hc
        cases hc
        decide
    | cons d s =>
      rw [hname] at hc hbegins
      exact hbegins c hc

theorem wasRead_congr {c c' : Content} {ts ts' : List Outline} (hc : c.SameNames c') (ht : ts = [] → ts' = [])
    (h : WasRead c ts) : WasRead c' ts' := by
  cases c with
  | element e =>
    obtain ⟨e', rfl, hs⟩ := hc
    exact ⟨hs.wasRead h.1, fun hne => hs.name ▸ h.2 fun hnil => hne (ht hnil)⟩
  | text s =>
    obtain ⟨s', rfl, hs⟩ := hc
    exact ⟨ht h.1, hs h.2⟩
  | comment s =>
    obtain rfl : c' = .comment s := hc
    exact ⟨ht h.1, h.2⟩
  | cdata s =>
    obtain rfl : c' = .cdata s := hc
    exact ⟨ht h.1, h.2⟩

theorem wasRead_outline {d d' : Document} (h : naming.Takes d d') {i : Nat} (hr : (d.outline i).All WasRead) :
    (d'.outline i).All WasRead := by
  rw [Document.outline_eq] at hr ⊢
  obtain ⟨hc, hts⟩ := hr
  rw [Outline.allOf_iff, List.forall_mem_map] at hts
  refine ⟨wasRead_congr (h.content i) ?_ hc, ?_⟩
  · rw [List.map_eq_nil_iff, List.map_eq_nil_iff]
    intro hnil
    have := h.children i
    rw [hnil] at this
    exact List.sublist_nil.mp this
  · rw [Outline.allOf_iff, List.forall_mem_map]
    intro c hmem
    have hmem' := (h.children i).subset hmem
    have hlt := d.linked.lt_of_mem_children hmem'
    have hsize := d.linked.mem_children_lt_size hmem'
    exact wasRead_outline h (hts c hmem')
termination_by d.size - i

/-- Whatever is cleaned away, what is left of a document that was read was read. -/
theorem wasRead_runPasses (o : Clean.Options) {d : Document} (h : d.root.outline.All WasRead) :
    (Clean.runPasses o d).1.root.outline.All WasRead := wasRead_outline (takes_naming_runPasses o d) h

/-- Cleaning leaves an image an image. -/
theorem validate_runPasses (o : Clean.Options) {d : Document} (h : d.validate = .ok d) :
    (Clean.runPasses o d).1.validate = .ok (Clean.runPasses o d).1 := by
  obtain ⟨e, he, hsvg, hsized⟩ := validate_iff.mp h
  have hroot := (takes_naming_runPasses o d).content 0
  rw [he] at hroot
  obtain ⟨e', he', hs⟩ := hroot
  refine validate_iff.mpr ⟨e', he', ?_, hs.isSized ▸ hsized⟩
  rwa [Element.is, hs.name]

end SvgComponent.Markup
