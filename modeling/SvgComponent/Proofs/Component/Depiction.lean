/-
  SvgComponent.Proofs.Component.Depiction — the markup of a component loses, adds and doubles nothing.

  Every document with an `svg` at its root has markup, and each shown node of the document that it is made of has exactly
  one node in it, in the same place (`generate_depicts`). A node hangs under its parent whatever that is, also under a text.
  What hangs there is attached, but as little converted as it is written to a file (`markup_omits_below_text`).
-/

import SvgComponent.Proofs.Component.Tidying
import SvgComponent.Proofs.Jsx.Depicted
import SvgComponent.Proofs.Jsx.Extracting
import SvgComponent.Proofs.Jsx.Identifiers
import SvgComponent.Proofs.Markup.Reading

namespace SvgComponent.Markup

theorem Element.isDrawn_of_is {e : Element} {name : String} (h : e.is name = true) (hname : name ≠ "style") :
    (Content.element e).isDrawn = true := by
  unfold is Name.is at h
  rw [Bool.and_eq_true, beq_iff_eq] at h
  rw [Content.isDrawn, is, Name.is, h.1, h.2, beq_false_of_ne hname]
  rfl

end SvgComponent.Markup

namespace SvgComponent.Component

open Markup (Document Element)

variable {d : Document} {e : Element}

/-- The root of what a component is made of is drawn. -/
theorem isDrawn_prepare (o : Options) (hroot : d.rootElement? = some e) (hsvg : e.is "svg" = true) :
    ((prepare o d).1.content 0).isDrawn = true := by
  obtain ⟨e', he', hkeeps⟩ := rootElement?_prepare o hroot
  have hsvg' : e'.is "svg" = true := by rwa [Element.is, hkeeps.name]
  rw [Markup.Change.element?_eq_some.mp he']
  exact Element.isDrawn_of_is hsvg' (by decide)

/-- There is markup for every image. It shows all shown nodes of what it is made of, each once, in document order and with
    what is shown below it; and if identifiers are stripped, it is the same without ids. -/
theorem generate_depicts (o : Options) (hroot : d.rootElement? = some e) (hsvg : e.is "svg" = true) :
    ∃ root sheet, markup? o (prepare o d).1 = some (root, sheet) ∧
      generate? o d = some ⟨assemble o root sheet.toText?, (prepare o d).2⟩ ∧
      Jsx.Depicts (prepare o d).1 ((prepare o d).1.shown o.rules) root ∧
      ((prepare o d).1.shown o.rules).ids = ((prepare o d).1.descendants 0).filter ((prepare o d).1.isShown o.rules) ∧
      (o.stripIdentifiers = true → markup? o (prepare o d).1.withoutIds = some (root, sheet)) := by
  obtain ⟨e', _, he', hmarkup, hgenerate⟩ := generate?_eq o hroot hsvg
  have hdrawn := isDrawn_prepare o hroot hsvg
  have hdepicts := Jsx.depicts_convertRoot (r := o.rules) he' (he' ▸ hdrawn)
  have hstripped : o.stripIdentifiers = true → markup? o (prepare o d).1.withoutIds = markup? o (prepare o d).1 := by
    intro hstrip
    have hcontent : (prepare o d).1.withoutIds.content 0 = .element (e'.remove "id") := by
      rw [Document.withoutIds, Document.content_edited_of_below (.refl _ 0), he']
      rfl
    have hrootElement : (prepare o d).1.withoutIds.rootElement? = some (e'.remove "id") :=
      Markup.Change.element?_eq_some.mpr hcontent
    rw [hmarkup, markup?, hrootElement, Option.map_some, Jsx.convertRoot_withoutIds (r := o.rules) hstrip]
  rw [hmarkup] at hstripped
  generalize Jsx.convertRoot o.rules e' (prepare o d).1.root.children = out at hmarkup hgenerate hdepicts hstripped
  obtain ⟨root, sheet⟩ := out
  exact ⟨root, sheet, hmarkup, hgenerate, hdepicts, Document.ids_shown hdrawn, hstripped⟩

/-- Comments and styles stay, and the document is taken as it is. -/
def Options.faithful : Options :=
  { Options.standard with stripComments := false, extractStylesheet := false, preOptimize := false }

/-- The group with a namespace goes with the path in it, and so does the comment in the style element. -/
theorem generate_depicts_mixed :
    ∃ d, Document.parse "<svg viewBox='0 0 1 1' id='a'> <x:g><path/></x:g><!-- c --><style>b<!-- c --></style><g>t<path/></g></svg>" = .ok d ∧
      ∃ root sheet, markup? .faithful (prepare .faithful d).1 = some (root, sheet) ∧
        Jsx.Depicts (prepare .faithful d).1 ((prepare .faithful d).1.shown Options.faithful.rules) root ∧
        (prepare .faithful d).1.descendants 0 = List.range 11 ∧
        ((prepare .faithful d).1.shown Options.faithful.rules).ids = [0, 4, 5, 8, 9, 10] ∧
        markup? .faithful (prepare .faithful d).1.withoutIds = some (root, sheet) := by
  obtain ⟨d, hd, e, hroot, hsvg, hnodes, hshown⟩ : ∃ d, Document.parse
      "<svg viewBox='0 0 1 1' id='a'> <x:g><path/></x:g><!-- c --><style>b<!-- c --></style><g>t<path/></g></svg>" = .ok d ∧
      ∃ e ∈ d.rootElement?, e.is "svg" = true ∧ (prepare .faithful d).1.descendants 0 = List.range 11 ∧
        ((prepare .faithful d).1.descendants 0).filter ((prepare .faithful d).1.isShown Options.faithful.rules) =
          [0, 4, 5, 8, 9, 10] := by
    decide +kernel
  obtain ⟨root, sheet, hmarkup, _, hdepicts, hids, hstripped⟩ := generate_depicts .faithful hroot hsvg
  exact ⟨d, hd, root, sheet, hmarkup, hdepicts, hnodes, hids.trans hshown, hstripped rfl⟩

/-- A path below a text is attached, has nothing with a namespace and no style above it, and is not in the markup. -/
theorem markup_omits_below_text :
    ∃ d, Document.parse "<svg viewBox=\"0 0 1 1\">t</svg>" = .ok d ∧
      let image := (prepare .standard (d.append 1 (.element (.named "path")))).1
      (image.elementIds.filter fun i =>
          ((i :: image.ancestors i).all fun a => (image.element? a).all (·.name.space.isNone)) &&
            !image.hasAncestor i "style" && !(image.element? i).any (·.is "style")) = [0, 2] ∧
        ∃ drawn ∈ markup? .standard image, drawn.1.classTokens.length = 1 := by
  decide +kernel

end SvgComponent.Component
