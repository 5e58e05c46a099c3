/-
  SvgComponent.Proofs.Clean.Stability — when the text of a cleaned image is stable.

  Cleaning an image that can be read always gives a text. That text is read and written again without change exactly
  if every element that is left is legible (`clean_stable_iff`): its tag closes its quotes, is not empty, and as a
  start tag does not end with a slash. An element with an empty name and nothing in it is not (`clean_unreadable`).
-/

import SvgComponent.Convert.Pipeline
import SvgComponent.Proofs.Clean.Naming
import SvgComponent.Proofs.Markup.Stable

namespace SvgComponent

open Markup (Document)

/-- The tags of all attached elements can be found and told from others. -/
def Markup.Document.IsLegible (d : Document) : Prop :=
  ∀ t ∈ d.root.subtrees, t.content.IsLegible t.children.isEmpty

instance (d : Document) : Decidable d.IsLegible :=
  inferInstanceAs (Decidable (∀ t ∈ d.root.subtrees, t.content.IsLegible t.children.isEmpty))

theorem Markup.Document.isLegible_iff {d : Document} : d.IsLegible ↔ d.root.outline.All Legible := by
  rw [all_outline_iff]
  unfold IsLegible Legible
  have hempty : ∀ t : Tree, (Tree.outlines t.children).isEmpty = t.children.isEmpty := by
    intro t
    rw [Tree.outlines_eq_map, List.isEmpty_map]
  simp only [hempty]

namespace Convert

/-- The text that cleaning leaves of an image that can be read. -/
theorem result_clean {svg : String} {d : Document} (h : Document.parse svg = .ok d) (o : Clean.Options) :
    ∃ c, (clean o svg).result = .ok c ∧ c.cleanedSvg = (Clean.runPasses o d).1.markup := by
  refine ⟨.ofRuns svg.utf8ByteSize (Clean.runPasses o d).1 (Clean.runPasses o d).2, ?_, rfl⟩
  simp only [clean, read, h, cleanDocument, bind, Traced.bind, pure, Traced.pure]

/-- A cleaned image is read and written again without change exactly if what is left is legible. -/
theorem clean_stable_iff {svg : String} {d : Document} (h : Document.parse svg = .ok d) (o : Clean.Options) :
    ∃ c, (clean o svg).result = .ok c ∧
      ((∃ d', Document.parse c.cleanedSvg = .ok d' ∧ d'.markup = c.cleanedSvg) ↔
        (Clean.runPasses o d).1.IsLegible) := by
  obtain ⟨⟨_, _, _, _, hv⟩⟩ := Markup.parsed_of_parse h
  obtain ⟨c, hc, htext⟩ := result_clean h o
  refine ⟨c, hc, ?_⟩
  rw [htext, Document.isLegible_iff]
  exact Markup.stable_iff (Markup.validate_runPasses o hv) (Markup.wasRead_runPasses o (Markup.wasRead_of_parse h))

/-- Blanks in tags and single quotes are no obstacle. -/
theorem clean_stable_iff_spaced :
    ∃ c, (clean .standard "<svg viewBox='0 0 1 1'><g id = 'x' >a > b</g ></svg>").result = .ok c ∧
      ∃ d', Document.parse c.cleanedSvg = .ok d' ∧ d'.markup = c.cleanedSvg := by
  obtain ⟨d, hd, hlegible⟩ : ∃ d, Document.parse "<svg viewBox='0 0 1 1'><g id = 'x' >a > b</g ></svg>" = .ok d ∧
      (Clean.runPasses .standard d).1.IsLegible := by decide +kernel
  obtain ⟨c, hc, hiff⟩ := clean_stable_iff hd .standard
  exact ⟨c, hc, hiff.mpr hlegible⟩

/-- An empty name and nothing else is written as an end tag, which ends nothing. -/
theorem clean_unreadable :
    ∃ d c, Document.parse "<svg viewBox=\"0 0 1 1\">< /></svg>" = .ok d ∧
      (clean .none "<svg viewBox=\"0 0 1 1\">< /></svg>").result = .ok c ∧
      ∀ d', Document.parse c.cleanedSvg ≠ .ok d' := by
  obtain ⟨d, hd, hunread⟩ : ∃ d, Document.parse "<svg viewBox=\"0 0 1 1\">< /></svg>" = .ok d ∧
      (Document.parse (Clean.runPasses .none d).1.markup).toOption.isNone = true := by decide +kernel
  obtain ⟨c, hc, htext⟩ := result_clean hd .none
  refine ⟨d, c, hd, hc, ?_⟩
  intro d' hd'
  rw [htext] at hd'
  rw [hd'] at hunread
  cases hunread

end Convert

end SvgComponent
