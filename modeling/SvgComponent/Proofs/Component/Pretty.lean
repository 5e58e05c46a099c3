/-
  SvgComponent.Proofs.Component.Pretty — when the layout of a component has a line for each piece of its markup.

  The layout finds tags, expressions and text in printed markup again exactly if every tag and every comment is clear
  (`generate_laid_out`), and then each stands on a line of its own at the depth it is nested at. Images whose classes,
  inlined styles and comments have no quotes and braces are. An apostrophe in a comment is enough for the rest of the
  markup to stay on one line (`layout_swallows_markup`).
-/

import SvgComponent.Proofs.Component.Tidying
import SvgComponent.Proofs.Jsx.Converted
import SvgComponent.Proofs.Markup.Reading

namespace SvgComponent.Markup

/-- What holds of an element holds of it with fewer attributes. -/
theorem Content.Keeps.hasUnmarkedNames {c c' : Content} (h : c.Keeps c') (hc : c.HasUnmarkedNames) :
    c'.HasUnmarkedNames := by
  cases h with
  | refl => exact hc
  | element h =>
    refine ⟨?_, fun a ha => hc.2 a (h.attributes.subset ha)⟩
    rw [h.name]
    exact hc.1

theorem Content.Keeps.isTame {r : Jsx.Rules} {c c' : Content} (h : c.Keeps c') (hc : c.IsTame r) : c'.IsTame r := by
  cases h with
  | refl => exact hc
  | element h =>
    obtain ⟨hbegins, hends, hvalues⟩ := hc
    rw [← h.name] at hbegins hends
    exact ⟨hbegins, hends, fun a ha => hvalues a (h.attributes.subset ha)⟩

theorem Content.Keeps.tame {r : Jsx.Rules} {c c' : Content} (h : c.Keeps c') (hc : c.HasUnmarkedNames ∧ c.IsTame r) :
    c'.HasUnmarkedNames ∧ c'.IsTame r :=
  ⟨h.hasUnmarkedNames hc.1, h.isTame hc.2⟩

namespace Document

/-- No name in the document has a quote, a brace or a bracket. -/
def HasUnmarkedNames (d : Document) : Prop := ∀ t ∈ d.root.subtrees, t.content.HasUnmarkedNames

/-- Nothing in the document makes tags or comments that could be mistaken. -/
def IsTame (r : Jsx.Rules) (d : Document) : Prop := ∀ t ∈ d.root.subtrees, t.content.IsTame r

instance : DecidablePred HasUnmarkedNames := fun d =>
  inferInstanceAs (Decidable (∀ t ∈ d.root.subtrees, t.content.HasUnmarkedNames))

instance (r : Jsx.Rules) : DecidablePred (IsTame r) := fun d =>
  inferInstanceAs (Decidable (∀ t ∈ d.root.subtrees, t.content.IsTame r))

end Document

end SvgComponent.Markup

namespace SvgComponent.Component

open Jsx (Piece Layout.after Layout.format Layout.tokens)
open Markup (Change Document Element)

variable {d : Document} {e : Element}

/-- The layout of a component's markup has its pieces on lines of their own exactly if the markup is clear, and the
    markup of a tame image is. -/
theorem generate_laid_out (o : Options) (hroot : d.rootElement? = some e) (hsvg : e.is "svg" = true)
    (hnames : d.HasUnmarkedNames) :
    ∃ root sheet, markup? o (prepare o d).1 = some (root, sheet) ∧
      generate? o d = some ⟨assemble o root sheet.toText?, (prepare o d).2⟩ ∧
      let p := o.printer sheet
      (Layout.tokens (p.print root) = (p.pieces root).map Piece.token ↔ root.ClearRoot p) ∧
      (root.ClearRoot p →
        Layout.format (p.print root) = ['\n'].intercalate ((p.pieces root).map Piece.line) ∧
          ((p.pieces root).map Piece.token).foldl Layout.after 0 = 0) ∧
      (d.IsTame o.rules → root.ClearRoot p) := by
  obtain ⟨e', hkeeps, he', hmarkup, hgenerate⟩ := generate?_eq o hroot hsvg
  have hsound := (Jsx.inherits_sound o.rules).of_convertRoot (forall_prepare o he' (fun h => h.hasUnmarkedNames) hnames)
  refine ⟨_, _, hmarkup, hgenerate, Jsx.tokens_print_iff hsound, ?_, ?_⟩
  · exact fun hclear => Jsx.format_print ((Jsx.tokens_print_iff hsound).mpr hclear)
  · exact fun htame => Jsx.clear_convertRoot _ (forall_prepare o he' Markup.Content.Keeps.tame fun t ht =>
      ⟨hnames t ht, htame t ht⟩)

/-- Comments stay, and all else is as it is by default. -/
def Options.commented : Options := { Options.standard with stripComments := false, preOptimize := false }

/-- Brackets in comments and strings are no obstacle. -/
theorem generate_laid_out_styled :
    ∃ d, Document.parse "<svg viewBox='0 0 1 1'><!-- a > b --><g class='a b' style='fill: red'>1<path/>{2}</g></svg>" = .ok d ∧
      ∃ root sheet, markup? .commented (prepare .commented d).1 = some (root, sheet) ∧
        Layout.format ((Options.commented.printer sheet).print root) =
          ['\n'].intercalate (((Options.commented.printer sheet).pieces root).map Piece.line) := by
  obtain ⟨d, hd, e, hroot, hsvg, hnames, htame⟩ : ∃ d,
      Document.parse "<svg viewBox='0 0 1 1'><!-- a > b --><g class='a b' style='fill: red'>1<path/>{2}</g></svg>" = .ok d ∧
        ∃ e ∈ d.rootElement?, e.is "svg" = true ∧ d.HasUnmarkedNames ∧ d.IsTame Options.commented.rules := by
    decide +kernel
  obtain ⟨root, sheet, hmarkup, _, _, hlines, hclear⟩ := generate_laid_out .commented hroot hsvg hnames
  exact ⟨d, hd, root, sheet, hmarkup, (hlines (hclear htame)).1⟩

/-- An apostrophe in a comment is taken for a quote, and what follows for a part of the comment. -/
theorem layout_swallows_markup :
    ∃ d, Document.parse "<svg viewBox='0 0 1 1'><!-- it's --><path/></svg>" = .ok d ∧
      (∃ e ∈ d.rootElement?, e.is "svg" = true) ∧ d.HasUnmarkedNames ∧
      ∃ drawn ∈ markup? .commented (prepare .commented d).1,
        let p := Options.commented.printer drawn.2
        Layout.tokens (p.print drawn.1) ≠ (p.pieces drawn.1).map Piece.token ∧
          Layout.format (p.print drawn.1) ≠ ['\n'].intercalate ((p.pieces drawn.1).map Piece.line) ∧
          (Layout.tokens (p.print drawn.1)).foldl Layout.after 0 ≠ 0 := by
  decide +kernel

end SvgComponent.Component
