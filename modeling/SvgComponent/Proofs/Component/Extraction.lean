/-
  SvgComponent.Proofs.Component.Extraction — extracted rules and the classes that refer to them, one for one.

  The rules of the sheet are the styles of the drawn elements in document order. The markup refers to each rule once, at the
  element that shows the node which owns it (`generate_numbers`). A styled element under a text is attached, but neither
  drawn nor an owner (`style_below_text_is_lost`).
-/

import SvgComponent.Proofs.Component.Depiction
import SvgComponent.Proofs.Component.Isolation
import SvgComponent.Proofs.Jsx.Numbering

namespace SvgComponent.Style.Sheet

theorem blocksText_eq_nil_iff {sheet : Sheet} : sheet.blocksText = [] ↔ sheet.blocks = [] := by
  rw [blocksText, List.flatMap_eq_nil_iff]
  constructor
  · intro h
    refine List.eq_nil_iff_forall_not_mem.mpr fun css hcss => ?_
    exact List.append_ne_nil_of_right_ne_nil css (List.cons_ne_nil _ _) (h css hcss)
  · intro h css hcss
    rw [h] at hcss
    cases hcss

/-- There is a stylesheet unless there are neither rules nor texts of style elements. -/
theorem toText?_eq_none_iff {sheet : Sheet} : sheet.toText? = none ↔ sheet.rules = [] ∧ sheet.blocks = [] := by
  by_cases hrules : sheet.rules = []
  · have htext : sheet.text = sheet.blocksText := by rw [text, hrules]; rfl
    simp [toText?, htext, blocksText_eq_nil_iff, hrules]
  · rw [toText?_of_rules hrules]
    simp [hrules]

end SvgComponent.Style.Sheet

namespace SvgComponent.Component

open Jsx (ClassToken)
open Markup (Document Element)

variable {d : Document} {e : Element}

/-- The texts of style elements that are reached are blank if none goes to the sheet. -/
theorem styleBlocks_eq_nil_iff {ids : List Nat} :
    ids.flatMap d.styleBlock = [] ↔ ∀ i ∈ ids, Text.allBlank (d.textContent i) = true := by
  rw [List.flatMap_eq_nil_iff]
  refine forall₂_congr fun i _ => ?_
  rw [Document.styleBlock]
  cases Text.allBlank (d.textContent i) <;> simp

/-- With styles extracted: the rules are those of the drawn nodes in document order; each is referred to once, by the
    element of the markup that shows its owner; and there is no stylesheet exactly if there are no rules and nothing but
    blanks in style elements. -/
theorem generate_numbers (o : Options) (hroot : d.rootElement? = some e) (hsvg : e.is "svg" = true)
    (hextract : o.extractStylesheet = true) :
    ∃ root sheet, markup? o (prepare o d).1 = some (root, sheet) ∧
      generate? o d = some ⟨assemble o root sheet.toText?, (prepare o d).2⟩ ∧
      let image := (prepare o d).1
      Jsx.Depicts image (image.shown o.rules) root ∧ (image.shown o.rules).elements.map Markup.Tree.id = image.drawnIds ∧
      sheet.rules = image.styled.map Prod.snd ∧
      sheet.rulesText = image.styled.zipIdx.flatMap (fun x => Style.ruleText x.2 x.1.2) ∧
      List.Forall₂ (fun i tokens => ∀ k, ClassToken.extracted k ∈ tokens ↔ image.styled[k]?.map Prod.fst = some i)
        image.drawnIds root.classTokens ∧
      root.classTokens.flatten.filterMap ClassToken.number? = List.range image.styled.length ∧
      (sheet.toText? = none ↔ image.styled = [] ∧ ∀ i ∈ image.styleIds, Text.allBlank (image.textContent i) = true) ∧
      ((∀ i ∈ image.drawnIds, ∀ e, image.content i = .element e → (e.attributes.map (·.name.full)).Nodup) →
        image.styled = image.drawnIds.filterMap fun i => ((image.element? i).bind Element.rule?).map (i, ·)) := by
  obtain ⟨e', _, he', hmarkup, hgenerate⟩ := generate?_eq o hroot hsvg
  have hdrawn := isDrawn_prepare o hroot hsvg
  generalize (prepare o d).1 = image at he' hmarkup hgenerate hdrawn ⊢
  have helements := Document.elements_shown (r := o.rules) hextract hdrawn
  rw [he'] at hdrawn
  have hdepicts := Jsx.depicts_convertRoot (r := o.rules) he' hdrawn
  have hrules := Jsx.rules_convertRoot (r := o.rules) hextract he' hdrawn
  have hblocks := Jsx.blocks_convertRoot (r := o.rules) hextract he' hdrawn
  have howners := Jsx.owners_convertRoot (r := o.rules) hextract he' hdrawn
  have hnumbers := Jsx.numbers_convertRoot (r := o.rules) hextract he' hdrawn
  generalize Jsx.convertRoot o.rules e' image.root.children = out at hmarkup hgenerate hdepicts hrules hblocks howners hnumbers
  obtain ⟨root, sheet⟩ := out
  have hrules : sheet.rules = image.styled.map Prod.snd := hrules
  refine ⟨root, sheet, hmarkup, hgenerate, hdepicts, helements, hrules, ?_, howners, hnumbers, ?_, Document.styled_of_nodup⟩
  · rw [Style.Sheet.rulesText, hrules, List.zipIdx_map, List.flatMap_map]
    rfl
  · rw [Style.Sheet.toText?_eq_none_iff, hrules, hblocks, List.map_eq_nil_iff, styleBlocks_eq_nil_iff]

/-- What has a namespace takes its styles with it, and a style without declarations makes no rule. -/
theorem generate_numbers_nested :
    ∃ d, Document.parse "<svg viewBox='0 0 1 1' style='a: b'><x:g style='c: d'><path style='e: f'/></x:g><style> </style><g style=';'><path class='p' style='g: h'/></g></svg>" = .ok d ∧
      ∃ root sheet, markup? .standard (prepare .standard d).1 = some (root, sheet) ∧
        (prepare .standard d).1.drawnIds = [0, 5, 6] ∧
        (prepare .standard d).1.styled =
          [(0, [⟨"a".toList, "b".toList⟩]), (6, [⟨"g".toList, "h".toList⟩])] ∧
        List.Forall₂ (fun i tokens => ∀ k, ClassToken.extracted k ∈ tokens ↔
          (prepare .standard d).1.styled[k]?.map Prod.fst = some i) [0, 5, 6] root.classTokens ∧
        root.classTokens.flatten.filterMap ClassToken.number? = [0, 1] ∧ sheet.toText? ≠ none := by
  obtain ⟨d, hd, e, hroot, hsvg, hids, hstyled⟩ : ∃ d, Document.parse "<svg viewBox='0 0 1 1' style='a: b'><x:g style='c: d'><path style='e: f'/></x:g><style> </style><g style=';'><path class='p' style='g: h'/></g></svg>" = .ok d ∧
      ∃ e ∈ d.rootElement?, e.is "svg" = true ∧ (prepare .standard d).1.drawnIds = [0, 5, 6] ∧
        (prepare .standard d).1.styled = [(0, [⟨"a".toList, "b".toList⟩]), (6, [⟨"g".toList, "h".toList⟩])] := by
    decide +kernel
  obtain ⟨root, sheet, hmarkup, _, _, _, _, _, howners, hnumbers, hnone, _⟩ := generate_numbers .standard hroot hsvg rfl
  rw [hstyled] at hnumbers hnone
  exact ⟨d, hd, root, sheet, hmarkup, hids, hstyled, hids ▸ howners, hnumbers, fun h => List.cons_ne_nil _ _ (hnone.mp h).1⟩

/-- A styled path below a text is attached, has nothing with a namespace and no style above it, and makes no rule. -/
theorem style_below_text_is_lost :
    ∃ d, Document.parse "<svg viewBox=\"0 0 1 1\">t</svg>" = .ok d ∧
      let image := (prepare .standard (d.append 1 (.element ⟨.parse "path", [⟨.parse "style", "fill: red"⟩]⟩))).1
      (image.elementIds.filter fun i =>
          ((i :: image.ancestors i).all fun a => (image.element? a).all fun e => e.name.space.isNone && !e.is "style") &&
            (image.element? i).any fun e => !e.rules.isEmpty) = [2] ∧
        ∃ drawn ∈ markup? .standard image, drawn.2.rules = [] ∧ drawn.2.toText? = none := by
  decide +kernel

end SvgComponent.Component
