/-
  SvgComponent.Proofs.Component.Isolation — whether the extracted styles of an image stay where they belong.

  Each styled element has a rule and a class of its own. The rules are read as the declarations that they were made of
  exactly if every declaration is closed, and an element is bound to the class of a rule if it is the rule's own or if
  it names the class (`generate_extracts`). A brace in a style is enough to let it out of its rule, and an element of
  the image can name a class that another one is given (`styles_not_isolated`).
-/

import SvgComponent.Proofs.Component.Tidying
import SvgComponent.Proofs.Jsx.Extracting
import SvgComponent.Proofs.Markup.Reading
import SvgComponent.Proofs.Style.Blocks

namespace SvgComponent.Style.Sheet

/-- Extracted rules stand at the end of the sheet, behind a heading. -/
theorem text_eq {sheet : Sheet} (h : sheet.rules ≠ []) :
    ∃ front, sheet.text = front ++ heading ++ sheet.rulesText := by
  have hrules : ¬ sheet.rules.isEmpty = true := fun hempty => h (List.isEmpty_iff.mp hempty)
  rw [text, if_neg hrules]
  exact ⟨_, rfl⟩

theorem toText?_of_rules {sheet : Sheet} (h : sheet.rules ≠ []) : sheet.toText? = some (String.ofList sheet.text) := by
  obtain ⟨front, htext⟩ := text_eq h
  have hheading : heading ≠ [] := by decide
  have hne : ¬ sheet.text.isEmpty = true := by
    rw [htext, List.isEmpty_iff, List.append_eq_nil_iff, List.append_eq_nil_iff]
    exact fun hnil => hheading hnil.1.2
  rw [toText?, if_neg hne]

end SvgComponent.Style.Sheet

namespace SvgComponent.Component

open Jsx (ClassPart ClassToken styleReference)
open Markup (Document Element styledFrom)
open Style (blocks extractedClass ruleBlock)

variable {d : Document} {e : Element}

theorem isProper_of_mem_rules {e : Element} {ds : List Style.Declaration} (h : ds ∈ e.rules) : ∀ d ∈ ds, d.IsProper := by
  obtain ⟨a, _, hrule⟩ := List.mem_filterMap.mp h
  unfold Markup.Attribute.rule? at hrule
  split at hrule <;> cases hrule
  exact fun d hd => Style.isProper_of_mem_parseDeclarations hd

/-- An element of the markup is bound to the class of a rule if the rule is its own or if it names the class. -/
theorem bound_to_rule_iff {es : List Element} {tokens : List (List ClassToken)} (h : Jsx.Binds 0 es tokens) (k n : Nat)
    {ts : List ClassToken} (hts : tokens[n]? = some ts) {e : Element} (he : es[n]? = some e) :
    ClassPart.expression (styleReference (extractedClass k)) ∈ ts.map (ClassToken.part true) ↔
      (styledFrom 0 es)[k]?.map Prod.fst = some n ∨ extractedClass k ∈ e.classNames := by
  have hnumbers := congrArg (·[n]?) h.numbers
  have hnames := congrArg (·[n]?) h.names
  rw [List.getElem?_map, hts, Option.map_some] at hnumbers hnames
  rw [List.getElem?_map, he, Option.map_some, Option.some.injEq] at hnames
  have hown := Markup.mem_numbersFrom_iff (i := 0) hnumbers.symm k
  rw [Nat.zero_add, Nat.zero_add] at hown
  rw [Jsx.bound_iff, hown, hnames]

/-- The extracted part of the stylesheet has the styles of the drawn elements, each read as it was exactly if it closes
    what it opens; and an element is bound to a rule's class if the rule is its own or if it names the class. -/
theorem generate_extracts (o : Options) (hroot : d.rootElement? = some e) (hsvg : e.is "svg" = true)
    (hextract : o.extractStylesheet = true) :
    ∃ root sheet, markup? o (prepare o d).1 = some (root, sheet) ∧
      generate? o d = some ⟨assemble o root sheet.toText?, (prepare o d).2⟩ ∧
      let drawn := (prepare o d).1.drawn
      let styled := styledFrom 0 drawn
      sheet.rules = styled.map Prod.snd ∧
      (styled ≠ [] → sheet.toText? = some (String.ofList sheet.text) ∧
        ∃ front, sheet.text = front ++ Style.Sheet.heading ++ sheet.rulesText) ∧
      (blocks sheet.rulesText = (sheet.rules.zipIdx.map fun (ds, k) => ruleBlock k ds) ↔
        ∀ ds ∈ sheet.rules, ∀ d ∈ ds, d.IsClosed) ∧
      root.classTokens.length = drawn.length ∧
      ∀ k < styled.length, ∀ n, ∀ tokens ∈ root.classTokens[n]?, ∀ e ∈ drawn[n]?,
        (ClassPart.expression (styleReference (extractedClass k)) ∈ tokens.map (ClassToken.part (o.printer sheet).modules) ↔
          styled[k]?.map Prod.fst = some n ∨ extractedClass k ∈ e.classNames) := by
  obtain ⟨e', hkeeps, he', hmarkup, hgenerate⟩ := generate?_eq o hroot hsvg
  obtain ⟨hrules, hbinds⟩ := Jsx.convertRoot_extract (r := o.rules) hextract e' (prepare o d).1.root.children
  have hdrawn : (prepare o d).1.drawn = e' :: Markup.Tree.drawnOf (prepare o d).1.root.children := by
    have hrootElement : (prepare o d).1.rootElement? = some e' := Markup.Change.element?_eq_some.mpr he'
    rw [Document.drawn, hrootElement]
    rfl
  rw [← hdrawn] at hrules hbinds
  have hstyled := Markup.rules_styledFrom 0 (prepare o d).1.drawn
  rw [← hstyled] at hrules
  generalize Jsx.convertRoot o.rules e' (prepare o d).1.root.children = out at hmarkup hgenerate hrules hbinds
  obtain ⟨root, sheet⟩ := out
  have hne : styledFrom 0 (prepare o d).1.drawn ≠ [] → sheet.rules ≠ [] := by
    intro hne hnil
    rw [hrules] at hnil
    exact hne (List.map_eq_nil_iff.mp hnil)
  refine ⟨root, sheet, hmarkup, hgenerate, hrules, ?_, ?_, ?_, ?_⟩
  · exact fun hsome => ⟨Style.Sheet.toText?_of_rules (hne hsome), Style.Sheet.text_eq (hne hsome)⟩
  · refine Style.blocks_rulesText_iff fun ds hds => ?_
    rw [hrules, hstyled] at hds
    obtain ⟨f, _, hf⟩ := List.mem_flatMap.mp hds
    exact isProper_of_mem_rules hf
  · have := congrArg List.length hbinds.numbers
    rwa [List.length_map, Markup.length_numbersFrom] at this
  · intro k hk n tokens htokens f hf
    have hsome : styledFrom 0 (prepare o d).1.drawn ≠ [] := List.ne_nil_of_length_pos (Nat.zero_lt_of_lt hk)
    have hmodules : (o.printer sheet).modules = true := by
      rw [Options.printer, Style.Sheet.toText?_of_rules (hne hsome)]
      rfl
    rw [hmodules]
    exact bound_to_rule_iff hbinds k n htokens hf

/-- Braces and semicolons in quotes and parentheses are no obstacle, and other classes make no difference. -/
theorem generate_extracts_quoted :
    ∃ d, Document.parse "<svg viewBox='0 0 1 1'><path class='a' style='fill: url(x;\x7d); content: \"\x7d\"'/><path style='opacity: .5'/></svg>" = .ok d ∧
      ∃ root sheet, markup? .standard (prepare .standard d).1 = some (root, sheet) ∧
        blocks sheet.rulesText = (sheet.rules.zipIdx.map fun (ds, k) => ruleBlock k ds) ∧
        ∀ k < 2, ∀ n, ∀ tokens ∈ root.classTokens[n]?, ∀ e ∈ (prepare .standard d).1.drawn[n]?,
          ClassPart.expression (styleReference (extractedClass k)) ∈
              tokens.map (ClassToken.part (Options.standard.printer sheet).modules) ↔
            (styledFrom 0 (prepare .standard d).1.drawn)[k]?.map Prod.fst = some n ∨ extractedClass k ∈ e.classNames := by
  obtain ⟨d, hd, e, hroot, hsvg, hclosed, hlength⟩ : ∃ d,
      Document.parse "<svg viewBox='0 0 1 1'><path class='a' style='fill: url(x;\x7d); content: \"\x7d\"'/><path style='opacity: .5'/></svg>" = .ok d ∧
        ∃ e ∈ d.rootElement?, e.is "svg" = true ∧
          (∀ x ∈ styledFrom 0 (prepare .standard d).1.drawn, ∀ d ∈ x.2, d.IsClosed) ∧
          (styledFrom 0 (prepare .standard d).1.drawn).length = 2 := by
    decide +kernel
  obtain ⟨root, sheet, hmarkup, _, hrules, _, hblocks, _, hbound⟩ := generate_extracts .standard hroot hsvg rfl
  refine ⟨d, hd, root, sheet, hmarkup, hblocks.mpr ?_, ?_⟩
  · rw [hrules, List.forall_mem_map]
    exact hclosed
  · rw [hlength] at hbound
    exact hbound

/-- A brace lets a style out of its rule, and a class of the image is that of a rule. -/
theorem styles_not_isolated :
    ∃ d, Document.parse "<svg viewBox='0 0 1 1'><path style='fill: red\x7d * \x7bdisplay: none'/><path class='svg_element_0'/></svg>" = .ok d ∧
      (∃ e ∈ d.rootElement?, e.is "svg" = true) ∧
      ∃ drawn ∈ markup? .standard (prepare .standard d).1,
        drawn.2.rules = [[⟨"fill".toList, "red\x7d * \x7bdisplay: none".toList⟩]] ∧
          blocks drawn.2.rulesText =
            [⟨".svg_element_0".toList, [⟨"fill".toList, "red".toList⟩]⟩, ⟨"*".toList, [⟨"display".toList, "none".toList⟩]⟩] ∧
          (styledFrom 0 (prepare .standard d).1.drawn).map Prod.fst = [1] ∧
          drawn.1.classTokens.map (fun tokens => tokens.map (ClassToken.part (Options.standard.printer drawn.2).modules)) =
            [[], [.expression "styles.svg_element_0".toList], [.expression "styles.svg_element_0".toList]] := by
  decide +kernel

end SvgComponent.Component
