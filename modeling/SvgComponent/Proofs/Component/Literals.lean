/-
  SvgComponent.Proofs.Component.Literals — what the literals of a component are read as.

  The strings and style texts that a component's markup is printed with are those of the image, and they are read back in
  order, each with its lines moved (`generate_moves_literals`). So all come back as they were exactly if each is on one
  line; other style texts and attributes get blanks that the image does not have (`indent_changes_literals`).
-/

import SvgComponent.Proofs.Component.Pretty
import SvgComponent.Proofs.Jsx.Sources

namespace SvgComponent.Markup

theorem Content.Keeps.isPrintable {r : Jsx.Rules} {c c' : Content} (h : c.Keeps c') (hc : c.IsPrintable r) :
    c'.IsPrintable r := by
  cases h with
  | refl => exact hc
  | element h =>
    refine ⟨?_, fun a ha => hc.2 a (h.attributes.subset ha)⟩
    rw [h.name]
    exact hc.1

theorem Content.Keeps.printable {r : Jsx.Rules} {c c' : Content} (h : c.Keeps c')
    (hc : c.HasUnmarkedNames ∧ c.IsPrintable r) : c'.HasUnmarkedNames ∧ c'.IsPrintable r :=
  ⟨h.hasUnmarkedNames hc.1, h.isPrintable hc.2⟩

namespace Document

/-- No name, class or inlined style in the document is in the way of reading its component. -/
def IsPrintable (r : Jsx.Rules) (d : Document) : Prop := ∀ t ∈ d.root.subtrees, t.content.IsPrintable r

instance (r : Jsx.Rules) : DecidablePred (IsPrintable r) := fun d =>
  inferInstanceAs (Decidable (∀ t ∈ d.root.subtrees, t.content.IsPrintable r))

end Document

end SvgComponent.Markup

namespace SvgComponent.Component

open Jsx (payloads)
open Markup (Change Document Element)

variable {d : Document} {e : Element}

/-- Readable markup is read as what was printed, with its lines moved. -/
theorem payloads_layOut (o : Options) {p : Jsx.Printer} {name : List Char} {attributes : List Jsx.Attribute}
    {children : List Jsx.Node} (h : (Jsx.Node.element name attributes children).IsReadable p)
    (hclear : o.prettyPrint = true → (Jsx.Node.element name attributes children).ClearRoot p) :
    payloads (layOut o (p.print (.element name attributes children))).toList =
      ((Jsx.Node.element name attributes children).payloads (Jsx.Attribute.payload? p)).map
        fun x => (x.shifted 4).read := by
  rw [layOut, String.toList_ofList]
  by_cases hpretty : o.prettyPrint = true
  · rw [if_pos hpretty]
    have htokens := (Jsx.tokens_print_iff h.sound).mpr (hclear hpretty)
    exact Jsx.payloads_indent_format 4 h htokens
  · rw [if_neg hpretty]
    exact Jsx.payloads_indent_print 4 h

/-- The literals of a component are those of the image, and are read with their lines moved; none is changed exactly if
    each is on one line. -/
theorem generate_moves_literals (o : Options) (hroot : d.rootElement? = some e) (hsvg : e.is "svg" = true) :
    ∃ root sheet, markup? o (prepare o d).1 = some (root, sheet) ∧
      generate? o d = some ⟨assemble o root sheet.toText?, (prepare o d).2⟩ ∧
      let p := o.printer sheet
      let printed := root.payloads (Jsx.Attribute.payload? p)
      let found := payloads (layOut o (p.print root)).toList
      root.payloads Jsx.Attribute.literal? = (prepare o d).1.literals o.rules ∧
      ((prepare o d).1.literals o.rules).Sublist printed ∧
      (root.IsReadable p → (o.prettyPrint = true → root.ClearRoot p) →
        found = printed.map (fun x => (x.shifted 4).read) ∧
          (found = printed ↔ ∀ x ∈ (prepare o d).1.literals o.rules, x.IsOneLine)) ∧
      (d.HasUnmarkedNames → d.IsPrintable o.rules → root.IsReadable p) ∧
      (d.HasUnmarkedNames → d.IsTame o.rules → root.ClearRoot p) := by
  obtain ⟨e', hkeeps, he', hmarkup, hgenerate⟩ := generate?_eq o hroot hsvg
  have hliterals : (Jsx.convertRoot o.rules e' (prepare o d).1.root.children).1.payloads Jsx.Attribute.literal? =
      (prepare o d).1.literals o.rules := by
    have hrootElement : (prepare o d).1.rootElement? = some e' := Change.element?_eq_some.mpr he'
    rw [Jsx.payloads_convertRoot, Document.literals, hrootElement]
    rfl
  refine ⟨_, _, hmarkup, hgenerate, hliterals, ?_, ?_, ?_, ?_⟩
  · rw [← hliterals]
    exact Jsx.sublist_payloads _ _
  · intro hreadable hclear
    have hfound := payloads_layOut o hreadable hclear
    refine ⟨hfound, ?_⟩
    rw [hfound, ← hliterals]
    exact (Jsx.map_read_shifted_iff (by decide) _).trans (Jsx.isOneLine_payloads_iff _ _ hreadable)
  · exact fun hnames hprintable => (Jsx.inherits_readable _ o.rules).of_convertRoot
      (forall_prepare o he' Markup.Content.Keeps.printable fun t ht => ⟨hnames t ht, hprintable t ht⟩)
  · exact fun hnames htame => Jsx.clear_convertRoot _
      (forall_prepare o he' Markup.Content.Keeps.tame fun t ht => ⟨hnames t ht, htame t ht⟩)

/-- Styles stay in the markup, and all else is as it is by default. -/
def Options.inlined : Options := { Options.standard with extractStylesheet := false }

/-- Quotes, references and code in literals make no difference. -/
theorem generate_moves_literals_quoted :
    ∃ d, Document.parse "<svg viewBox='0 0 1 1'><style>a\x7bb: `$\x7b`;\x7d</style><g class='a b'><path aria-label='\"&amp;amp;&lt;\"'/></g></svg>" = .ok d ∧
      ∃ root sheet, markup? .inlined (prepare .inlined d).1 = some (root, sheet) ∧
        payloads (layOut .inlined ((Options.inlined.printer sheet).print root)).toList =
          root.payloads (Jsx.Attribute.payload? (Options.inlined.printer sheet)) := by
  obtain ⟨d, hd, e, hroot, hsvg, hnames, hprintable, htame, hline⟩ : ∃ d,
      Document.parse "<svg viewBox='0 0 1 1'><style>a\x7bb: `$\x7b`;\x7d</style><g class='a b'><path aria-label='\"&amp;amp;&lt;\"'/></g></svg>" = .ok d ∧
        ∃ e ∈ d.rootElement?, e.is "svg" = true ∧ d.HasUnmarkedNames ∧ d.IsPrintable Options.inlined.rules ∧
          d.IsTame Options.inlined.rules ∧ ∀ x ∈ (prepare .inlined d).1.literals Options.inlined.rules, x.IsOneLine := by
    decide +kernel
  obtain ⟨root, sheet, hmarkup, _, _, _, hread, hreadable, hclear⟩ := generate_moves_literals .inlined hroot hsvg
  have hkept := (hread (hreadable hnames hprintable) fun _ => hclear hnames htame).2.mpr hline
  exact ⟨d, hd, root, sheet, hmarkup, hkept⟩

/-- The lines of a style text and of an attribute, after the first, are read with blanks in front of them. -/
theorem indent_changes_literals :
    ∃ d, Document.parse "<svg viewBox='0 0 1 1'><style>a\x7b\x7d\nb\x7b\x7d</style><path d='M0 0\nL1 1'/></svg>" = .ok d ∧
      (∃ e ∈ d.rootElement?, e.is "svg" = true) ∧ d.HasUnmarkedNames ∧
      ∃ drawn ∈ markup? .inlined (prepare .inlined d).1,
        let p := Options.inlined.printer drawn.2
        drawn.1.payloads (Jsx.Attribute.payload? p) =
            [.string "0 0 1 1".toList, .template "a\x7b\x7d\nb\x7b\x7d".toList, .string "M0 0\nL1 1".toList] ∧
          payloads (layOut .inlined (p.print drawn.1)).toList =
            [.string "0 0 1 1".toList, .template "a\x7b\x7d\n    b\x7b\x7d".toList,
              .string "M0 0\n    L1 1".toList] := by
  decide +kernel

end SvgComponent.Component
