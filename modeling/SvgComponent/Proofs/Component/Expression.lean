/-
  SvgComponent.Proofs.Component.Expression — whether the expressions of a component come to what the image has.

  Each element of the markup is bound to the classes and inlined styles of an element of the image, and the expressions for
  them have the right values as long as the classes of the root are verbatim, if they are not looked up in a stylesheet,
  and the properties of styles are names (`generate_expresses`). A backslash in a class and quotes around a property are
  code in the component (`expressions_change_values`).
-/

import SvgComponent.Proofs.Component.Depiction
import SvgComponent.Proofs.Component.Isolation
import SvgComponent.Proofs.Component.Literals
import SvgComponent.Proofs.Jsx.Evaluation
import SvgComponent.Proofs.Jsx.Tags

namespace SvgComponent.Jsx

open Markup (Tag)

/-- The attributes bear the tag, and what they are bound to is read as its classes and styles: as the classes, unless a
    class of the root stands in a template literal that has a meaning of its own for it, and as the style, if it has
    keys only that an object can have. -/
structure Expresses (p : Printer) (x : Scope) (t : Tag) (attributes : List Attribute) : Prop where
  bears : Bears t attributes
  classes : (t.root = true → p.modules = false → ∀ u ∈ t.tokens, u.IsVerbatim) →
    ∀ a ∈ attributes, a.classes?.isSome → x.Binds (p.attr a) Printer.className (classValue p.modules x t.tokens t.root)
  styles : ∀ a ∈ attributes, ∀ ds ∈ a.style?, (∀ d ∈ ds, x.HasKey d) →
    x.Binds (p.attr a) ['s', 't', 'y', 'l', 'e'] (.object (styleValue ds))

theorem Bears.expresses {p : Printer} {x : Scope} {t : Tag} {attributes : List Attribute} (h : Bears t attributes)
    (hwords : ∀ name, .literal name ∈ t.tokens → '\r' ∉ name)
    (hliteral : p.modules = false → ∀ u ∈ t.tokens, ∃ name, u = .literal name) : Expresses p x t attributes where
  bears := h
  classes := by
    intro hverbatim a ha hsome
    cases a with
    | classes tokens root =>
      have hmem : (tokens, root) ∈ attributes.filterMap Attribute.classes? := List.mem_filterMap.mpr ⟨_, ha, rfl⟩
      rw [h.classes] at hmem
      split at hmem
      · cases hmem
      · rename_i hne
        obtain ⟨rfl, rfl⟩ := Prod.mk.inj (List.mem_singleton.mp hmem)
        refine Scope.binds_classes ?_ (fun hmodules _ => hliteral hmodules) ?_
        · by_contra hnone
          rw [not_or, not_not, Bool.not_eq_true] at hnone
          rw [hnone.1, hnone.2] at hne
          exact hne rfl
        · refine fun hroot u hu hmodules => ⟨hverbatim hroot hmodules u hu, ?_⟩
          rintro name rfl
          exact hwords name hu
    | _ => cases hsome
  styles := by
    intro a ha ds hds hkeys
    cases a with
    | style ds' =>
      cases hds
      exact Scope.binds_style hkeys
    | _ => cases hds

end SvgComponent.Jsx

namespace SvgComponent.Component

open Jsx (Expresses Scope)
open Markup (Document Element Tag)

variable {d : Document} {e : Element}

/-- A class named by an image has no line breaks, and without rules no class is an extracted one. -/
theorem tokens_of_mem_rootTags {r : Jsx.Rules} {below : List Markup.Tree} {t : Tag} (h : t ∈ Markup.rootTags r e below) :
    (∀ name, .literal name ∈ t.tokens → '\r' ∉ name) ∧
      (((e :: Markup.Tree.taggedOf r below).flatMap (·.extracted r)).length = 0 →
        ∀ u ∈ t.tokens, ∃ name, u = .literal name) := by
  obtain ⟨f, hf, root, k, rfl⟩ := Markup.exists_of_mem_rootTags h
  rw [Tag.of]
  split
  · exact ⟨fun _ hname => absurd hname List.not_mem_nil, fun _ _ hu => absurd hu List.not_mem_nil⟩
  · refine ⟨fun name hname hreturn => ?_, fun hnone u hu => ?_⟩
    · obtain ⟨a, _, hword⟩ := Markup.mem_classNames_of_mem_tokensFrom hname
      unfold Markup.Attribute.classNames at hword
      split at hword
      · exact Bool.noConfusion (Text.mem_of_mem_words hword hreturn).2
      · cases hword
    · cases u with
      | literal name => exact ⟨name, rfl⟩
      | extracted j =>
        have hnil := List.flatMap_eq_nil_iff.mp (List.eq_nil_of_length_eq_zero hnone) f hf
        exact absurd hnil (Markup.extracted_ne_nil_of_mem_tokensFrom hu)

/-- The elements of a component's markup are bound to the classes and inlined styles of the image's elements, and the
    expressions come to these whatever the styles have for a class and whatever class the caller gives: the classes of
    the root unless they stand in a template literal and mean something there, and styles with keys of their own. -/
theorem generate_expresses (o : Options) (x : Scope) (hroot : d.rootElement? = some e) (hsvg : e.is "svg" = true) :
    ∃ root sheet, markup? o (prepare o d).1 = some (root, sheet) ∧
      generate? o d = some ⟨assemble o root sheet.toText?, (prepare o d).2⟩ ∧
      List.Forall₂ (Expresses (o.printer sheet) x) ((prepare o d).1.tags o.rules) root.tags := by
  obtain ⟨e', _, he', hmarkup, hgenerate⟩ := generate?_eq o hroot hsvg
  have hdrawn := isDrawn_prepare o hroot hsvg
  rw [he'] at hdrawn
  obtain ⟨hbears, hrules⟩ := Jsx.bears_convertRoot (r := o.rules) (Markup.Content.isDrawn_element.mp hdrawn).2
    (prepare o d).1.root.children
  have htags : (prepare o d).1.tags o.rules = Markup.rootTags o.rules e' (prepare o d).1.root.children := by
    rw [Document.tags, Document.rootElement?, Markup.Change.element?_eq_some.mpr he']
    rfl
  rw [htags]
  generalize Jsx.convertRoot o.rules e' (prepare o d).1.root.children = out at hmarkup hgenerate hbears hrules
  obtain ⟨root, sheet⟩ := out
  refine ⟨root, sheet, hmarkup, hgenerate, ?_⟩
  refine ((List.forall₂_and_left _ _).mpr ⟨fun t ht => tokens_of_mem_rootTags ht, hbears⟩).imp fun t attributes h => ?_
  obtain ⟨⟨hwords, hliteral⟩, hbear⟩ := h
  refine hbear.expresses hwords fun hmodules => hliteral ?_
  rw [← hrules, List.length_eq_zero_iff]
  by_contra hne
  rw [Options.printer, Style.Sheet.toText?_of_rules hne] at hmodules
  cases hmodules

/-- Classes have their own names in the stylesheet, and the caller gives none. -/
def bare : Scope := ⟨fun _ => false, fun _ => false, id, none⟩

/-- A dollar sign is no obstacle, and of two declarations with a key the last one counts. -/
theorem generate_expresses_twice :
    ∃ d, Document.parse "<svg viewBox='0 0 1 1' class='a $b'><path class='c' style='stroke-width: 1; --x: y; stroke-width: 2'/></svg>" = .ok d ∧
      ∃ root sheet, markup? .inlined (prepare .inlined d).1 = some (root, sheet) ∧
        let p := Options.inlined.printer sheet
        List.Forall₂ (fun t attributes => ∀ a ∈ attributes,
            (a.classes?.isSome →
              bare.Binds (p.attr a) Jsx.Printer.className (Jsx.classValue p.modules bare t.tokens t.root)) ∧
            ∀ ds ∈ a.style?, bare.Binds (p.attr a) "style".toList (.object (Jsx.styleValue ds)) ∧
              Jsx.styleValue ds "strokeWidth".toList = some ['2'])
          ((prepare .inlined d).1.tags Options.inlined.rules) root.tags := by
  obtain ⟨d, hd, e, hroot, hsvg, hplain⟩ : ∃ d,
      Document.parse "<svg viewBox='0 0 1 1' class='a $b'><path class='c' style='stroke-width: 1; --x: y; stroke-width: 2'/></svg>" = .ok d ∧
        ∃ e ∈ d.rootElement?, e.is "svg" = true ∧
          ∀ t ∈ (prepare .inlined d).1.tags Options.inlined.rules, (∀ u ∈ t.tokens, u.IsVerbatim) ∧
            ∀ ds ∈ t.styles, (∀ d ∈ ds, bare.HasKey d) ∧ Jsx.styleValue ds "strokeWidth".toList = some ['2'] := by
    decide +kernel
  obtain ⟨root, sheet, hmarkup, _, hexpresses⟩ := generate_expresses .inlined bare hroot hsvg
  refine ⟨d, hd, root, sheet, hmarkup, ?_⟩
  have hpairs := (List.forall₂_and_left _ _).mpr ⟨hplain, hexpresses⟩
  refine hpairs.imp fun t attributes ⟨⟨hverbatim, hstyles⟩, hexpresses⟩ a ha => ⟨?_, fun ds hds => ?_⟩
  · exact hexpresses.classes (fun _ _ => hverbatim) a ha
  · have hmem : ds ∈ t.styles := by
      rw [← hexpresses.bears.styles]
      exact List.mem_filterMap.mpr ⟨a, ha, hds⟩
    exact ⟨hexpresses.styles a ha ds hds (hstyles ds hmem).1, (hstyles ds hmem).2⟩

/-- The backslash in a class of the root is an escape, and the quotes around a property are those of a string. -/
theorem expressions_change_values :
    ∃ d, Document.parse "<svg viewBox='0 0 1 1' class='a\\b'><path style=\"'fill': red\"/></svg>" = .ok d ∧
      (∃ e ∈ d.rootElement?, e.is "svg" = true) ∧
      ∃ drawn ∈ markup? .inlined (prepare .inlined d).1,
        let p := Options.inlined.printer drawn.2
        let tokens : List Jsx.ClassToken := [.literal "a\\b".toList]
        let ds : List Style.Declaration := [⟨"'fill'".toList, "red".toList⟩]
        drawn.1.tags.map (·.filterMap Jsx.Attribute.classes?) = [[(tokens, true)], []] ∧
          drawn.1.tags.map (·.filterMap Jsx.Attribute.style?) = [[], [ds]] ∧
          (bare.binding? (p.attr (.classes tokens true))).map (·.1.2.text?) = some (some "a\x08 ".toList) ∧
          (bare.binding? (p.attr (.style ds))).map (fun y => (y.1.2.property? "'fill'".toList, y.1.2.property? "fill".toList)) =
            some (none, some "red".toList) ∧
          ¬ bare.Binds (p.attr (.classes tokens true)) Jsx.Printer.className (Jsx.classValue p.modules bare tokens true) ∧
          ¬ bare.Binds (p.attr (.style ds)) "style".toList (.object (Jsx.styleValue ds)) := by
  obtain ⟨d, hd, hroot, drawn, hdrawn, hclasses, hstyles, hprinter⟩ : ∃ d,
      Document.parse "<svg viewBox='0 0 1 1' class='a\\b'><path style=\"'fill': red\"/></svg>" = .ok d ∧
      (∃ e ∈ d.rootElement?, e.is "svg" = true) ∧
      ∃ drawn ∈ markup? .inlined (prepare .inlined d).1,
        drawn.1.tags.map (·.filterMap Jsx.Attribute.classes?) = [[([.literal "a\\b".toList], true)], []] ∧
          drawn.1.tags.map (·.filterMap Jsx.Attribute.style?) = [[], [[⟨"'fill'".toList, "red".toList⟩]]] ∧
          Options.inlined.printer drawn.2 = ⟨false, true⟩ := by
    decide +kernel
  refine ⟨d, hd, hroot, drawn, hdrawn, ?_⟩
  dsimp only
  rw [hprinter]
  have htext : (bare.binding? (Jsx.Printer.attr ⟨false, true⟩ (.classes [.literal "a\\b".toList] true))).map
      (·.1.2.text?) = some (some "a\x08 ".toList) := by
    decide +kernel
  have hproperty : (bare.binding? (Jsx.Printer.attr ⟨false, true⟩ (.style [⟨"'fill'".toList, "red".toList⟩]))).map
      (fun y => (y.1.2.property? "'fill'".toList, y.1.2.property? "fill".toList)) = some (none, some "red".toList) := by
    decide +kernel
  refine ⟨hclasses, hstyles, htext, hproperty, fun hbinds => ?_, fun hbinds => ?_⟩
  · rw [hbinds.binding?_eq] at htext
    exact absurd htext (by decide)
  · rw [hbinds.binding?_eq] at hproperty
    exact absurd hproperty (by decide)

end SvgComponent.Component
