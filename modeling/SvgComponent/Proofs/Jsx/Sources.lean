/-
  SvgComponent.Proofs.Jsx.Sources — where the literals of converted markup come from.

  They are the values of the attributes that are passed on, and the trimmed texts of the style elements that stay, in the
  order of the document (`payloads_convertRoot`). Markup can be read if names are on one line, classes could stand in a
  template literal, and properties that are inlined could stand in code (`Content.IsPrintable`, `inherits_readable`).
-/

import SvgComponent.Proofs.Jsx.Converted
import SvgComponent.Proofs.Jsx.Payloads

namespace SvgComponent.Markup

open Jsx (Payload Rules)
open Jsx.Layout (isInline isPlain)

/-- An attribute that the component has as a string: it is spelled there, and neither dropped nor bound to anything. -/
structure Attribute.IsLiteral (r : Rules) (root : Bool) (a : Attribute) : Prop where
  kept : ¬ (a.name.full = "id" ∧ r.stripIdentifiers = true)
  plain : a.name.full ≠ "class" ∧ a.name.full ≠ "style"
  sized : ¬ (root = true ∧ (a.name.full = "width" ∨ a.name.full = "height"))
  colored : ¬ (root = true ∧ (a.name.full = "fill" ∨ a.name.full = "stroke") ∧ a.value = "currentColor")
  spelled : (Jsx.attributeName? a.name).isSome = true

instance (r : Rules) (root : Bool) : DecidablePred (Attribute.IsLiteral r root) := fun a =>
  decidable_of_iff
    (¬ (a.name.full = "id" ∧ r.stripIdentifiers = true) ∧ (a.name.full ≠ "class" ∧ a.name.full ≠ "style") ∧
      ¬ (root = true ∧ (a.name.full = "width" ∨ a.name.full = "height")) ∧
      ¬ (root = true ∧ (a.name.full = "fill" ∨ a.name.full = "stroke") ∧ a.value = "currentColor") ∧
      (Jsx.attributeName? a.name).isSome = true)
    ⟨fun ⟨hkept, hplain, hsized, hcolored, hspelled⟩ => ⟨hkept, hplain, hsized, hcolored, hspelled⟩,
      fun h => ⟨h.kept, h.plain, h.sized, h.colored, h.spelled⟩⟩

/-- The values of the literal attributes. -/
def Element.literals (r : Rules) (root : Bool) (e : Element) : List Payload :=
  (e.attributes.filter fun a => a.IsLiteral r root).map fun a => .string a.value.toList

namespace Tree

mutual

/-- The values of literal attributes and the texts of style elements in a tree below the root, in document order. -/
def literals (r : Rules) : Tree → List Payload
  | .node i (.element e) ts =>
    if e.name.space.isSome then []
    else if e.is "style" then
      let css := Text.trim (Tree.node i (.element e) ts).textContent.toList
      if r.extractStylesheet || css.isEmpty then [] else [.template css]
    else e.literals r false ++ literalsOf r ts
  | .node _ (.text _) _ => []
  | .node _ (.cdata _) _ => []
  | .node _ (.comment _) _ => []

def literalsOf (r : Rules) : List Tree → List Payload
  | [] => []
  | t :: ts => literals r t ++ literalsOf r ts

end

end Tree

/-- The values of literal attributes and the texts of style elements in an image. -/
def Document.literals (r : Rules) (d : Document) : List Payload :=
  (d.rootElement?.map (Element.literals r true)).getD [] ++ Tree.literalsOf r d.root.children

/-- A name on one line; a class could stand in a template literal, and the properties of an inlined style in code. -/
structure Attribute.IsPrintable (r : Rules) (a : Attribute) : Prop where
  name : ∀ c ∈ a.name.full.toList, isInline c = true
  classes : a.name.full = "class" → ∀ c ∈ a.value.toList, c ∉ ['\x60', '\\', '\x7b']
  properties : a.name.full = "style" → r.extractStylesheet = false → ∀ d ∈ Style.parseDeclarations a.value,
    ∀ c ∈ d.property, isPlain c = true ∧ isInline c = true ∧ c ≠ '/'

/-- The name and the attributes of an element are printable. -/
def Content.IsPrintable (r : Rules) : Content → Prop
  | .element e => (∀ c ∈ e.name.base.toList, isInline c = true) ∧ ∀ a ∈ e.attributes, a.IsPrintable r
  | _ => True

instance (r : Rules) : DecidablePred (Attribute.IsPrintable r) := fun a =>
  decidable_of_iff
    ((∀ c ∈ a.name.full.toList, isInline c = true) ∧
      (a.name.full = "class" → ∀ c ∈ a.value.toList, c ∉ ['\x60', '\\', '\x7b']) ∧
      (a.name.full = "style" ∧ r.extractStylesheet = false → ∀ d ∈ Style.parseDeclarations a.value,
        ∀ c ∈ d.property, isPlain c = true ∧ isInline c = true ∧ c ≠ '/'))
    ⟨fun ⟨hname, hclasses, hproperties⟩ => ⟨hname, hclasses, fun hs he => hproperties ⟨hs, he⟩⟩,
      fun h => ⟨h.name, h.classes, fun hse => h.properties hse.1 hse.2⟩⟩

instance (r : Rules) : DecidablePred (Content.IsPrintable r)
  | .element e => inferInstanceAs (Decidable ((∀ c ∈ e.name.base.toList, isInline c = true) ∧
      ∀ a ∈ e.attributes, a.IsPrintable r))
  | .text _ => .isTrue trivial
  | .comment _ => .isTrue trivial
  | .cdata _ => .isTrue trivial

end SvgComponent.Markup

namespace SvgComponent.Jsx

open Layout (isInline isPlain)
open Markup (Content)
open Style (Sheet Declaration)

variable {r : Rules} {p : Printer}

/-! ## Literals -/

def Part.literal? : Part → Option Payload
  | .attr a => a.literal?
  | .classes _ => none

/-- Of the attributes that are no styles, exactly the literal ones are printed as strings. -/
theorem literal?_plainPart {root : Bool} {a : Markup.Attribute} (hstyle : a.name.full ≠ "style") :
    (plainPart r root a).bind Part.literal? = if a.IsLiteral r root then some (.string a.value.toList) else none := by
  unfold plainPart
  dsimp only
  by_cases hid : a.name.full = "id" ∧ r.stripIdentifiers = true
  · rw [if_pos hid, if_neg fun h => h.kept hid]
    rfl
  by_cases hclass : a.name.full = "class"
  · rw [if_neg hid, if_pos hclass, if_neg fun h => h.plain.1 hclass]
    rfl
  by_cases hsize : root = true ∧ (a.name.full = "width" ∨ a.name.full = "height")
  · rw [if_neg hid, if_neg hclass, if_pos hsize, if_neg fun h => h.sized hsize]
    rfl
  by_cases hcolor : root = true ∧ (a.name.full = "fill" ∨ a.name.full = "stroke") ∧ a.value = "currentColor"
  · rw [if_neg hid, if_neg hclass, if_neg hsize, if_pos hcolor, if_neg fun h => h.colored hcolor]
    rfl
  rw [if_neg hid, if_neg hclass, if_neg hsize, if_neg hcolor]
  cases hspelled : attributeName? a.name with
  | none =>
    rw [if_neg fun h => by simpa [hspelled] using h.spelled]
    rfl
  | some spelled =>
    rw [if_pos ⟨hid, ⟨hclass, hstyle⟩, hsize, hcolor, by rw [hspelled]; rfl⟩]
    rfl

theorem literal?_stylePart (ds : List Declaration) (sheet : Sheet) :
    (stylePart r ds sheet).1.bind Part.literal? = none := by
  unfold stylePart
  split_ifs <;> rfl

theorem filterMap_toList_append {α β : Type} (f : α → Option β) (o : Option α) (l : List α) :
    (o.toList ++ l).filterMap f = (o.bind f).toList ++ l.filterMap f := by
  cases o with
  | none => rfl
  | some a =>
    rw [List.filterMap_append]
    cases h : f a <;> simp [h]

theorem literals_parts (root : Bool) (as : List Markup.Attribute) (sheet : Sheet) :
    (parts r root as sheet).1.filterMap Part.literal? =
      (as.filter fun a => a.IsLiteral r root).map fun a => .string a.value.toList := by
  induction as generalizing sheet with
  | nil => rfl
  | cons a as ih =>
    rw [parts, List.filter_cons]
    by_cases hstyle : a.name.full = "style"
    · have hother : ¬ a.IsLiteral r root := fun h => h.plain.2 hstyle
      rw [if_pos hstyle]
      dsimp only
      rw [filterMap_toList_append, literal?_stylePart, ih]
      simp [hother]
    · rw [if_neg hstyle]
      dsimp only
      rw [filterMap_toList_append, literal?_plainPart hstyle, ih]
      by_cases hliteral : a.IsLiteral r root <;> simp [hliteral]

theorem literals_place {binding : List Attribute} (hbinding : binding.filterMap Attribute.literal? = []) (ps : List Part) :
    (place binding ps).filterMap Attribute.literal? = ps.filterMap Part.literal? := by
  induction ps with
  | nil => exact hbinding
  | cons x ps ih =>
    cases x with
    | attr a => rw [place, List.filterMap_cons, List.filterMap_cons, ih]; rfl
    | classes ts =>
      rw [place, List.filterMap_append, hbinding, List.filterMap_filterMap, List.filterMap_cons]
      refine List.filterMap_congr fun y _ => ?_
      cases y <;> rfl

theorem literals_assemble (root : Bool) (ps : List Part) :
    (assemble root ps).filterMap Attribute.literal? = ps.filterMap Part.literal? := by
  have hbinding : (if ((ps.flatMap Part.tokens).isEmpty && !root) = true then []
      else [Attribute.classes (ps.flatMap Part.tokens) root]).filterMap Attribute.literal? = [] := by
    split <;> rfl
  have hspread : (if root = true then [Attribute.spread] else []).filterMap Attribute.literal? = [] := by
    split <;> rfl
  rw [assemble, List.filterMap_append, literals_place hbinding, hspread, List.append_nil]

theorem payloads_toList_append (f : Attribute → Option Payload) (o : Option Node) (ns : List Node) :
    payloadsOf f (o.toList ++ ns) = (o.map (Node.payloads f)).getD [] ++ payloadsOf f ns := by
  cases o <;> rfl

mutual

theorem payloads_convert (r : Rules) : ∀ (t : Markup.Tree) (sheet : Sheet),
    ((convert r t sheet).1.map (Node.payloads Attribute.literal?)).getD [] = t.literals r
  | .node i (.element e) ts, sheet => by
    rw [Markup.Tree.literals]
    by_cases hspace : e.name.space.isSome = true
    · rw [convert_spaced ts sheet hspace, if_pos hspace]
      rfl
    · rw [if_neg hspace]
      by_cases hstyle : e.is "style" = true
      · rw [convert_style ts sheet hspace hstyle, if_pos hstyle, styleElement]
        dsimp only
        generalize Text.trim (Markup.Tree.node i (.element e) ts).textContent.toList = css
        cases r.extractStylesheet
        · cases css <;> rfl
        · rfl
      · rw [convert_drawn ts sheet hspace hstyle, if_neg hstyle]
        dsimp only
        rw [Option.map_some, Option.getD_some, Node.payloads, literals_assemble, literals_parts,
          payloads_convertAll r ts]
        rfl
  | .node _ (.text s) _, sheet => by
    rw [convert, textNode]
    dsimp only
    split <;> rfl
  | .node _ (.cdata s) _, sheet => by
    rw [convert, textNode]
    dsimp only
    split <;> rfl
  | .node _ (.comment s) _, sheet => by
    rw [convert, commentNode]
    split <;> rfl

theorem payloads_convertAll (r : Rules) : ∀ (ts : List Markup.Tree) (sheet : Sheet),
    payloadsOf Attribute.literal? (convertAll r ts sheet).1 = Markup.Tree.literalsOf r ts
  | [], _ => rfl
  | t :: ts, sheet => by
    rw [convertAll_cons, payloads_toList_append, payloads_convert r t, payloads_convertAll r ts, Markup.Tree.literalsOf]

end

/-- The literals of converted markup are those of the image. -/
theorem payloads_convertRoot (r : Rules) (e : Markup.Element) (ts : List Markup.Tree) :
    (convertRoot r e ts).1.payloads Attribute.literal? = e.literals r true ++ Markup.Tree.literalsOf r ts := by
  show (assemble true _).filterMap Attribute.literal? ++ payloadsOf Attribute.literal? (convertAll r ts _).1 = _
  rw [literals_assemble, literals_parts, payloads_convertAll]
  rfl

/-! ## Markup that can be read -/

/-- What an attribute of a printable element contributes. -/
def Part.IsReadable (p : Printer) : Part → Prop
  | .attr a => a.IsReadable p
  | .classes ts => ∀ name, .literal name ∈ ts →
      (∀ c ∈ name, isInline c = true) ∧ (p.modules = false → ∀ c ∈ name, c ∉ ['\x60', '\\', '\x7b'])

theorem IsPartOf.readable {a : Markup.Attribute} {x : Part} (h : IsPartOf r a x) (hname : a.name.IsUnmarked)
    (ha : a.IsPrintable r) : x.IsReadable p := by
  have hfull : ∀ c ∈ a.name.full.toList, isPlain c = true ∧ isInline c = true := fun c hc => ⟨hname c hc, ha.name c hc⟩
  cases h with
  | extracted k =>
    intro name hmem
    cases List.mem_singleton.mp hmem
  | inlined hstyle hr => exact ha.properties hstyle hr
  | classes hclass =>
    intro name hmem
    obtain ⟨word, hword, heq⟩ := List.mem_map.mp hmem
    cases heq
    refine ⟨fun c hc => isInline_of_not_blank (Text.mem_of_mem_words hword hc).2, fun _ c hc => ?_⟩
    exact ha.classes hclass c (Text.mem_of_mem_words hword hc).1
  | size => exact hfull
  | color => exact hfull
  | literal hspelled =>
    have hword : ∀ c : Char, c.isAlphanum = true → isPlain c = true ∧ isInline c = true := fun c hc =>
      ⟨isPlain_of_isAlphanum hc, isInline_of_isAlphanum hc⟩
    exact forall_mem_attributeName? hword (Markup.Name.forall_mem_base hfull) hspelled

theorem isReadable_of_mem_assemble {root : Bool} {e : Markup.Element} (sheet : Sheet)
    (hnames : (Content.element e).HasUnmarkedNames) (hprintable : (Content.element e).IsPrintable r) :
    ∀ a ∈ assemble root (parts r root e.attributes sheet).1, a.IsReadable p := by
  have hparts : ∀ x ∈ (parts r root e.attributes sheet).1, x.IsReadable p := by
    intro x hx
    obtain ⟨a, ha, hpart⟩ := isPartOf_of_mem_parts hx
    exact hpart.readable (hnames.2 a ha) (hprintable.2 a ha)
  intro a ha
  rcases mem_assemble ha with hpart | rfl | rfl
  · exact hparts _ hpart
  · intro name hname
    obtain ⟨ts, hts, hmem⟩ := mem_tokens hname
    exact hparts _ hts name hmem
  · trivial

/-- The markup of a printable image can be read. -/
theorem inherits_readable (p : Printer) (r : Rules) :
    Inherits r (fun c => c.HasUnmarkedNames ∧ c.IsPrintable r) (Node.IsReadable p) (AllReadable p) where
  nil := trivial
  cons hn hns := ⟨hn, hns⟩
  text hne htrim := ⟨hne, htrim⟩
  comment _ _ := trivial
  css _ := trivial
  style hchildren := ⟨by decide, nofun, hchildren⟩
  drawn _ sheet he hchildren :=
    ⟨fun c hc => ⟨he.1.1.base c hc, he.2.1 c hc⟩, isReadable_of_mem_assemble sheet he.1 he.2, hchildren⟩

end SvgComponent.Jsx
