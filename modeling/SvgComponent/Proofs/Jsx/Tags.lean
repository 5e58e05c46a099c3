/-
  SvgComponent.Proofs.Jsx.Tags — which classes and inlined styles the elements of an image have in its markup.

  The elements that have a tag in the markup are known from the image (`Document.tagged`), and so are the classes of each:
  those that it names and, as they come, the ones that its styles are extracted to. They stand in one attribute, and each
  style that is not extracted in one of its own (`bears_convertRoot`).
-/

import Mathlib.Data.List.Forall2
import SvgComponent.Proofs.Jsx.Extracting

namespace SvgComponent.Markup

open Jsx (ClassToken Rules)
open Style (Declaration)

/-! ## Tags of an image -/

/-- The declarations of a style attribute, if it is extracted. -/
def Attribute.extracted? (r : Rules) (a : Attribute) : Option (List Declaration) :=
  if r.extractStylesheet then a.rule? else none

/-- The declarations of a style attribute, if it is not extracted. -/
def Attribute.inlined? (r : Rules) (a : Attribute) : Option (List Declaration) :=
  if r.extractStylesheet then none else a.rule?

/-- The classes that an attribute names, or the one that its style is extracted to as number `k`. -/
def Attribute.tokens (r : Rules) (k : Nat) (a : Attribute) : List ClassToken :=
  match a.extracted? r with
  | some _ => [.extracted k]
  | none => a.classNames.map .literal

/-- The classes of attributes in order; extracted styles are numbered from `k`. -/
def tokensFrom (r : Rules) (k : Nat) : List Attribute → List ClassToken
  | [] => []
  | a :: as => a.tokens r k ++ tokensFrom r (k + (a.extracted? r).toList.length) as

def Element.extracted (r : Rules) (e : Element) : List (List Declaration) := e.attributes.filterMap (·.extracted? r)

/-- What classes and inlined styles a tag has. -/
structure Tag where
  root : Bool
  tokens : List ClassToken
  styles : List (List Declaration)
  deriving DecidableEq

/-- The tag of an element; style elements keep no attributes. -/
def Tag.of (r : Rules) (root : Bool) (k : Nat) (e : Element) : Tag :=
  if e.is "style" then ⟨root, [], []⟩
  else ⟨root, tokensFrom r k e.attributes, e.attributes.filterMap (·.inlined? r)⟩

/-- The tags of elements below the root, if `k` styles have been extracted before. -/
def tagsFrom (r : Rules) (k : Nat) : List Element → List Tag
  | [] => []
  | e :: es => .of r false k e :: tagsFrom r (k + (e.extracted r).length) es

namespace Tree

mutual

/-- The elements of a tree below the root that have a tag in the markup, in document order. -/
def tagged (r : Rules) : Tree → List Element
  | .node _ (.element e) ts =>
    if e.name.space.isSome then []
    else if e.is "style" then if r.extractStylesheet then [] else [e]
    else e :: taggedOf r ts
  | .node _ (.text _) _ => []
  | .node _ (.cdata _) _ => []
  | .node _ (.comment _) _ => []

def taggedOf (r : Rules) : List Tree → List Element
  | [] => []
  | t :: ts => tagged r t ++ taggedOf r ts

end

end Tree

/-- The tags of an image with this root. -/
def rootTags (r : Rules) (e : Element) (below : List Tree) : List Tag :=
  .of r true 0 e :: tagsFrom r (e.extracted r).length (Tree.taggedOf r below)

/-- The tags of an image, in document order. -/
def Document.tags (d : Document) (r : Rules) : List Tag :=
  (d.rootElement?.map fun e => rootTags r e d.root.children).getD []

theorem tagsFrom_append (r : Rules) (k : Nat) (es es' : List Element) :
    tagsFrom r k (es ++ es') = tagsFrom r k es ++ tagsFrom r (k + (es.flatMap (·.extracted r)).length) es' := by
  induction es generalizing k with
  | nil => rfl
  | cons e es ih =>
    rw [List.cons_append, tagsFrom, tagsFrom, ih, List.flatMap_cons, List.length_append, List.cons_append, Nat.add_assoc]

/-- Literal classes are named by the attributes. -/
theorem mem_classNames_of_mem_tokensFrom {r : Rules} {k : Nat} {as : List Attribute} {name : List Char}
    (h : .literal name ∈ tokensFrom r k as) : ∃ a ∈ as, name ∈ a.classNames := by
  induction as generalizing k with
  | nil => cases h
  | cons a as ih =>
    rcases List.mem_append.mp h with h | h
    · unfold Attribute.tokens at h
      split at h
      · cases List.mem_singleton.mp h
      · obtain ⟨_, hname, heq⟩ := List.mem_map.mp h
        cases heq
        exact ⟨a, List.mem_cons_self, hname⟩
    · obtain ⟨b, hb, hname⟩ := ih h
      exact ⟨b, List.mem_cons_of_mem a hb, hname⟩

/-- Where a class is extracted there is a style that it is extracted from. -/
theorem extracted_ne_nil_of_mem_tokensFrom {r : Rules} {j k : Nat} {as : List Attribute}
    (h : .extracted j ∈ tokensFrom r k as) : as.filterMap (·.extracted? r) ≠ [] := by
  induction as generalizing k with
  | nil => cases h
  | cons a as ih =>
    intro hnil
    rw [List.filterMap_cons] at hnil
    split at hnil
    · rename_i hnone
      rcases List.mem_append.mp h with h | h
      · rw [Attribute.tokens, hnone] at h
        obtain ⟨_, _, heq⟩ := List.mem_map.mp h
        cases heq
      · exact ih h hnil
    · cases hnil

theorem exists_of_mem_tagsFrom {r : Rules} {k : Nat} {es : List Element} {t : Tag} (h : t ∈ tagsFrom r k es) :
    ∃ e ∈ es, ∃ j, t = .of r false j e := by
  induction es generalizing k with
  | nil => cases h
  | cons e es ih =>
    rcases List.mem_cons.mp h with rfl | h
    · exact ⟨e, List.mem_cons_self, k, rfl⟩
    · obtain ⟨f, hf, j, heq⟩ := ih h
      exact ⟨f, List.mem_cons_of_mem e hf, j, heq⟩

theorem exists_of_mem_rootTags {r : Rules} {e : Element} {below : List Tree} {t : Tag} (h : t ∈ rootTags r e below) :
    ∃ f ∈ e :: Tree.taggedOf r below, ∃ root j, t = .of r root j f := by
  rcases List.mem_cons.mp h with rfl | h
  · exact ⟨e, List.mem_cons_self, true, 0, rfl⟩
  · obtain ⟨f, hf, j, heq⟩ := exists_of_mem_tagsFrom h
    exact ⟨f, List.mem_cons_of_mem e hf, false, j, heq⟩

end SvgComponent.Markup

namespace SvgComponent.Jsx

open Markup (Element Tag tagsFrom tokensFrom)
open Style (Sheet Declaration)

variable {r : Rules}

/-! ## Tags of the markup -/

/-- The classes of a class attribute, and whether the caller's follow. -/
def Attribute.classes? : Attribute → Option (List ClassToken × Bool)
  | .classes tokens root => some (tokens, root)
  | _ => none

def Attribute.style? : Attribute → Option (List Declaration)
  | .style ds => some ds
  | _ => none

mutual

/-- For each element of the markup, in document order, its attributes. -/
def Node.tags : Node → List (List Attribute)
  | .element _ attributes children => attributes :: tagsOf children
  | .text _ => []
  | .comment _ => []
  | .css _ => []

def tagsOf : List Node → List (List Attribute)
  | [] => []
  | n :: ns => n.tags ++ tagsOf ns

end

/-- The attributes bind the classes of the tag once, unless there are none to bind, and each of its styles. -/
structure Bears (t : Tag) (attributes : List Attribute) : Prop where
  classes : attributes.filterMap Attribute.classes? = if t.tokens.isEmpty && !t.root then [] else [(t.tokens, t.root)]
  styles : attributes.filterMap Attribute.style? = t.styles

/-! ## The attributes of an element -/

def Part.style? : Part → Option (List Declaration)
  | .attr a => a.style?
  | .classes _ => none

theorem style?_plainPart (r : Rules) (root : Bool) (a : Markup.Attribute) :
    (plainPart r root a).toList.filterMap Part.style? = [] := by
  unfold plainPart
  dsimp only
  split_ifs
  · rfl
  · rfl
  · rfl
  · rfl
  · cases attributeName? a.name <;> rfl

/-- What an attribute contributes. -/
theorem own_tag (r : Rules) (root : Bool) (a : Markup.Attribute) (sheet : Sheet) :
    let own := if a.name.full = "style" then stylePart r (Style.parseDeclarations a.value) sheet
      else (plainPart r root a, sheet)
    own.1.toList.flatMap Part.tokens = a.tokens r sheet.rules.length ∧
      own.2.rules.length = sheet.rules.length + (a.extracted? r).toList.length ∧
      own.1.toList.filterMap Part.style? = (a.inlined? r).toList := by
  dsimp only
  by_cases hstyle : a.name.full = "style"
  · have hclasses : a.classNames = [] := if_neg (by rw [hstyle]; decide)
    rw [if_pos hstyle, Markup.Attribute.tokens, hclasses, Markup.Attribute.extracted?, Markup.Attribute.inlined?,
      Markup.Attribute.rule?, stylePart]
    cases (Style.parseDeclarations a.value).isEmpty with
    | true => simp
    | false => cases r.extractStylesheet <;> simp [hstyle, Part.tokens, Sheet.addRule, Part.style?, Attribute.style?]
  · obtain ⟨hrule, htokens⟩ := tokens_plainPart r root hstyle
    rw [if_neg hstyle, Markup.Attribute.tokens, Markup.Attribute.extracted?, Markup.Attribute.inlined?, hrule, ite_self]
    exact ⟨htokens, rfl, style?_plainPart r root a⟩

theorem parts_tag (r : Rules) (root : Bool) (as : List Markup.Attribute) (sheet : Sheet) :
    (parts r root as sheet).1.flatMap Part.tokens = tokensFrom r sheet.rules.length as ∧
      (parts r root as sheet).2.rules.length = sheet.rules.length + (as.filterMap (·.extracted? r)).length ∧
      (parts r root as sheet).1.filterMap Part.style? = as.filterMap (·.inlined? r) := by
  induction as generalizing sheet with
  | nil => exact ⟨rfl, rfl, rfl⟩
  | cons a as ih =>
    obtain ⟨htokens, hrules, hstyles⟩ := own_tag r root a sheet
    rw [parts_cons]
    dsimp only
    generalize (if a.name.full = "style" then stylePart r (Style.parseDeclarations a.value) sheet
      else (plainPart r root a, sheet)) = own at htokens hrules hstyles
    obtain ⟨hrest, hcount, hinlined⟩ := ih own.2
    rw [List.flatMap_append, List.filterMap_append, htokens, hrest, hcount, hrules, hstyles, hinlined, tokensFrom,
      List.filterMap_cons, List.filterMap_cons]
    refine ⟨rfl, ?_, ?_⟩
    · cases a.extracted? r <;> simp [Nat.add_assoc, Nat.add_comm]
    · cases a.inlined? r <;> rfl

/-- Where the binding stands makes no difference to the styles. -/
theorem style?_place {binding : List Attribute} (ps : List Part) (h : binding.filterMap Attribute.style? = []) :
    (place binding ps).filterMap Attribute.style? = ps.filterMap Part.style? := by
  have hattrs : ∀ ps : List Part, (ps.filterMap fun
      | .attr a => some a
      | .classes _ => none).filterMap Attribute.style? = ps.filterMap Part.style? := by
    intro ps
    rw [List.filterMap_filterMap]
    exact congrArg (List.filterMap · ps) (funext fun x => by cases x <;> rfl)
  induction ps with
  | nil => exact h
  | cons x ps ih =>
    cases x with
    | attr a => rw [place, List.filterMap_cons, List.filterMap_cons, ih, Part.style?]
    | classes ts =>
      rw [place, List.filterMap_append, h, List.nil_append, List.filterMap_cons_none rfl]
      exact hattrs ps

theorem classes?_place {binding : List Attribute} {ps : List Part} (h : ∀ a, .attr a ∈ ps → a.classes? = none) :
    (place binding ps).filterMap Attribute.classes? = binding.filterMap Attribute.classes? := by
  induction ps with
  | nil => rfl
  | cons x ps ih =>
    have hrest : ∀ a, .attr a ∈ ps → a.classes? = none := fun a ha => h a (List.mem_cons_of_mem _ ha)
    cases x with
    | attr a => rw [place, List.filterMap_cons_none (h a List.mem_cons_self), ih hrest]
    | classes ts =>
      rw [place, List.filterMap_append]
      refine List.append_right_eq_self.mpr (List.filterMap_eq_nil_iff.mpr fun a ha => ?_)
      obtain ⟨y, hy, heq⟩ := List.mem_filterMap.mp ha
      cases y with
      | attr b =>
        cases heq
        exact hrest a hy
      | classes ts => cases heq

theorem classes?_of_mem_parts {root : Bool} {as : List Markup.Attribute} {sheet : Sheet} {a : Attribute}
    (h : Part.attr a ∈ (parts r root as sheet).1) : a.classes? = none := by
  obtain ⟨b, _, hpart⟩ := isPartOf_of_mem_parts h
  cases hpart <;> rfl

/-- The attributes of an element bear its tag. -/
theorem bears_assemble {root : Bool} {e : Element} (hstyle : ¬ e.is "style" = true) (sheet : Sheet) :
    Bears (.of r root sheet.rules.length e) (assemble root (parts r root e.attributes sheet).1) := by
  obtain ⟨htokens, _, hstyles⟩ := parts_tag r root e.attributes sheet
  rw [Tag.of, if_neg hstyle, ← htokens, ← hstyles]
  constructor
  · have hspread : (if root = true then [Attribute.spread] else []).filterMap Attribute.classes? = [] := by
      split <;> rfl
    rw [assemble, List.filterMap_append, hspread, List.append_nil, classes?_place fun a ha => classes?_of_mem_parts ha]
    split <;> rfl
  · have hspread : (if root = true then [Attribute.spread] else []).filterMap Attribute.style? = [] := by
      split <;> rfl
    rw [assemble, List.filterMap_append, hspread, List.append_nil, style?_place]
    split <;> rfl

/-! ## The elements of an image -/

/-- The tags are those of the elements, and the rules of the sheet have grown by their extracted styles. -/
structure Covers (r : Rules) (es : List Element) (sheet sheet' : Sheet) (attributes : List (List Attribute)) : Prop where
  rules : sheet'.rules.length = sheet.rules.length + (es.flatMap (·.extracted r)).length
  tags : List.Forall₂ Bears (tagsFrom r sheet.rules.length es) attributes

theorem Covers.nil (sheet : Sheet) : Covers r [] sheet sheet [] := ⟨rfl, .nil⟩

theorem Covers.append {es es' : List Element} {sheet sheet' sheet'' : Sheet} {l l' : List (List Attribute)}
    (h : Covers r es sheet sheet' l) (h' : Covers r es' sheet' sheet'' l') :
    Covers r (es ++ es') sheet sheet'' (l ++ l') where
  rules := by rw [h'.rules, h.rules, List.flatMap_append, List.length_append, Nat.add_assoc]
  tags := by
    rw [Markup.tagsFrom_append, ← h.rules]
    exact List.rel_append h.tags h'.tags

/-- An element, and what is below it. -/
theorem Covers.cons {e : Element} (hstyle : ¬ e.is "style" = true) {es : List Element} {sheet sheet' : Sheet}
    {l : List (List Attribute)} (h : Covers r es (parts r false e.attributes sheet).2 sheet' l) :
    Covers r (e :: es) sheet sheet' (assemble false (parts r false e.attributes sheet).1 :: l) := by
  have hrules := (parts_tag r false e.attributes sheet).2.1
  have htags := h.tags
  rw [hrules] at htags
  refine ⟨?_, .cons (bears_assemble hstyle sheet) htags⟩
  rw [h.rules, hrules, List.flatMap_cons, List.length_append, Nat.add_assoc]
  rfl

/-- A style element has a tag if it stays, and none of its attributes. -/
theorem covers_styleElement {e : Element} (hstyle : e.is "style" = true) (css : List Char) (sheet : Sheet) :
    Covers r (if r.extractStylesheet then [] else [e]) sheet (styleElement r css sheet).2
      (((styleElement r css sheet).1.map Node.tags).getD []) := by
  unfold styleElement
  cases hr : r.extractStylesheet with
  | true =>
    refine ⟨?_, .nil⟩
    show (if css.isEmpty then sheet else sheet.addBlock css).rules.length = _
    split <;> rfl
  | false =>
    have hextracted : e.extracted r = [] := List.filterMap_eq_nil_iff.mpr fun a _ => if_neg (by rw [hr]; decide)
    have hbears : Bears (.of r false sheet.rules.length e) [] := by
      rw [Tag.of, if_pos hstyle]
      exact ⟨rfl, rfl⟩
    refine ⟨?_, ?_⟩
    · show sheet.rules.length = sheet.rules.length + ([e].flatMap (·.extracted r)).length
      rw [List.flatMap_singleton, hextracted]
      rfl
    · show List.Forall₂ Bears [.of r false sheet.rules.length e] ([] :: tagsOf (if css.isEmpty then [] else [.css css]))
      split <;> exact .cons hbears .nil

theorem tagsOf_toList_append (o : Option Node) (ns : List Node) :
    tagsOf (o.toList ++ ns) = (o.map Node.tags).getD [] ++ tagsOf ns := by
  cases o <;> rfl

mutual

theorem covers_convert : ∀ (t : Markup.Tree) (sheet : Sheet),
    Covers r (t.tagged r) sheet (convert r t sheet).2 (((convert r t sheet).1.map Node.tags).getD [])
  | .node i (.element e) ts, sheet => by
    rw [Markup.Tree.tagged]
    by_cases hspace : e.name.space.isSome = true
    · rw [convert_spaced ts sheet hspace, if_pos hspace]
      exact .nil _
    · rw [if_neg hspace]
      by_cases hstyle : e.is "style" = true
      · rw [convert_style ts sheet hspace hstyle, if_pos hstyle]
        exact covers_styleElement hstyle _ sheet
      · rw [convert_drawn ts sheet hspace hstyle, if_neg hstyle]
        exact .cons hstyle (covers_convertAll ts _)
  | .node _ (.text s) _, sheet => by
    rw [convert, textNode]
    dsimp only
    split <;> exact .nil _
  | .node _ (.cdata s) _, sheet => by
    rw [convert, textNode]
    dsimp only
    split <;> exact .nil _
  | .node _ (.comment s) _, sheet => by
    rw [convert, commentNode]
    split <;> exact .nil _

theorem covers_convertAll : ∀ (ts : List Markup.Tree) (sheet : Sheet),
    Covers r (Markup.Tree.taggedOf r ts) sheet (convertAll r ts sheet).2 (tagsOf (convertAll r ts sheet).1)
  | [], _ => .nil _
  | t :: ts, sheet => by
    rw [convertAll_cons, tagsOf_toList_append, Markup.Tree.taggedOf]
    exact (covers_convert t sheet).append (covers_convertAll ts _)

end

/-- The tags of an image's markup are those of the image, and its rules are the extracted styles. -/
theorem bears_convertRoot {e : Element} (hstyle : ¬ e.is "style" = true) (below : List Markup.Tree) :
    List.Forall₂ Bears (Markup.rootTags r e below) (convertRoot r e below).1.tags ∧
      (convertRoot r e below).2.rules.length = ((e :: Markup.Tree.taggedOf r below).flatMap (·.extracted r)).length := by
  obtain ⟨hrules, htags⟩ := covers_convertAll (r := r) below (parts r true e.attributes .empty).2
  have hroot : (parts r true e.attributes .empty).2.rules.length = (e.extracted r).length :=
    (parts_tag r true e.attributes .empty).2.1.trans (Nat.zero_add _)
  rw [hroot] at hrules htags
  refine ⟨.cons (bears_assemble hstyle .empty) htags, ?_⟩
  rw [List.flatMap_cons, List.length_append]
  exact hrules

end SvgComponent.Jsx
