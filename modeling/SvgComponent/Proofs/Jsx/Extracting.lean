/-
  SvgComponent.Proofs.Jsx.Extracting — which elements the extracted rules belong to.

  The rules of the sheet are the style attributes of the elements that are drawn, in document order (`rules_convertAll`),
  and each element is bound to the numbers of its own rules and to the classes that it names
  (`classTokens_convertAll`). The class of a rule is made of its number alone, so an element that names it is bound to
  it as well (`bound_iff`).
-/

import SvgComponent.Proofs.Jsx.Converted

namespace SvgComponent.Markup

open Style (Declaration)

/-- The declarations of a style attribute, if there are any. -/
def Attribute.rule? (a : Attribute) : Option (List Declaration) :=
  if a.name.full = "style" ∧ (Style.parseDeclarations a.value).isEmpty = false then
    some (Style.parseDeclarations a.value)
  else none

/-- The classes that an attribute names. -/
def Attribute.classNames (a : Attribute) : List (List Char) :=
  if a.name.full = "class" then Text.words a.value.toList else []

/-- The rules that the styles of an element make. -/
def Element.rules (e : Element) : List (List Declaration) := e.attributes.filterMap Attribute.rule?

def Element.classNames (e : Element) : List (List Char) := e.attributes.flatMap Attribute.classNames

namespace Tree

mutual

/-- The elements of a tree below the root that are drawn, in document order: neither styles nor with a namespace. -/
def drawn : Tree → List Element
  | .node _ (.element e) ts => if e.name.space.isSome then [] else if e.is "style" then [] else e :: drawnOf ts
  | .node _ (.text _) _ => []
  | .node _ (.cdata _) _ => []
  | .node _ (.comment _) _ => []

def drawnOf : List Tree → List Element
  | [] => []
  | t :: ts => drawn t ++ drawnOf ts

end

end Tree

/-- The elements of an image that are drawn. -/
def Document.drawn (d : Document) : List Element := d.rootElement?.toList ++ Tree.drawnOf d.root.children

/-- The styles of elements that are numbered from `i`: the number of the element, and the declarations. -/
def styledFrom (i : Nat) : List Element → List (Nat × List Declaration)
  | [] => []
  | e :: es => e.rules.map (i, ·) ++ styledFrom (i + 1) es

/-- The numbers of the rules of each element, from `k`. -/
def numbersFrom (k : Nat) : List Element → List (List Nat)
  | [] => []
  | e :: es => List.range' k e.rules.length :: numbersFrom (k + e.rules.length) es

theorem numbersFrom_append (k : Nat) (es es' : List Element) :
    numbersFrom k (es ++ es') = numbersFrom k es ++ numbersFrom (k + (es.flatMap Element.rules).length) es' := by
  induction es generalizing k with
  | nil => rfl
  | cons e es ih =>
    rw [List.cons_append, numbersFrom, numbersFrom, ih, List.flatMap_cons, List.length_append, List.cons_append,
      Nat.add_assoc]

theorem length_numbersFrom (k : Nat) (es : List Element) : (numbersFrom k es).length = es.length := by
  induction es generalizing k with
  | nil => rfl
  | cons e es ih => rw [numbersFrom, List.length_cons, List.length_cons, ih]

theorem rules_styledFrom (i : Nat) (es : List Element) : (styledFrom i es).map Prod.snd = es.flatMap Element.rules := by
  induction es generalizing i with
  | nil => rfl
  | cons e es ih =>
    rw [styledFrom, List.map_append, List.map_map, ih, List.flatMap_cons]
    exact congrArg (· ++ _) (List.map_id _)

theorem le_of_mem_styledFrom {i : Nat} {es : List Element} {x : Nat × List Declaration} (h : x ∈ styledFrom i es) :
    i ≤ x.1 := by
  induction es generalizing i with
  | nil => cases h
  | cons e es ih =>
    rcases List.mem_append.mp h with h | h
    · obtain ⟨ds, _, rfl⟩ := List.mem_map.mp h
      exact Nat.le_refl i
    · exact (Nat.le_succ i).trans (ih h)

theorem le_of_mem_numbersFrom {k : Nat} {es : List Element} {ns : List Nat} (hns : ns ∈ numbersFrom k es) {j : Nat}
    (hj : j ∈ ns) : k ≤ j := by
  induction es generalizing k with
  | nil => cases hns
  | cons e es ih =>
    rcases List.mem_cons.mp hns with rfl | hns
    · exact (List.mem_range'_1.mp hj).1
    · exact (Nat.le_add_right _ _).trans (ih hns)

/-- The numbers of an element are those that its styles have among all. -/
theorem mem_numbersFrom_iff {k i n : Nat} {es : List Element} {ns : List Nat} (h : (numbersFrom k es)[n]? = some ns)
    (j : Nat) : k + j ∈ ns ↔ (styledFrom i es)[j]?.map Prod.fst = some (i + n) := by
  induction es generalizing k i n j with
  | nil => cases h
  | cons e es ih =>
    rw [numbersFrom] at h
    rw [styledFrom]
    by_cases hj : j < e.rules.length
    · rw [List.getElem?_append_left (by rwa [List.length_map]), List.getElem?_map, List.getElem?_eq_getElem hj]
      cases n with
      | zero =>
        cases h
        rw [List.mem_range'_1]
        exact iff_of_true (by omega) rfl
      | succ n =>
        rw [List.getElem?_cons_succ] at h
        refine iff_of_false (fun hmem => ?_) (fun heq => ?_)
        · have := le_of_mem_numbersFrom (List.mem_of_getElem? h) hmem
          omega
        · have := Option.some.inj heq
          dsimp only at this
          omega
    · obtain ⟨j, rfl⟩ := Nat.exists_eq_add_of_le (Nat.le_of_not_lt hj)
      rw [List.getElem?_append_right (by rw [List.length_map]; omega), List.length_map, Nat.add_sub_cancel_left]
      cases n with
      | zero =>
        cases h
        rw [List.mem_range'_1]
        refine iff_of_false (by omega) (fun heq => ?_)
        obtain ⟨x, hx, hfirst⟩ := Option.map_eq_some_iff.mp heq
        have := le_of_mem_styledFrom (List.mem_of_getElem? hx)
        omega
      | succ n =>
        rw [List.getElem?_cons_succ] at h
        rw [← Nat.add_assoc, ih (i := i + 1) h j, Nat.add_assoc, Nat.add_comm 1 n]

end SvgComponent.Markup

namespace SvgComponent.Jsx

open Markup (Element numbersFrom)
open Style (Sheet Declaration extractedClass)

variable {r : Rules}

/-! ## Tokens -/

def ClassToken.named? : ClassToken → Option (List Char)
  | .literal name => some name
  | .extracted _ => none

def ClassToken.number? : ClassToken → Option Nat
  | .literal _ => none
  | .extracted k => some k

def Attribute.classTokens : Attribute → List ClassToken
  | .classes tokens _ => tokens
  | _ => []

mutual

/-- For each element of the markup, in document order, the classes that it is bound to. -/
def Node.classTokens : Node → List (List ClassToken)
  | .element _ attributes children => attributes.flatMap Attribute.classTokens :: classTokensOf children
  | .text _ => []
  | .comment _ => []
  | .css _ => []

def classTokensOf : List Node → List (List ClassToken)
  | [] => []
  | n :: ns => n.classTokens ++ classTokensOf ns

end

/-! ## The parts of an element -/

/-- A style that is extracted goes to the sheet, and its number to the classes. -/
theorem stylePart_extract (hr : r.extractStylesheet = true) {a : Markup.Attribute} (ha : a.name.full = "style")
    (sheet : Sheet) :
    (stylePart r (Style.parseDeclarations a.value) sheet).2.rules = sheet.rules ++ a.rule?.toList ∧
      ((stylePart r (Style.parseDeclarations a.value) sheet).1.toList.flatMap Part.tokens) =
        (List.range' sheet.rules.length a.rule?.toList.length).map .extracted := by
  unfold stylePart Markup.Attribute.rule?
  cases hempty : (Style.parseDeclarations a.value).isEmpty with
  | true => simp
  | false => simp [hr, ha, Sheet.addRule, Part.tokens]

theorem tokens_plainPart (r : Rules) (root : Bool) {a : Markup.Attribute} (ha : a.name.full ≠ "style") :
    a.rule? = none ∧ (plainPart r root a).toList.flatMap Part.tokens = a.classNames.map .literal := by
  have hrule : a.rule? = none := if_neg fun h => ha h.1
  refine ⟨hrule, ?_⟩
  unfold plainPart Markup.Attribute.classNames
  dsimp only
  by_cases hclass : a.name.full = "class"
  · rw [if_neg (by simp [hclass]), if_pos hclass, if_pos hclass]
    simp [Part.tokens]
  · rw [if_neg hclass, if_neg hclass]
    split_ifs
    · rfl
    · rfl
    · rfl
    · cases attributeName? a.name <;> rfl

theorem number?_literal (names : List (List Char)) : (names.map .literal).filterMap ClassToken.number? = [] := by
  rw [List.filterMap_map]
  exact List.filterMap_eq_nil_iff.mpr fun _ _ => rfl

theorem named?_literal (names : List (List Char)) : (names.map .literal).filterMap ClassToken.named? = names := by
  rw [List.filterMap_map]
  exact List.filterMap_some

theorem number?_extracted (ks : List Nat) : (ks.map .extracted).filterMap ClassToken.number? = ks := by
  rw [List.filterMap_map]
  exact List.filterMap_some

theorem named?_extracted (ks : List Nat) : (ks.map .extracted).filterMap ClassToken.named? = [] := by
  rw [List.filterMap_map]
  exact List.filterMap_eq_nil_iff.mpr fun _ _ => rfl

/-- The parts of an element extract its rules, and are bound to their numbers and to the classes that it names. -/
theorem parts_extract (hr : r.extractStylesheet = true) (root : Bool) (as : List Markup.Attribute) (sheet : Sheet) :
    (parts r root as sheet).2.rules = sheet.rules ++ as.filterMap Markup.Attribute.rule? ∧
      ((parts r root as sheet).1.flatMap Part.tokens).filterMap ClassToken.number? =
        List.range' sheet.rules.length (as.filterMap Markup.Attribute.rule?).length ∧
      ((parts r root as sheet).1.flatMap Part.tokens).filterMap ClassToken.named? =
        as.flatMap Markup.Attribute.classNames := by
  induction as generalizing sheet with
  | nil => exact ⟨(List.append_nil _).symm, rfl, rfl⟩
  | cons a as ih =>
    have hrules : (a :: as).filterMap Markup.Attribute.rule? =
        a.rule?.toList ++ as.filterMap Markup.Attribute.rule? := by
      rw [List.filterMap_cons]
      cases a.rule? <;> rfl
    rw [parts_cons, hrules, List.flatMap_cons]
    dsimp only
    rw [List.flatMap_append, List.filterMap_append, List.filterMap_append]
    by_cases hstyle : a.name.full = "style"
    · have hnames : a.classNames = [] := if_neg (by simp [hstyle])
      obtain ⟨hsheet, htokens⟩ := stylePart_extract hr hstyle sheet
      rw [if_pos hstyle, htokens, hnames]
      generalize (stylePart r (Style.parseDeclarations a.value) sheet).2 = sheet' at hsheet
      obtain ⟨hrest, hnumbers, hnamed⟩ := ih sheet'
      rw [hrest, hnumbers, hnamed, hsheet, List.append_assoc, List.length_append, List.length_append,
        ← List.range'_append_1]
      rw [number?_extracted, named?_extracted]
      exact ⟨rfl, rfl, rfl⟩
    · obtain ⟨hrule, htokens⟩ := tokens_plainPart r root hstyle
      obtain ⟨hrest, hnumbers, hnamed⟩ := ih sheet
      rw [if_neg hstyle, htokens, hrule, hrest, hnumbers, hnamed]
      rw [number?_literal, named?_literal]
      exact ⟨rfl, rfl, rfl⟩

theorem classTokens_of_mem_parts {root : Bool} {as : List Markup.Attribute} {sheet : Sheet} {a : Attribute}
    (h : Part.attr a ∈ (parts r root as sheet).1) : a.classTokens = [] := by
  obtain ⟨b, _, hpart⟩ := isPartOf_of_mem_parts h
  cases hpart <;> rfl

/-- The binding stands among the attributes once. -/
theorem classTokens_place {binding : List Attribute} {ps : List Part} (h : ∀ a, .attr a ∈ ps → a.classTokens = []) :
    (place binding ps).flatMap Attribute.classTokens = binding.flatMap Attribute.classTokens := by
  induction ps with
  | nil => rfl
  | cons x ps ih =>
    have hrest : ∀ a, .attr a ∈ ps → a.classTokens = [] := fun a ha => h a (List.mem_cons_of_mem _ ha)
    cases x with
    | attr a => rw [place, List.flatMap_cons, h a List.mem_cons_self, List.nil_append, ih hrest]
    | classes ts =>
      rw [place, List.flatMap_append]
      refine List.append_right_eq_self.mpr (List.flatMap_eq_nil_iff.mpr fun a ha => ?_)
      obtain ⟨y, hy, heq⟩ := List.mem_filterMap.mp ha
      cases y with
      | attr b =>
        cases heq
        exact hrest a hy
      | classes ts => cases heq

theorem classTokens_assemble {root : Bool} {ps : List Part} (h : ∀ a, .attr a ∈ ps → a.classTokens = []) :
    (assemble root ps).flatMap Attribute.classTokens = ps.flatMap Part.tokens := by
  have hspread : (if root = true then [Attribute.spread] else []).flatMap Attribute.classTokens = [] := by
    split <;> rfl
  rw [assemble, List.flatMap_append, classTokens_place h, hspread, List.append_nil]
  split
  · rename_i hempty
    rw [Bool.and_eq_true, List.isEmpty_iff] at hempty
    exact hempty.1.symm
  · exact List.append_nil _

/-! ## The elements of an image -/

mutual

theorem rules_convert (hr : r.extractStylesheet = true) : ∀ (t : Markup.Tree) (sheet : Sheet),
    (convert r t sheet).2.rules = sheet.rules ++ t.drawn.flatMap Element.rules
  | .node i (.element e) ts, sheet => by
    rw [Markup.Tree.drawn]
    by_cases hspace : e.name.space.isSome = true
    · rw [convert_spaced ts sheet hspace, if_pos hspace]
      exact (List.append_nil _).symm
    · rw [if_neg hspace]
      by_cases hstyle : e.is "style" = true
      · rw [convert_style ts sheet hspace hstyle, if_pos hstyle, styleElement, if_pos hr]
        dsimp only
        rw [List.flatMap_nil, List.append_nil]
        split <;> rfl
      · rw [convert_drawn ts sheet hspace hstyle, if_neg hstyle]
        dsimp only
        rw [rules_convertAll hr ts, (parts_extract hr false e.attributes sheet).1, List.flatMap_cons, List.append_assoc]
        rfl
  | .node _ (.text s) _, sheet => by
    rw [convert]
    exact (List.append_nil _).symm
  | .node _ (.cdata s) _, sheet => by
    rw [convert]
    exact (List.append_nil _).symm
  | .node _ (.comment s) _, sheet => by
    rw [convert]
    exact (List.append_nil _).symm

/-- The rules are those of the elements that are drawn. -/
theorem rules_convertAll (hr : r.extractStylesheet = true) : ∀ (ts : List Markup.Tree) (sheet : Sheet),
    (convertAll r ts sheet).2.rules = sheet.rules ++ (Markup.Tree.drawnOf ts).flatMap Element.rules
  | [], _ => (List.append_nil _).symm
  | t :: ts, sheet => by
    rw [convertAll_cons, Markup.Tree.drawnOf, List.flatMap_append]
    dsimp only
    rw [rules_convertAll hr ts, rules_convert hr t, List.append_assoc]

end

/-- The elements are bound to the numbers of their rules, from that of the first one, and to what they name. -/
structure Binds (k : Nat) (es : List Element) (tokens : List (List ClassToken)) : Prop where
  numbers : tokens.map (·.filterMap ClassToken.number?) = numbersFrom k es
  names : tokens.map (·.filterMap ClassToken.named?) = es.map Element.classNames

theorem Binds.nil (k : Nat) : Binds k [] [] := ⟨rfl, rfl⟩

theorem Binds.append {k : Nat} {es es' : List Element} {tokens tokens' : List (List ClassToken)} (h : Binds k es tokens)
    (h' : Binds (k + (es.flatMap Element.rules).length) es' tokens') : Binds k (es ++ es') (tokens ++ tokens') where
  numbers := by rw [List.map_append, h.numbers, h'.numbers, Markup.numbersFrom_append]
  names := by rw [List.map_append, h.names, h'.names, List.map_append]

/-- An element, and what is drawn below it. -/
theorem Binds.cons (hr : r.extractStylesheet = true) (root : Bool) {e : Element} (sheet : Sheet) {es : List Element}
    {tokens : List (List ClassToken)} (h : Binds (parts r root e.attributes sheet).2.rules.length es tokens) :
    Binds sheet.rules.length (e :: es)
      ((assemble root (parts r root e.attributes sheet).1).flatMap Attribute.classTokens :: tokens) := by
  obtain ⟨hrules, hnumbers, hnames⟩ := parts_extract hr root e.attributes sheet
  have htokens : (assemble root (parts r root e.attributes sheet).1).flatMap Attribute.classTokens =
      (parts r root e.attributes sheet).1.flatMap Part.tokens :=
    classTokens_assemble fun a ha => classTokens_of_mem_parts ha
  rw [hrules, List.length_append] at h
  refine ⟨?_, ?_⟩
  · rw [List.map_cons, htokens, hnumbers, h.numbers]
    rfl
  · rw [List.map_cons, htokens, hnames, h.names]
    rfl

theorem classTokens_toList_append (o : Option Node) (ns : List Node) :
    classTokensOf (o.toList ++ ns) = (o.map Node.classTokens).getD [] ++ classTokensOf ns := by
  cases o <;> rfl

mutual

theorem classTokens_convert (hr : r.extractStylesheet = true) : ∀ (t : Markup.Tree) (sheet : Sheet),
    Binds sheet.rules.length t.drawn (((convert r t sheet).1.map Node.classTokens).getD [])
  | .node i (.element e) ts, sheet => by
    rw [Markup.Tree.drawn]
    by_cases hspace : e.name.space.isSome = true
    · rw [convert_spaced ts sheet hspace, if_pos hspace]
      exact .nil _
    · rw [if_neg hspace]
      by_cases hstyle : e.is "style" = true
      · rw [convert_style ts sheet hspace hstyle, if_pos hstyle, styleElement, if_pos hr]
        exact .nil _
      · rw [convert_drawn ts sheet hspace hstyle, if_neg hstyle]
        exact .cons hr false sheet (classTokens_convertAll hr ts _)
  | .node _ (.text s) _, sheet => by
    rw [convert, textNode]
    dsimp only
    split <;> exact .nil _
  | .node _ (.cdata s) _, sheet => by
    rw [convert, textNode]
    dsimp only
    split <;> exact .nil _
  | .node _ (.comment s) _, sheet => by
    rw [convert, commentNode]
    split <;> exact .nil _

theorem classTokens_convertAll (hr : r.extractStylesheet = true) : ∀ (ts : List Markup.Tree) (sheet : Sheet),
    Binds sheet.rules.length (Markup.Tree.drawnOf ts) (classTokensOf (convertAll r ts sheet).1)
  | [], _ => .nil _
  | t :: ts, sheet => by
    have hrest := classTokens_convertAll hr ts (convert r t sheet).2
    rw [rules_convert hr t, List.length_append] at hrest
    rw [convertAll_cons, classTokens_toList_append, Markup.Tree.drawnOf]
    exact (classTokens_convert hr t sheet).append hrest

end

/-- The rules of an image are those of its elements, and its elements are bound to their own and to what they name. -/
theorem convertRoot_extract (hr : r.extractStylesheet = true) (e : Element) (ts : List Markup.Tree) :
    (convertRoot r e ts).2.rules = (e :: Markup.Tree.drawnOf ts).flatMap Element.rules ∧
      Binds 0 (e :: Markup.Tree.drawnOf ts) (convertRoot r e ts).1.classTokens := by
  constructor
  · show (convertAll r ts (parts r true e.attributes .empty).2).2.rules = _
    rw [rules_convertAll hr, (parts_extract hr true e.attributes .empty).1]
    rfl
  · exact .cons hr true .empty (classTokens_convertAll hr ts _)

/-! ## Classes that are bound -/

theorem isIdentifier_extractedClass (k : Nat) : isIdentifier (extractedClass k) = true := by
  have hall : ((extractedClass k).all fun c => c.isAlphanum || c == '_' || c == '$') = true := by
    rw [List.all_eq_true]
    intro c hc
    rcases Style.mem_extractedClass hc with hword | rfl
    · rw [hword]
      rfl
    · rfl
  rw [isIdentifier, hall]
  rfl

/-- Only its own name refers to the class of a rule. -/
theorem styleReference_eq_iff (name : List Char) (k : Nat) :
    styleReference name = styleReference (extractedClass k) ↔ name = extractedClass k := by
  refine ⟨fun h => ?_, fun h => by rw [h]⟩
  unfold styleReference at h
  rw [if_pos (isIdentifier_extractedClass k)] at h
  split at h
  · exact (List.cons.inj (List.append_cancel_left h)).2
  · rw [List.append_assoc] at h
    cases List.append_cancel_left h

theorem extractedClass_injective {j k : Nat} (h : extractedClass j = extractedClass k) : j = k :=
  Text.natDigits_injective (List.append_cancel_left h)

/-- An element is bound to the class of a rule by its number, or by its name. -/
theorem bound_iff (tokens : List ClassToken) (k : Nat) :
    ClassPart.expression (styleReference (extractedClass k)) ∈ tokens.map (ClassToken.part true) ↔
      k ∈ tokens.filterMap ClassToken.number? ∨ extractedClass k ∈ tokens.filterMap ClassToken.named? := by
  induction tokens with
  | nil => simp
  | cons t tokens ih =>
    rw [List.map_cons, List.mem_cons, ih]
    cases t with
    | literal name =>
      have hpart : ClassToken.part true (.literal name) = .expression (styleReference name) := rfl
      rw [hpart, ClassPart.expression.injEq, eq_comm, styleReference_eq_iff]
      simp only [List.filterMap_cons, ClassToken.number?, ClassToken.named?, List.mem_cons]
      rw [eq_comm, or_left_comm]
    | extracted j =>
      have hpart : ClassToken.part true (.extracted j) = .expression (styleReference (extractedClass j)) := rfl
      rw [hpart, ClassPart.expression.injEq, eq_comm, styleReference_eq_iff]
      simp only [List.filterMap_cons, ClassToken.number?, ClassToken.named?, List.mem_cons]
      rw [or_assoc, eq_comm]
      exact or_congr_left ⟨extractedClass_injective, fun h => by rw [h]⟩

end SvgComponent.Jsx
