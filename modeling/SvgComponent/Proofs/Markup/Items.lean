/-
  SvgComponent.Proofs.Markup.Items — what texts and trees consist of, in document order.

  Events stand for items, one by one: tags with their elements, and text with its references replaced, by the grammar of
  these; a tag without content is a start and an end (`Event.Denotes`). A tree is taken apart into items as well
  (`Outline.items`), and these are what the events that spell it stand for (`denoteAll_of_root`). `Item.levels` says how
  many elements are open around each item: an element at the outermost level is the one root of its items, with nothing
  beside it (`levels_root`).
-/

import SvgComponent.Proofs.Markup.Grammar
import SvgComponent.Proofs.Markup.Reading

namespace SvgComponent.Markup

/-! ## Items -/

/-- What a document consists of, in document order. -/
inductive Item where
  | start (e : Element)
  | finish (name : String)
  | text (s : String)
  | comment (s : String)
  | cdata (s : String)
  deriving DecidableEq

namespace Item

def isTag : Item → Bool
  | start _ => true
  | finish _ => true
  | _ => false

/-- What may stand beside the root: blank text and comments. -/
def isLoose : Item → Bool
  | text s => s.toList.all Text.isBlank
  | comment _ => true
  | _ => false

/-- How many elements are open after it, if `n` were open before. -/
def after (n : Nat) : Item → Nat
  | start _ => n + 1
  | finish _ => n - 1
  | _ => n

/-- How many elements are open around it; a tag is not within its own element. -/
def level (n : Nat) : Item → Nat
  | finish _ => n - 1
  | _ => n

/-- How many elements are open after the items. -/
def openAfter (n : Nat) (items : List Item) : Nat := items.foldl after n

/-- Each item with the number of elements that are open around it. -/
def levels (n : Nat) : List Item → List (Nat × Item)
  | [] => []
  | item :: items => (item.level n, item) :: levels (item.after n) items

/-- The element, if it is the start of one at the outermost level. -/
def root? (x : Nat × Item) : Option Element :=
  match x.2 with
  | start e => if x.1 = 0 then some e else none
  | _ => none

/-- The elements at the outermost level. -/
def roots (l : List (Nat × Item)) : List Element := l.filterMap root?

/-- Whether it is beside the elements at the outermost level. -/
def isBeside (x : Nat × Item) : Bool := x.1 == 0 && !x.2.isTag

def beside (l : List (Nat × Item)) : List Item := (l.filter isBeside).map (·.2)

def inside (l : List (Nat × Item)) : List Item := (l.filter (!isBeside ·)).map (·.2)

end Item

namespace Event

/-- What an event stands for: its text or tag by the grammar of these, and a tag without content for a start and an
    end. -/
inductive Denotes : Event → List Item → Prop
  | text {raw : List Char} {s : String} (expands : Reference.Expands raw s.toList) : Denotes (text raw) [.text s]
  | start {content : List Char} {e : Element} (opens : TagAttributes.Opens content e) : Denotes (start content) [.start e]
  | empty {content : List Char} {e : Element} (opens : TagAttributes.Opens content e) :
      Denotes (empty content) [.start e, .finish e.name.full]
  | finish (name : List Char) : Denotes (finish name) [.finish (String.ofList name)]
  | comment (s : List Char) : Denotes (comment s) [.comment (String.ofList s)]
  | cdata (s : List Char) : Denotes (cdata s) [.cdata (String.ofList s)]
  | skipped : Denotes skipped []

/-- What events stand for, one after the other. -/
inductive DenoteAll : List Event → List Item → Prop
  | nil : DenoteAll [] []
  | cons {e : Event} {es : List Event} {is js : List Item} (first : e.Denotes is) (rest : DenoteAll es js) :
      DenoteAll (e :: es) (is ++ js)

end Event

namespace Outline

mutual

/-- A tree taken apart in document order. -/
def items : Outline → List Item
  | node (.element e) ts => .start e :: (itemsOf ts ++ [.finish e.name.full])
  | node (.text s) _ => [.text s]
  | node (.comment s) _ => [.comment s]
  | node (.cdata s) _ => [.cdata s]

def itemsOf : List Outline → List Item
  | [] => []
  | t :: ts => items t ++ itemsOf ts

end

end Outline

/-! ## Levels -/

namespace Item

variable {n : Nat} {items rest : List Item}

theorem levels_append (n : Nat) (items rest : List Item) :
    levels n (items ++ rest) = levels n items ++ levels (openAfter n items) rest := by
  induction items generalizing n with
  | nil => rfl
  | cons item items ih =>
    rw [List.cons_append, levels, ih]
    rfl

theorem openAfter_append (n : Nat) (items rest : List Item) :
    openAfter n (items ++ rest) = openAfter (openAfter n items) rest := List.foldl_append

theorem levels_of_not_isTag (h : ∀ item ∈ items, item.isTag = false) (n : Nat) :
    levels n items = items.map (n, ·) ∧ openAfter n items = n := by
  induction items with
  | nil => exact ⟨rfl, rfl⟩
  | cons item items ih =>
    rw [List.forall_mem_cons] at h
    obtain ⟨hlevels, hopen⟩ := ih h.2
    have hitem : item.level n = n ∧ item.after n = n := by
      cases item with
      | start e => cases h.1
      | finish name => cases h.1
      | _ => exact ⟨rfl, rfl⟩
    rw [levels, openAfter, List.foldl_cons, hitem.1, hitem.2, hlevels, List.map_cons]
    exact ⟨rfl, hopen⟩

theorem isTag_of_isLoose {item : Item} (h : item.isLoose = true) : item.isTag = false := by
  cases item <;> first | rfl | cases h

/-- Loose items at the outermost level are beside the root, and hold no element. -/
theorem levels_of_isLoose (h : ∀ item ∈ items, item.isLoose = true) :
    openAfter 0 items = 0 ∧ roots (levels 0 items) = [] ∧ beside (levels 0 items) = items ∧
      inside (levels 0 items) = [] := by
  have htag : ∀ item ∈ items, item.isTag = false := fun item hitem => isTag_of_isLoose (h item hitem)
  obtain ⟨hlevels, hopen⟩ := levels_of_not_isTag htag 0
  have hbeside : ∀ x ∈ items.map ((0 : Nat), ·), isBeside x = true := by
    rw [List.forall_mem_map]
    intro item hitem
    rw [isBeside, htag item hitem]
    rfl
  rw [hlevels]
  refine ⟨hopen, ?_, ?_, ?_⟩
  · rw [roots, List.filterMap_eq_nil_iff, List.forall_mem_map]
    intro item hitem
    cases item with
    | start e => cases htag _ hitem
    | _ => rfl
  · rw [beside, List.filter_eq_self.mpr hbeside, List.map_map]
    exact List.map_id _
  · have hnone : (items.map ((0 : Nat), ·)).filter (!isBeside ·) = [] := by
      rw [List.filter_eq_nil_iff]
      intro x hx
      rw [hbeside x hx]
      exact Bool.false_ne_true
    rw [inside, hnone, List.map_nil]

/-- Nothing inside an open element is at the outermost level. -/
theorem levels_of_lt {l : List (Nat × Item)} (h : ∀ x ∈ l, 0 < x.1) :
    roots l = [] ∧ beside l = [] ∧ inside l = l.map (·.2) := by
  have hbeside : ∀ x ∈ l, isBeside x = false := by
    intro x hx
    have hne : (x.1 == 0) = false := beq_eq_false_iff_ne.mpr (Nat.ne_of_gt (h x hx))
    rw [isBeside, hne, Bool.false_and]
  refine ⟨?_, ?_, ?_⟩
  · rw [roots, List.filterMap_eq_nil_iff]
    intro x hx
    have hne := Nat.ne_of_gt (h x hx)
    unfold root?
    split
    · exact if_neg hne
    · rfl
  · rw [beside, List.filter_eq_nil_iff.mpr fun x hx => by rw [hbeside x hx]; exact Bool.false_ne_true, List.map_nil]
  · rw [inside, List.filter_eq_self.mpr fun x hx => by rw [hbeside x hx]; rfl]

theorem roots_append (l l' : List (Nat × Item)) : roots (l ++ l') = roots l ++ roots l' := List.filterMap_append

theorem beside_append (l l' : List (Nat × Item)) : beside (l ++ l') = beside l ++ beside l' := by
  rw [beside, List.filter_append, List.map_append]
  rfl

theorem inside_append (l l' : List (Nat × Item)) : inside (l ++ l') = inside l ++ inside l' := by
  rw [inside, List.filter_append, List.map_append]
  rfl

theorem map_levels (n : Nat) (items : List Item) : (levels n items).map (·.2) = items := by
  induction items generalizing n with
  | nil => rfl
  | cons item items ih => rw [levels, List.map_cons, ih]

end Item

/-! ## The levels of a tree -/

open Item (levels openAfter roots beside inside)

theorem levels_element {n : Nat} {ts : List Outline} (h : openAfter (n + 1) (Outline.itemsOf ts) = n + 1) (e : Element) :
    levels n (Outline.node (.element e) ts).items =
      (n, .start e) :: (levels (n + 1) (Outline.itemsOf ts) ++ [(n, .finish e.name.full)]) := by
  have hstart : ∀ items, levels n (.start e :: items) = (n, .start e) :: levels (n + 1) items := fun _ => rfl
  rw [Outline.items, hstart, Item.levels_append, h]
  rfl

mutual

theorem levels_items : ∀ (o : Outline) (n : Nat),
    openAfter n o.items = n ∧ ∀ x ∈ levels n o.items, n ≤ x.1
  | .node (.element e) ts, n => by
    obtain ⟨hopen, hle⟩ := levels_itemsOf ts (n + 1)
    have hstart : ∀ items, openAfter n (.start e :: items) = openAfter (n + 1) items := fun _ => rfl
    refine ⟨?_, ?_⟩
    · rw [Outline.items, hstart, Item.openAfter_append, hopen]
      rfl
    · rw [levels_element hopen, List.forall_mem_cons, List.forall_mem_append]
      refine ⟨Nat.le_refl n, fun x hx => Nat.le_of_succ_le (hle x hx), ?_⟩
      intro x hx
      rw [List.mem_singleton] at hx
      subst hx
      exact Nat.le_refl n
  | .node (.text s) ts, n => ⟨rfl, by simp [Outline.items, levels, Item.level]⟩
  | .node (.comment s) ts, n => ⟨rfl, by simp [Outline.items, levels, Item.level]⟩
  | .node (.cdata s) ts, n => ⟨rfl, by simp [Outline.items, levels, Item.level]⟩

theorem levels_itemsOf : ∀ (ts : List Outline) (n : Nat),
    openAfter n (Outline.itemsOf ts) = n ∧ ∀ x ∈ levels n (Outline.itemsOf ts), n ≤ x.1
  | [], n => ⟨rfl, fun x hx => by cases hx⟩
  | t :: ts, n => by
    obtain ⟨hopen, hle⟩ := levels_items t n
    obtain ⟨hopen', hle'⟩ := levels_itemsOf ts n
    rw [Outline.itemsOf, Item.openAfter_append, Item.levels_append, hopen, List.forall_mem_append]
    exact ⟨hopen', hle, hle'⟩

end

/-- An element at the outermost level is the one root of its items, and nothing is beside it. -/
theorem levels_root (e : Element) (ts : List Outline) :
    let items := (Outline.node (.element e) ts).items
    openAfter 0 items = 0 ∧ roots (levels 0 items) = [e] ∧ beside (levels 0 items) = [] ∧
      inside (levels 0 items) = items := by
  obtain ⟨hopen, hle⟩ := levels_itemsOf ts 1
  obtain ⟨hroots, hbeside, hinside⟩ := Item.levels_of_lt hle
  dsimp only
  rw [levels_element hopen]
  refine ⟨(levels_items (.node (.element e) ts) 0).1, ?_, ?_, ?_⟩
  · rw [roots, List.filterMap_cons, List.filterMap_append]
    exact congrArg (e :: ·) (congrArg (· ++ []) hroots)
  · rw [beside, List.filter_cons_of_neg Bool.false_ne_true, List.filter_append, List.map_append]
    exact congrArg (· ++ []) hbeside
  · rw [inside, List.filter_cons_of_pos rfl, List.filter_append, List.map_cons, List.map_append]
    rw [inside, Item.map_levels] at hinside
    rw [hinside]
    rfl

/-- What is loose around an element does not count: it is the one root, and what is inside is inside it. -/
theorem levels_around {is js : List Item} (his : ∀ item ∈ is, item.isLoose = true)
    (hjs : ∀ item ∈ js, item.isLoose = true) (e : Element) (ts : List Outline) :
    let items := is ++ (Outline.node (.element e) ts).items ++ js
    openAfter 0 items = 0 ∧ roots (levels 0 items) = [e] ∧
      (∀ item ∈ beside (levels 0 items), item.isLoose = true) ∧
      inside (levels 0 items) = (Outline.node (.element e) ts).items := by
  obtain ⟨hopen, hroots, hbeside, hinside⟩ := levels_root e ts
  obtain ⟨hopen₁, hroots₁, hbeside₁, hinside₁⟩ := Item.levels_of_isLoose his
  obtain ⟨hopen₂, hroots₂, hbeside₂, hinside₂⟩ := Item.levels_of_isLoose hjs
  dsimp only
  rw [Item.openAfter_append, Item.openAfter_append, Item.levels_append, Item.levels_append, Item.openAfter_append,
    hopen₁, hopen, hopen₂]
  refine ⟨rfl, ?_, ?_, ?_⟩
  · rw [Item.roots_append, Item.roots_append, hroots₁, hroots, hroots₂]
    rfl
  · rw [Item.beside_append, Item.beside_append, hbeside₁, hbeside, hbeside₂, List.append_nil, List.forall_mem_append]
    exact ⟨his, hjs⟩
  · rw [Item.inside_append, Item.inside_append, hinside₁, hinside, hinside₂, List.append_nil, List.nil_append]

/-! ## What is read -/

namespace Event

variable {e : Event} {es fs : List Event} {is js : List Item}

theorem denotes_text {raw s : List Char} (h : Reference.expand raw = .ok s) :
    (text raw).Denotes [.text (String.ofList s)] := by
  refine .text ?_
  rw [String.toList_ofList]
  exact Reference.expand_iff.mp h

theorem denotes_start {content : List Char} {e : Element} (h : TagAttributes.element content = .ok e) :
    (start content).Denotes [.start e] := .start (TagAttributes.element_iff.mp h)

theorem denotes_empty {content : List Char} {e : Element} (h : TagAttributes.element content = .ok e) :
    (empty content).Denotes [.start e, .finish e.name.full] := .empty (TagAttributes.element_iff.mp h)

/-- An end tag that is matched has the name of its element. -/
theorem denotes_finish {content : List Char} {e : Element} (h : TagAttributes.element content = .ok e) :
    (finish (Stream.tagName content)).Denotes [.finish e.name.full] := by
  rw [← String.ofList_toList (s := e.name.full), full_of_element h]
  exact .finish _

/-- An event stands for one thing. -/
theorem Denotes.unique (h : e.Denotes is) (h' : e.Denotes js) : is = js := by
  cases h with
  | text hs =>
    cases h' with
    | text hs' =>
      have hsame := (Reference.expand_iff.mpr hs).symm.trans (Reference.expand_iff.mpr hs')
      rw [String.toList_inj.mp (Except.ok.inj hsame)]
  | start he =>
    cases h' with
    | start he' =>
      have hsame := (TagAttributes.element_iff.mpr he).symm.trans (TagAttributes.element_iff.mpr he')
      rw [Except.ok.inj hsame]
  | empty he =>
    cases h' with
    | empty he' =>
      have hsame := (TagAttributes.element_iff.mpr he).symm.trans (TagAttributes.element_iff.mpr he')
      rw [Except.ok.inj hsame]
  | finish name =>
    cases h'
    rfl
  | comment s =>
    cases h'
    rfl
  | cdata s =>
    cases h'
    rfl
  | skipped =>
    cases h'
    rfl

theorem DenoteAll.unique (h : DenoteAll es is) (h' : DenoteAll es js) : is = js := by
  induction h generalizing js with
  | nil =>
    cases h'
    rfl
  | cons first _ ih =>
    cases h' with
    | cons first' rest' => rw [first.unique first', ih rest']

theorem DenoteAll.append (h : DenoteAll es is) (h' : DenoteAll fs js) : DenoteAll (es ++ fs) (is ++ js) := by
  induction h with
  | nil => exact h'
  | cons first _ ih =>
    rw [List.cons_append, List.append_assoc]
    exact .cons first ih

end Event

open Event (DenoteAll denotes_text denotes_start denotes_empty denotes_finish)

/-- What spells outlines stands for what they consist of. -/
theorem denoteAll_of_spells {es : List Event} {ts : List Outline} (h : Spells es ts) :
    DenoteAll es (Outline.itemsOf ts) := by
  induction h with
  | nil => exact .nil
  | skipped h ih => exact .cons .skipped ih
  | text read h ih => exact .cons (denotes_text read) ih
  | comment s h ih => exact .cons (.comment s) ih
  | cdata s h ih => exact .cons (.cdata s) ih
  | empty read h ih => exact .cons (denotes_empty read) ih
  | element read inside h ih₁ ih₂ =>
    have hall := DenoteAll.cons (denotes_start read) (ih₁.append (.cons (denotes_finish read) ih₂))
    simpa [Outline.itemsOf, Outline.items] using hall

theorem denoteAll_of_root {es : List Event} {o : Outline} (h : SpellsRoot es o) : DenoteAll es o.items := by
  cases h with
  | empty read => exact .cons (denotes_empty read) .nil
  | element read inside =>
    exact .cons (denotes_start read) ((denoteAll_of_spells inside).append (.cons (denotes_finish read) .nil))

end SvgComponent.Markup
