/-
  SvgComponent.Proofs.Jsx.Code — what the code in attributes is put together from.

  References to classes, the fields of inlined styles and what the caller may give are words, strings and a few marks, one
  after the other. A property of words and marks that two texts together have if each has it is therefore one of all
  this code if it is one of the strings in it (`IsCode`). A class attribute is a string, or one of three kinds of code
  (`classes_cases`).
-/

import SvgComponent.Jsx.Printer
import SvgComponent.Proofs.Text.Cut
import SvgComponent.Proofs.Text.Kinds

namespace SvgComponent.Jsx

open Style (Declaration extractedClass)

/-! ## Names -/

section

variable {P : Char → Prop} {s : List Char}

theorem forall_mem_capitalize (hupper : ∀ c : Char, c.isUpper = true → P c) (hs : ∀ c ∈ s, P c) :
    ∀ c ∈ capitalize s, P c := by
  cases s with
  | nil => exact hs
  | cons c s =>
    rw [List.forall_mem_cons] at hs
    refine List.forall_mem_cons.mpr ⟨?_, hs.2⟩
    rcases Text.toUpper_eq_or_isUpper c with heq | h
    · rw [heq]
      exact hs.1
    · exact hupper _ h

theorem forall_mem_camelCase (hupper : ∀ c : Char, c.isUpper = true → P c) (hs : ∀ c ∈ s, P c) :
    ∀ c ∈ camelCase s, P c := by
  have hpart : ∀ t ∈ s.splitOn '-', ∀ c ∈ t, P c := fun t ht c hc => hs c (Text.mem_of_mem_splitOnP ht hc).1
  unfold camelCase
  split
  · exact fun c hc => absurd hc List.not_mem_nil
  · rename_i first rest heq
    rw [heq, List.forall_mem_cons] at hpart
    rw [List.forall_mem_append]
    refine ⟨hpart.1, ?_⟩
    intro c hc
    obtain ⟨t, ht, hc⟩ := List.mem_flatMap.mp hc
    exact forall_mem_capitalize hupper (hpart.2 t ht) c hc

/-- The key of a property has characters of the property, and capitals. -/
theorem forall_mem_propertyKey (hupper : ∀ c : Char, c.isUpper = true → P c) (hs : ∀ c ∈ s, P c) :
    ∀ c ∈ (propertyKey s).1, P c := by
  unfold propertyKey
  split
  · exact hs
  · rw [List.forall_mem_cons] at hs
    exact forall_mem_capitalize hupper (forall_mem_camelCase hupper hs.2)
  · exact forall_mem_camelCase hupper hs

/-- An identifier has letters, digits, underscores and dollar signs only. -/
theorem forall_mem_of_isIdentifier (hword : ∀ c : Char, c.isAlphanum = true ∨ c = '_' ∨ c = '$' → P c)
    (h : isIdentifier s = true) : ∀ c ∈ s, P c := by
  intro c hc
  rw [isIdentifier, Bool.and_eq_true] at h
  have := List.all_eq_true.mp h.2 c hc
  simp only [Bool.or_eq_true, beq_iff_eq, or_assoc] at this
  exact hword c this

end

/-! ## Text that is put together -/

/-- A property of text that two texts together have if each has it. -/
structure Composes (P : List Char → Prop) : Prop where
  nil : P []
  append : ∀ {s t : List Char}, P s → P t → P (s ++ t)

namespace Composes

variable {P : List Char → Prop} {s : List Char}

theorem flatMap (h : Composes P) {α : Type} {f : α → List Char} {l : List α} (hl : ∀ a ∈ l, P (f a)) :
    P (l.flatMap f) := by
  induction l with
  | nil => exact h.nil
  | cons a l ih =>
    rw [List.forall_mem_cons] at hl
    rw [List.flatMap_cons]
    exact h.append hl.1 (ih hl.2)

theorem of_forall_mem (h : Composes P) (hs : ∀ c ∈ s, P [c]) : P s := by
  have := h.flatMap hs
  rwa [List.flatMap_singleton'] at this

theorem intercalate (h : Composes P) {l : List (List Char)} (hs : P s) (hl : ∀ t ∈ l, P t) : P (s.intercalate l) := by
  induction l with
  | nil => exact h.nil
  | cons t l ih =>
    rw [List.forall_mem_cons] at hl
    cases l with
    | nil =>
      rw [List.intercalate_singleton]
      exact hl.1
    | cons u l =>
      rw [List.intercalate_cons_cons]
      exact h.append (h.append hl.1 hs) (ih hl.2)

end Composes

theorem composes_forall_mem (P : Char → Prop) : Composes fun s => ∀ c ∈ s, P c where
  nil := fun _ hc => absurd hc List.not_mem_nil
  append := fun hs ht => List.forall_mem_append.mpr ⟨hs, ht⟩

/-- What stands between the words and the strings of code. -/
def codeMarks : List Char := ['.', '[', ']', '_', '$', ':', ',', ' ', '|']

/-- A property of code: text has it whose characters are all right, and words and marks are. -/
structure IsCode (P : List Char → Prop) (ok : Char → Prop) : Prop extends Composes P where
  chars : ∀ {s : List Char}, (∀ c ∈ s, ok c) → P s
  word : ∀ c : Char, c.isAlphanum = true → ok c
  mark : ∀ c ∈ codeMarks, ok c

namespace IsCode

variable {P : List Char → Prop} {ok : Char → Prop}

theorem words (h : IsCode P ok) {s : List Char} (hs : ∀ c ∈ s, c.isAlphanum = true ∨ c ∈ codeMarks) : P s :=
  h.chars fun c hc => (hs c hc).elim (h.word c) (h.mark c)

theorem styleReference (h : IsCode P ok) {name : List Char} (hname : P (Text.quote name)) : P (styleReference name) := by
  unfold Jsx.styleReference
  split
  · rename_i hidentifier
    have hword : ∀ c : Char, c.isAlphanum = true ∨ c = '_' ∨ c = '$' → c.isAlphanum = true ∨ c ∈ codeMarks := by
      rintro c (hc | rfl | rfl)
      · exact Or.inl hc
      · exact Or.inr (by decide)
      · exact Or.inr (by decide)
    refine h.words (List.forall_mem_append.mpr ⟨by decide, List.forall_mem_cons.mpr ⟨Or.inr (by decide), ?_⟩⟩)
    exact forall_mem_of_isIdentifier hword hidentifier
  · have hopens : P (stylesName ++ ['[']) := h.words (by decide)
    have hcloses : P [']'] := h.words (by decide)
    have := h.append (h.append hopens hname) hcloses
    simpa using this

/-- A field of an inlined style. -/
theorem styleField (h : IsCode P ok) {d : Declaration} (hd : ∀ c ∈ d.property, ok c)
    (hkey : P (Text.quote (propertyKey d.property).1)) (hvalue : P (Text.quote d.value)) : P (Printer.styleField d) := by
  have hupper : ∀ c : Char, c.isUpper = true → ok c := fun c hc => h.word c (Text.isAlphanum_of_isUpper hc)
  have hchars := forall_mem_propertyKey hupper hd
  have hcolon : P [':', ' '] := h.words (by decide)
  show P ((if (propertyKey d.property).2 = true then Text.quote (propertyKey d.property).1
    else (propertyKey d.property).1) ++ _)
  refine h.append ?_ (h.append hcolon hvalue)
  split
  · exact hkey
  · exact h.chars hchars

/-- What stands in the braces of an inlined style. -/
theorem styleFields (h : IsCode P ok) {ds : List Declaration} (hds : ∀ d ∈ ds, P (Printer.styleField d)) :
    P (' ' :: [',', ' '].intercalate (ds.map Printer.styleField) ++ [' ']) := by
  have hblank : P [' '] := h.words (by decide)
  have hfields := h.intercalate (h.words (s := [',', ' ']) (by decide)) (List.forall_mem_map.mpr hds)
  exact h.append (h.append hblank hfields) hblank

/-- The caller's color. -/
theorem forwardedColor (h : IsCode P ok) (hinherited : P (Text.quote Printer.inheritedColor)) :
    P Printer.forwardedColor := by
  have hfront : P ['c', 'o', 'l', 'o', 'r', ' ', '|', '|', ' '] := h.words (by decide)
  exact h.append hfront hinherited

/-- The caller's class. -/
theorem forwarded (h : IsCode P ok) (hempty : P (Text.quote [])) : P Printer.forwarded.plain := by
  have hfront : P (Printer.className ++ [' ', '|', '|', ' ']) := h.words (by decide)
  have := h.append hfront hempty
  exact this

end IsCode

/-! ## Class attributes -/

/-- The classes as a string, if they are printed as one. -/
def Printer.classString? (p : Printer) (tokens : List ClassToken) (root : Bool) : Option (List Char) :=
  let parts := tokens.map (ClassToken.part p.modules)
  if !parts.isEmpty && !root && parts.all ClassPart.isText then some ([' '].intercalate (parts.map ClassPart.plain))
  else none

/-- The code of a class attribute with these parts: the caller's class, a reference, or a template literal. -/
inductive IsClassCode (parts : List ClassPart) : List Char → Prop where
  | caller : IsClassCode parts Printer.className
  | reference {x : ClassPart} (hx : x ∈ parts) (hcode : x.isText = false) : IsClassCode parts x.plain
  | template {xs : List ClassPart} (hxs : ∀ x ∈ xs, x ∈ parts ∨ x = Printer.forwarded) :
      IsClassCode parts ('\x60' :: [' '].intercalate (xs.map ClassPart.template) ++ ['\x60'])

/-- Classes are printed as a string, or else not at all or as code. -/
theorem classes_cases (p : Printer) (tokens : List ClassToken) (root : Bool) :
    let parts := tokens.map (ClassToken.part p.modules)
    let text := [' '].intercalate (parts.map ClassPart.plain)
    (p.classString? tokens root = some text ∧
        p.classes tokens root = Printer.classBinding ++ attributeString p.onlyDouble text) ∨
      (p.classString? tokens root = none ∧ (p.classes tokens root = [] ∨
        ∃ code, IsClassCode parts code ∧ p.classes tokens root = Printer.classBinding ++ braced code)) := by
  unfold Printer.classes Printer.classString?
  generalize tokens.map (ClassToken.part p.modules) = parts
  dsimp only
  by_cases hempty : parts.isEmpty = true
  · rw [if_pos hempty, hempty]
    right
    cases root with
    | true => exact ⟨rfl, Or.inr ⟨_, .caller, rfl⟩⟩
    | false => exact ⟨rfl, Or.inl rfl⟩
  · rw [if_neg hempty, Bool.eq_false_iff.mpr hempty]
    cases root with
    | true =>
      refine Or.inr ⟨rfl, Or.inr ⟨_, @IsClassCode.template parts (parts ++ [Printer.forwarded]) ?_, rfl⟩⟩
      rw [List.forall_mem_append, List.forall_mem_singleton]
      exact ⟨fun x hx => Or.inl hx, Or.inr rfl⟩
    | false =>
      by_cases htext : parts.all ClassPart.isText = true
      · rw [htext]
        exact Or.inl ⟨rfl, rfl⟩
      · rw [Bool.eq_false_iff.mpr htext]
        refine Or.inr ⟨rfl, Or.inr ?_⟩
        match parts with
        | [] => exact absurd rfl hempty
        | [x] =>
          have hx : x.isText = false := by simpa using htext
          exact ⟨_, .reference List.mem_cons_self hx, rfl⟩
        | x :: y :: parts => exact ⟨_, .template fun z hz => Or.inl hz, rfl⟩

/-- A class is printed as a reference to it, or, if it is not looked up in the stylesheet, as it is. -/
theorem part_cases (modules : Bool) (t : ClassToken) :
    (∃ name, (t = .literal name ∨ ∃ k, name = extractedClass k) ∧ t.part modules = .expression (styleReference name)) ∨
      ∃ name, t = .literal name ∧ modules = false ∧ t.part modules = .text name := by
  cases t with
  | extracted k => exact Or.inl ⟨_, Or.inr ⟨k, rfl⟩, rfl⟩
  | literal name =>
    cases modules with
    | true => exact Or.inl ⟨name, Or.inl rfl, rfl⟩
    | false => exact Or.inr ⟨name, rfl, rfl, rfl⟩

end SvgComponent.Jsx
