/-
  SvgComponent.Proofs.Jsx.Attributes — attributes that leave a tag as they found it.

  A tag is read without knowing backslashes, so a string in it ends at its first quote. Attribute strings contain
  none of theirs, and what is bound in braces closes what it opens (`Balanced`). Only the names of classes and the
  properties and values of an inlined style can leave a quote or a brace open, and plain ones do not
  (`balanced_attr`).
-/

import SvgComponent.Proofs.Jsx.Code
import SvgComponent.Proofs.Jsx.Literals
import SvgComponent.Proofs.Style.Declarations

namespace SvgComponent.Jsx

open Layout (Bracket isPlain isQuote isPlain_iff)
open Style (Declaration)

/-- Leads a tag back to where it was, at any depth of braces. -/
def Balanced (s : List Char) : Prop :=
  ∀ n, Bracket.angle.runFrom ⟨none, false, n⟩ s = some ⟨none, false, n⟩

namespace Balanced

variable {s t : List Char}

theorem run (h : Balanced s) : Bracket.angle.run s = some .outside := h 0

theorem nil : Balanced [] := fun _ => rfl

theorem append (hs : Balanced s) (ht : Balanced t) : Balanced (s ++ t) := by
  intro n
  rw [Bracket.runFrom_append, hs n]
  exact ht n

theorem plain (h : ∀ c ∈ s, isPlain c = true) : Balanced s := by
  intro n
  induction s with
  | nil => rfl
  | cons c s ih =>
    rw [List.forall_mem_cons] at h
    obtain ⟨hq, ho, hn, -, hg⟩ := isPlain_iff.mp h.1
    have hstep : Bracket.angle.step ⟨none, false, n⟩ c = some ⟨none, false, n⟩ := by
      simp [Bracket.step, Layout.tagStep, hq, ho, hn, hg]
    rw [Bracket.runFrom_cons, hstep]
    exact ih h.2

/-- A quote is open until it comes again. -/
theorem quoted {q : Char} (hquote : isQuote q = true) (hs : q ∉ s) : Balanced (q :: s ++ [q]) := by
  intro n
  have hopens : Bracket.angle.step ⟨none, false, n⟩ q = some ⟨some q, false, n⟩ := by
    simp [Bracket.step, Layout.tagStep, hquote]
  have hinside : Bracket.angle.runFrom ⟨some q, false, n⟩ s = some ⟨some q, false, n⟩ := by
    induction s with
    | nil => rfl
    | cons c s ih =>
      rw [List.mem_cons, not_or] at hs
      have hstep : Bracket.angle.step ⟨some q, false, n⟩ c = some ⟨some q, false, n⟩ := by
        simp [Bracket.step, Layout.tagStep, Ne.symm hs.1]
      rw [Bracket.runFrom_cons, hstep]
      exact ih hs.2
  have hcloses : Bracket.angle.step ⟨some q, false, n⟩ q = some ⟨none, false, n⟩ := by
    simp [Bracket.step, Layout.tagStep]
  rw [List.cons_append, Bracket.runFrom_cons, hopens, Option.bind_some, Bracket.runFrom_append, hinside,
    Option.bind_some, Bracket.runFrom_cons, hcloses]
  rfl

theorem braced (h : Balanced s) : Balanced (braced s) := by
  intro n
  show Bracket.angle.runFrom ⟨none, false, n + 1⟩ (s ++ ['\x7d']) = _
  rw [Bracket.runFrom_append, h (n + 1)]
  rfl

end Balanced

/-! ## Strings -/

theorem not_mem_flatMap {f : Char → List Char} {q : Char} {s : List Char} (h : ∀ c ∈ s, q ∉ f c) : q ∉ s.flatMap f := by
  rw [List.mem_flatMap]
  rintro ⟨c, hc, hq⟩
  exact h c hc hq

theorem not_mem_escapeAmpersand {q c : Char} (hc : q ≠ c) (hq : q ∉ ['&', 'a', 'm', 'p', ';']) :
    q ∉ escapeAmpersand c := by
  unfold escapeAmpersand
  split
  · exact hq
  · exact fun h => hc (List.mem_singleton.mp h)

theorem not_mem_escapeDoubleQuoted (c : Char) : '\"' ∉ escapeDoubleQuoted c := by
  unfold escapeDoubleQuoted
  split
  · decide
  · rename_i hc
    exact not_mem_escapeAmpersand (Ne.symm hc) (by decide)

/-- The quotes of an attribute string do not occur in it. -/
theorem balanced_attributeString (onlyDouble : Bool) (s : List Char) : Balanced (attributeString onlyDouble s) := by
  unfold attributeString
  split
  · rename_i h
    simp only [Bool.and_eq_true, Bool.not_eq_true', List.contains_eq_mem, decide_eq_false_iff_not] at h
    refine .quoted rfl (not_mem_flatMap fun c hc => not_mem_escapeAmpersand ?_ (by decide))
    rintro rfl
    exact h.2 hc
  · exact .quoted rfl (not_mem_flatMap fun c _ => not_mem_escapeDoubleQuoted c)

theorem not_mem_of_isPlain {q : Char} {s : List Char} (hs : ∀ c ∈ s, isPlain c = true) (hq : isQuote q = true) : q ∉ s := by
  intro hmem
  rw [(isPlain_iff.mp (hs q hmem)).1] at hq
  cases hq

theorem isPlain_of_isAlphanum {c : Char} (h : c.isAlphanum = true) : isPlain c = true := by
  have hne := Text.not_mem_of_forall ['\"', '\'', '\x60', '\x7b', '\x7d', '<', '>'] (by decide) h
  simpa [isPlain, isQuote, and_assoc] using hne

theorem isPlain_hexDigit {n : Nat} (hn : n < 16) : isPlain (Text.hexDigit n) = true := by
  have : ∀ m : Fin 16, isPlain (Text.hexDigit m) = true := by decide
  exact this ⟨n, hn⟩

/-- Plain characters are escaped by plain characters. -/
theorem isPlain_escape {c : Char} (hc : isPlain c = true) : ∀ d ∈ Text.escape c, isPlain d = true := by
  unfold Text.escape
  split_ifs with hquote
  · rw [hquote] at hc
    cases hc
  all_goals try decide
  · rw [List.forall_mem_append]
    refine ⟨by decide, ?_⟩
    rw [Text.hexPair, List.forall_mem_cons, List.forall_mem_singleton]
    exact ⟨isPlain_hexDigit (by omega), isPlain_hexDigit (by omega)⟩
  · exact List.forall_mem_singleton.mpr hc

theorem isPlain_flatMap_escape {s : List Char} (hs : ∀ c ∈ s, isPlain c = true) :
    ∀ c ∈ s.flatMap Text.escape, isPlain c = true := by
  intro c hc
  obtain ⟨d, hd, hc⟩ := List.mem_flatMap.mp hc
  exact isPlain_escape (hs d hd) c hc

/-- A string of plain characters is whole in a tag as well. -/
theorem balanced_quote {s : List Char} (hs : ∀ c ∈ s, isPlain c = true) : Balanced (Text.quote s) :=
  .quoted rfl (not_mem_of_isPlain (isPlain_flatMap_escape hs) rfl)

/-! ## Attributes -/

/-- Names, classes and styles without a quote, a brace or a bracket. -/
def Attribute.IsPlain : Attribute → Prop
  | .literal name _ => ∀ c ∈ name, isPlain c = true
  | .size name => ∀ c ∈ name, isPlain c = true
  | .color name => ∀ c ∈ name, isPlain c = true
  | .style ds => ∀ d ∈ ds, ∀ c ∈ d.property ++ d.value, isPlain c = true
  | .classes tokens _ => ∀ t ∈ tokens, ∀ name, t = .literal name → ∀ c ∈ name, isPlain c = true
  | .spread => True

variable {p : Printer}

theorem isCode_balanced : IsCode Balanced fun c => isPlain c = true where
  nil := .nil
  append := .append
  chars := .plain
  word _ := isPlain_of_isAlphanum
  mark := by decide

theorem balanced_styleField {d : Declaration} (hd : ∀ c ∈ d.property ++ d.value, isPlain c = true) :
    Balanced (Printer.styleField d) := by
  rw [List.forall_mem_append] at hd
  have hupper : ∀ c : Char, c.isUpper = true → isPlain c = true := fun c hc =>
    isPlain_of_isAlphanum (Text.isAlphanum_of_isUpper hc)
  exact isCode_balanced.styleField hd.1 (balanced_quote (forall_mem_propertyKey hupper hd.1)) (balanced_quote hd.2)

/-- A part of a class attribute stands alone, or in a template literal. -/
structure ClassPart.Fits (x : ClassPart) : Prop where
  balanced : Balanced x.plain
  template : '\x60' ∉ x.template

/-- Code without backquotes. -/
theorem isCode_not_mem_backquote : IsCode (fun s => '\x60' ∉ s) fun c => c ≠ '\x60' where
  nil := List.not_mem_nil
  append hs ht hmem := (List.mem_append.mp hmem).elim hs ht
  chars hs hmem := hs _ hmem rfl
  word := by
    rintro _ hc rfl
    cases hc
  mark := by decide

theorem fits_reference {s : List Char} (hs : ∀ c ∈ s, isPlain c = true) :
    (ClassPart.expression (styleReference s)).Fits := by
  refine ⟨isCode_balanced.styleReference (balanced_quote hs), ?_⟩
  have hquote : '\x60' ∉ Text.quote s := by
    have hescaped := not_mem_of_isPlain (q := '\x60') (isPlain_flatMap_escape hs) rfl
    simpa [Text.quote] using hescaped
  have hreference := isCode_not_mem_backquote.styleReference hquote
  show '\x60' ∉ '$' :: braced (styleReference s)
  simpa [braced] using hreference

theorem isPlain_extractedClass (k : Nat) : ∀ c ∈ Style.extractedClass k, isPlain c = true := by
  intro c hc
  rcases Style.mem_extractedClass hc with hword | rfl
  · exact isPlain_of_isAlphanum hword
  · rfl

theorem fits_part {t : ClassToken} (ht : ∀ name, t = .literal name → ∀ c ∈ name, isPlain c = true) :
    (t.part p.modules).Fits := by
  rcases part_cases p.modules t with ⟨name, hname, heq⟩ | ⟨name, hname, -, heq⟩
  · rw [heq]
    apply fits_reference
    rcases hname with hname | ⟨k, rfl⟩
    · exact ht name hname
    · exact isPlain_extractedClass k
  · rw [heq]
    exact ⟨.plain (ht name hname), not_mem_of_isPlain (ht name hname) rfl⟩

theorem fits_forwarded : Printer.forwarded.Fits :=
  ⟨isCode_balanced.forwarded (balanced_quote nofun), by decide⟩

/-- The code of a class attribute closes what it opens if its parts do. -/
theorem IsClassCode.balanced {parts : List ClassPart} (h : ∀ x ∈ parts, x.Fits) {code : List Char}
    (hcode : IsClassCode parts code) : Balanced code := by
  cases hcode with
  | caller => exact isCode_balanced.words (by decide)
  | reference hx => exact (h _ hx).balanced
  | @template xs hxs =>
    refine .quoted rfl (isCode_not_mem_backquote.intercalate (by decide) (List.forall_mem_map.mpr fun x hx => ?_))
    rcases hxs x hx with hmem | rfl
    · exact (h x hmem).template
    · exact fits_forwarded.template

theorem balanced_classes {tokens : List ClassToken} (root : Bool)
    (h : ∀ t ∈ tokens, ∀ name, t = .literal name → ∀ c ∈ name, isPlain c = true) :
    Balanced (p.classes tokens root) := by
  have hbinding : Balanced Printer.classBinding := .plain (by decide)
  have hparts : ∀ x ∈ tokens.map (ClassToken.part p.modules), x.Fits := by
    rw [List.forall_mem_map]
    exact fun t ht => fits_part (h t ht)
  rcases classes_cases p tokens root with ⟨-, heq⟩ | ⟨-, heq | ⟨code, hcode, heq⟩⟩
  · rw [heq]
    exact hbinding.append (balanced_attributeString _ _)
  · rw [heq]
    exact .nil
  · rw [heq]
    exact hbinding.append (.braced (hcode.balanced hparts))

/-- A plain attribute leaves the tag as it found it. -/
theorem balanced_attr {a : Attribute} (h : a.IsPlain) : Balanced (p.attr a) := by
  have hblank : Balanced [' '] := .plain (by decide)
  have hequals : Balanced ['='] := .plain (by decide)
  have hcolor : Balanced Printer.forwardedColor := isCode_balanced.forwardedColor (balanced_quote (by decide))
  cases a with
  | literal name value =>
    exact (hblank.append (.plain h)).append (hequals.append (balanced_attributeString _ _))
  | size name => exact (hblank.append (.plain h)).append (hequals.append (.braced (.plain (by decide))))
  | color name => exact (hblank.append (.plain h)).append (hequals.append (.braced hcolor))
  | style ds =>
    have hopens : Balanced [' ', 's', 't', 'y', 'l', 'e', '='] := .plain (by decide)
    have hfields := isCode_balanced.styleFields fun d hd => balanced_styleField (h d hd)
    exact hopens.append (.braced (.braced hfields))
  | classes tokens root => exact balanced_classes root h
  | spread => exact hblank.append (.braced (.plain (by decide)))

/-! ## How attributes begin and end -/

/-- A blank at the beginning, and a quote or a brace at the end. -/
def IsBinding (s : List Char) : Prop := ∃ r c, s = ' ' :: (r ++ [c]) ∧ (isQuote c = true ∨ c = '\x7d')

theorem isBinding_braced (s t : List Char) : IsBinding (' ' :: s ++ braced t) :=
  ⟨s ++ '\x7b' :: t, '\x7d', by simp [braced], Or.inr rfl⟩

theorem isBinding_string (s : List Char) (onlyDouble : Bool) (t : List Char) :
    IsBinding (' ' :: s ++ attributeString onlyDouble t) := by
  unfold attributeString
  split
  · exact ⟨s ++ '\'' :: t.flatMap escapeAmpersand, '\'', by simp, Or.inl rfl⟩
  · exact ⟨s ++ '\"' :: t.flatMap escapeDoubleQuoted, '\"', by simp, Or.inl rfl⟩

/-- An attribute is printed as a binding, unless there is nothing to bind. -/
theorem isBinding_attr (p : Printer) (a : Attribute) : p.attr a = [] ∨ IsBinding (p.attr a) := by
  cases a with
  | literal name value =>
    right
    have := isBinding_string (name ++ ['=']) p.onlyDouble value
    simpa [Printer.attr] using this
  | size name =>
    right
    have := isBinding_braced (name ++ ['=']) ['s', 'i', 'z', 'e']
    simpa [Printer.attr] using this
  | color name =>
    right
    have := isBinding_braced (name ++ ['=']) Printer.forwardedColor
    simpa [Printer.attr] using this
  | style ds => exact Or.inr (isBinding_braced _ _)
  | classes tokens root =>
    show p.classes tokens root = [] ∨ IsBinding (p.classes tokens root)
    rcases classes_cases p tokens root with ⟨-, heq⟩ | ⟨-, heq | ⟨code, -, heq⟩⟩
    · rw [heq]
      exact Or.inr (isBinding_string _ _ _)
    · exact Or.inl heq
    · rw [heq]
      exact Or.inr (isBinding_braced _ _)
  | spread => exact Or.inr (isBinding_braced [] _)

end SvgComponent.Jsx
