/-
  SvgComponent.Proofs.Jsx.Readable — reading the attributes of markup back.

  An attribute with names that tags and code can hold is read as the string that it is printed with, or as none
  (`readsTag_attr`). Only the value of a literal attribute can have line breaks in it, so in lines that were moved it
  is the attribute with the shifted value that is read (`shift_attributes`).
-/

import SvgComponent.Proofs.Jsx.Indenting
import SvgComponent.Proofs.Jsx.Reader

namespace SvgComponent.Jsx

open Layout (isPlain isInline isInline_iff shift Apart shift_append shift_eq_self Spares)
open Reader (ReadsTag Stays)
open Style (Declaration)

variable {p : Printer} {w : Nat}

/-! ## Payloads of attributes -/

namespace Payload

/-- In lines that were moved. -/
def shifted (w : Nat) : Payload → Payload
  | string value => .string (shift w value)
  | template text => .template (shift w text)

/-- As it is read: template literals have line feeds only. -/
def read : Payload → Payload
  | string value => .string value
  | template text => .template (Reader.unifyBreaks text)

end Payload

/-- The string that an attribute is printed with. -/
def Attribute.payload? (p : Printer) : Attribute → Option Payload
  | .literal _ value => some (.string value)
  | .classes tokens root => (p.classString? tokens root).map .string
  | _ => none

/-- The value of a literal attribute. -/
def Attribute.literal? : Attribute → Option Payload
  | .literal _ value => some (.string value)
  | _ => none

/-! ## Attributes that can be read -/

/-- Names that tags and code can hold, and classes that a template literal can hold if they stand in one. -/
def Attribute.IsReadable (p : Printer) : Attribute → Prop
  | .literal name _ => ∀ c ∈ name, isPlain c = true ∧ isInline c = true
  | .size name => ∀ c ∈ name, isPlain c = true ∧ isInline c = true
  | .color name => ∀ c ∈ name, isPlain c = true ∧ isInline c = true
  | .style ds => ∀ d ∈ ds, ∀ c ∈ d.property, isPlain c = true ∧ isInline c = true ∧ c ≠ '/'
  | .classes tokens _ => ∀ name, .literal name ∈ tokens →
      (∀ c ∈ name, isInline c = true) ∧ (p.modules = false → ∀ c ∈ name, c ∉ ['\x60', '\\', '\x7b'])
  | .spread => True

theorem stays_styleReference (name : List Char) : Stays true .braces (styleReference name) :=
  (Reader.isCode_stays true).styleReference (Reader.stays_quote name)

/-- A class in a template literal. -/
theorem stays_template_part {t : ClassToken} (ht : ∀ name, t = .literal name → p.modules = false →
    ∀ c ∈ name, c ∉ ['\x60', '\\', '\x7b']) : Stays true .template (t.part p.modules).template := by
  rcases part_cases p.modules t with ⟨name, -, heq⟩ | ⟨name, hname, hmodules, heq⟩
  · rw [heq]
    exact Reader.stays_template_expression (stays_styleReference name)
  · rw [heq]
    exact Reader.stays_template_text (ht name hname hmodules)

/-- By itself, it is code only as a reference. -/
theorem stays_plain_part {t : ClassToken} (htext : (t.part p.modules).isText = false) :
    Stays true .braces (t.part p.modules).plain := by
  rcases part_cases p.modules t with ⟨name, -, heq⟩ | ⟨name, -, -, heq⟩
  · rw [heq]
    exact stays_styleReference name
  · rw [heq] at htext
    cases htext

theorem stays_forwarded : Stays true .template Printer.forwarded.template :=
  Reader.stays_template_expression ((Reader.isCode_stays true).forwarded (Reader.stays_quote []))

/-- The code of a class attribute leads back to its brace if its parts do. -/
theorem IsClassCode.stays {parts : List ClassPart} (htemplates : ∀ x ∈ parts, Stays true .template x.template)
    (hreferences : ∀ x ∈ parts, x.isText = false → Stays true .braces x.plain) {code : List Char}
    (hcode : IsClassCode parts code) : Stays true .braces code := by
  cases hcode with
  | caller => exact (Reader.isCode_stays true).words (by decide)
  | reference hx htext => exact hreferences _ hx htext
  | @template xs hxs =>
    have hblank : Stays true .template [' '] := Reader.stays_template_text (by decide)
    refine Reader.stays_template ((Reader.composes_stays _ _).intercalate hblank (List.forall_mem_map.mpr fun x hx => ?_))
    rcases hxs x hx with hmem | rfl
    · exact htemplates x hmem
    · exact stays_forwarded

theorem readsTag_classes {tokens : List ClassToken} (root : Bool) (h : (Attribute.classes tokens root).IsReadable p) :
    ReadsTag (p.classes tokens root) ((p.classString? tokens root).map Payload.string).toList := by
  have hbinding : ReadsTag Printer.classBinding [] := Reader.readsTag_plain (by decide)
  have htemplates : ∀ x ∈ tokens.map (ClassToken.part p.modules), Stays true .template x.template := by
    rw [List.forall_mem_map]
    intro t ht
    refine stays_template_part ?_
    rintro name rfl
    exact (h name ht).2
  have hreferences : ∀ x ∈ tokens.map (ClassToken.part p.modules), x.isText = false → Stays true .braces x.plain := by
    rw [List.forall_mem_map]
    exact fun t _ => stays_plain_part
  rcases classes_cases p tokens root with ⟨hstring, heq⟩ | ⟨hstring, heq | ⟨code, hcode, heq⟩⟩
  · rw [heq, hstring]
    exact hbinding.append (Reader.readsTag_attributeString _ _)
  · rw [heq, hstring]
    exact .nil
  · rw [heq, hstring]
    exact hbinding.append (Reader.readsTag_braced (hcode.stays htemplates hreferences))

/-- An attribute that can be read is read as the string that it is printed with, or as none. -/
theorem readsTag_attr {a : Attribute} (h : a.IsReadable p) : ReadsTag (p.attr a) (a.payload? p).toList := by
  have hblank : ReadsTag [' '] [] := Reader.readsTag_plain (by decide)
  have hequals : ReadsTag ['='] [] := Reader.readsTag_plain (by decide)
  cases a with
  | literal name value =>
    have hname : ReadsTag name [] := Reader.readsTag_plain fun c hc => (h c hc).1
    exact (hblank.append hname).append (hequals.append (Reader.readsTag_attributeString _ _))
  | size name =>
    have hname : ReadsTag name [] := Reader.readsTag_plain fun c hc => (h c hc).1
    exact (hblank.append hname).append
      (hequals.append (Reader.readsTag_braced (Reader.stays_braces_plain (by decide))))
  | color name =>
    have hname : ReadsTag name [] := Reader.readsTag_plain fun c hc => (h c hc).1
    have hcolor := (Reader.isCode_stays true).forwardedColor (Reader.stays_quote _)
    exact (hblank.append hname).append (hequals.append (Reader.readsTag_braced hcolor))
  | style ds =>
    have hopens : ReadsTag [' ', 's', 't', 'y', 'l', 'e', '='] [] := Reader.readsTag_plain (by decide)
    have hfield : ∀ d ∈ ds, Stays true .braces (Printer.styleField d) := fun d hd =>
      (Reader.isCode_stays true).styleField (fun c hc => ⟨(h d hd c hc).1, (h d hd c hc).2.2⟩) (Reader.stays_quote _)
        (Reader.stays_quote _)
    exact hopens.append (Reader.readsTag_braced (Reader.stays_braced ((Reader.isCode_stays true).styleFields hfield)))
  | classes tokens root => exact readsTag_classes root h
  | spread => exact hblank.append (Reader.readsTag_braced (Reader.stays_braces_plain (by decide)))

/-! ## Attributes in lines that were moved -/

/-- With its value in lines that were moved. -/
def Attribute.shifted (w : Nat) : Attribute → Attribute
  | .literal name value => .literal name (shift w value)
  | a => a

theorem newline_not_mem {s : List Char} (h : ∀ c ∈ s, isInline c = true) : '\n' ∉ s :=
  fun hmem => (isInline_iff.mp (h _ hmem)).1 rfl

theorem isInline_hexDigit {n : Nat} (hn : n < 16) : isInline (Text.hexDigit n) = true := by
  have : ∀ m : Fin 16, isInline (Text.hexDigit m) = true := by decide
  exact this ⟨n, hn⟩

/-- Strings in code have no line breaks in them. -/
theorem isInline_quote (v : List Char) : ∀ c ∈ Text.quote v, isInline c = true := by
  have hescape : ∀ c, ∀ d ∈ Text.escape c, isInline d = true := by
    intro c
    unfold Text.escape
    split_ifs with _ _ _ _ hn _ hr
    all_goals try decide
    · have hpair : ∀ d ∈ Text.hexPair c.toNat, isInline d = true :=
        List.forall_mem_cons.mpr ⟨isInline_hexDigit (by omega), List.forall_mem_singleton.mpr (isInline_hexDigit (by omega))⟩
      exact List.forall_mem_append.mpr ⟨by decide, hpair⟩
    · exact List.forall_mem_singleton.mpr (isInline_iff.mpr ⟨hn, hr⟩)
  have hinside : ∀ c ∈ v.flatMap Text.escape, isInline c = true := by
    intro c hc
    obtain ⟨d, _, hd⟩ := List.mem_flatMap.mp hc
    exact hescape d c hd
  rw [Text.quote, List.forall_mem_append, List.forall_mem_cons]
  exact ⟨⟨rfl, hinside⟩, by decide⟩

theorem isInline_of_isAlphanum {c : Char} (h : c.isAlphanum = true) : isInline c = true := by
  rw [isInline_iff]
  constructor <;> rintro rfl <;> cases h

theorem isCode_isInline : IsCode (fun s => ∀ c ∈ s, isInline c = true) fun c => isInline c = true where
  toComposes := composes_forall_mem _
  chars h := h
  word _ := isInline_of_isAlphanum
  mark := by decide

theorem isInline_braced {s : List Char} (h : ∀ c ∈ s, isInline c = true) : ∀ c ∈ braced s, isInline c = true := by
  rw [braced, List.forall_mem_append, List.forall_mem_cons]
  exact ⟨⟨rfl, h⟩, by decide⟩

theorem isInline_part {t : ClassToken} (h : ∀ name, t = .literal name → ∀ c ∈ name, isInline c = true) :
    (∀ c ∈ (t.part p.modules).template, isInline c = true) ∧ ∀ c ∈ (t.part p.modules).plain, isInline c = true := by
  rcases part_cases p.modules t with ⟨name, -, heq⟩ | ⟨name, hname, -, heq⟩
  · have hreference := isCode_isInline.styleReference (isInline_quote name)
    rw [heq]
    exact ⟨List.forall_mem_cons.mpr ⟨rfl, isInline_braced hreference⟩, hreference⟩
  · rw [heq]
    exact ⟨h name hname, h name hname⟩

theorem isInline_attributeString (onlyDouble : Bool) {s : List Char} (h : ∀ c ∈ s, isInline c = true) :
    ∀ c ∈ attributeString onlyDouble s, isInline c = true := by
  have hescaped : ∀ f : Char → List Char, (Spares fun c _ => f c) → ∀ c ∈ s.flatMap f, isInline c = true := by
    intro f hf c hc
    obtain ⟨d, hd, hc⟩ := List.mem_flatMap.mp hc
    exact (hf.other d (h d hd) none).2 c hc
  unfold attributeString
  split
  · rw [List.forall_mem_append, List.forall_mem_cons]
    exact ⟨⟨rfl, hescaped _ Layout.spares_escapeAmpersand⟩, by decide⟩
  · rw [List.forall_mem_append, List.forall_mem_cons]
    exact ⟨⟨rfl, hescaped _ Layout.spares_escapeDoubleQuoted⟩, by decide⟩

/-- The code of a class attribute is on one line if its parts are. -/
theorem IsClassCode.inline {parts : List ClassPart} (h : ∀ x ∈ parts,
    (∀ c ∈ x.template, isInline c = true) ∧ ∀ c ∈ x.plain, isInline c = true) {code : List Char}
    (hcode : IsClassCode parts code) : ∀ c ∈ code, isInline c = true := by
  cases hcode with
  | caller => decide
  | reference hx => exact (h _ hx).2
  | @template xs hxs =>
    rw [List.forall_mem_append, List.forall_mem_cons]
    refine ⟨⟨rfl, isCode_isInline.intercalate (by decide) (List.forall_mem_map.mpr fun x hx => ?_)⟩, by decide⟩
    rcases hxs x hx with hmem | rfl
    · exact (h x hmem).1
    · decide

/-- Classes have no blanks in them, and are printed without line breaks. -/
theorem isInline_classes {tokens : List ClassToken} (root : Bool) (h : (Attribute.classes tokens root).IsReadable p) :
    (∀ c ∈ p.classes tokens root, isInline c = true) ∧
      ∀ s ∈ p.classString? tokens root, ∀ c ∈ s, isInline c = true := by
  have hbinding : ∀ c ∈ Printer.classBinding, isInline c = true := by decide
  have hparts : ∀ x ∈ tokens.map (ClassToken.part p.modules),
      (∀ c ∈ x.template, isInline c = true) ∧ ∀ c ∈ x.plain, isInline c = true := by
    rw [List.forall_mem_map]
    intro t ht
    refine isInline_part ?_
    rintro name rfl
    exact (h name ht).1
  rcases classes_cases p tokens root with ⟨hstring, heq⟩ | ⟨hstring, heq | ⟨code, hcode, heq⟩⟩
  · have htext := isCode_isInline.intercalate (s := [' ']) (by decide)
      (List.forall_mem_map.mpr fun x hx => (hparts x hx).2)
    rw [heq, hstring]
    refine ⟨List.forall_mem_append.mpr ⟨hbinding, isInline_attributeString _ htext⟩, ?_⟩
    rintro _ ⟨⟩
    exact htext
  · rw [heq, hstring]
    exact ⟨nofun, nofun⟩
  · rw [heq, hstring]
    exact ⟨List.forall_mem_append.mpr ⟨hbinding, isInline_braced (hcode.inline hparts)⟩, nofun⟩

/-- Only the value of an attribute can have line breaks. -/
theorem shift_attr {a : Attribute} (h : a.IsReadable p) : shift w (p.attr a) = p.attr (a.shifted w) := by
  have hname : ∀ {name : List Char} {s : List Char}, (∀ c ∈ name, isPlain c = true ∧ isInline c = true) →
      (∀ c ∈ s, isInline c = true) → '\n' ∉ ' ' :: name ++ '=' :: s := by
    intro name s hname hs
    refine newline_not_mem ?_
    rw [List.forall_mem_append, List.forall_mem_cons, List.forall_mem_cons]
    exact ⟨⟨rfl, fun c hc => (hname c hc).2⟩, rfl, hs⟩
  cases a with
  | literal name value =>
    have hfront : '\n' ∉ ' ' :: name ++ ['='] := hname h fun c hc => absurd hc List.not_mem_nil
    have hapart : Apart (' ' :: name ++ ['=']) (attributeString p.onlyDouble value) := Or.inl fun c hc => by
      rw [List.getLast?_concat] at hc
      cases hc
      rfl
    have hsplit : ∀ v, p.attr (.literal name v) = (' ' :: name ++ ['=']) ++ attributeString p.onlyDouble v := by
      intro v
      simp [Printer.attr]
    rw [Attribute.shifted, hsplit, hsplit, shift_append hapart, shift_eq_self hfront, Layout.shift_attributeString]
  | size name => exact shift_eq_self (hname h (by decide))
  | color name => exact shift_eq_self (hname h (isInline_braced (isCode_isInline.forwardedColor (isInline_quote _))))
  | style ds =>
    have hfields := isCode_isInline.styleFields fun d hd =>
      isCode_isInline.styleField (fun c hc => (h d hd c hc).2.1) (isInline_quote _) (isInline_quote _)
    exact shift_eq_self (newline_not_mem (List.forall_mem_append.mpr
      ⟨by decide, isInline_braced (isInline_braced hfields)⟩))
  | classes tokens root => exact shift_eq_self (newline_not_mem (isInline_classes root h).1)
  | spread => exact shift_eq_self (s := ' ' :: braced ['.', '.', '.', 'p', 'r', 'o', 'p', 's']) (by decide)

/-- No line break stands across two attributes. -/
theorem shift_attributes {attributes : List Attribute} (h : ∀ a ∈ attributes, a.IsReadable p) :
    shift w (attributes.flatMap p.attr) = attributes.flatMap fun a => p.attr (a.shifted w) := by
  induction attributes with
  | nil => rfl
  | cons a attributes ih =>
    rw [List.forall_mem_cons] at h
    have hapart : Apart (p.attr a) (attributes.flatMap p.attr) := by
      rcases isBinding_attr p a with hnone | ⟨r, c, heq, hc⟩
      · exact Or.inl fun d hd => by
          rw [hnone] at hd
          cases hd
      · refine Or.inl fun d hd => ?_
        rw [heq, ← List.cons_append, List.getLast?_concat] at hd
        cases hd
        rw [isInline_iff]
        constructor <;> rintro rfl <;> exact absurd hc (by decide)
    rw [List.flatMap_cons, List.flatMap_cons, shift_append hapart, shift_attr h.1, ih h.2]

theorem payload?_shifted {a : Attribute} (h : a.IsReadable p) :
    (a.shifted w).payload? p = (a.payload? p).map (·.shifted w) := by
  cases a with
  | classes tokens root =>
    have hinline := (isInline_classes root h).2
    show (p.classString? tokens root).map Payload.string = ((p.classString? tokens root).map _).map _
    generalize p.classString? tokens root = o at hinline
    cases o with
    | none => rfl
    | some s =>
      have := shift_eq_self (w := w) (newline_not_mem (hinline s rfl))
      simp [Payload.shifted, this]
  | _ => rfl

theorem Attribute.IsReadable.shifted {a : Attribute} (h : a.IsReadable p) : (a.shifted w).IsReadable p := by
  cases a <;> exact h

end SvgComponent.Jsx
