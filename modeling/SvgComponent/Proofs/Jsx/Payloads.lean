/-
  SvgComponent.Proofs.Jsx.Payloads — the literals of laid out markup.

  In the order of the markup, the strings that attributes are printed with and the texts of style elements are its
  payloads. Wherever blanks are put between the tokens, and lines are then moved, reading gives each of them back,
  shifted (`Yields.reads_spread`): literals are written from shifted values, and nothing else that has line breaks in it
  counts (`yields_tokens`).
-/

import SvgComponent.Proofs.Jsx.Clear
import SvgComponent.Proofs.Jsx.Formatting
import SvgComponent.Proofs.Jsx.Readable

namespace SvgComponent.Jsx

open Layout (isPlain isInline isInline_iff shift Apart shift_append shift_eq_self mem_of_mem_shift Spread)
open Reader (Reads ReadsTag)

variable {p : Printer} {w : Nat}

/-! ## Tokens -/

mutual

/-- The strings of attributes and the texts of style elements in a node, in order. -/
def Node.payloads (f : Attribute → Option Payload) : Node → List Payload
  | .element _ attributes children => attributes.filterMap f ++ payloadsOf f children
  | .text _ => []
  | .comment _ => []
  | .css s => [.template s]

def payloadsOf (f : Attribute → Option Payload) : List Node → List Payload
  | [] => []
  | n :: ns => n.payloads f ++ payloadsOf f ns

end

mutual

/-- Names and attributes that can be read, and texts that are trimmed and not empty. -/
def Node.IsReadable (p : Printer) : Node → Prop
  | .element name attributes children =>
    (∀ c ∈ name, isPlain c = true ∧ isInline c = true) ∧ (∀ a ∈ attributes, a.IsReadable p) ∧ AllReadable p children
  | .text s => s ≠ [] ∧ Text.trim s = s
  | .comment _ => True
  | .css _ => True

def AllReadable (p : Printer) : List Node → Prop
  | [] => True
  | n :: ns => n.IsReadable p ∧ AllReadable p ns

end

/-- Strings are read as they are. -/
theorem read_payload? (a : Attribute) :
    ((a.payload? p).map fun x => (x.shifted w).read) = (a.payload? p).map (·.shifted w) := by
  cases a with
  | literal => rfl
  | classes tokens root =>
    show ((p.classString? tokens root).map _).map _ = ((p.classString? tokens root).map _).map _
    cases p.classString? tokens root <;> rfl
  | _ => rfl

theorem isInline_of_not_blank {c : Char} (h : Text.isBlank c = false) : isInline c = true := by
  rw [isInline_iff]
  constructor <;> rintro rfl <;> cases h

mutual

theorem Node.IsReadable.sound : ∀ {n : Node}, n.IsReadable p → n.Sound
  | .element _ _ _, h => ⟨fun c hc => (h.1 c hc).1, AllReadable.sound h.2.2⟩
  | .text _, h => h
  | .comment _, _ => trivial
  | .css _, _ => trivial

theorem AllReadable.sound : ∀ {ns : List Node}, AllReadable p ns → SoundAll ns
  | [], _ => trivial
  | _ :: _, h => ⟨h.1.sound, AllReadable.sound h.2⟩

end

/-- In lines that were moved, the tokens are read as these payloads, whatever blanks are between them. -/
inductive Yields (w : Nat) : List Token → List Payload → Prop where
  | nil : Yields w [] []
  | cons {t : Token} {ts : List Token} {xs ys : List Payload} (hne : t.text ≠ []) (htrim : Text.trim t.text = t.text)
      (h : Reads (shift w t.text) xs) (hs : Yields w ts ys) : Yields w (t :: ts) (xs ++ ys)

theorem Yields.append {ts us : List Token} {xs ys : List Payload} (ht : Yields w ts xs) (hu : Yields w us ys) :
    Yields w (ts ++ us) (xs ++ ys) := by
  induction ht with
  | nil => exact hu
  | cons hne htrim h _ ih =>
    rw [List.cons_append, List.append_assoc]
    exact .cons hne htrim h ih

theorem Yields.single {t : Token} {xs : List Payload} (hne : t.text ≠ []) (htrim : Text.trim t.text = t.text)
    (h : Reads (shift w t.text) xs) : Yields w [t] xs := by
  rw [← List.append_nil xs]
  exact .cons hne htrim h .nil

/-- Blanks between tokens are read as nothing. -/
theorem Yields.reads_spread {ts : List Token} {xs : List Payload} (h : Yields w ts xs) {s : List Char}
    (hs : Spread ts s) : Reads (shift w s) xs := by
  have hblanks : ∀ g : List Char, (∀ c ∈ g, Text.isBlank c = true) → Reads (shift w g) [] := by
    intro g hg
    refine Reader.reads_text fun c hc => Layout.isText_of_isBlank ?_
    rcases mem_of_mem_shift hc with hmem | rfl
    · exact hg c hmem
    · rfl
  induction h generalizing s with
  | nil =>
    cases hs with
    | nil hg => exact hblanks s hg
  | @cons t ts xs ys hne htrim h _ ih =>
    cases hs with
    | @cons g r _ _ hg hr =>
      obtain ⟨hbegins, hends⟩ := Text.trimWhile_eq_self_iff.mp htrim
      have hgap : Apart g (t.text ++ r) := Or.inr fun c hc => by
        rw [List.head?_append_of_ne_nil _ hne] at hc
        exact isInline_of_not_blank (hbegins c hc)
      have htext : Apart t.text r := Or.inl fun c hc => by
        rw [← List.head?_reverse] at hc
        exact isInline_of_not_blank (hends c hc)
      rw [shift_append hgap, shift_append htext]
      exact (hblanks g hg).append (h.append (ih hr))

/-- A tag with readable attributes, and with more in it before its end. -/
theorem reads_shift_tag {name more : List Char} {attributes : List Attribute}
    (hname : ∀ c ∈ name, isPlain c = true ∧ isInline c = true) (h : ∀ a ∈ attributes, a.IsReadable p)
    (hmore : ∀ c ∈ more, isPlain c = true ∧ isInline c = true) :
    Reads (shift w ('<' :: (name ++ attributes.flatMap p.attr ++ more ++ ['>'])))
      ((attributes.filterMap (·.payload? p)).map fun x => (x.shifted w).read) := by
  have hfront : Apart name (attributes.flatMap p.attr) := Or.inl fun c hc => (hname c (List.mem_of_mem_getLast? hc)).2
  have hback : Apart (name ++ attributes.flatMap p.attr) more := Or.inr fun c hc => (hmore c (List.mem_of_mem_head? hc)).2
  have hshift : shift w (name ++ attributes.flatMap p.attr ++ more) =
      name ++ (attributes.flatMap fun a => p.attr (a.shifted w)) ++ more := by
    rw [shift_append hback, shift_append hfront, shift_attributes h,
      shift_eq_self (newline_not_mem fun c hc => (hname c hc).2), shift_eq_self (newline_not_mem fun c hc => (hmore c hc).2)]
  have hattributes : ReadsTag (attributes.flatMap fun a => p.attr (a.shifted w))
      ((attributes.filterMap (·.payload? p)).map fun x => (x.shifted w).read) := by
    have hread : ∀ a ∈ attributes,
        ReadsTag (p.attr (a.shifted w)) (((a.payload? p).map fun x => (x.shifted w).read).toList) := by
      intro a ha
      have := readsTag_attr ((h a ha).shifted (w := w))
      rwa [payload?_shifted (h a ha), ← read_payload? a] at this
    have := Reader.ReadsTag.flatMap hread
    rwa [← List.filterMap_eq_flatMap_toList, ← List.map_filterMap] at this
  have htag := ((Reader.readsTag_plain fun c hc => (hname c hc).1).append hattributes).append
    (Reader.readsTag_plain fun c hc => (hmore c hc).1)
  rw [List.nil_append, List.append_nil] at htag
  rw [Layout.shift_between rfl rfl, hshift]
  exact Reader.reads_tag htag

/-- Tags and expressions have no blanks at their ends. -/
theorem trim_between {c d : Char} (hc : Text.isBlank c = false) (hd : Text.isBlank d = false) {s t : List Char}
    (h : t = c :: (s ++ [d])) : Text.trim t = t := by
  rw [h]
  exact Text.trimWhile_between hc hd s

/-- The tag of an element yields its strings. -/
theorem yields_tag {name : List Char} {attributes : List Attribute} (kind : TokenKind) (more : List Char)
    (hname : ∀ c ∈ name, isPlain c = true ∧ isInline c = true) (h : ∀ a ∈ attributes, a.IsReadable p)
    (hmore : ∀ c ∈ more, isPlain c = true ∧ isInline c = true) :
    Yields w [⟨kind, p.opening name attributes ++ (more ++ ['>'])⟩]
      ((attributes.filterMap (·.payload? p)).map fun x => (x.shifted w).read) := by
  have htext := p.opening_append name attributes more
  refine .single (by simp [Printer.opening]) (trim_between rfl rfl htext) ?_
  rw [htext]
  exact reads_shift_tag hname h hmore

theorem yields_closing (w : Nat) {name : List Char} (hname : ∀ c ∈ name, isPlain c = true ∧ isInline c = true) :
    Yields w [⟨.closing, '<' :: '/' :: name ++ ['>']⟩] [] := by
  have hslash : ∀ c ∈ '/' :: name, isPlain c = true ∧ isInline c = true := List.forall_mem_cons.mpr ⟨⟨rfl, rfl⟩, hname⟩
  refine .single (List.cons_ne_nil _ _) (trim_between rfl rfl rfl) ?_
  have hshift : shift w ('<' :: ('/' :: name ++ ['>'])) = '<' :: ('/' :: name ++ ['>']) := by
    rw [Layout.shift_between rfl rfl, shift_eq_self (newline_not_mem fun c hc => (hslash c hc).2)]
  show Reads (shift w ('<' :: ('/' :: name ++ ['>']))) []
  rw [hshift]
  exact Reader.reads_tag (Reader.readsTag_plain fun c hc => (hslash c hc).1)

theorem yields_text (w : Nat) {s : List Char} (hne : s ≠ []) (htrim : Text.trim s = s) :
    Yields w [⟨.other, textLiteral s⟩] [] := by
  rcases textLiteral_cases hne htrim with htext | hquoted
  · refine .single htext.nonempty htext.trimmed (Reader.reads_text fun c hc => ?_)
    rcases mem_of_mem_shift hc with hmem | rfl
    · exact htext.text c hmem
    · rfl
  · have hbraced : textLiteral s = braced (Text.quote s) := hquoted
    have hline : '\n' ∉ braced (Text.quote s) := newline_not_mem (isInline_braced (isInline_quote s))
    refine .single ?_ (trim_between rfl rfl hquoted) ?_
    · rw [hquoted]
      exact List.cons_ne_nil _ _
    · rw [hbraced, shift_eq_self hline]
      exact Reader.reads_braced (Reader.stays_quote s)

theorem yields_comment (w : Nat) (s : List Char) : Yields w [⟨.other, commentExpression s⟩] [] := by
  refine .single (List.cons_ne_nil _ _) (trim_between rfl rfl (commentExpression_eq s)) ?_
  rw [Layout.shift_commentExpression]
  exact Reader.reads_commentExpression _

theorem yields_css (w : Nat) (s : List Char) :
    Yields w [⟨.other, templateExpression s⟩] [((Payload.template s).shifted w).read] := by
  refine .single (List.cons_ne_nil _ _) (trim_between rfl rfl (templateExpression_eq s)) ?_
  rw [Layout.shift_templateExpression]
  exact Reader.reads_templateExpression _

mutual

/-- The tokens of a node yield its payloads. -/
theorem yields_tokens (p : Printer) : ∀ n : Node, n.IsReadable p →
    Yields w (p.tokens n) ((n.payloads (Attribute.payload? p)).map fun x => (x.shifted w).read)
  | .element name attributes children, ⟨hname, hattributes, hchildren⟩ => by
    rw [Printer.tokens, Node.payloads, List.map_append]
    by_cases hempty : children.isEmpty = true
    · rw [if_pos hempty]
      obtain rfl := List.isEmpty_iff.mp hempty
      rw [payloadsOf, List.map_nil, List.append_nil]
      exact yields_tag .selfClosing [' ', '/'] hname hattributes (by decide)
    · rw [if_neg hempty]
      have hopens := yields_tag (w := w) .opening [] hname hattributes nofun
      have := (hopens.append (yields_tokensOf p children hchildren)).append (yields_closing w hname)
      rwa [List.append_nil] at this
  | .text _, ⟨hne, htrim⟩ => yields_text w hne htrim
  | .comment s, _ => yields_comment w s
  | .css s, _ => yields_css w s

theorem yields_tokensOf (p : Printer) : ∀ ns : List Node, AllReadable p ns →
    Yields w (p.tokensOf ns) ((payloadsOf (Attribute.payload? p) ns).map fun x => (x.shifted w).read)
  | [], _ => .nil
  | n :: ns, h => by
    rw [Printer.tokensOf, payloadsOf, List.map_append]
    exact (yields_tokens p n h.1).append (yields_tokensOf p ns h.2)

end

/-! ## Lines of markup -/

namespace Layout

theorem trimmed_of_mem_tokens (s : List Char) : ∀ t ∈ tokens s, t.text ≠ [] ∧ Text.trim t.text = t.text := by
  fun_induction tokens s with
  | case1 => exact fun t ht => absurd ht List.not_mem_nil
  | case2 c r _ _ hempty ih => exact ih
  | case3 c r _ _ hempty ih =>
    rw [List.forall_mem_cons]
    exact ⟨⟨fun h => hempty (List.isEmpty_iff.mpr h), Text.trimWhile_trimWhile _ _⟩, ih⟩

/-- Lines of tokens have no blanks at their end. -/
theorem last_linesFrom (depth : Nat) {t : Token} {ts : List Token}
    (h : ∀ u ∈ t :: ts, u.text ≠ [] ∧ Text.trim u.text = u.text) : ∃ a c,
      ['\n'].intercalate (linesFrom depth (t :: ts)) = a ++ [c] ∧ Text.isBlank c = false := by
  induction ts generalizing depth t with
  | nil =>
    obtain ⟨hne, htrim⟩ := h t List.mem_cons_self
    obtain ⟨a, c, heq⟩ := (List.eq_nil_or_concat' t.text).resolve_left hne
    refine ⟨List.replicate (2 * if t.kind = .closing then depth - 1 else depth) ' ' ++ a, c, ?_, ?_⟩
    · rw [linesFrom, linesFrom, List.intercalate_singleton, heq, List.append_assoc]
    · refine (Text.trimWhile_eq_self_iff.mp htrim).2 c ?_
      rw [heq, List.reverse_append]
      rfl
  | cons u ts ih =>
    rw [List.forall_mem_cons] at h
    obtain ⟨a, c, heq, hc⟩ := ih (if t.kind = .opening then (if t.kind = .closing then depth - 1 else depth) + 1
      else if t.kind = .closing then depth - 1 else depth) h.2
    rw [linesFrom] at heq
    rw [linesFrom, linesFrom, List.intercalate_cons_cons, heq, ← List.append_assoc]
    exact ⟨_, c, rfl, hc⟩

/-- What is not blank at its end has tokens, and neither is its layout. -/
theorem format_ends {s a : List Char} {c : Char} (hs : s = a ++ [c]) (hc : Text.isBlank c = false) :
    ∃ b d, format s = b ++ [d] ∧ Text.isBlank d = false := by
  have hblank := (adjoined_tokens s).2
  have htrimmed := trimmed_of_mem_tokens s
  rw [format]
  cases htokens : tokens s with
  | nil =>
    rw [htokens, hs] at hblank
    cases hblank with
    | nil hg =>
      rw [hg c (by simp)] at hc
      cases hc
  | cons t ts =>
    rw [htokens] at htrimmed
    exact last_linesFrom 0 htrimmed

end Layout

/-- The markup in its lines is read as the payloads of its tokens. -/
theorem Yields.payloads_indent {ts : List Token} {xs : List Payload} (h : Yields w ts xs) {a : List Char} {c : Char}
    (hs : Spread ts (a ++ [c])) (hc : Text.isBlank c = false) : payloads (Layout.indent w (a ++ [c])) = xs := by
  have hne : a ++ [c] ≠ [] := by simp
  have hlast : (a ++ [c]).getLast? ≠ some '\n' := by
    rw [List.getLast?_concat]
    rintro heq
    cases heq
    cases hc
  have hmargin : Reads (Layout.margin w (a ++ [c])) [] := Reader.reads_text fun d hd => by
    rw [Layout.margin] at hd
    split at hd
    · cases hd
    · rw [List.eq_of_mem_replicate hd]
      rfl
  rw [Layout.indent_eq_shift w _ hne hlast]
  exact (hmargin.append (h.reads_spread hs)).payloads

variable {name : List Char} {attributes : List Attribute} {children : List Node}

theorem print_ends (p : Printer) (name : List Char) (attributes : List Attribute) (children : List Node) :
    ∃ a, p.print (.element name attributes children) = a ++ ['>'] := by
  rw [Printer.print, Printer.tokens]
  split
  · exact ⟨p.opening name attributes ++ [' ', '/'], by simp⟩
  · refine ⟨(⟨.opening, p.opening name attributes ++ ['>']⟩ :: p.tokensOf children).flatMap Token.text ++
      '<' :: '/' :: name, ?_⟩
    rw [List.flatMap_append, List.flatMap_singleton, List.append_assoc]

/-- Printed markup in its lines is read as what was printed, shifted. -/
theorem payloads_indent_print (w : Nat) (h : (Node.element name attributes children).IsReadable p) :
    payloads (Layout.indent w (p.print (.element name attributes children))) =
      ((Node.element name attributes children).payloads (Attribute.payload? p)).map fun x => (x.shifted w).read := by
  obtain ⟨a, heq⟩ := print_ends p name attributes children
  have hspread : Spread (p.tokens (.element name attributes children)) (p.print (.element name attributes children)) :=
    spread_text _
  rw [heq] at hspread ⊢
  exact (yields_tokens p _ h).payloads_indent hspread rfl

/-- And so is markup that is laid out, if its layout finds what was printed. -/
theorem payloads_indent_format (w : Nat) (h : (Node.element name attributes children).IsReadable p)
    (htokens : Layout.tokens (p.print (.element name attributes children)) =
      (p.pieces (.element name attributes children)).map Piece.token) :
    payloads (Layout.indent w (Layout.format (p.print (.element name attributes children)))) =
      ((Node.element name attributes children).payloads (Attribute.payload? p)).map fun x => (x.shifted w).read := by
  obtain ⟨a, heq⟩ := print_ends p name attributes children
  obtain ⟨b, c, hlines, hc⟩ := Layout.format_ends heq rfl
  have hpieces : Spread ((p.pieces (.element name attributes children)).map Piece.token) (b ++ [c]) := by
    rw [← htokens, ← hlines]
    exact Layout.spread_linesFrom 0 _
  rw [hlines]
  exact (yields_tokens p _ h).payloads_indent (spread_of_pieces hpieces) hc

/-! ## Payloads that stay as they are -/

/-- On one line; a template literal has no carriage returns either. -/
def Payload.IsOneLine : Payload → Prop
  | .string value => '\n' ∉ value
  | .template text => '\n' ∉ text ∧ '\r' ∉ text

instance : DecidablePred Payload.IsOneLine
  | .string value => inferInstanceAs (Decidable ('\n' ∉ value))
  | .template text => inferInstanceAs (Decidable ('\n' ∉ text ∧ '\r' ∉ text))

namespace Reader

theorem unifyBreaks_eq_self {s : List Char} (h : '\r' ∉ s) : unifyBreaks s = s := by
  fun_induction unifyBreaks s with
  | case1 => rfl
  | case2 s ih => exact absurd List.mem_cons_self h
  | case3 c s hno ih =>
    rw [List.mem_cons, not_or] at h
    rw [if_neg (Ne.symm h.1), ih h.2]

theorem return_not_mem_unifyBreaks (s : List Char) : '\r' ∉ unifyBreaks s := by
  fun_induction unifyBreaks s with
  | case1 => exact List.not_mem_nil
  | case2 s ih => simpa using ih
  | case3 c s hno ih =>
    rw [List.mem_cons, not_or]
    refine ⟨?_, ih⟩
    split
    · decide
    · rename_i hc
      exact Ne.symm hc

end Reader

/-- Moving lines changes exactly the payloads that have line breaks. -/
theorem Payload.read_shifted_iff (hw : 0 < w) (x : Payload) : (x.shifted w).read = x ↔ x.IsOneLine := by
  cases x with
  | string value =>
    show Payload.string (shift w value) = .string value ↔ '\n' ∉ value
    rw [Payload.string.injEq]
    exact Layout.shift_eq_self_iff hw
  | template text =>
    show Payload.template (Reader.unifyBreaks (shift w text)) = .template text ↔ '\n' ∉ text ∧ '\r' ∉ text
    rw [Payload.template.injEq]
    constructor
    · intro heq
      have hreturn : '\r' ∉ text := by
        rw [← heq]
        exact Reader.return_not_mem_unifyBreaks _
      have hshifted : '\r' ∉ shift w text := fun hmem => by
        rcases mem_of_mem_shift hmem with hmem | hblank
        · exact hreturn hmem
        · cases hblank
      rw [Reader.unifyBreaks_eq_self hshifted] at heq
      exact ⟨(Layout.shift_eq_self_iff hw).mp heq, hreturn⟩
    · rintro ⟨hnewline, hreturn⟩
      rw [shift_eq_self hnewline, Reader.unifyBreaks_eq_self hreturn]

theorem map_read_shifted_iff (hw : 0 < w) (xs : List Payload) :
    xs.map (fun x => (x.shifted w).read) = xs ↔ ∀ x ∈ xs, x.IsOneLine := by
  nth_rewrite 2 [← List.map_id xs]
  rw [List.map_inj_left]
  exact forall₂_congr fun x _ => x.read_shifted_iff hw

/-- Besides the literal attributes only classes are printed as strings, and these are on one line. -/
theorem isOneLine_payload?_iff {a : Attribute} (h : a.IsReadable p) :
    (∀ x ∈ a.payload? p, x.IsOneLine) ↔ ∀ x ∈ a.literal?, x.IsOneLine := by
  cases a with
  | classes tokens root =>
    refine iff_of_true (fun x hx => ?_) nofun
    obtain ⟨s, hs, rfl⟩ := Option.map_eq_some_iff.mp hx
    exact newline_not_mem ((isInline_classes root h).2 s hs)
  | _ => rfl

mutual

theorem isOneLine_payloads_iff (p : Printer) : ∀ n : Node, n.IsReadable p →
    ((∀ x ∈ n.payloads (Attribute.payload? p), x.IsOneLine) ↔ ∀ x ∈ n.payloads Attribute.literal?, x.IsOneLine)
  | .element name attributes children, ⟨_, hattributes, hchildren⟩ => by
    rw [Node.payloads, Node.payloads, List.forall_mem_append, List.forall_mem_append, List.forall_mem_filterMap,
      List.forall_mem_filterMap, isOneLine_payloadsOf_iff p children hchildren]
    exact and_congr_left' (forall₂_congr fun a ha => isOneLine_payload?_iff (hattributes a ha))
  | .text _, _ => Iff.rfl
  | .comment _, _ => Iff.rfl
  | .css _, _ => Iff.rfl

theorem isOneLine_payloadsOf_iff (p : Printer) : ∀ ns : List Node, AllReadable p ns →
    ((∀ x ∈ payloadsOf (Attribute.payload? p) ns, x.IsOneLine) ↔ ∀ x ∈ payloadsOf Attribute.literal? ns, x.IsOneLine)
  | [], _ => Iff.rfl
  | n :: ns, ⟨h, hs⟩ => by
    rw [payloadsOf, payloadsOf, List.forall_mem_append, List.forall_mem_append, isOneLine_payloads_iff p n h,
      isOneLine_payloadsOf_iff p ns hs]

end

theorem sublist_filterMap_payload? (p : Printer) (attributes : List Attribute) :
    (attributes.filterMap Attribute.literal?).Sublist (attributes.filterMap (·.payload? p)) := by
  induction attributes with
  | nil => exact .refl _
  | cons a attributes ih =>
    cases a with
    | literal name value => exact ih.cons_cons _
    | classes tokens root =>
      rw [List.filterMap_cons, List.filterMap_cons]
      show (attributes.filterMap Attribute.literal?).Sublist _
      cases hstring : (Attribute.classes tokens root).payload? p with
      | none => exact ih
      | some x => exact ih.cons x
    | _ => exact ih

mutual

/-- The literals come in the same order among all payloads. -/
theorem sublist_payloads (p : Printer) : ∀ n : Node,
    (n.payloads Attribute.literal?).Sublist (n.payloads (Attribute.payload? p))
  | .element _ attributes children => (sublist_filterMap_payload? p attributes).append (sublist_payloadsOf p children)
  | .text _ => .refl _
  | .comment _ => .refl _
  | .css _ => .refl _

theorem sublist_payloadsOf (p : Printer) : ∀ ns : List Node,
    (payloadsOf Attribute.literal? ns).Sublist (payloadsOf (Attribute.payload? p) ns)
  | [] => .refl _
  | n :: ns => (sublist_payloads p n).append (sublist_payloadsOf p ns)

end

end SvgComponent.Jsx
