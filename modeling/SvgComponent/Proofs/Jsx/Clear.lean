/-
  SvgComponent.Proofs.Jsx.Clear — markup that the layout reads as it was printed.

  Strings, template literals and end tags are always whole. What decides are the attributes of each tag, the text of
  each comment, and names that look like the slash of a tag (`Node.Clear`): the layout finds the printed pieces if
  these are in order, and only then (`tokens_print_iff`).
-/

import SvgComponent.Proofs.Jsx.Boundaries
import SvgComponent.Proofs.Jsx.Literals

namespace SvgComponent.Jsx

open Layout (Bracket Adjoined kindOf isPlain)

/-! ## What a tag looks like -/

theorem kindOf_tag (s : List Char) : kindOf ('<' :: (s ++ ['>'])) =
    if s.head? = some '/' then .closing
    else if s.head? = some '!' ∨ s.head? = some '?' then .other
    else if s.getLast? = some '/' then .selfClosing
    else .opening := by
  have hsuffix : ['/', '>'].isSuffixOf ('<' :: (s ++ ['>'])) = decide (s.getLast? = some '/') := by
    have hreverse : ('<' :: (s ++ ['>'])).reverse = '>' :: (s.reverse ++ ['<']) := by simp
    rw [List.isSuffixOf, hreverse, ← List.head?_reverse]
    cases s.reverse with
    | nil => rfl
    | cons c r => simp [List.isPrefixOf, beq_eq_decide, eq_comm]
  have hhead : ∀ c : Char, c ≠ '>' → ['<', c].isPrefixOf ('<' :: (s ++ ['>'])) = decide (s.head? = some c) := by
    intro c hc
    cases s with
    | nil => simp [List.isPrefixOf, hc]
    | cons d r => simp [List.isPrefixOf, beq_eq_decide, eq_comm]
  rw [kindOf, hsuffix, hhead '/' (by decide), hhead '!' (by decide), hhead '?' (by decide)]
  simp [List.isPrefixOf]

namespace Printer

/-- What stands in a tag, but for the slash of one that is closed at once. -/
def inTag (p : Printer) (name : List Char) (attributes : List Attribute) : List Char :=
  name ++ attributes.flatMap p.attr

theorem opening_append (p : Printer) (name : List Char) (attributes : List Attribute) (more : List Char) :
    p.opening name attributes ++ (more ++ ['>']) = '<' :: (p.inTag name attributes ++ more ++ ['>']) := by
  simp [opening, inTag]

theorem opening_selfClosing (p : Printer) (name : List Char) (attributes : List Attribute) :
    p.opening name attributes ++ [' ', '/', '>'] = '<' :: (p.inTag name attributes ++ [' ', '/'] ++ ['>']) :=
  p.opening_append name attributes [' ', '/']

end Printer

/-- What stands in the tag does not begin as that of another kind does. -/
def BeginsTag (s : List Char) : Prop := ∀ c ∈ s.head?, c ∉ ['/', '!', '?']

instance : DecidablePred BeginsTag := fun s => inferInstanceAs (Decidable (∀ c ∈ s.head?, c ∉ ['/', '!', '?']))

theorem kindOf_beginsTag {s : List Char} (h : BeginsTag s) :
    kindOf ('<' :: (s ++ ['>'])) = if s.getLast? = some '/' then .selfClosing else .opening := by
  have hno : ∀ c ∈ ['/', '!', '?'], s.head? ≠ some c := fun c hc he => h c he hc
  rw [kindOf_tag, if_neg (hno '/' (by simp)), if_neg (by simp [hno '!' (by simp), hno '?' (by simp)])]

theorem beginsTag_of_kindOf {s : List Char} {kind : TokenKind} (h : kindOf ('<' :: (s ++ ['>'])) = kind)
    (hkind : kind = .opening ∨ kind = .selfClosing) : BeginsTag s := by
  rw [kindOf_tag] at h
  intro c hc hmem
  rw [Option.mem_def.mp hc] at h
  simp only [List.mem_cons, List.not_mem_nil, or_false] at hmem
  rcases hmem with rfl | rfl | rfl
  · rcases hkind with rfl | rfl <;> cases h
  · rcases hkind with rfl | rfl <;> cases h
  · rcases hkind with rfl | rfl <;> cases h

/-! ## Nodes -/

mutual

/-- Element names are plain, and texts are trimmed and not empty. -/
def Node.Sound : Node → Prop
  | .element name _ children => (∀ c ∈ name, isPlain c = true) ∧ SoundAll children
  | .text s => s ≠ [] ∧ Text.trim s = s
  | .comment _ => True
  | .css _ => True

def SoundAll : List Node → Prop
  | [] => True
  | n :: ns => n.Sound ∧ SoundAll ns

end

/-- What the layout needs to know a tag by: its attributes leave no quote and no brace open, close no brace that they
    did not open, and hold no bracket outside them; and the tag looks like what it is. -/
structure ClearTag (p : Printer) (name : List Char) (attributes : List Attribute) (children : List Node) : Prop where
  closed : Bracket.angle.run (attributes.flatMap p.attr) = some .outside
  begins : BeginsTag (p.inTag name attributes)
  ends : children ≠ [] → (p.inTag name attributes).getLast? ≠ some '/'

mutual

/-- Every tag is clear, and every comment closes the quotes and braces that it opens and no others. -/
def Node.Clear (p : Printer) : Node → Prop
  | .element name attributes children => ClearTag p name attributes children ∧ ClearAll p children
  | .text _ => True
  | .comment s => Bracket.brace.run (openComment s) = some .outside
  | .css _ => True

def ClearAll (p : Printer) : List Node → Prop
  | [] => True
  | n :: ns => n.Clear p ∧ ClearAll p ns

end

/-- A root without children is one tag, which may as well be left open. -/
def Node.ClearRoot (p : Printer) : Node → Prop
  | .element name attributes [] =>
    (Bracket.angle.run (attributes.flatMap p.attr)).isSome ∧ BeginsTag (p.inTag name attributes)
  | n => n.Clear p

/-! ## The tokens of a node -/

variable {p : Printer} {name s : List Char} {attributes : List Attribute}

theorem run_inTag (hname : ∀ c ∈ name, isPlain c = true) :
    Bracket.angle.run (p.inTag name attributes) = Bracket.angle.run (attributes.flatMap p.attr) :=
  Bracket.run_append_of_outside (Bracket.run_plain .angle hname)

theorem whole_opening_iff (hname : ∀ c ∈ name, isPlain c = true) :
    Whole ⟨.opening, p.opening name attributes ++ ['>']⟩ ↔
      Bracket.angle.run (attributes.flatMap p.attr) = some .outside ∧ BeginsTag (p.inTag name attributes) ∧
        (p.inTag name attributes).getLast? ≠ some '/' := by
  have hwhole := whole_iff .opening .angle (p.inTag name attributes)
  rw [run_inTag hname] at hwhole
  refine hwhole.trans (and_congr_right fun _ => ?_)
  constructor
  · intro hkind
    have hbegins := beginsTag_of_kindOf hkind (Or.inl rfl)
    refine ⟨hbegins, fun hlast => ?_⟩
    have := (kindOf_beginsTag hbegins).symm.trans hkind
    rw [if_pos hlast] at this
    cases this
  · rintro ⟨hbegins, hlast⟩
    exact (kindOf_beginsTag hbegins).trans (if_neg hlast)

/-- A blank and a slash at the end make an opening tag one that is closed at once. -/
theorem kindOf_selfClosing_iff :
    kindOf ('<' :: (s ++ [' ', '/'] ++ ['>'])) = .selfClosing ↔ BeginsTag s := by
  have hbegins : BeginsTag (s ++ [' ', '/']) ↔ BeginsTag s := by
    cases s with
    | nil => simp [BeginsTag]
    | cons c r => rfl
  rw [← hbegins]
  constructor
  · exact fun hkind => beginsTag_of_kindOf hkind (Or.inr rfl)
  · intro h
    rw [kindOf_beginsTag h, if_pos (by simp)]

theorem whole_selfClosing_iff (hname : ∀ c ∈ name, isPlain c = true) :
    Whole ⟨.selfClosing, p.opening name attributes ++ [' ', '/', '>']⟩ ↔
      Bracket.angle.run (attributes.flatMap p.attr) = some .outside ∧ BeginsTag (p.inTag name attributes) := by
  have hwhole := whole_iff .selfClosing .angle (p.inTag name attributes ++ [' ', '/'])
  rw [Bracket.run_append_plain (by decide), run_inTag hname] at hwhole
  rw [Printer.opening_selfClosing]
  exact hwhole.trans (and_congr_right fun _ => kindOf_selfClosing_iff)

theorem whole_closing (hname : ∀ c ∈ name, isPlain c = true) : Whole ⟨.closing, '<' :: '/' :: name ++ ['>']⟩ := by
  have hplain : ∀ c ∈ '/' :: name, isPlain c = true := List.forall_mem_cons.mpr ⟨rfl, hname⟩
  exact (whole_iff .closing .angle ('/' :: name)).mpr ⟨Bracket.run_plain .angle hplain, kindOf_tag ('/' :: name)⟩

theorem whole_brace_iff : Whole ⟨.other, '\x7b' :: (s ++ ['\x7d'])⟩ ↔ Bracket.brace.run s = some .outside :=
  (whole_iff .other .brace s).trans (and_iff_left rfl)

theorem whole_comment_iff : Whole ⟨.other, commentExpression s⟩ ↔ Bracket.brace.run (openComment s) = some .outside := by
  rw [commentExpression_eq, whole_brace_iff, Bracket.run_append_plain (by decide),
    Bracket.run_append_of_outside (Bracket.run_plain .brace (by decide))]

theorem whole_css (s : List Char) : Whole ⟨.other, templateExpression s⟩ := by
  rw [templateExpression_eq, whole_brace_iff]
  exact run_template s

/-- Printed text is a run or a string in braces. -/
theorem textLiteral_cases (hne : s ≠ []) (htrim : Text.trim s = s) :
    IsText (textLiteral s) ∨ textLiteral s = '\x7b' :: (Text.quote s ++ ['\x7d']) := by
  by_cases hmarkup : s.any isMarkup = true
  · exact Or.inr (if_pos hmarkup)
  · rw [textLiteral, if_neg hmarkup]
    refine Or.inl ⟨hne, ?_, htrim⟩
    intro c hc
    rw [Layout.isText, Bool.and_eq_true, bne_iff_ne, bne_iff_ne]
    constructor <;> rintro rfl <;> exact hmarkup (List.any_eq_true.mpr ⟨_, hc, rfl⟩)

mutual

theorem stands_nested (p : Printer) (depth : Nat) :
    ∀ n : Node, n.Sound → ∀ x ∈ p.nested depth n, Stands x.token
  | .element name attributes children, h => by
    rw [Printer.nested]
    split
    · rw [List.forall_mem_singleton]
      exact .bracket .angle _ (by simp)
    · rw [List.cons_append, List.forall_mem_cons, List.forall_mem_append, List.forall_mem_singleton]
      exact ⟨.bracket .angle _ (by simp), stands_nestedOf p (depth + 1) children h.2, .bracket .angle _ (by simp)⟩
  | .text s, h => by
    rw [Printer.nested, List.forall_mem_singleton]
    rcases textLiteral_cases h.1 h.2 with htext | hquoted
    · exact .run htext
    · rw [hquoted]
      exact .bracket .brace _ fun _ => rfl
  | .comment s, _ => by
    rw [Printer.nested, List.forall_mem_singleton]
    exact .bracket .brace _ fun _ => rfl
  | .css s, _ => by
    rw [Printer.nested, List.forall_mem_singleton]
    exact .bracket .brace _ fun _ => rfl

theorem stands_nestedOf (p : Printer) (depth : Nat) :
    ∀ ns : List Node, SoundAll ns → ∀ x ∈ p.nestedOf depth ns, Stands x.token
  | [], _ => fun _ hx => absurd hx List.not_mem_nil
  | n :: ns, h => by
    rw [Printer.nestedOf, List.forall_mem_append]
    exact ⟨stands_nested p depth n h.1, stands_nestedOf p depth ns h.2⟩

end

mutual

theorem whole_nested_iff (p : Printer) (depth : Nat) : ∀ n : Node, n.Sound →
    ((∀ x ∈ p.nested depth n, x.token.isRun = true ∨ Whole x.token) ↔ n.Clear p)
  | .element name attributes [], h => by
    rw [Printer.nested, if_pos (by rfl), List.forall_mem_singleton,
      or_iff_right (by simp [Token.isRun]), whole_selfClosing_iff h.1]
    constructor
    · rintro ⟨hclosed, hbegins⟩
      exact ⟨⟨hclosed, hbegins, fun hne => absurd rfl hne⟩, trivial⟩
    · rintro ⟨⟨hclosed, hbegins, _⟩, _⟩
      exact ⟨hclosed, hbegins⟩
  | .element name attributes (n :: ns), h => by
    rw [Printer.nested, if_neg (by simp), List.cons_append, List.forall_mem_cons, List.forall_mem_append,
      List.forall_mem_singleton, or_iff_right (by simp [Token.isRun]), or_iff_right (by simp [Token.isRun]),
      whole_opening_iff h.1, and_iff_left (whole_closing h.1), whole_nestedOf_iff p (depth + 1) (n :: ns) h.2]
    constructor
    · rintro ⟨⟨hclosed, hbegins, hends⟩, hchildren⟩
      exact ⟨⟨hclosed, hbegins, fun _ => hends⟩, hchildren⟩
    · rintro ⟨⟨hclosed, hbegins, hends⟩, hchildren⟩
      exact ⟨⟨hclosed, hbegins, hends (List.cons_ne_nil n ns)⟩, hchildren⟩
  | .text s, h => by
    rw [Printer.nested, List.forall_mem_singleton]
    refine iff_of_true ?_ trivial
    rcases textLiteral_cases h.1 h.2 with htext | hquoted
    · exact Or.inl htext.isRun
    · right
      rw [hquoted]
      exact whole_brace_iff.mpr (run_quote s)
  | .comment s, _ => by
    rw [Printer.nested, List.forall_mem_singleton, or_iff_right (by simp [Token.isRun, commentExpression]),
      whole_comment_iff]
    rfl
  | .css s, _ => by
    rw [Printer.nested, List.forall_mem_singleton]
    exact iff_of_true (Or.inr (whole_css s)) trivial

theorem whole_nestedOf_iff (p : Printer) (depth : Nat) : ∀ ns : List Node, SoundAll ns →
    ((∀ x ∈ p.nestedOf depth ns, x.token.isRun = true ∨ Whole x.token) ↔ ClearAll p ns)
  | [], _ => iff_of_true (fun _ hx => absurd hx List.not_mem_nil) trivial
  | n :: ns, h => by
    rw [Printer.nestedOf, List.forall_mem_append, whole_nested_iff p depth n h.1, whole_nestedOf_iff p depth ns h.2]
    rfl

end

/-! ## The tokens of a root -/

/-- One tag alone is found whether or not it is closed, unless it is closed too early. -/
theorem adjoined_selfClosing_iff (hname : ∀ c ∈ name, isPlain c = true) :
    Adjoined [⟨.selfClosing, p.opening name attributes ++ [' ', '/', '>']⟩] ↔
      (Bracket.angle.run (attributes.flatMap p.attr)).isSome ∧ BeginsTag (p.inTag name attributes) := by
  have hopen : (Bracket.angle.run (p.inTag name attributes ++ [' ', '/'])).isSome ↔
      (Bracket.angle.run (attributes.flatMap p.attr)).isSome := by
    rw [← run_inTag hname]
    exact ⟨Bracket.isSome_run_of_append, fun h => Bracket.isSome_run_append h (by decide)⟩
  rw [Printer.opening_selfClosing, and_comm, ← hopen, ← kindOf_selfClosing_iff]
  exact adjoined_single_iff .selfClosing .angle (p.inTag name attributes ++ [' ', '/'])

/-- The layout finds the printed pieces of a root exactly if it is clear. -/
theorem tokens_print_iff {children : List Node} (h : (Node.element name attributes children).Sound) :
    Layout.tokens (p.print (.element name attributes children)) =
        (p.pieces (.element name attributes children)).map Piece.token ↔
      (Node.element name attributes children).ClearRoot p := by
  rw [tokens_print_iff_adjoined, Printer.pieces]
  cases children with
  | nil =>
    rw [Printer.nested, if_pos (by rfl)]
    exact adjoined_selfClosing_iff h.1
  | cons n ns =>
    have hnested := whole_nested_iff p 0 (.element name attributes (n :: ns)) h
    have hstands := stands_nested p 0 (.element name attributes (n :: ns)) h
    rw [Printer.nested, if_neg (by simp)] at hnested hstands ⊢
    rw [List.forall_mem_append, List.forall_mem_singleton] at hnested hstands
    have hlast := whole_closing h.1
    rw [and_iff_left (Or.inr hlast)] at hnested
    exact (adjoined_joinRuns_iff hstands.1 hstands.2 hlast).trans hnested

end SvgComponent.Jsx
