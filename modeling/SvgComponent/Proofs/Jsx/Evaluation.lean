/-
  SvgComponent.Proofs.Jsx.Evaluation — what printed classes and inlined styles come to.

  Classes stand for themselves, or for what the imported styles have for them, with single blanks between them and the
  caller's class at the end (`classValue`); a style stands for the object with the last value of each property
  (`styleValue`). The expressions that are printed are read as these, whatever follows them (`binds_classes`,
  `binds_style`). Strings are quoted, so what they hold makes no difference, but two kinds of text are printed as they
  are: classes in a template literal, which have to be verbatim there, and keys without quotes, which have to be names.
-/

import Mathlib.Data.List.Forall2
import Mathlib.Data.List.Infix
import SvgComponent.Proofs.Jsx.Expression

namespace SvgComponent.Jsx

open Style (Declaration extractedClass)

/-! ## What classes and styles stand for -/

/-- The caller's class, or nothing. -/
def Scope.given (x : Scope) : List Char := x.className.getD []

/-- What a class stands for: itself, or what the styles have for it. -/
def ClassToken.value (modules : Bool) (x : Scope) : ClassToken → List Char
  | .literal name => if modules then x.styles name else name
  | .extracted k => x.styles (extractedClass k)

/-- What the classes of an element stand for: their values with single blanks between them, and at the root the caller's
    class after them. A root without classes has the caller's, given or not. -/
def classValue (modules : Bool) (x : Scope) (tokens : List ClassToken) (root : Bool) : Value :=
  if tokens.isEmpty then .ofOption x.className
  else .text ([' '].intercalate (tokens.map (ClassToken.value modules x) ++ if root then [x.given] else []))

/-- The value that the last declaration of a property has, by the key that the property is spelled with. -/
def styleValue (ds : List Declaration) (key : List Char) : Option (List Char) :=
  (ds.reverse.find? fun d => (propertyKey d.property).1 = key).map (·.value)

/-- Text without anything that a template literal has a meaning of its own for. -/
structure IsVerbatim (s : List Char) : Prop where
  escape : '\\' ∉ s
  quote : '\x60' ∉ s
  expression : ¬ ['$', '\x7b'] <:+: s

instance (s : List Char) : Decidable (IsVerbatim s) :=
  decidable_of_iff ('\\' ∉ s ∧ '\x60' ∉ s ∧ ¬ ['$', '\x7b'] <:+: s)
    ⟨fun h => ⟨h.1, h.2.1, h.2.2⟩, fun h => ⟨h.escape, h.quote, h.expression⟩⟩

theorem IsVerbatim.tail {c : Char} {s : List Char} (h : IsVerbatim (c :: s)) : IsVerbatim s where
  escape hmem := h.escape (List.mem_cons_of_mem c hmem)
  quote hmem := h.quote (List.mem_cons_of_mem c hmem)
  expression hinfix := h.expression (List.infix_cons hinfix)

/-- A class that a template literal has as it is. -/
def ClassToken.IsVerbatim : ClassToken → Prop
  | .literal name => Jsx.IsVerbatim name
  | .extracted _ => True

instance : DecidablePred ClassToken.IsVerbatim
  | .literal name => inferInstanceAs (Decidable (Jsx.IsVerbatim name))
  | .extracted _ => .isTrue trivial

/-- The class can stand in a template literal, or else is looked up in the stylesheet. -/
def ClassToken.Fits (modules : Bool) (t : ClassToken) : Prop :=
  modules = false → t.IsVerbatim ∧ ∀ name, t = .literal name → '\r' ∉ name

/-- Text that is a name from its first character to its last. -/
structure Scope.IsName (x : Scope) (n : List Char) : Prop where
  begins : n.head?.any x.beginsName = true
  continues : ∀ c ∈ n, x.isInName c = true

instance (x : Scope) (n : List Char) : Decidable (x.IsName n) :=
  decidable_of_iff (n.head?.any x.beginsName = true ∧ ∀ c ∈ n, x.isInName c = true)
    ⟨fun h => ⟨h.1, h.2⟩, fun h => ⟨h.begins, h.continues⟩⟩

/-- The key of the declaration is quoted, or a name that an object can have for a key of its own. -/
def Scope.HasKey (x : Scope) (d : Declaration) : Prop :=
  (propertyKey d.property).2 = false →
    x.IsName (propertyKey d.property).1 ∧ (propertyKey d.property).1 ≠ Scope.prototypeKey

instance (x : Scope) : DecidablePred x.HasKey := fun d =>
  inferInstanceAs (Decidable ((propertyKey d.property).2 = false →
    x.IsName (propertyKey d.property).1 ∧ (propertyKey d.property).1 ≠ Scope.prototypeKey))

namespace Script

theorem skip_cons {c : Char} (h : isSpace c = false) (s : List Char) : skip (c :: s) = c :: s :=
  List.dropWhile_cons_of_neg (Bool.eq_false_iff.mp h)

/-! ## Strings -/

theorem string?_cons {q c : Char} (hquote : c ≠ q) (hslash : c ≠ '\\') (hbreak : ¬ (c = '\n' ∨ c = '\r')) (s : List Char) :
    string? q (c :: s) = (string? q s).map (join [c]) := by
  rw [string?, if_neg hquote, if_neg hslash, if_neg hbreak]

theorem string?_escape {q : Char} (hquote : '\\' ≠ q) {s t r : List Char} (h : escape? s = some (t, r)) :
    string? q ('\\' :: s) = (string? q r).map (join t) := by
  rw [string?, if_neg hquote, if_pos rfl]
  split
  · rename_i t' r' h'
    rw [h] at h'
    cases h'
    rfl
  · rename_i h'
    rw [h] at h'
    cases h'

theorem escape?_hexPair {c : Char} (h : c.toNat < 0x20) (s : List Char) :
    escape? (['u', '0', '0'] ++ Text.hexPair c.toNat ++ s) = some ([c], s) := by
  have hlow : ∀ n : Fin 0x20, hexChar? (['0', '0'] ++ Text.hexPair n) = some (Char.ofNat n) := by decide
  have hchar : hexChar? (['0', '0'] ++ Text.hexPair c.toNat) = some c := by
    rw [hlow ⟨c.toNat, h⟩, Char.ofNat_toNat]
  show (if s.length + 1 + 1 + 1 + 1 < 4 then none
    else (hexChar? (['0', '0'] ++ Text.hexPair c.toNat)).map fun u => ([u], s)) = _
  rw [if_neg (by omega), hchar, Option.map_some]

/-- A character is read from what it is escaped by. -/
theorem string?_escape_append (c : Char) (s : List Char) :
    string? '\"' (Text.escape c ++ s) = (string? '\"' s).map (join [c]) := by
  have hshort : ∀ {d : Char}, escape? (d :: s) = some ([c], s) →
      string? '\"' (['\\', d] ++ s) = (string? '\"' s).map (join [c]) := fun h => string?_escape (by decide) h
  unfold Text.escape
  split_ifs with hquote hslash hback htab hline hfeed hreturn hlow
  · subst hquote
    exact hshort rfl
  · subst hslash
    exact hshort rfl
  · subst hback
    exact hshort rfl
  · subst htab
    exact hshort rfl
  · subst hline
    exact hshort rfl
  · subst hfeed
    exact hshort rfl
  · subst hreturn
    exact hshort rfl
  · exact string?_escape (by decide) (escape?_hexPair hlow s)
  · exact string?_cons hquote hslash (not_or.mpr ⟨hline, hreturn⟩) s

/-- A string is read as what it was quoted from. -/
theorem quoted?_quote (v s : List Char) : quoted? (Text.quote v ++ s) = some (v, s) := by
  show string? '\"' (v.flatMap Text.escape ++ ['\"'] ++ s) = some (v, s)
  induction v with
  | nil => rw [List.flatMap_nil, List.nil_append, List.singleton_append, string?, if_pos rfl]
  | cons c v ih =>
    rw [List.flatMap_cons, List.append_assoc, List.append_assoc, string?_escape_append, ← List.append_assoc, ih]
    rfl

end Script

namespace Scope

open Script

variable {x : Scope}

/-! ## Names -/

theorem isName_of_isIdentifier {n : List Char} (h : isIdentifier n = true) : x.IsName n := by
  rw [isIdentifier, Bool.and_eq_true, List.all_eq_true] at h
  refine ⟨?_, fun c hc => ?_⟩
  · obtain ⟨c, hc, hword⟩ := (Option.any_eq_true _ _).mp h.1
    exact (Option.any_eq_true _ _).mpr ⟨c, hc, by rw [beginsName, hword, Bool.true_or]⟩
  · rw [isInName, h.2 c hc, Bool.true_or]

/-- A name ends before the first character that no name has. -/
theorem name?_append {n s : List Char} (h : x.IsName n) (hs : ∀ c ∈ s.head?, x.isInName c = false) :
    x.name? (n ++ s) = some (n, s) := by
  have hhead : (n ++ s).head?.any x.beginsName = true := by
    obtain ⟨c, hc, hbegins⟩ := (Option.any_eq_true _ _).mp h.begins
    rw [List.head?_append, hc]
    exact hbegins
  have hstop : s.takeWhile x.isInName = [] ∧ s.dropWhile x.isInName = s := by
    cases s with
    | nil => exact ⟨rfl, rfl⟩
    | cons c s =>
      have hc := Bool.eq_false_iff.mp (hs c rfl)
      exact ⟨List.takeWhile_cons_of_neg hc, List.dropWhile_cons_of_neg hc⟩
  rw [name?, if_pos hhead, List.takeWhile_append_of_pos h.continues, List.dropWhile_append_of_pos h.continues, hstop.1,
    hstop.2, List.append_nil]

theorem name?_of_mark {c : Char} (h : x.beginsName c = false) (s : List Char) : x.name? (c :: s) = none :=
  if_neg (Bool.eq_false_iff.mp h)

/-- A character of ASCII is in a name as far as it is in an identifier. -/
theorem isInName_of_lt {c : Char} (h : c.toNat < 0x80) : x.isInName c = (c.isAlphanum || c == '_' || c == '$') := by
  rw [isInName, decide_eq_false (Nat.not_le.mpr h), Bool.false_and, Bool.or_false]

theorem beginsName_of_lt {c : Char} (h : c.toNat < 0x80) : x.beginsName c = isWordStart c := by
  rw [beginsName, decide_eq_false (Nat.not_le.mpr h), Bool.false_and, Bool.or_false]

/-- The marks that follow names in code. -/
theorem isInName_mark : ∀ c ∈ ['.', '[', ':', ' ', '\x7d'], x.isInName c = false := by
  have hmarks : ∀ c ∈ ['.', '[', ':', ' ', '\x7d'],
      c.toNat < 0x80 ∧ (c.isAlphanum || c == '_' || c == '$') = false := by decide
  intro c hc
  rw [isInName_of_lt (hmarks c hc).1, (hmarks c hc).2]

theorem name?_word {n : List Char} (h : isIdentifier n = true) {c : Char} (hc : c ∈ ['.', '[', ':', ' ', '\x7d'])
    (s : List Char) : x.name? (n ++ c :: s) = some (n, c :: s) := by
  refine name?_append (isName_of_isIdentifier h) fun d hd => ?_
  cases hd
  exact isInName_mark c hc

/-! ## Code -/

theorem operand?_quote (v s : List Char) : x.operand? (Text.quote v ++ s) = some (.text v, s) := by
  have hquote : x.beginsName '\"' = false := (beginsName_of_lt (by decide)).trans rfl
  have hname : x.name? (Text.quote v ++ s) = none := name?_of_mark hquote _
  rw [operand?, hname, quoted?_quote]
  rfl

theorem operand?_className {c : Char} (hc : c ∈ ['.', '[', ':', ' ', '\x7d']) (s : List Char) :
    x.operand? (Printer.className ++ c :: s) = some (.ofOption x.className, c :: s) := by
  rw [operand?, name?_word rfl hc]
  exact if_pos rfl

theorem operand?_styles {c : Char} (hc : c ∈ ['.', '[', ':', ' ', '\x7d']) (s : List Char) :
    x.operand? (stylesName ++ c :: s) = (x.member? (c :: s)).map fun y => (.text (x.styles y.1), y.2) := by
  have hne : stylesName ≠ Printer.className := by decide
  rw [operand?, name?_word rfl hc]
  exact (if_neg hne).trans (if_pos rfl)

/-- A reference to a class is read as what the styles have for it. -/
theorem operand?_reference (n s : List Char) :
    x.operand? (styleReference n ++ '\x7d' :: s) = some (.text (x.styles n), '\x7d' :: s) := by
  unfold styleReference
  split
  · rename_i h
    rw [List.append_assoc, List.cons_append, operand?_styles (by decide), member?, name?_word h (by decide)]
    rfl
  · rw [List.append_assoc, List.append_assoc, List.cons_append, operand?_styles (by decide), member?,
      quoted?_quote]
    rfl

theorem choice?_of_operand? {s r : List Char} {v : Value} (h : x.operand? s = some (v, r))
    (hr : (skip r).head? ≠ some '|') : x.choice? s = some (v, r) := by
  rw [choice?, h, Option.bind_eq_bind, Option.bind_some]
  dsimp only
  split
  · rename_i heq
    rw [heq] at hr
    exact absurd rfl hr
  · rfl

theorem head?_skip_brace (s : List Char) : (skip ('\x7d' :: s)).head? ≠ some '|' := by
  rw [skip_cons rfl]
  exact fun h => absurd (Option.some.inj h) (by decide)

theorem choice?_forwarded (s : List Char) :
    x.choice? (Printer.forwarded.plain ++ '\x7d' :: s) = some (.text x.given, '\x7d' :: s) := by
  have hsplit : Printer.forwarded.plain ++ '\x7d' :: s =
      Printer.className ++ ' ' :: '|' :: '|' :: ' ' :: (Text.quote [] ++ '\x7d' :: s) := rfl
  have hskip : skip (' ' :: (Text.quote [] ++ '\x7d' :: s)) = Text.quote [] ++ '\x7d' :: s := rfl
  have hvalue : (Value.ofOption x.className).orElse (.text []) = .text x.given := by
    unfold given
    rcases x.className with _ | _ | _ <;> rfl
  rw [hsplit, choice?, operand?_className (by decide), Option.bind_eq_bind, Option.bind_some]
  show (x.operand? (skip (' ' :: (Text.quote [] ++ '\x7d' :: s)))).map _ = _
  rw [hskip, operand?_quote, Option.map_some, hvalue]

/-! ## Template literals -/

theorem join_join (s t : List Char) (y : Option (List Char × List Char)) : (y.map (join t)).map (join s) =
    y.map (join (s ++ t)) := by
  cases y with
  | none => rfl
  | some y => simp [join, List.append_assoc]

theorem template?_cons {c : Char} (hquote : c ≠ '\x60') (hslash : c ≠ '\\') {s : List Char}
    (hdollar : ¬ (c = '$' ∧ s.head? = some '\x7b')) (hreturn : c ≠ '\r') :
    x.template? (c :: s) = (x.template? s).map (join [c]) := by
  rw [template?, if_neg hquote, if_neg hslash, if_neg hdollar, if_neg hreturn]

theorem template?_verbatim {n : List Char} (h : IsVerbatim n) (hreturn : '\r' ∉ n) {s : List Char}
    (hs : s.head? ≠ some '\x7b') : x.template? (n ++ s) = (x.template? s).map (join n) := by
  induction n with
  | nil => exact Option.map_id'.symm
  | cons c n ih =>
    have hquote : c ≠ '\x60' := fun hc => h.quote (hc ▸ List.mem_cons_self)
    have hslash : c ≠ '\\' := fun hc => h.escape (hc ▸ List.mem_cons_self)
    have hopen : ¬ (c = '$' ∧ (n ++ s).head? = some '\x7b') := by
      rintro ⟨rfl, hbrace⟩
      cases n with
      | nil => exact hs hbrace
      | cons d n =>
        cases hbrace
        exact h.expression (List.prefix_append ['$', '\x7b'] n).isInfix
    rw [List.mem_cons, not_or] at hreturn
    rw [List.cons_append, template?_cons hquote hslash hopen (Ne.symm hreturn.1), ih h.tail hreturn.2, join_join]
    rfl

theorem template?_expression {code : List Char} {v : Value} {s : List Char}
    (hskip : skip (code ++ '\x7d' :: s) = code ++ '\x7d' :: s)
    (h : x.choice? (code ++ '\x7d' :: s) = some (v, '\x7d' :: s)) :
    x.template? ('$' :: braced code ++ s) = (x.template? s).map (join v.shown) := by
  have hsplit : '$' :: braced code ++ s = '$' :: '\x7b' :: (code ++ '\x7d' :: s) := by simp [braced]
  rw [hsplit, template?, if_neg (by decide), if_neg (by decide), if_pos ⟨rfl, rfl⟩, List.tail_cons]
  split
  · rename_i v' r heq
    rw [hskip, h] at heq
    cases heq
    rfl
  · rename_i heq
    rw [hskip, h] at heq
    cases heq

/-- The part is read as this text in a template literal, unless a brace follows. -/
def ReadsPart (x : Scope) (part : ClassPart) (value : List Char) : Prop :=
  ∀ s : List Char, s.head? ≠ some '\x7b' → x.template? (part.template ++ s) = (x.template? s).map (join value)

theorem readsPart_reference (n : List Char) : x.ReadsPart (.expression (styleReference n)) (x.styles n) := by
  intro s _
  refine template?_expression ?_ (choice?_of_operand? (operand?_reference n s) (head?_skip_brace s))
  unfold styleReference
  split <;> rfl

theorem readsPart_forwarded : x.ReadsPart Printer.forwarded x.given := fun s _ =>
  template?_expression rfl (choice?_forwarded s)

/-- The parts of a template literal are read one by one, with single blanks between them. -/
theorem template?_intercalate {parts : List ClassPart} {values : List (List Char)}
    (h : List.Forall₂ x.ReadsPart parts values) (s : List Char) :
    x.template? ([' '].intercalate (parts.map ClassPart.template) ++ '\x60' :: s) =
      some ([' '].intercalate values, s) := by
  have hquote : ∀ t, x.template? ('\x60' :: t) = some ([], t) := by
    intro t
    rw [template?, if_pos rfl]
  induction h with
  | nil => exact hquote s
  | @cons part value parts values hpart hrest ih =>
    cases hrest with
    | nil =>
      rw [List.map_singleton, List.intercalate_singleton, List.intercalate_singleton, hpart _ (by simp), hquote]
      simp [join]
    | @cons part' value' parts values _ _ =>
      rw [List.map_cons] at ih
      rw [List.map_cons, List.map_cons, List.intercalate_cons_cons, List.intercalate_cons_cons, List.append_assoc, List.append_assoc,
        hpart _ (by simp), List.singleton_append,
        template?_cons (by decide) (by decide) (by simp) (by decide), ih]
      simp [join]

end Scope

/-! ## Classes -/

namespace Scope

variable {x : Scope} {p : Printer}

theorem readsPart_part {t : ClassToken} (h : t.Fits p.modules) :
    x.ReadsPart (t.part p.modules) (t.value p.modules x) := by
  cases t with
  | extracted k => exact readsPart_reference _
  | literal name =>
    cases hmodules : p.modules with
    | true => exact readsPart_reference name
    | false =>
      obtain ⟨hverbatim, hreturn⟩ := h hmodules
      exact fun s => template?_verbatim hverbatim (hreturn name rfl)

/-- An attribute is bound to what stands after its name. -/
theorem binds_of_bound? {n text : List Char} (hn : '=' ∉ n) {v : Value}
    (h : ∀ rest, x.bound? (text ++ rest) = some (v, rest)) : x.Binds (' ' :: n ++ '=' :: text) n v := by
  intro rest
  have hname : ∀ c ∈ n, decide (c ≠ '=') = true := by
    intro c hc
    rw [decide_eq_true_iff]
    rintro rfl
    exact hn hc
  have hstop : (n ++ '=' :: (text ++ rest)).dropWhile (· ≠ '=') = '=' :: (text ++ rest) ∧
      (n ++ '=' :: (text ++ rest)).takeWhile (· ≠ '=') = n := by
    rw [List.dropWhile_append_of_pos hname, List.takeWhile_append_of_pos hname]
    exact ⟨rfl, List.append_nil n⟩
  have hsplit : ' ' :: n ++ '=' :: text ++ rest = ' ' :: (n ++ '=' :: (text ++ rest)) := by simp
  rw [hsplit, binding?, hstop.1, hstop.2]
  dsimp only
  rw [h rest]
  rfl

theorem bound?_quoted {q : Char} (hquote : q = '\"' ∨ q = '\'') {s : List Char} (hs : q ∉ s) (rest : List Char) :
    x.bound? (q :: s ++ [q] ++ rest) = some (.text (Reader.decode s), rest) := by
  have hmem : ∀ c ∈ s, decide (c ≠ q) = true := by
    intro c hc
    rw [decide_eq_true_iff]
    rintro rfl
    exact hs hc
  have hbrace : q ≠ '\x7b' := by rcases hquote with rfl | rfl <;> decide
  have hstop : ([q] ++ rest).dropWhile (· ≠ q) = q :: rest ∧ ([q] ++ rest).takeWhile (· ≠ q) = [] := by
    simp
  rw [List.cons_append, List.cons_append, List.append_assoc, bound?, if_neg hbrace, if_pos hquote,
    List.dropWhile_append_of_pos hmem, List.takeWhile_append_of_pos hmem, hstop.1, hstop.2, List.append_nil]

theorem bound?_attributeString (onlyDouble : Bool) (s rest : List Char) :
    x.bound? (attributeString onlyDouble s ++ rest) = some (.text s, rest) := by
  obtain ⟨q, u, hquote, hu, hdecode, heq⟩ := Reader.exists_attributeString onlyDouble s
  rw [heq, bound?_quoted hquote hu, hdecode]

theorem bound?_braced {code : List Char} {v : Value} {rest : List Char}
    (h : x.expression? (Script.skip (code ++ '\x7d' :: rest)) = some (v, '\x7d' :: rest)) :
    x.bound? (braced code ++ rest) = some (v, rest) := by
  have hsplit : braced code ++ rest = '\x7b' :: (code ++ '\x7d' :: rest) := by simp [braced]
  rw [hsplit, bound?, if_pos rfl, h]
  rfl

theorem bound?_className (rest : List Char) :
    x.bound? (braced Printer.className ++ rest) = some (.ofOption x.className, rest) := by
  refine bound?_braced ?_
  exact choice?_of_operand? (operand?_className (by decide) rest) (head?_skip_brace rest)

theorem bound?_reference (n rest : List Char) :
    x.bound? (braced (styleReference n) ++ rest) = some (.text (x.styles n), rest) := by
  have hchoice := choice?_of_operand? (x := x) (operand?_reference n rest) (head?_skip_brace rest)
  refine bound?_braced ?_
  rw [← hchoice]
  unfold styleReference
  split <;> rfl

theorem bound?_template {parts : List ClassPart} {values : List (List Char)} (h : List.Forall₂ x.ReadsPart parts values)
    (rest : List Char) :
    x.bound? (braced ('\x60' :: [' '].intercalate (parts.map ClassPart.template) ++ ['\x60']) ++ rest) =
      some (.text ([' '].intercalate values), rest) := by
  refine bound?_braced ?_
  have hsplit : '\x60' :: [' '].intercalate (parts.map ClassPart.template) ++ ['\x60'] ++ '\x7d' :: rest =
      '\x60' :: ([' '].intercalate (parts.map ClassPart.template) ++ '\x60' :: '\x7d' :: rest) := by simp
  rw [hsplit, Script.skip_cons rfl, expression?, template?_intercalate h]
  rfl

theorem part_of_modules (h : p.modules = true) (t : ClassToken) :
    ∃ name, t.part p.modules = .expression (styleReference name) ∧ t.value p.modules x = x.styles name := by
  rw [h]
  cases t with
  | literal name => exact ⟨name, rfl, rfl⟩
  | extracted k => exact ⟨extractedClass k, rfl, rfl⟩

theorem forall₂_readsPart {tokens : List ClassToken} (h : ∀ t ∈ tokens, t.Fits p.modules) :
    List.Forall₂ x.ReadsPart (tokens.map (ClassToken.part p.modules)) (tokens.map (ClassToken.value p.modules x)) := by
  induction tokens with
  | nil => exact .nil
  | cons t tokens ih =>
    rw [List.forall_mem_cons] at h
    exact .cons (readsPart_part h.1) (ih h.2)

theorem classValue_below {modules : Bool} {t : ClassToken} {ts : List ClassToken} :
    classValue modules x (t :: ts) false = .text ([' '].intercalate ((t :: ts).map (ClassToken.value modules x))) :=
  congrArg (fun values => Value.text ([' '].intercalate values)) (List.append_nil _)

/-- Classes that are all literal are printed as a string. -/
theorem classes_literal {t : ClassToken} {ts : List ClassToken} (hmodules : p.modules = false)
    (h : ∀ u ∈ t :: ts, ∃ name, u = .literal name) : p.classes (t :: ts) false = Printer.classBinding ++
      attributeString p.onlyDouble ([' '].intercalate ((t :: ts).map (ClassToken.value p.modules x))) := by
  have hparts : (t :: ts).map (ClassToken.part p.modules) =
      ((t :: ts).map (ClassToken.value p.modules x)).map ClassPart.text := by
    rw [List.map_map]
    refine List.map_congr_left fun u hu => ?_
    obtain ⟨name, rfl⟩ := h u hu
    rw [hmodules]
    rfl
  have hall : (((t :: ts).map (ClassToken.value p.modules x)).map ClassPart.text).all ClassPart.isText = true := by
    rw [List.all_map]
    exact List.all_eq_true.mpr fun _ _ => rfl
  have hplain : (((t :: ts).map (ClassToken.value p.modules x)).map ClassPart.text).map ClassPart.plain =
      (t :: ts).map (ClassToken.value p.modules x) := by
    rw [List.map_map]
    exact List.map_id _
  unfold Printer.classes
  dsimp only
  rw [hparts, hall, hplain]
  rfl

/-- What stands after the name of a class attribute. -/
theorem exists_classes {tokens : List ClassToken} {root : Bool} (hsome : tokens ≠ [] ∨ root = true)
    (hliteral : p.modules = false → root = false → ∀ t ∈ tokens, ∃ name, t = .literal name)
    (hfits : root = true → ∀ t ∈ tokens, t.Fits p.modules) :
    ∃ text, p.classes tokens root = Printer.classBinding ++ text ∧
      ∀ rest, x.bound? (text ++ rest) = some (classValue p.modules x tokens root, rest) := by
  match root, tokens with
  | true, [] => exact ⟨_, rfl, bound?_className⟩
  | true, t :: ts =>
    have hparts : List.Forall₂ x.ReadsPart ((t :: ts).map (ClassToken.part p.modules) ++ [Printer.forwarded])
        ((t :: ts).map (ClassToken.value p.modules x) ++ [x.given]) :=
      List.rel_append (forall₂_readsPart (hfits rfl)) (.cons readsPart_forwarded .nil)
    exact ⟨_, rfl, bound?_template hparts⟩
  | false, [] => exact absurd rfl (hsome.resolve_right Bool.false_ne_true)
  | false, t :: ts =>
    rw [classValue_below]
    by_cases hmodules : p.modules = true
    · have hfits : ∀ u ∈ t :: ts, u.Fits p.modules := fun u _ hfalse =>
        Bool.noConfusion (hmodules.symm.trans hfalse)
      obtain ⟨name, hpart, hvalue⟩ := part_of_modules (x := x) hmodules t
      have hparts := forall₂_readsPart (x := x) hfits
      unfold Printer.classes
      cases ts with
      | nil =>
        rw [List.map_singleton, List.map_singleton, hpart, hvalue, List.intercalate_singleton]
        exact ⟨_, rfl, bound?_reference name⟩
      | cons u ts =>
        rw [List.map_cons, hpart] at hparts ⊢
        exact ⟨_, rfl, bound?_template hparts⟩
    · have hmodules := Bool.eq_false_iff.mpr hmodules
      rw [classes_literal (x := x) hmodules (hliteral hmodules rfl)]
      exact ⟨_, rfl, bound?_attributeString _ _⟩

/-- Classes are bound to what they stand for, if those of the root fit into a template literal. -/
theorem binds_classes {tokens : List ClassToken} {root : Bool} (hsome : tokens ≠ [] ∨ root = true)
    (hliteral : p.modules = false → root = false → ∀ t ∈ tokens, ∃ name, t = .literal name)
    (hfits : root = true → ∀ t ∈ tokens, t.Fits p.modules) :
    x.Binds (p.classes tokens root) Printer.className (classValue p.modules x tokens root) := by
  obtain ⟨text, heq, hbound⟩ := exists_classes (x := x) hsome hliteral hfits
  have hequals : '=' ∉ Printer.className := by decide
  rw [heq]
  exact binds_of_bound? hequals hbound

/-! ## Inlined styles -/

open Script

theorem propertyKey_ne_prototypeKey {s : List Char} (h : (propertyKey s).2 = true) :
    (propertyKey s).1 ≠ prototypeKey := by
  unfold propertyKey at h ⊢
  split at h <;> cases h
  exact fun heq => absurd (List.cons.inj heq).1 (by decide)

/-- How a property is printed. -/
def printedKey (property : List Char) : List Char :=
  if (propertyKey property).2 then Text.quote (propertyKey property).1 else (propertyKey property).1

theorem key?_printedKey {d : Declaration} (h : x.HasKey d) (s : List Char) :
    (x.name? (printedKey d.property ++ ':' :: s)).or (quoted? (printedKey d.property ++ ':' :: s)) =
      some ((propertyKey d.property).1, ':' :: s) := by
  unfold printedKey
  cases hquoted : (propertyKey d.property).2 with
  | true =>
    have hquote : x.beginsName '\"' = false := (beginsName_of_lt (by decide)).trans rfl
    have hname : x.name? (Text.quote (propertyKey d.property).1 ++ ':' :: s) = none := name?_of_mark hquote _
    rw [if_pos rfl, hname, Option.none_or, quoted?_quote]
  | false =>
    have hcolon : ∀ c ∈ (':' :: s).head?, x.isInName c = false := by
      intro c hc
      cases hc
      exact isInName_mark ':' (by decide)
    rw [if_neg Bool.false_ne_true, name?_append (h hquoted).1 hcolon, Option.some_or]

/-- A key begins with neither a blank nor a brace. -/
theorem skip_printedKey {d : Declaration} (h : x.HasKey d) (s : List Char) :
    skip (printedKey d.property ++ s) = printedKey d.property ++ s ∧ (printedKey d.property ++ s).head? ≠ some '\x7d' := by
  have hhead : ∃ c t, printedKey d.property = c :: t ∧ isSpace c = false ∧ c ≠ '\x7d' := by
    unfold printedKey
    cases hquoted : (propertyKey d.property).2 with
    | true => exact ⟨'\"', _, rfl, rfl, by decide⟩
    | false =>
      obtain ⟨c, hc, hbegins⟩ := (Option.any_eq_true _ _).mp (h hquoted).1.begins
      obtain ⟨t, ht⟩ := List.head?_eq_some_iff.mp hc
      have hmark : ∀ e ∈ [' ', '\t', '\n', '\r', '\x7d'], x.beginsName e = false := by
        have hlow : ∀ e ∈ [' ', '\t', '\n', '\r', '\x7d'], e.toNat < 0x80 ∧ isWordStart e = false := by decide
        intro e he
        rw [beginsName_of_lt (hlow e he).1, (hlow e he).2]
      have hne : c ∉ [' ', '\t', '\n', '\r', '\x7d'] := fun hmem => by
        rw [hmark c hmem] at hbegins
        cases hbegins
      refine ⟨c, t, ht, ?_, ?_⟩
      · simp_all [isSpace]
      · simp_all
  obtain ⟨c, t, heq, hspace, hbrace⟩ := hhead
  rw [heq, List.cons_append]
  exact ⟨skip_cons hspace _, fun hc => hbrace (Option.some.inj hc)⟩

/-- A field is read up to what follows it. -/
theorem field?_styleField {d : Declaration} (h : x.HasKey d) {s : List Char} (hs : (skip s).head? ≠ some '|') :
    x.field? (Printer.styleField d ++ s) = some (((propertyKey d.property).1, d.value), s) := by
  have hsplit : Printer.styleField d ++ s =
      printedKey d.property ++ ':' :: (' ' :: (Text.quote d.value ++ s)) := by simp [Printer.styleField, printedKey]
  have hvalue : x.choice? (skip (' ' :: (Text.quote d.value ++ s))) = some (.text d.value, s) :=
    choice?_of_operand? (operand?_quote d.value s) hs
  rw [hsplit, field?, key?_printedKey h, Option.bind_eq_bind, Option.bind_some]
  dsimp only
  simp only [skip_cons (show isSpace ':' = false from rfl), hvalue]

theorem fields?_blank (s : List Char) : x.fields? (' ' :: s) = x.fields? s := by
  rw [fields?, fields?]
  rfl

/-- Another field follows. -/
theorem fields?_comma {s r : List Char} {f : List Char × List Char} (hskip : skip s = s)
    (hbrace : s.head? ≠ some '\x7d') (h : x.field? s = some (f, ',' :: r)) :
    x.fields? s = (x.fields? r).map fun y => (f :: y.1, y.2) := by
  rw [fields?, hskip, if_neg hbrace]
  split
  · rename_i f' r' heq
    cases h.symm.trans heq
    rfl
  · rename_i heq
    cases h.symm.trans heq

/-- No other field follows. -/
theorem fields?_brace {s r : List Char} {f : List Char × List Char} (hskip : skip s = s)
    (hbrace : s.head? ≠ some '\x7d') (h : x.field? s = some (f, ' ' :: '\x7d' :: r)) : x.fields? s = some ([f], r) := by
  rw [fields?, hskip, if_neg hbrace]
  split
  · rename_i f' r' heq
    cases h.symm.trans heq
    rfl
  · rename_i heq
    cases h.symm.trans heq

/-- The fields of an inlined style are read one by one. -/
theorem fields?_styleFields {ds : List Declaration} (h : ∀ d ∈ ds, x.HasKey d) (s : List Char) :
    x.fields? ([',', ' '].intercalate (ds.map Printer.styleField) ++ ' ' :: '\x7d' :: s) =
      some (ds.map fun d => ((propertyKey d.property).1, d.value), s) := by
  have hstart : ∀ {d : Declaration}, x.HasKey d → ∀ r, skip (Printer.styleField d ++ r) = Printer.styleField d ++ r ∧
      (Printer.styleField d ++ r).head? ≠ some '\x7d' := by
    intro d hd r
    have hsplit : Printer.styleField d ++ r = printedKey d.property ++ (':' :: ' ' :: Text.quote d.value ++ r) := by
      simp [Printer.styleField, printedKey]
    rw [hsplit]
    exact skip_printedKey hd _
  induction ds with
  | nil =>
    rw [List.map_nil, List.intercalate_nil, List.nil_append, fields?_blank, fields?]
    exact if_pos rfl
  | cons d ds ih =>
    rw [List.forall_mem_cons] at h
    cases ds with
    | nil =>
      have hfield := field?_styleField h.1 (s := ' ' :: '\x7d' :: s) (head?_skip_brace s)
      obtain ⟨hskip, hbrace⟩ := hstart h.1 (' ' :: '\x7d' :: s)
      rw [List.map_singleton, List.intercalate_singleton]
      exact fields?_brace hskip hbrace hfield
    | cons e ds =>
      have hcomma : ∀ r, (skip (',' :: r)).head? ≠ some '|' := by
        intro r
        rw [skip_cons rfl]
        exact fun hc => absurd (Option.some.inj hc) (by decide)
      specialize ih h.2
      rw [List.map_cons] at ih
      rw [List.map_cons, List.map_cons, List.intercalate_cons_cons, List.append_assoc, List.append_assoc]
      generalize [',', ' '].intercalate (Printer.styleField e :: ds.map Printer.styleField) ++ ' ' :: '\x7d' :: s = t at ih
      have hfield := field?_styleField h.1 (s := ',' :: ' ' :: t) (hcomma _)
      obtain ⟨hskip, hbrace⟩ := hstart h.1 (',' :: ' ' :: t)
      rw [List.cons_append, List.singleton_append, fields?_comma hskip hbrace hfield, fields?_blank, ih]
      rfl

/-- Of several fields with a key the last one counts. -/
theorem foldl_assign (fields : List (List Char × List Char)) (get : List Char → Option (List Char)) (key : List Char) :
    fields.foldl assign get key = ((fields.reverse.find? (·.1 = key)).map (·.2)).or (get key) := by
  induction fields generalizing get with
  | nil => rfl
  | cons f fields ih =>
    have hfirst : assign get f key = (([f].find? (·.1 = key)).map (·.2)).or (get key) := by
      unfold assign
      by_cases hkey : key = f.1
      · rw [if_pos hkey, List.find?_cons_of_pos (by simpa using hkey.symm)]
        rfl
      · rw [if_neg hkey, List.find?_cons_of_neg (by simpa using Ne.symm hkey)]
        rfl
    rw [List.foldl_cons, ih, hfirst, List.reverse_cons, List.find?_append, Option.map_or, Option.or_assoc]

/-- The object of an inlined style has the values of the declarations, later ones winning. -/
theorem object?_styleFields {ds : List Declaration} (h : ∀ d ∈ ds, (propertyKey d.property).1 ≠ prototypeKey) :
    object? (ds.map fun d => ((propertyKey d.property).1, d.value)) = some (.object (styleValue ds)) := by
  have hne : ∀ f ∈ ds.map (fun d => ((propertyKey d.property).1, d.value)), f.1 ≠ prototypeKey := by
    rw [List.forall_mem_map]
    exact h
  have hnone : (ds.map fun d => ((propertyKey d.property).1, d.value)).countP (·.1 = prototypeKey) = 0 :=
    List.countP_eq_zero.mpr fun f hf => by simpa using hne f hf
  have hall : (ds.map fun d => ((propertyKey d.property).1, d.value)).filter (·.1 ≠ prototypeKey) =
      ds.map fun d => ((propertyKey d.property).1, d.value) :=
    List.filter_eq_self.mpr fun f hf => by simpa using hne f hf
  rw [object?, hnone, if_neg (by decide), hall]
  refine congrArg (fun get => some (Value.object get)) (funext fun key => ?_)
  rw [foldl_assign, Option.or_none, ← List.map_reverse, List.find?_map, Option.map_map]
  rfl

/-- An inlined style is bound to the object of its declarations, if each has a key. -/
theorem binds_style {ds : List Declaration} (h : ∀ d ∈ ds, x.HasKey d) :
    x.Binds (p.attr (.style ds)) ['s', 't', 'y', 'l', 'e'] (.object (styleValue ds)) := by
  have hobject : object? (ds.map fun d => ((propertyKey d.property).1, d.value)) = some (.object (styleValue ds)) := by
    refine object?_styleFields fun d hd => ?_
    cases hquoted : (propertyKey d.property).2 with
    | true => exact propertyKey_ne_prototypeKey hquoted
    | false => exact (h d hd hquoted).2
  have hequals : '=' ∉ ['s', 't', 'y', 'l', 'e'] := by decide
  refine binds_of_bound? hequals fun rest => bound?_braced ?_
  have hsplit : Printer.styleObject ds ++ '\x7d' :: rest =
      '\x7b' :: ' ' :: ([',', ' '].intercalate (ds.map Printer.styleField) ++ ' ' :: '\x7d' :: '\x7d' :: rest) := by
    simp [Printer.styleObject, braced]
  rw [hsplit, skip_cons rfl, expression?, fields?_blank, fields?_styleFields h,
    Option.bind_eq_bind, Option.bind_some]
  dsimp only
  rw [hobject]
  rfl

end Scope

end SvgComponent.Jsx
