/-
  SvgComponent.Proofs.Jsx.Delimited — the closing delimiter of what is printed stands at its end and nowhere before.

  Literals and comments end at the first closing delimiter; in strings and template literals one behind a backslash does
  not count, unless that backslash is itself behind one (`IsDelimited`). Escaped text is made of characters that may
  stand by themselves and of pairs that begin with a backslash, so what is not escaped in it may stand by itself
  (`Escaped.allowed`). In attributes nothing is escaped: the ampersand and the quote are written as references, which
  every table of references takes back (`References.decode_flatMap`).

  Escapes are written in one go. They are the same as replacements of one pattern after the other, the order of which
  matters: what is written for one pattern may hold another (`escapeTemplate_eq`, `flatMap_escapeDoubleQuoted`).
-/

import SvgComponent.Jsx.Printer
import SvgComponent.Proofs.Jsx.Evaluation
import SvgComponent.Proofs.Jsx.Literals
import SvgComponent.Proofs.Jsx.Reader
import SvgComponent.Proofs.Text.Replace

namespace SvgComponent.Jsx

/-! ## Delimiters -/

/-- Whether a text ends in a backslash that takes the next character with it, as one does that is not taken itself. -/
def isEscaped (before : List Char) : Bool := before.foldl (fun taken c => !taken && c == '\\') false

/-- A text that `closes` only at its end. Where a backslash counts (`escapes`), `closes` may also stand behind one. -/
structure IsDelimited (escapes : Bool) (opens closes body text : List Char) : Prop where
  text_eq : text = opens ++ body ++ closes
  closes_last : ∀ a b, body ++ closes = a ++ closes ++ b → (escapes = true → isEscaped a = false) → b = []

/-- What is before the end of a text with a character at its end, or before that character. -/
theorem eq_nil_or_mem_of_append {q : Char} {body a b : List Char} (h : body ++ [q] = a ++ [q] ++ b) :
    b = [] ∨ ∃ t, body = a ++ q :: t := by
  rcases List.eq_nil_or_concat b with rfl | ⟨t, c, rfl⟩
  · exact Or.inl rfl
  · right
    rw [List.concat_eq_append, ← List.append_assoc] at h
    exact ⟨t, by rw [(List.append_inj' h rfl).1, List.append_assoc, List.singleton_append]⟩

/-- A character delimits text that it is not in. -/
theorem isDelimited_of_not_mem {q : Char} {body : List Char} (h : q ∉ body) (opens : List Char) :
    IsDelimited false opens [q] body (opens ++ body ++ [q]) where
  text_eq := rfl
  closes_last := by
    intro a b hab _
    refine (eq_nil_or_mem_of_append hab).resolve_right ?_
    rintro ⟨t, rfl⟩
    exact h (List.mem_append_right a List.mem_cons_self)

/-- A pair of different characters delimits text that it is not in. -/
theorem isDelimited_of_not_infix {u v : Char} (huv : u ≠ v) {body : List Char} (h : ¬ [u, v] <:+: body)
    (opens : List Char) : IsDelimited false opens [u, v] body (opens ++ body ++ [u, v]) where
  text_eq := rfl
  closes_last := by
    intro a b hab _
    -- A pair that ends later would overlap the last one, or lie before it.
    have hend : body ++ [u] ++ [v] = a ++ [u] ++ [v] ++ b := by simpa using hab
    refine (eq_nil_or_mem_of_append hend).resolve_right ?_
    rintro ⟨t, ht⟩
    have hnext : body ++ [u] = (a ++ [u] ++ [v]) ++ t := by simpa using ht
    rcases List.eq_nil_or_concat t with rfl | ⟨t', c, rfl⟩
    · rw [List.append_nil] at hnext
      exact huv (List.cons.inj (List.append_inj' hnext rfl).2).1
    · rw [List.concat_eq_append, ← List.append_assoc] at hnext
      exact h ⟨a, t', by rw [(List.append_inj' hnext rfl).1]; simp⟩

/-! ## Backslashes -/

/-- Text of characters that may stand before what follows them, none of them a backslash, and of pairs of a backslash
    and any character. -/
inductive Escaped (may : Char → List Char → Prop) : List Char → Prop
  | nil : Escaped may []
  | plain {c : Char} {s : List Char} : c ≠ '\\' → may c s → Escaped may s → Escaped may (c :: s)
  | pair (c : Char) {s : List Char} : Escaped may s → Escaped may ('\\' :: c :: s)

theorem isEscaped_cons {c : Char} (h : c ≠ '\\') (s : List Char) : isEscaped (c :: s) = isEscaped s := by
  simp [isEscaped, beq_eq_false_iff_ne.mpr h]

theorem isEscaped_pair (c : Char) (s : List Char) : isEscaped ('\\' :: c :: s) = isEscaped s := by
  simp [isEscaped]

/-- What is not escaped is a backslash or may stand there. -/
theorem Escaped.allowed {may : Char → List Char → Prop} {s a t : List Char} {c : Char} (h : Escaped may s)
    (hs : s = a ++ c :: t) (ha : isEscaped a = false) : c = '\\' ∨ may c t := by
  induction h generalizing a with
  | nil => simp at hs
  | plain hslash hmay _ ih =>
    cases a with
    | nil =>
      cases hs
      exact Or.inr hmay
    | cons d a =>
      cases hs
      rw [isEscaped_cons hslash] at ha
      exact ih rfl ha
  | pair d _ ih =>
    match a with
    | [] =>
      cases hs
      exact Or.inl rfl
    | ['\\'] => cases ha
    | _ :: _ :: a =>
      cases hs
      rw [isEscaped_pair] at ha
      exact ih rfl ha

theorem isDelimited_of_escaped {may : Char → List Char → Prop} {q : Char} {body : List Char} (h : Escaped may body)
    (hq : q ≠ '\\') (hmay : ∀ s, ¬ may q s) (opens : List Char) :
    IsDelimited true opens [q] body (opens ++ body ++ [q]) where
  text_eq := rfl
  closes_last := by
    intro a b hab ha
    refine (eq_nil_or_mem_of_append hab).resolve_right ?_
    rintro ⟨t, ht⟩
    exact (h.allowed ht (ha rfl)).elim hq (hmay t)

/-! ## Strings -/

theorem escaped_escape (c : Char) {s : List Char} (hs : Escaped (fun c _ => c ≠ '\"') s) :
    Escaped (fun c _ => c ≠ '\"') (Text.escape c ++ s) := by
  unfold Text.escape
  split_ifs with hquote hslash _ _ _ _ _ hlow
  all_goals try exact hs.pair _
  · have hhigh := hexDigit_ne (n := c.toNat / 16) (by omega)
    have hmod := hexDigit_ne (n := c.toNat % 16) (by omega)
    exact .pair 'u' (.plain (by decide) (by decide) (.plain (by decide) (by decide)
      (.plain hhigh.2 hhigh.1 (.plain hmod.2 hmod.1 hs))))
  · exact .plain hslash hquote hs

theorem escaped_quote (s : List Char) : Escaped (fun c _ => c ≠ '\"') (s.flatMap Text.escape) := by
  induction s with
  | nil => exact .nil
  | cons c s ih =>
    rw [List.flatMap_cons]
    exact escaped_escape c ih

/-! ## Template literals -/

/-- Drops the backslashes that take the next character with them. -/
def unescape : List Char → List Char
  | [] => []
  | '\\' :: c :: s => c :: unescape s
  | c :: s => c :: unescape s

theorem unescape_cons {c : Char} (h : c ≠ '\\') (s : List Char) : unescape (c :: s) = c :: unescape s := by
  rw [unescape]
  rintro d t rfl
  exact absurd rfl h

theorem unescape_escapeTemplate (s : List Char) : unescape (escapeTemplate s) = s := by
  fun_induction escapeTemplate s with
  | case1 => rfl
  | case2 s ih => rw [unescape, unescape_cons (by decide), ih]
  | case3 c s _ hc ih => rw [unescape, ih]
  | case4 c s _ hc ih =>
    rw [not_or] at hc
    rw [unescape_cons hc.1, ih]

/-- What may stand in a template literal by itself: neither its end nor the beginning of an expression. -/
def IsTemplateText (c : Char) (s : List Char) : Prop := c ≠ '\x60' ∧ (c = '$' → s.head? ≠ some '\x7b')

theorem head?_escapeTemplate {s : List Char} (h : (escapeTemplate s).head? = some '\x7b') : s.head? = some '\x7b' := by
  revert h
  fun_cases escapeTemplate s with
  | case1 => exact id
  | case2 s => exact nofun
  | case3 c s _ _ => exact nofun
  | case4 c s _ _ => exact id

theorem escaped_template (s : List Char) : Escaped IsTemplateText (escapeTemplate s) := by
  fun_induction escapeTemplate s with
  | case1 => exact .nil
  | case2 s ih => exact .pair '$' (.plain (by decide) ⟨by decide, fun h => absurd h (by decide)⟩ ih)
  | case3 c s _ _ ih => exact .pair c ih
  | case4 c s hno hc ih =>
    rw [not_or] at hc
    refine .plain hc.1 ⟨hc.2, ?_⟩ ih
    rintro rfl hhead
    obtain ⟨t, rfl⟩ := List.head?_eq_some_iff.mp (head?_escapeTemplate hhead)
    exact hno t rfl rfl

/-- A character with a backslash before it if it is one itself or the quote. -/
def escapeQuote (c : Char) : List Char := if c = '\\' ∨ c = '\x60' then ['\\', c] else [c]

theorem flatMap_escapeQuote (s : List Char) : s.flatMap escapeQuote =
    Text.replaceAll '\x60' [] ['\\', '\x60'] (Text.replaceAll '\\' [] ['\\', '\\'] s) := by
  rw [Text.replaceAll_singleton, Text.replaceAll_singleton, List.flatMap_assoc]
  congr
  funext c
  unfold escapeQuote
  by_cases hslash : c = '\\'
  · subst hslash
    rfl
  · by_cases hquote : c = '\x60'
    · subst hquote
      rfl
    · simp [hslash, hquote]

/-- The escapes are those of three replacements, one after the other: of backslashes, then of quotes and of beginning
    expressions, for which backslashes are written. -/
theorem escapeTemplate_eq (s : List Char) : escapeTemplate s =
    Text.replaceAll '$' ['\x7b'] ['\\', '$', '\x7b']
      (Text.replaceAll '\x60' [] ['\\', '\x60'] (Text.replaceAll '\\' [] ['\\', '\\'] s)) := by
  rw [← flatMap_escapeQuote]
  fun_induction escapeTemplate s with
  | case1 => exact Text.replaceAll_nil.symm
  | case2 s ih =>
    rw [ih, List.flatMap_cons, List.flatMap_cons]
    exact (Text.replaceAll_append '$' ['\x7b'] ['\\', '$', '\x7b'] _).symm
  | case3 c s _ hc ih =>
    have hdollar : c ≠ '$' := by
      rintro rfl
      revert hc
      decide
    rw [ih, List.flatMap_cons, escapeQuote, if_pos hc, List.cons_append, List.singleton_append,
      Text.replaceAll_cons_of_ne (by decide), Text.replaceAll_cons_of_ne hdollar]
  | case4 c s hno hc ih =>
    rw [ih, List.flatMap_cons, escapeQuote, if_neg hc, List.singleton_append, Text.replaceAll_cons]
    -- What follows a dollar sign begins with a brace only if it did so before.
    intro h
    obtain ⟨rfl, hbrace⟩ := List.cons_prefix_cons.mp h
    cases s with
    | nil => exact absurd hbrace (by decide)
    | cons d s =>
      rw [List.flatMap_cons, escapeQuote] at hbrace
      split at hbrace
      · exact absurd (List.cons_prefix_cons.mp hbrace).1 (by decide)
      · exact hno s rfl (congrArg (· :: s) (List.cons_prefix_cons.mp hbrace).1.symm)

/-! ## Comments -/

theorem head?_openComment {s : List Char} (h : (openComment s).head? = some '/') : s.head? = some '/' := by
  revert h
  fun_cases openComment s with
  | case1 => exact id
  | case2 s => exact nofun
  | case3 c s _ => exact id

/-- What is in a comment does not close it, and a blank follows. -/
theorem not_infix_openComment (s : List Char) : ¬ ['*', '/'] <:+: openComment s ++ [' '] := by
  fun_induction openComment s with
  | case1 => decide
  | case2 s ih =>
    rw [List.cons_append, List.cons_append, List.cons_append, List.infix_cons_iff, List.infix_cons_iff,
      List.infix_cons_iff]
    rintro (h | h | h | h)
    · exact absurd (List.cons_prefix_cons.mp (List.cons_prefix_cons.mp h).2).1 (by decide)
    · exact absurd (List.cons_prefix_cons.mp h).1 (by decide)
    · exact absurd (List.cons_prefix_cons.mp h).1 (by decide)
    · exact ih h
  | case3 c s hno ih =>
    rw [List.cons_append, List.infix_cons_iff]
    rintro (h | h)
    · obtain ⟨rfl, hslash⟩ := List.cons_prefix_cons.mp h
      have hhead : (openComment s).head? = some '/' := by
        cases hs : openComment s with
        | nil =>
          rw [hs] at hslash
          exact absurd (List.cons_prefix_cons.mp hslash).1 (by decide)
        | cons d t =>
          rw [hs] at hslash
          rw [← (List.cons_prefix_cons.mp hslash).1]
          rfl
      obtain ⟨t, rfl⟩ := List.head?_eq_some_iff.mp (head?_openComment hhead)
      exact hno t rfl rfl
    · exact ih h

theorem openComment_eq (s : List Char) : openComment s = Text.replaceAll '*' ['/'] ['*', ' ', '/'] s := by
  fun_induction openComment s with
  | case1 => exact Text.replaceAll_nil.symm
  | case2 s ih =>
    rw [ih]
    exact (Text.replaceAll_append '*' ['/'] ['*', ' ', '/'] s).symm
  | case3 c s hno ih =>
    rw [ih, Text.replaceAll_cons]
    intro h
    obtain ⟨rfl, hslash⟩ := List.cons_prefix_cons.mp h
    obtain ⟨t, rfl⟩ := hslash
    exact hno t rfl rfl

/-! ## References -/

/-- What the names between an ampersand and a semicolon stand for; the ampersand and the quote have theirs. -/
structure References where
  find : List Char → Option (List Char)
  find_amp : find ['a', 'm', 'p'] = some ['&']
  find_quot : find ['q', 'u', 'o', 't'] = some ['\"']

namespace References

/-- The smallest table. -/
instance : Inhabited References where
  default := ⟨fun name => if name = ['a', 'm', 'p'] then some ['&']
    else if name = ['q', 'u', 'o', 't'] then some ['\"'] else none, rfl, rfl⟩

/-- Replaces the references that are known; an ampersand that begins no such reference stays. -/
def decode (r : References) (s : List Char) : List Char :=
  match s with
  | [] => []
  | c :: s =>
    if c = '&' then
      match _ : Text.cutAt ';' s with
      | some (name, rest) =>
        match r.find name with
        | some t => t ++ r.decode rest
        | none => c :: r.decode s
      | none => c :: r.decode s
    else c :: r.decode s
termination_by s.length
decreasing_by
  · rename_i hcut
    rw [Text.cutAt_eq_some hcut, List.length_cons, List.length_append, List.length_cons]
    omega
  all_goals exact Nat.lt_succ_self _

variable (r : References)

theorem decode_cons {c : Char} (hc : c ≠ '&') (s : List Char) : r.decode (c :: s) = c :: r.decode s := by
  rw [decode, if_neg hc]

theorem decode_reference {name t : List Char} (hname : ';' ∉ name) (hfind : r.find name = some t) (s : List Char) :
    r.decode ('&' :: name ++ ';' :: s) = t ++ r.decode s := by
  have hcut := Text.cutAt_append hname s
  rw [List.cons_append, decode, if_pos rfl]
  split
  · rename_i name' rest h
    rw [hcut] at h
    cases h
    rw [hfind]
  · rename_i h
    rw [hcut] at h
    cases h

theorem decode_escapeAmpersand_append (c : Char) (s : List Char) :
    r.decode (escapeAmpersand c ++ s) = c :: r.decode s := by
  unfold escapeAmpersand
  split
  · rename_i hc
    subst hc
    exact r.decode_reference (by decide) r.find_amp s
  · rename_i hc
    exact r.decode_cons hc s

theorem decode_escapeDoubleQuoted_append (c : Char) (s : List Char) :
    r.decode (escapeDoubleQuoted c ++ s) = c :: r.decode s := by
  unfold escapeDoubleQuoted
  split
  · rename_i hc
    subst hc
    exact r.decode_reference (by decide) r.find_quot s
  · exact r.decode_escapeAmpersand_append c s

/-- Text that is escaped one character after the other is decoded so. -/
theorem decode_flatMap {f : Char → List Char} (h : ∀ c s, r.decode (f c ++ s) = c :: r.decode s) (s : List Char) :
    r.decode (s.flatMap f) = s := by
  induction s with
  | nil => rw [List.flatMap_nil, decode]
  | cons c s ih => rw [List.flatMap_cons, h, ih]

end References

theorem flatMap_escapeAmpersand (s : List Char) :
    s.flatMap escapeAmpersand = Text.replaceAll '&' [] ['&', 'a', 'm', 'p', ';'] s :=
  (Text.replaceAll_singleton '&' ['&', 'a', 'm', 'p', ';'] s).symm

/-- The ampersand is replaced first, as the reference for the quote has one. -/
theorem flatMap_escapeDoubleQuoted (s : List Char) : s.flatMap escapeDoubleQuoted =
    Text.replaceAll '\"' [] ['&', 'q', 'u', 'o', 't', ';'] (Text.replaceAll '&' [] ['&', 'a', 'm', 'p', ';'] s) := by
  rw [← flatMap_escapeAmpersand, Text.replaceAll_singleton, List.flatMap_assoc]
  congr
  funext c
  unfold escapeDoubleQuoted escapeAmpersand
  by_cases hquote : c = '\"'
  · subst hquote
    rfl
  · by_cases hamp : c = '&'
    · subst hamp
      rfl
    · simp [hquote, hamp]

/-! ## What is printed -/

theorem not_mem_of_isMarkup {c : Char} (h : isMarkup c = false) : c ∉ ['\x7b', '\x7d', '<', '>', '&'] := by
  simpa [isMarkup, and_assoc] using h

/-- How a text is printed: whatever it is printed as is closed only where it ends, and read as the text. -/
structure Printer.Delimits (p : Printer) (s : List Char) : Prop where
  /-- An attribute string stands in single quotes, if these are allowed, or in double ones, and holds references. -/
  value : ∃ q body,
    (q = '\'' ∧ p.onlyDouble = false ∧ body = Text.replaceAll '&' [] ['&', 'a', 'm', 'p', ';'] s ∨
      q = '\"' ∧ body = Text.replaceAll '\"' [] ['&', 'q', 'u', 'o', 't', ';']
        (Text.replaceAll '&' [] ['&', 'a', 'm', 'p', ';'] s)) ∧
    IsDelimited false [q] [q] body (attributeString p.onlyDouble s) ∧ ∀ r : References, r.decode body = s
  /-- A string in code is read as the text, and reading it ends where it does. -/
  string : IsDelimited true ['\"'] ['\"'] (s.flatMap Text.escape) (Text.quote s) ∧
    ∀ rest, Script.quoted? (Text.quote s ++ rest) = some (s, rest)
  /-- A template literal without its backslashes is the text, and there is no expression in it. -/
  template : ∃ body literal, p.print (.css s) = braced literal ∧
    body = Text.replaceAll '$' ['\x7b'] ['\\', '$', '\x7b']
      (Text.replaceAll '\x60' [] ['\\', '\x60'] (Text.replaceAll '\\' [] ['\\', '\\'] s)) ∧
    IsDelimited true ['\x60'] ['\x60'] body literal ∧ unescape body = s ∧
    ∀ a b, body = a ++ ['$', '\x7b'] ++ b → isEscaped a = true
  /-- Text between tags has no characters of markup, or is a string. -/
  text : (p.print (.text s) = s ∧ ∀ c ∈ s, c ∉ ['\x7b', '\x7d', '<', '>', '&']) ∨
    p.print (.text s) = braced (Text.quote s)
  comment : ∃ literal, p.print (.comment s) = braced literal ∧
    IsDelimited false ['/', '*'] ['*', '/'] (' ' :: Text.replaceAll '*' ['/'] ['*', ' ', '/'] s ++ [' ']) literal

/-- Every text is so printed, with either choice of quotes. -/
theorem Printer.print_delimited (p : Printer) (s : List Char) : p.Delimits s := by
  have hprint (n : Node) (t : List Char) (h : p.tokens n = [⟨.other, t⟩]) : p.print n = t := by
    rw [Printer.print, h, List.flatMap_singleton]
  have htext := hprint (.text s) _ (by rw [Printer.tokens])
  have hcss := hprint (.css s) _ (by rw [Printer.tokens])
  have hcomment := hprint (.comment s) _ (by rw [Printer.tokens])
  refine ⟨?_, ⟨?_, fun rest => Script.quoted?_quote s rest⟩, ?_, ?_, ?_⟩
  · rcases Reader.attributeString_cases p.onlyDouble s with ⟨hsingle, hquote, heq⟩ | ⟨hquote, heq⟩
    · exact ⟨_, _, Or.inl ⟨rfl, hsingle, flatMap_escapeAmpersand s⟩, heq ▸ isDelimited_of_not_mem hquote ['\''],
        fun r => r.decode_flatMap r.decode_escapeAmpersand_append s⟩
    · exact ⟨_, _, Or.inr ⟨rfl, flatMap_escapeDoubleQuoted s⟩, heq ▸ isDelimited_of_not_mem hquote ['\"'],
        fun r => r.decode_flatMap r.decode_escapeDoubleQuoted_append s⟩
  · exact isDelimited_of_escaped (escaped_quote s) (by decide) (fun _ h => h rfl) ['\"']
  · refine ⟨escapeTemplate s, _, hcss.trans (templateExpression_eq s), escapeTemplate_eq s,
      isDelimited_of_escaped (escaped_template s) (by decide) (fun _ h => h.1 rfl) ['\x60'],
      unescape_escapeTemplate s, fun a b hab => ?_⟩
    by_contra ha
    have hmay := (escaped_template s).allowed (hab.trans (List.append_assoc a _ b)) (Bool.eq_false_iff.mpr ha)
    exact (hmay.resolve_left (by decide)).2 rfl rfl
  · rw [htext, textLiteral]
    split
    · exact Or.inr rfl
    · rename_i h
      rw [Bool.not_eq_true, List.any_eq_false] at h
      exact Or.inl ⟨rfl, fun c hc => not_mem_of_isMarkup (Bool.eq_false_iff.mpr (h c hc))⟩
  · have hbody : ¬ ['*', '/'] <:+: ' ' :: openComment s ++ [' '] := by
      rw [List.cons_append, List.infix_cons_iff]
      rintro (h | h)
      · exact absurd (List.cons_prefix_cons.mp h).1 (by decide)
      · exact not_infix_openComment s h
    rw [← openComment_eq]
    refine ⟨_, ?_, isDelimited_of_not_infix (by decide) hbody ['/', '*']⟩
    rw [hcomment, commentExpression_eq]
    simp [braced]

end SvgComponent.Jsx
