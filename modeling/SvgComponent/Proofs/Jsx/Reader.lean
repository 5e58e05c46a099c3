/-
  SvgComponent.Proofs.Jsx.Reader — reading the literals of markup.

  One pass over the text finds attribute strings, which are read with their character references, and the template
  literals that are all of an expression between tags, which are read without their backslashes and with line feeds
  for all line breaks. It knows the strings, template literals, objects and comments of the code in braces
  (`Frame`). Whatever a string, a style element or a comment holds, its printed form is read as that
  (`readsTag_attributeString`, `reads_templateExpression`, `reads_commentExpression`).
-/

import SvgComponent.Proofs.Jsx.Attributes

namespace SvgComponent.Jsx

open Layout (isPlain isQuote isPlain_iff)
open Style (Declaration)

/-- What a literal stands for. -/
inductive Payload where
  /-- Of an attribute string. -/
  | string (value : List Char)
  /-- Of a template literal between tags. -/
  | template (text : List Char)
  deriving DecidableEq

namespace Reader

/-- What code is in. -/
inductive Frame where
  | braces
  | string (quote : Char)
  | template
  | comment
  deriving DecidableEq

inductive Place where
  /-- Between tags. -/
  | content
  | tag
  /-- In an attribute string. -/
  | value (quote : Char)
  /-- In an expression, of a tag or between tags. -/
  | code (inTag : Bool) (inner : Frame) (outer : List Frame)
  deriving DecidableEq

/-- Where frames have been left. -/
def Place.of (inTag : Bool) : List Frame → Place
  | [] => if inTag then .tag else .content
  | inner :: outer => .code inTag inner outer

structure State where
  place : Place
  /-- The character before, unless it has been used up. -/
  before : Option Char
  /-- What has been read of a literal. -/
  text : List Char
  found : List Payload
  deriving DecidableEq

/-- Replaces the references to the characters of markup. -/
def decode : List Char → List Char
  | [] => []
  | '&' :: 'a' :: 'm' :: 'p' :: ';' :: s => '&' :: decode s
  | '&' :: 'q' :: 'u' :: 'o' :: 't' :: ';' :: s => '\"' :: decode s
  | '&' :: 'a' :: 'p' :: 'o' :: 's' :: ';' :: s => '\'' :: decode s
  | '&' :: 'l' :: 't' :: ';' :: s => '<' :: decode s
  | '&' :: 'g' :: 't' :: ';' :: s => '>' :: decode s
  | c :: s => c :: decode s

/-- Line feeds for all line breaks. -/
def unifyBreaks : List Char → List Char
  | [] => []
  | '\r' :: '\n' :: s => '\n' :: unifyBreaks s
  | c :: s => (if c = '\r' then '\n' else c) :: unifyBreaks s

/-- One character of code. -/
def codeStep (s : State) (inTag : Bool) (outer : List Frame) (c : Char) : Frame → State
  | .braces =>
    if c = '\x7d' then { s with place := .of inTag outer, before := none }
    else if c = '\x7b' then { s with place := .code inTag .braces (.braces :: outer), before := none }
    else if c = '\"' ∨ c = '\'' then { s with place := .code inTag (.string c) (.braces :: outer), before := none }
    else if c = '\x60' then { s with place := .code inTag .template (.braces :: outer), before := none, text := [] }
    else if c = '*' ∧ s.before = some '/' then { s with place := .code inTag .comment (.braces :: outer), before := none }
    else { s with before := some c }
  | .string quote =>
    if s.before = some '\\' then { s with before := none }
    else if c = quote then { s with place := .of inTag outer, before := none }
    else { s with before := some c }
  | .template =>
    if s.before = some '\\' then { s with before := none, text := s.text ++ [c] }
    else if c = '\x60' then
      { s with
        place := .of inTag outer
        before := none
        found := if inTag = false ∧ outer = [.braces] then s.found ++ [.template (unifyBreaks s.text)] else s.found }
    else if c = '\x7b' ∧ s.before = some '$' then
      { s with place := .code inTag .braces (.template :: outer), before := none, text := s.text.dropLast }
    else if c = '\\' then { s with before := some c }
    else { s with before := some c, text := s.text ++ [c] }
  | .comment =>
    if c = '/' ∧ s.before = some '*' then { s with place := .of inTag outer, before := none }
    else { s with before := some c }

def step (s : State) (c : Char) : State :=
  match s.place with
  | .content =>
    if c = '<' then { s with place := .tag }
    else if c = '\x7b' then { s with place := .code false .braces [], before := none }
    else s
  | .tag =>
    if c = '>' then { s with place := .content }
    else if c = '\x7b' then { s with place := .code true .braces [], before := none }
    else if c = '\"' ∨ c = '\'' then { s with place := .value c, text := [] }
    else s
  | .value quote =>
    if c = quote then { s with place := .tag, found := s.found ++ [.string (decode s.text)] }
    else { s with text := s.text ++ [c] }
  | .code inTag inner outer => codeStep s inTag outer c inner

def run (s : State) (text : List Char) : State := text.foldl step s

theorem run_append (s : State) (a b : List Char) : run s (a ++ b) = run (run s a) b := List.foldl_append

theorem run_cons (s : State) (c : Char) (a : List Char) : run s (c :: a) = run (step s c) a := rfl

end Reader

/-- The literals of markup, in order. -/
def payloads (markup : List Char) : List Payload := (Reader.run ⟨.content, none, [], []⟩ markup).found

namespace Reader

/-! ## Code -/

/-- The character before does not count with the next one. -/
def Frame.Calm : Frame → Option Char → Prop
  | .braces, before => before ≠ some '/'
  | .string _, before => before ≠ some '\\'
  | .template, before => before ≠ some '\\'
  | .comment, before => before ≠ some '*'

/-- In a frame, with these literals found. -/
structure Inside (inTag : Bool) (inner : Frame) (outer : List Frame) (found : List Payload) (s : State) : Prop where
  place : s.place = .code inTag inner outer
  found : s.found = found
  calm : inner.Calm s.before

/-- Text that leads back to the frame that it begins in. -/
def Stays (inTag : Bool) (f : Frame) (u : List Char) : Prop :=
  ∀ outer found s, Inside inTag f outer found s → Inside inTag f outer found (run s u)

theorem Stays.nil {inTag : Bool} {f : Frame} : Stays inTag f [] := fun _ _ _ h => h

theorem Stays.append {inTag : Bool} {f : Frame} {u v : List Char} (hu : Stays inTag f u) (hv : Stays inTag f v) :
    Stays inTag f (u ++ v) := by
  intro outer found s h
  rw [run_append]
  exact hv _ _ _ (hu _ _ _ h)

theorem composes_stays (inTag : Bool) (f : Frame) : Composes (Stays inTag f) := ⟨.nil, .append⟩

/-- Text that goes into a frame and out of it again. -/
theorem Stays.enclosed {inTag : Bool} {f : Frame} (g : Frame) (opens closes : List Char) {u : List Char}
    (hopens : ∀ outer found s, Inside inTag f outer found s → Inside inTag g (f :: outer) found (run s opens))
    (hu : Stays inTag g u)
    (hcloses : ∀ outer found s, Inside inTag g (f :: outer) found s → Inside inTag f outer found (run s closes)) :
    Stays inTag f (opens ++ u ++ closes) := by
  intro outer found s h
  rw [run_append, run_append]
  exact hcloses _ _ _ (hu _ _ _ (hopens _ _ _ h))

variable {inTag : Bool} {u : List Char}

theorem stays_braces_plain (h : ∀ c ∈ u, isPlain c = true ∧ c ≠ '/') : Stays inTag .braces u := by
  refine (composes_stays _ _).of_forall_mem fun c hc => ?_
  obtain ⟨hplain, hslash⟩ := h c hc
  obtain ⟨hq, ho, hn, -, -⟩ := isPlain_iff.mp hplain
  simp only [isQuote, Bool.or_eq_false_iff, beq_eq_false_iff_ne] at hq
  rintro outer _ ⟨_, before, text, found⟩ ⟨rfl, rfl, hcalm⟩
  have hstep : step ⟨.code inTag .braces outer, before, text, found⟩ c =
      ⟨.code inTag .braces outer, some c, text, found⟩ := by
    have hstar : ¬ (c = '*' ∧ before = some '/') := fun hboth => hcalm hboth.2
    simp [step, codeStep, ho, hn, hq, hstar]
  rw [run_cons, hstep]
  exact ⟨rfl, rfl, fun heq => hslash (Option.some.inj heq)⟩

theorem isCode_stays (inTag : Bool) : IsCode (Stays inTag .braces) fun c => isPlain c = true ∧ c ≠ '/' where
  toComposes := composes_stays inTag .braces
  chars := stays_braces_plain
  word c hc := by
    refine ⟨isPlain_of_isAlphanum hc, ?_⟩
    rintro rfl
    cases hc
  mark := by decide

theorem stays_braced (h : Stays inTag .braces u) : Stays inTag .braces (braced u) := by
  refine Stays.enclosed .braces ['\x7b'] ['\x7d'] ?_ h ?_
  · rintro outer _ ⟨_, before, text, found⟩ ⟨rfl, rfl, _⟩
    exact ⟨rfl, rfl, nofun⟩
  · rintro outer _ ⟨_, before, text, found⟩ ⟨rfl, rfl, _⟩
    exact ⟨rfl, rfl, nofun⟩

/-! ## Strings -/

/-- An escape is a character that ends nothing, or a backslash and what it takes with it. -/
theorem stays_escape (c : Char) : Stays inTag (.string '\"') (Text.escape c) := by
  have hplain : ∀ u : List Char, (∀ c ∈ u, c ≠ '\"' ∧ c ≠ '\\') → Stays inTag (.string '\"') u := by
    intro u hu
    refine (composes_stays _ _).of_forall_mem fun c hc => ?_
    obtain ⟨hquote, hslash⟩ := hu c hc
    rintro outer _ ⟨_, before, text, found⟩ ⟨rfl, rfl, hcalm⟩
    have hstep : step ⟨.code inTag (.string '\"') outer, before, text, found⟩ c =
        ⟨.code inTag (.string '\"') outer, some c, text, found⟩ := by
      have hbefore : ¬ before = some '\\' := hcalm
      simp [step, codeStep, hbefore, hquote]
    rw [run_cons, hstep]
    exact ⟨rfl, rfl, fun heq => hslash (Option.some.inj heq)⟩
  have hpair : ∀ c, Stays inTag (.string '\"') ['\\', c] := by
    rintro c outer _ ⟨_, before, text, found⟩ ⟨rfl, rfl, hcalm⟩
    have hstep : step ⟨.code inTag (.string '\"') outer, before, text, found⟩ '\\' =
        ⟨.code inTag (.string '\"') outer, some '\\', text, found⟩ := by
      have hbefore : ¬ before = some '\\' := hcalm
      simp [step, codeStep, hbefore]
    rw [run_cons, hstep]
    exact ⟨rfl, rfl, nofun⟩
  unfold Text.escape
  split_ifs with hquote hslash _ _ _ _ _ hlow
  all_goals try exact hpair _
  · have hhigh := hexDigit_ne (n := c.toNat / 16) (by omega)
    have hmod := hexDigit_ne (n := c.toNat % 16) (by omega)
    refine Stays.append (u := ['\\', 'u']) (v := ['0', '0'] ++ Text.hexPair c.toNat) (hpair 'u') (hplain _ ?_)
    simp [Text.hexPair, hhigh, hmod]
  · exact hplain [c] (by simp [hquote, hslash])

/-- A string in code leads back to the code. -/
theorem stays_quote (v : List Char) : Stays inTag .braces (Text.quote v) := by
  refine Stays.enclosed (.string '\"') ['\"'] ['\"'] ?_
    ((composes_stays _ _).flatMap fun c _ => stays_escape c) ?_
  · rintro outer _ ⟨_, before, text, found⟩ ⟨rfl, rfl, _⟩
    exact ⟨rfl, rfl, nofun⟩
  · rintro outer _ ⟨_, before, text, found⟩ ⟨rfl, rfl, hcalm⟩
    have hstep : step ⟨.code inTag (.string '\"') (.braces :: outer), before, text, found⟩ '\"' =
        ⟨.code inTag .braces outer, none, text, found⟩ := by
      have hbefore : ¬ before = some '\\' := hcalm
      simp [step, codeStep, hbefore, Place.of]
    rw [run_cons, hstep]
    exact ⟨rfl, rfl, nofun⟩

/-! ## Template literals in tags -/

/-- Text without backquotes, backslashes and braces. -/
theorem stays_template_text (h : ∀ c ∈ u, c ∉ ['\x60', '\\', '\x7b']) : Stays inTag .template u := by
  refine (composes_stays _ _).of_forall_mem fun c hc => ?_
  have hmarks := h c hc
  simp only [List.mem_cons, List.not_mem_nil, or_false, not_or] at hmarks
  obtain ⟨hquote, hslash, hbrace⟩ := hmarks
  rintro outer _ ⟨_, before, text, found⟩ ⟨rfl, rfl, hcalm⟩
  have hstep : step ⟨.code inTag .template outer, before, text, found⟩ c =
      ⟨.code inTag .template outer, some c, text ++ [c], found⟩ := by
    have hbefore : ¬ before = some '\\' := hcalm
    simp [step, codeStep, hbefore, hquote, hslash, hbrace]
  rw [run_cons, hstep]
  exact ⟨rfl, rfl, fun heq => hslash (Option.some.inj heq)⟩

/-- An expression in a template literal. -/
theorem stays_template_expression (h : Stays inTag .braces u) : Stays inTag .template ('$' :: braced u) := by
  refine Stays.enclosed .braces ['$', '\x7b'] ['\x7d'] ?_ h ?_
  · rintro outer _ ⟨_, before, text, found⟩ ⟨rfl, rfl, hcalm⟩
    have hdollar : step ⟨.code inTag .template outer, before, text, found⟩ '$' =
        ⟨.code inTag .template outer, some '$', text ++ ['$'], found⟩ := by
      have hbefore : ¬ before = some '\\' := hcalm
      simp [step, codeStep, hbefore]
    have hbrace : step ⟨.code inTag .template outer, some '$', text ++ ['$'], found⟩ '\x7b' =
        ⟨.code inTag .braces (.template :: outer), none, text, found⟩ := by
      simp [step, codeStep]
    rw [run_cons, hdollar, run_cons, hbrace]
    exact ⟨rfl, rfl, nofun⟩
  · rintro outer _ ⟨_, before, text, found⟩ ⟨rfl, rfl, _⟩
    exact ⟨rfl, rfl, nofun⟩

theorem stays_template (h : Stays true .template u) : Stays true .braces ('\x60' :: u ++ ['\x60']) := by
  refine Stays.enclosed .template ['\x60'] ['\x60'] ?_ h ?_
  · rintro outer _ ⟨_, before, text, found⟩ ⟨rfl, rfl, _⟩
    exact ⟨rfl, rfl, nofun⟩
  · rintro outer _ ⟨_, before, text, found⟩ ⟨rfl, rfl, hcalm⟩
    have hstep : step ⟨.code true .template (.braces :: outer), before, text, found⟩ '\x60' =
        ⟨.code true .braces outer, none, text, found⟩ := by
      have hbefore : ¬ before = some '\\' := hcalm
      simp [step, codeStep, hbefore, Place.of]
    rw [run_cons, hstep]
    exact ⟨rfl, rfl, nofun⟩

/-- Code up to the brace that closes it. -/
theorem run_code (h : Stays inTag .braces u) (text : List Char) (found : List Payload) :
    ∃ text', run ⟨.code inTag .braces [], none, text, found⟩ (u ++ ['\x7d']) = ⟨.of inTag [], none, text', found⟩ := by
  have hopens : Inside inTag .braces [] found ⟨.code inTag .braces [], none, text, found⟩ := ⟨rfl, rfl, nofun⟩
  have hinside := h _ _ _ hopens
  rw [run_append]
  generalize run ⟨.code inTag .braces [], none, text, found⟩ u = s at hinside
  obtain ⟨_, before, text', _⟩ := s
  obtain ⟨rfl, rfl, _⟩ := hinside
  exact ⟨text', rfl⟩

/-! ## Tags -/

/-- Text in a tag that leads back to the tag, with these literals in it. -/
def ReadsTag (u : List Char) (xs : List Payload) : Prop :=
  ∀ s : State, s.place = .tag → (run s u).place = .tag ∧ (run s u).found = s.found ++ xs

theorem ReadsTag.nil : ReadsTag [] [] := fun s h => ⟨h, (List.append_nil s.found).symm⟩

theorem ReadsTag.append {u v : List Char} {xs ys : List Payload} (hu : ReadsTag u xs) (hv : ReadsTag v ys) :
    ReadsTag (u ++ v) (xs ++ ys) := by
  intro s h
  obtain ⟨hplace, hfound⟩ := hu s h
  obtain ⟨hplace', hfound'⟩ := hv _ hplace
  rw [run_append]
  exact ⟨hplace', by rw [hfound', hfound, List.append_assoc]⟩

theorem ReadsTag.flatMap {α : Type} {f : α → List Char} {g : α → List Payload} {l : List α}
    (h : ∀ a ∈ l, ReadsTag (f a) (g a)) : ReadsTag (l.flatMap f) (l.flatMap g) := by
  induction l with
  | nil => exact .nil
  | cons a l ih =>
    rw [List.forall_mem_cons] at h
    rw [List.flatMap_cons, List.flatMap_cons]
    exact h.1.append (ih h.2)

theorem readsTag_plain (h : ∀ c ∈ u, isPlain c = true) : ReadsTag u [] := by
  induction u with
  | nil => exact .nil
  | cons c u ih =>
    rw [List.forall_mem_cons] at h
    suffices hc : ReadsTag [c] [] from hc.append (ih h.2)
    rintro ⟨_, before, text, found⟩ rfl
    obtain ⟨hq, ho, -, -, hg⟩ := isPlain_iff.mp h.1
    simp only [isQuote, Bool.or_eq_false_iff, beq_eq_false_iff_ne] at hq
    have hstep : step ⟨.tag, before, text, found⟩ c = ⟨.tag, before, text, found⟩ := by
      simp [step, hq, ho, hg]
    rw [run_cons, hstep]
    exact ⟨rfl, (List.append_nil found).symm⟩

/-- An expression in a tag has no literal of its own. -/
theorem readsTag_braced (h : Stays true .braces u) : ReadsTag (braced u) [] := by
  rintro ⟨_, before, text, found⟩ rfl
  obtain ⟨text', hrun⟩ := run_code h text found
  have hopens : step ⟨.tag, before, text, found⟩ '\x7b' = ⟨.code true .braces [], none, text, found⟩ := rfl
  rw [braced, List.cons_append, run_cons, hopens, hrun]
  exact ⟨rfl, (List.append_nil found).symm⟩

theorem run_value {q : Char} (h : q ∉ u) (before : Option Char) (text : List Char) (found : List Payload) :
    run ⟨.value q, before, text, found⟩ u = ⟨.value q, before, text ++ u, found⟩ := by
  induction u generalizing text with
  | nil =>
    rw [List.append_nil]
    rfl
  | cons c u ih =>
    rw [List.mem_cons, not_or] at h
    have hstep : step ⟨.value q, before, text, found⟩ c = ⟨.value q, before, text ++ [c], found⟩ := by
      simp [step, Ne.symm h.1]
    rw [run_cons, hstep, ih h.2, List.append_assoc, List.singleton_append]

theorem readsTag_string {q : Char} (hq : q = '\"' ∨ q = '\'') (h : q ∉ u) :
    ReadsTag (q :: u ++ [q]) [.string (decode u)] := by
  rintro ⟨_, before, text, found⟩ rfl
  have hopens : step ⟨.tag, before, text, found⟩ q = ⟨.value q, before, [], found⟩ := by
    rcases hq with rfl | rfl <;> rfl
  rw [List.cons_append, run_cons, hopens, run_append, run_value h, List.nil_append]
  have hcloses : step ⟨.value q, before, u, found⟩ q = ⟨.tag, before, u, found ++ [.string (decode u)]⟩ := by
    simp [step]
  rw [run_cons, hcloses]
  exact ⟨rfl, rfl⟩

theorem decode_cons {c : Char} (hc : c ≠ '&') (s : List Char) : decode (c :: s) = c :: decode s := by
  rw [decode] <;> rintro _ rfl <;> exact absurd rfl hc

theorem decode_escapeAmpersand (v : List Char) : decode (v.flatMap escapeAmpersand) = v := by
  induction v with
  | nil => rfl
  | cons c v ih =>
    rw [List.flatMap_cons]
    by_cases hc : c = '&'
    · subst hc
      exact congrArg ('&' :: ·) ih
    · rw [escapeAmpersand, if_neg hc, List.singleton_append, decode_cons hc, ih]

theorem decode_escapeDoubleQuoted (v : List Char) : decode (v.flatMap escapeDoubleQuoted) = v := by
  induction v with
  | nil => rfl
  | cons c v ih =>
    rw [List.flatMap_cons]
    by_cases hquote : c = '\"'
    · subst hquote
      exact congrArg ('\"' :: ·) ih
    · by_cases hc : c = '&'
      · subst hc
        exact congrArg ('&' :: ·) ih
      · rw [escapeDoubleQuoted, if_neg hquote, escapeAmpersand, if_neg hc, List.singleton_append, decode_cons hc, ih]

/-- An attribute string stands in the single quotes that its escaped value is without, or in double ones. -/
theorem attributeString_cases (onlyDouble : Bool) (v : List Char) :
    (onlyDouble = false ∧ '\'' ∉ v.flatMap escapeAmpersand ∧
      attributeString onlyDouble v = '\'' :: v.flatMap escapeAmpersand ++ ['\'']) ∨
    ('\"' ∉ v.flatMap escapeDoubleQuoted ∧
      attributeString onlyDouble v = '\"' :: v.flatMap escapeDoubleQuoted ++ ['\"']) := by
  unfold attributeString
  split
  · rename_i h
    simp only [Bool.and_eq_true, Bool.not_eq_true', List.contains_eq_mem, decide_eq_false_iff_not] at h
    refine Or.inl ⟨h.1.1, not_mem_flatMap fun c hc => not_mem_escapeAmpersand ?_ (by decide), rfl⟩
    rintro rfl
    exact h.2 hc
  · exact Or.inr ⟨not_mem_flatMap fun c _ => not_mem_escapeDoubleQuoted c, rfl⟩

/-- An attribute string is quoted text without the quote in it, and decoded it is the value. -/
theorem exists_attributeString (onlyDouble : Bool) (v : List Char) : ∃ q u, (q = '\"' ∨ q = '\'') ∧ q ∉ u ∧
    decode u = v ∧ attributeString onlyDouble v = q :: u ++ [q] := by
  rcases attributeString_cases onlyDouble v with ⟨_, hquote, heq⟩ | ⟨hquote, heq⟩
  · exact ⟨_, _, Or.inr rfl, hquote, decode_escapeAmpersand v, heq⟩
  · exact ⟨_, _, Or.inl rfl, hquote, decode_escapeDoubleQuoted v, heq⟩

/-- An attribute string is read as the value that it was written for. -/
theorem readsTag_attributeString (onlyDouble : Bool) (v : List Char) :
    ReadsTag (attributeString onlyDouble v) [.string v] := by
  obtain ⟨q, u, hq, hquote, hdecode, heq⟩ := exists_attributeString onlyDouble v
  have := readsTag_string hq hquote
  rwa [hdecode, ← heq] at this

/-! ## Between tags -/

/-- Text that leads from between tags to between tags, with these literals in it. -/
def Reads (u : List Char) (xs : List Payload) : Prop :=
  ∀ s : State, s.place = .content → (run s u).place = .content ∧ (run s u).found = s.found ++ xs

theorem Reads.nil : Reads [] [] := fun s h => ⟨h, (List.append_nil s.found).symm⟩

theorem Reads.append {u v : List Char} {xs ys : List Payload} (hu : Reads u xs) (hv : Reads v ys) :
    Reads (u ++ v) (xs ++ ys) := by
  intro s h
  obtain ⟨hplace, hfound⟩ := hu s h
  obtain ⟨hplace', hfound'⟩ := hv _ hplace
  rw [run_append]
  exact ⟨hplace', by rw [hfound', hfound, List.append_assoc]⟩

theorem Reads.payloads {u : List Char} {xs : List Payload} (h : Reads u xs) : Jsx.payloads u = xs := (h _ rfl).2

theorem reads_text (h : ∀ c ∈ u, Layout.isText c = true) : Reads u [] := by
  induction u with
  | nil => exact .nil
  | cons c u ih =>
    rw [List.forall_mem_cons] at h
    suffices hc : Reads [c] [] from hc.append (ih h.2)
    rintro ⟨_, before, text, found⟩ rfl
    have hc := Layout.isText_iff.mp h.1
    have hangle : c ≠ '<' := hc .angle
    have hbrace : c ≠ '\x7b' := hc .brace
    have hstep : step ⟨.content, before, text, found⟩ c = ⟨.content, before, text, found⟩ := by
      simp [step, hangle, hbrace]
    rw [run_cons, hstep]
    exact ⟨rfl, (List.append_nil found).symm⟩

theorem reads_tag {xs : List Payload} (h : ReadsTag u xs) : Reads ('<' :: u ++ ['>']) xs := by
  rintro ⟨_, before, text, found⟩ rfl
  obtain ⟨hplace, hfound⟩ := h ⟨.tag, before, text, found⟩ rfl
  have hrun : run ⟨.content, before, text, found⟩ ('<' :: u ++ ['>']) =
      step (run ⟨.tag, before, text, found⟩ u) '>' := by
    rw [List.cons_append, run_cons, run_append]
    rfl
  rw [hrun, step, hplace]
  exact ⟨rfl, hfound⟩

/-- Code between tags, but for a template literal alone. -/
theorem reads_braced (h : Stays false .braces u) : Reads (braced u) [] := by
  rintro ⟨_, before, text, found⟩ rfl
  obtain ⟨text', hrun⟩ := run_code h text found
  have hopens : step ⟨.content, before, text, found⟩ '\x7b' = ⟨.code false .braces [], none, text, found⟩ := rfl
  rw [braced, List.cons_append, run_cons, hopens, hrun]
  exact ⟨rfl, (List.append_nil found).symm⟩

/-- Nothing in an opened comment closes it. -/
theorem run_openComment (v : List Char) (before : Option Char) (text : List Char) (found : List Payload)
    (hbefore : before = some '*' → v.head? ≠ some '/') : ∃ before',
      run ⟨.code false .comment [.braces], before, text, found⟩ (openComment v) =
        ⟨.code false .comment [.braces], before', text, found⟩ := by
  fun_induction openComment v generalizing before with
  | case1 => exact ⟨before, rfl⟩
  | case2 v ih =>
    obtain ⟨before', hrun⟩ := ih (some '/') fun h => absurd h (by decide)
    exact ⟨before', hrun⟩
  | case3 c v hno ih =>
    have hstep : step ⟨.code false .comment [.braces], before, text, found⟩ c =
        ⟨.code false .comment [.braces], some c, text, found⟩ := by
      have hclose : ¬ (c = '/' ∧ before = some '*') := by
        rintro ⟨rfl, hstar⟩
        exact hbefore hstar rfl
      simp [step, codeStep, hclose]
    rw [run_cons, hstep]
    refine ih (some c) fun hstar hslash => ?_
    cases hstar
    obtain ⟨_, rfl⟩ := List.head?_eq_some_iff.mp hslash
    exact hno _ rfl rfl

theorem reads_commentExpression (v : List Char) : Reads (commentExpression v) [] := by
  rintro ⟨_, before, text, found⟩ rfl
  obtain ⟨before', hrun⟩ := run_openComment v (some ' ') text found nofun
  have hopens : run ⟨.content, before, text, found⟩ ['\x7b', '/', '*', ' '] =
      ⟨.code false .comment [.braces], some ' ', text, found⟩ := rfl
  rw [commentExpression, run_append, run_append, hopens, hrun]
  exact ⟨rfl, (List.append_nil found).symm⟩

/-- A backslash in a template literal takes the next character with it. -/
theorem run_template_escape {before : Option Char} (hslash : before ≠ some '\\') (c : Char) (text : List Char)
    (found : List Payload) : run ⟨.code false .template [.braces], before, text, found⟩ ['\\', c] =
      ⟨.code false .template [.braces], none, text ++ [c], found⟩ := by
  have hstep : step ⟨.code false .template [.braces], before, text, found⟩ '\\' =
      ⟨.code false .template [.braces], some '\\', text, found⟩ := by
    simp [step, codeStep, hslash]
  rw [run_cons, hstep]
  rfl

/-- An escaped template literal is read as its text. -/
theorem run_escapeTemplate (v : List Char) (before : Option Char) (text : List Char) (found : List Payload)
    (hslash : before ≠ some '\\') (hdollar : before = some '$' → v.head? ≠ some '\x7b') : ∃ before',
      before' ≠ some '\\' ∧ run ⟨.code false .template [.braces], before, text, found⟩ (escapeTemplate v) =
        ⟨.code false .template [.braces], before', text ++ v, found⟩ := by
  fun_induction escapeTemplate v generalizing before text with
  | case1 =>
    rw [List.append_nil]
    exact ⟨before, hslash, rfl⟩
  | case2 v ih =>
    obtain ⟨before', hne, hrun⟩ := ih (some '\x7b') (text ++ ['$'] ++ ['\x7b']) (by decide) fun h => absurd h (by decide)
    refine ⟨before', hne, ?_⟩
    have hsplit : '\\' :: '$' :: '\x7b' :: escapeTemplate v = ['\\', '$'] ++ '\x7b' :: escapeTemplate v := rfl
    have hbrace : step ⟨.code false .template [.braces], none, text ++ ['$'], found⟩ '\x7b' =
        ⟨.code false .template [.braces], some '\x7b', text ++ ['$'] ++ ['\x7b'], found⟩ := rfl
    rw [hsplit, run_append, run_template_escape hslash, run_cons, hbrace, hrun]
    simp
  | case3 c v hno hc ih =>
    obtain ⟨before', hne, hrun⟩ := ih none (text ++ [c]) (by decide) fun h => absurd h (by decide)
    refine ⟨before', hne, ?_⟩
    have hsplit : '\\' :: c :: escapeTemplate v = ['\\', c] ++ escapeTemplate v := rfl
    rw [hsplit, run_append, run_template_escape hslash, hrun]
    simp
  | case4 c v hno hc ih =>
    rw [not_or] at hc
    have hstep : step ⟨.code false .template [.braces], before, text, found⟩ c =
        ⟨.code false .template [.braces], some c, text ++ [c], found⟩ := by
      have hbrace : ¬ (c = '\x7b' ∧ before = some '$') := by
        rintro ⟨rfl, hbefore⟩
        exact hdollar hbefore rfl
      simp [step, codeStep, hslash, hc.1, hc.2, hbrace]
    obtain ⟨before', hne, hrun⟩ := ih (some c) (text ++ [c]) (fun heq => hc.1 (Option.some.inj heq)) (by
      intro hbefore hhead
      cases hbefore
      obtain ⟨_, rfl⟩ := List.head?_eq_some_iff.mp hhead
      exact hno _ rfl rfl)
    refine ⟨before', hne, ?_⟩
    rw [run_cons, hstep, hrun]
    simp

/-- A template literal between tags is read as the text that it was written for. -/
theorem reads_templateExpression (v : List Char) : Reads (templateExpression v) [.template (unifyBreaks v)] := by
  rintro ⟨_, before, text, found⟩ rfl
  obtain ⟨before', hne, hrun⟩ := run_escapeTemplate v none [] found nofun nofun
  have hopens : run ⟨.content, before, text, found⟩ ['\x7b', '\x60'] =
      ⟨.code false .template [.braces], none, [], found⟩ := rfl
  have hcloses : step ⟨.code false .template [.braces], before', v, found⟩ '\x60' =
      ⟨.code false .braces [], none, v, found ++ [.template (unifyBreaks v)]⟩ := by
    simp [step, codeStep, hne, Place.of]
  rw [templateExpression, run_append, run_append, hopens, hrun, List.nil_append, run_cons, hcloses]
  exact ⟨rfl, rfl⟩

end Reader

end SvgComponent.Jsx
