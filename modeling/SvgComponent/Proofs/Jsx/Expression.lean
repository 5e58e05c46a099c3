/-
  SvgComponent.Proofs.Jsx.Expression — what the code in attributes comes to.

  An attribute is bound to a string, or to code in braces, of which so much is read as classes and styles need: names,
  members of the imported styles, strings with their escapes, template literals, `a || b`, and objects. What is read has
  the value that the language gives it; anything else is not read. Characters beyond ASCII may be letters, and which ones
  are is left open (`Scope`).
-/

import SvgComponent.Jsx.Printer
import SvgComponent.Proofs.Jsx.Reader

namespace SvgComponent.Jsx

inductive Value where
  | undefined
  | text (s : List Char)
  /-- An object with texts for its own properties. -/
  | object (get : List Char → Option (List Char))

namespace Value

def ofOption : Option (List Char) → Value
  | none => undefined
  | some s => text s

def text? : Value → Option (List Char)
  | text s => some s
  | _ => none

/-- A property of an object. -/
def property? (v : Value) (key : List Char) : Option (List Char) :=
  match v with
  | object get => get key
  | _ => none

/-- As it stands in a text. -/
def shown : Value → List Char
  | undefined => ['u', 'n', 'd', 'e', 'f', 'i', 'n', 'e', 'd']
  | text s => s
  | object _ => "[object Object]".toList

/-- The value itself, or the other one if there is nothing in it. -/
def orElse (v w : Value) : Value :=
  match v with
  | undefined => w
  | text [] => w
  | _ => v

end Value

/-- What code is read with. -/
structure Scope where
  /-- Characters beyond ASCII that names may begin with. -/
  begins : Char → Bool
  /-- Characters beyond ASCII that names may have after that. -/
  continues : Char → Bool
  /-- What the imported styles have for a class. -/
  styles : List Char → List Char
  /-- The class that the caller gives, if there is one. -/
  className : Option (List Char)

namespace Script

/-- Puts text before what has been read of it. -/
def join (t : List Char) (read : List Char × List Char) : List Char × List Char := (t ++ read.1, read.2)

def isSpace (c : Char) : Bool := c == ' ' || c == '\t' || c == '\n' || c == '\r'

def skip (s : List Char) : List Char := s.dropWhile isSpace

/-! ## Strings -/

def isBreak (c : Char) : Bool := c == '\n' || c == '\r' || c == '\u2028' || c == '\u2029'

/-- The character with this number in hexadecimal digits. -/
def hexChar? (digits : List Char) : Option Char := do
  let ns ← digits.mapM Text.hexValue?
  let n := ns.foldl (16 * · + ·) 0
  if n.isValidChar then some (Char.ofNat n) else none

def shortEscape : Char → Char
  | 'b' => '\x08'
  | 'f' => '\x0c'
  | 'n' => '\n'
  | 'r' => '\r'
  | 't' => '\t'
  | 'v' => '\x0b'
  | c => c

/-- The character whose number stands in the next `k` digits. -/
def hexEscape? (k : Nat) (s : List Char) : Option (List Char × List Char) :=
  if s.length < k then none else (hexChar? (s.take k)).map fun u => ([u], s.drop k)

/-- What an escape stands for, and what follows it; the text begins after the backslash. -/
def escape? : List Char → Option (List Char × List Char)
  | [] => none
  | c :: s =>
    if c = 'u' then hexEscape? 4 s
    else if c = 'x' then hexEscape? 2 s
    else if c.isDigit then none
    else if isBreak c then some ([], if c = '\r' ∧ s.head? = some '\n' then s.tail else s)
    else some ([shortEscape c], s)

theorem length_hexEscape? {k : Nat} {s : List Char} {y : List Char × List Char} (h : hexEscape? k s = some y) :
    y.2.length ≤ s.length := by
  unfold hexEscape? at h
  split at h
  · cases h
  · obtain ⟨_, _, rfl⟩ := Option.map_eq_some_iff.mp h
    exact List.length_drop ▸ Nat.sub_le _ _

theorem length_escape? {s : List Char} {y : List Char × List Char} (h : escape? s = some y) :
    y.2.length < s.length := by
  cases s with
  | nil => cases h
  | cons c s =>
    rw [escape?] at h
    refine Nat.lt_succ_of_le ?_
    split_ifs at h
    · exact length_hexEscape? h
    · exact length_hexEscape? h
    · cases h
      exact List.length_tail ▸ Nat.sub_le _ _
    · cases h
      exact Nat.le_refl _
    · cases h
      exact Nat.le_refl _

/-- A string up to its quote, and what follows. -/
def string? (q : Char) (s : List Char) : Option (List Char × List Char) :=
  match s with
  | [] => none
  | c :: s =>
    if c = q then some ([], s)
    else if c = '\\' then
      match _ : escape? s with
      | some (t, r) => (string? q r).map (join t)
      | none => none
    else if c = '\n' ∨ c = '\r' then none
    else (string? q s).map (join [c])
termination_by s.length
decreasing_by
  · have : r.length < s.length := length_escape? ‹_›
    rw [List.length_cons]
    omega
  · exact Nat.lt_succ_self _

/-- A string after its opening quote, if this is one. -/
def quoted? : List Char → Option (List Char × List Char)
  | '\"' :: s => string? '\"' s
  | '\'' :: s => string? '\'' s
  | _ => none

theorem length_skip (s : List Char) : (skip s).length ≤ s.length := List.length_dropWhile_le _ _

theorem length_string? {q : Char} {s : List Char} {y : List Char × List Char} (h : string? q s = some y) :
    y.2.length ≤ s.length := by
  fun_induction string? q s generalizing y with
  | case1 => cases h
  | case2 s =>
    cases h
    exact Nat.le_succ _
  | case3 s t r hescape _ ih =>
    obtain ⟨z, hz, rfl⟩ := Option.map_eq_some_iff.mp h
    have hr : r.length < s.length := length_escape? hescape
    exact (ih hz).trans (hr.le.trans (Nat.le_succ _))
  | case4 => cases h
  | case5 => cases h
  | case6 c s _ _ _ ih =>
    obtain ⟨z, hz, rfl⟩ := Option.map_eq_some_iff.mp h
    exact (ih hz).trans (Nat.le_succ _)

theorem length_quoted? {s : List Char} {y : List Char × List Char} (h : quoted? s = some y) :
    y.2.length ≤ s.length := by
  unfold quoted? at h
  split at h
  · exact (length_string? h).trans (Nat.le_succ _)
  · exact (length_string? h).trans (Nat.le_succ _)
  · cases h

end Script

namespace Scope

open Script

variable (x : Scope)

/-! ## Names -/

def beginsName (c : Char) : Bool := isWordStart c || (0x80 ≤ c.toNat && x.begins c)

def isInName (c : Char) : Bool :=
  c.isAlphanum || c == '_' || c == '$' || (0x80 ≤ c.toNat && (x.begins c || x.continues c))

def name? (s : List Char) : Option (List Char × List Char) :=
  if s.head?.any x.beginsName then some (s.takeWhile x.isInName, s.dropWhile x.isInName) else none

/-- `.name` or `["name"]`. -/
def member? : List Char → Option (List Char × List Char)
  | '.' :: s => x.name? s
  | '[' :: s =>
    match quoted? s with
    | some (n, ']' :: r) => some (n, r)
    | _ => none
  | _ => none

/-! ## Code -/

/-- The caller's class, a class of the imported styles, or a string. -/
def operand? (s : List Char) : Option (Value × List Char) :=
  match x.name? s with
  | some (n, r) =>
    if n = Printer.className then some (.ofOption x.className, r)
    else if n = stylesName then (x.member? r).map fun y => (.text (x.styles y.1), y.2)
    else none
  | none => (quoted? s).map fun y => (.text y.1, y.2)

/-- An operand, or one of two. -/
def choice? (s : List Char) : Option (Value × List Char) := do
  let (v, r) ← x.operand? s
  match skip r with
  | '|' :: '|' :: r' => (x.operand? (skip r')).map fun y => (v.orElse y.1, y.2)
  | _ => some (v, r)

variable {x}

theorem length_name? {s : List Char} {y : List Char × List Char} (h : x.name? s = some y) :
    y.2.length ≤ s.length := by
  unfold name? at h
  split at h <;> cases h
  exact List.length_dropWhile_le _ _

theorem length_member? {s : List Char} {y : List Char × List Char} (h : x.member? s = some y) :
    y.2.length ≤ s.length := by
  unfold member? at h
  split at h
  · exact (length_name? h).trans (Nat.le_succ _)
  · split at h <;> cases h
    rename_i s n r hquoted
    have := length_quoted? hquoted
    simp only [List.length_cons] at this ⊢
    omega
  · cases h

theorem length_operand? {s : List Char} {y : Value × List Char} (h : x.operand? s = some y) :
    y.2.length ≤ s.length := by
  unfold operand? at h
  split at h
  · rename_i n r hname
    have hr : r.length ≤ s.length := length_name? hname
    split_ifs at h
    · cases h
      exact hr
    · obtain ⟨z, hz, rfl⟩ := Option.map_eq_some_iff.mp h
      exact (length_member? hz).trans hr
  · obtain ⟨z, hz, rfl⟩ := Option.map_eq_some_iff.mp h
    exact length_quoted? hz

theorem length_choice? {s : List Char} {y : Value × List Char} (h : x.choice? s = some y) :
    y.2.length ≤ s.length := by
  obtain ⟨⟨v, r⟩, hoperand, h⟩ := Option.bind_eq_some_iff.mp h
  have hr : r.length ≤ s.length := length_operand? hoperand
  dsimp only at h
  split at h
  · rename_i r' hskip
    obtain ⟨z, hz, rfl⟩ := Option.map_eq_some_iff.mp h
    have hlength := (length_operand? hz).trans (length_skip r')
    have := length_skip r
    rw [hskip] at this
    simp only [List.length_cons] at this
    show z.2.length ≤ s.length
    omega
  · cases h
    exact hr

variable (x)

/-- A template literal up to its quote as text, and what follows. -/
def template? (s : List Char) : Option (List Char × List Char) :=
  match s with
  | [] => none
  | c :: s =>
    if c = '\x60' then some ([], s)
    else if c = '\\' then
      match _ : escape? s with
      | some (t, r) => (template? r).map (join t)
      | none => none
    else if c = '$' ∧ s.head? = some '\x7b' then
      match _ : x.choice? (skip s.tail) with
      | some (v, r) =>
        match _ : skip r with
        | '\x7d' :: r' => (template? r').map (join v.shown)
        | _ => none
      | none => none
    else if c = '\r' then (template? (if s.head? = some '\n' then s.tail else s)).map (join ['\n'])
    else (template? s).map (join [c])
termination_by s.length
decreasing_by
  · have : r.length < s.length := length_escape? ‹_›
    rw [List.length_cons]
    omega
  · have hchoice : r.length ≤ (skip s.tail).length := length_choice? ‹_›
    have := length_skip r
    have := length_skip s.tail
    have := List.length_tail (l := s)
    simp_all only [List.length_cons]
    omega
  · have := List.length_tail (l := s)
    split <;> simp only [List.length_cons] <;> omega
  · exact Nat.lt_succ_self _

/-! ## Objects -/

/-- A key and the text for it. -/
def field? (s : List Char) : Option ((List Char × List Char) × List Char) := do
  let (key, r) ← (x.name? s).or (quoted? s)
  match skip r with
  | ':' :: r =>
    match x.choice? (skip r) with
    | some (.text v, r) => some ((key, v), r)
    | _ => none
  | _ => none

variable {x}

theorem length_field? {s : List Char} {y : (List Char × List Char) × List Char} (h : x.field? s = some y) :
    y.2.length ≤ s.length := by
  obtain ⟨⟨key, r⟩, hkey, h⟩ := Option.bind_eq_some_iff.mp h
  have hr : r.length ≤ s.length := by
    rcases Option.or_eq_some_iff.mp hkey with hname | ⟨_, hquoted⟩
    · exact length_name? hname
    · exact length_quoted? hquoted
  dsimp only at h
  split at h
  · rename_i r₁ hskip
    have hcolon := length_skip r
    rw [hskip, List.length_cons] at hcolon
    split at h
    · rename_i v r₂ hchoice
      cases h
      have hvalue : r₂.length ≤ r₁.length := (length_choice? hchoice).trans (length_skip r₁)
      show r₂.length ≤ s.length
      omega
    · cases h
  · cases h

variable (x)

/-- The fields of an object up to its brace, and what follows. -/
def fields? (s : List Char) : Option (List (List Char × List Char) × List Char) :=
  if (skip s).head? = some '\x7d' then some ([], (skip s).tail)
  else
    match _ : x.field? (skip s) with
    | some (f, r) =>
      match _ : skip r with
      | ',' :: r' => (fields? r').map fun y => (f :: y.1, y.2)
      | '\x7d' :: r' => some ([f], r')
      | _ => none
    | none => none
termination_by s.length
decreasing_by
  have hfield : r.length ≤ (skip s).length := length_field? ‹_›
  have := length_skip r
  have := length_skip s
  simp_all only [List.length_cons]
  omega

/-- The key that names no property of an object, but where others are looked up. -/
def prototypeKey : List Char := "__proto__".toList

def assign (get : List Char → Option (List Char)) (f : List Char × List Char) (key : List Char) : Option (List Char) :=
  if key = f.1 then some f.2 else get key

/-- An object with these fields, later ones winning. -/
def object? (fields : List (List Char × List Char)) : Option Value :=
  if 1 < fields.countP (·.1 = prototypeKey) then none
  else some (.object ((fields.filter (·.1 ≠ prototypeKey)).foldl assign fun _ => none))

/-! ## Bindings -/

def expression? (s : List Char) : Option (Value × List Char) :=
  match s with
  | '\x60' :: s => (x.template? s).map fun y => (.text y.1, y.2)
  | '\x7b' :: s => do
    let (fields, r) ← x.fields? s
    let v ← object? fields
    return (v, r)
  | s => x.choice? s

/-- What an attribute is bound to, and what follows. -/
def bound? : List Char → Option (Value × List Char)
  | [] => none
  | q :: s =>
    if q = '\x7b' then
      match x.expression? (skip s) with
      | some (v, r) =>
        match skip r with
        | '\x7d' :: r => some (v, r)
        | _ => none
      | none => none
    else if q = '\"' ∨ q = '\'' then
      match s.dropWhile (· ≠ q) with
      | _ :: r => some (.text (Reader.decode (s.takeWhile (· ≠ q))), r)
      | [] => none
    else none

/-- The name of an attribute and what it is bound to, and what follows. -/
def binding? : List Char → Option ((List Char × Value) × List Char)
  | ' ' :: s =>
    match s.dropWhile (· ≠ '=') with
    | _ :: r => (x.bound? r).map fun y => ((s.takeWhile (· ≠ '='), y.1), y.2)
    | [] => none
  | _ => none

/-- The text binds the name to the value, whatever follows it. -/
def Binds (text name : List Char) (v : Value) : Prop :=
  ∀ rest, x.binding? (text ++ rest) = some ((name, v), rest)

variable {x}

theorem Binds.binding?_eq {text name : List Char} {v : Value} (h : x.Binds text name v) :
    x.binding? text = some ((name, v), []) := by
  have := h []
  rwa [List.append_nil] at this

end Scope

end SvgComponent.Jsx
