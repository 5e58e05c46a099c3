/-
  SvgComponent.Path.Segment — path data as commands with their arguments, numbers kept as they are spelled.

  Arguments come in groups of the command's kinds, as many groups as follow; blanks and one comma may stand
  before each argument and after each group. A number ends where it cannot go on, so numbers may touch, and an
  e is an exponent only before digits. A flag is one digit. Writing puts single blanks between arguments and
  between segments.
-/

import SvgComponent.Text.Blank
import SvgComponent.Text.Cut
import SvgComponent.Text.Size

namespace SvgComponent.Path

structure Segment where
  letter : Char
  args : List (List Char)
  deriving DecidableEq

inductive PathFault where
  | noCommand (c : Char)
  | unknownCommand (c : Char)
  | noNumber (offset : Nat)
  | badFlag (c : Char)
  | noFlag
  deriving DecidableEq

def PathFault.message : PathFault → String
  | noCommand c => s!"Invalid path data: Expected command letter, got: {c}"
  | unknownCommand c => s!"Invalid path data: Unknown command: {c}"
  | noNumber offset => s!"Invalid path data: Expected number at offset {offset}"
  | badFlag c => s!"Invalid path data: Expected flag (0 or 1), got: {c}"
  | noFlag => "Invalid path data: Expected flag"

inductive Kind where
  | number
  | flag
  deriving DecidableEq

/-- The kinds of the arguments that one occurrence of a command takes. -/
def kinds? (letter : Char) : Option (List Kind) :=
  match letter.toLower with
  | 'm' | 'l' | 't' => some [.number, .number]
  | 'h' | 'v' => some [.number]
  | 'c' => some (List.replicate 6 .number)
  | 's' | 'q' => some (List.replicate 4 .number)
  | 'a' => some [.number, .number, .number, .flag, .flag, .number, .number]
  | 'z' => some []
  | _ => none

/-! ## Lexemes -/

def skipBlank (s : List Char) : List Char := s.dropWhile Text.isAsciiBlank

/-- Skips blanks with at most one comma among them. -/
def skipSeparator (s : List Char) : List Char :=
  match skipBlank s with
  | ',' :: r => skipBlank r
  | r => r

/-- The digits at the start, and the rest. -/
def digits (s : List Char) : List Char × List Char := (s.takeWhile Char.isDigit, s.dropWhile Char.isDigit)

def sign (s : List Char) : List Char × List Char :=
  match s with
  | c :: r => if c = '-' ∨ c = '+' then ([c], r) else ([], s)
  | [] => ([], [])

/-- Digits with a point before, among or after them; one digit at least. -/
def mantissa (s : List Char) : Option (List Char × List Char) :=
  let (whole, r) := digits s
  match r with
  | '.' :: r =>
    let (decimals, r) := digits r
    if whole.isEmpty && decimals.isEmpty then none else some (whole ++ '.' :: decimals, r)
  | r => if whole.isEmpty then none else some (whole, r)

/-- An exponent if digits follow its letter and sign, else nothing. -/
def exponent (s : List Char) : List Char × List Char :=
  match s with
  | e :: r =>
    let (sgn, r') := sign r
    let (power, rest) := digits r'
    if (e = 'e' ∨ e = 'E') ∧ power ≠ [] then (e :: sgn ++ power, rest) else ([], s)
  | [] => ([], [])

def number? (s : List Char) : Option (List Char × List Char) :=
  let (sgn, r) := sign s
  match mantissa r with
  | none => none
  | some (m, r) =>
    let (e, r) := exponent r
    some (sgn ++ m ++ e, r)

/-- An argument after its separator; `total` is the size of the whole path data. -/
def argument (total : Nat) (kind : Kind) (s : List Char) : Except PathFault (List Char × List Char) :=
  let s := skipSeparator s
  match kind with
  | .number =>
    match number? s with
    | some a => .ok a
    | none => .error (.noNumber (total - Text.byteSize s))
  | .flag =>
    match s with
    | [] => .error .noFlag
    | c :: r => if c = '0' ∨ c = '1' then .ok ([c], r) else .error (.badFlag c)

/-- One argument of each kind. -/
def group (total : Nat) : List Kind → List Char → Except PathFault (List (List Char) × List Char)
  | [], s => .ok ([], s)
  | kind :: kinds, s =>
    match argument total kind s with
    | .error f => .error f
    | .ok (a, s) =>
      match group total kinds s with
      | .error f => .error f
      | .ok (as, s) => .ok (a :: as, s)

/-- Whether a number may begin here, so that the command is repeated. -/
def startsNumber (s : List Char) : Bool :=
  match s with
  | c :: _ => c.isDigit || c == '.' || c == '-' || c == '+'
  | [] => false

/-! ## Every lexeme is taken from the front -/

theorem digits_append (s : List Char) : (digits s).1 ++ (digits s).2 = s := List.takeWhile_append_dropWhile

theorem sign_append (s : List Char) : (sign s).1 ++ (sign s).2 = s := by
  unfold sign
  split
  · split <;> simp
  · simp

theorem mantissa_append {s m r : List Char} (h : mantissa s = some (m, r)) : s = m ++ r ∧ m ≠ [] := by
  have hs := digits_append s
  unfold mantissa at h
  simp only at h
  split at h
  · rename_i r' hr
    have hr' := digits_append r'
    split at h
    · simp at h
    · simp at h
      refine ⟨?_, ?_⟩
      · rw [← hs, hr, ← h.1, ← h.2, List.append_assoc, List.cons_append, hr']
      · rw [← h.1]; simp
  · split at h
    · simp at h
    · rename_i hne
      rw [Option.some.injEq, Prod.mk.injEq] at h
      exact ⟨by rw [← hs, h.1, h.2], by rw [← h.1]; simpa using hne⟩

theorem exponent_append (s : List Char) : (exponent s).1 ++ (exponent s).2 = s := by
  cases s with
  | nil => simp [exponent]
  | cons e r =>
    simp only [exponent]
    split
    · simp [digits_append, sign_append]
    · simp

theorem number?_append {s a r : List Char} (h : number? s = some (a, r)) : s = a ++ r ∧ a ≠ [] := by
  unfold number? at h
  simp only at h
  split at h
  · simp at h
  · rename_i m r' hm
    obtain ⟨hm, hne⟩ := mantissa_append hm
    have hs := sign_append s
    have he := exponent_append r'
    simp at h
    refine ⟨?_, ?_⟩
    · rw [← hs, hm, ← h.1, ← h.2]; simp [he]
    · rw [← h.1]; simp [hne]

theorem length_skipBlank (s : List Char) : (skipBlank s).length ≤ s.length := Text.length_dropWhile_le _ s

theorem length_skipSeparator (s : List Char) : (skipSeparator s).length ≤ s.length := by
  have h := length_skipBlank s
  unfold skipSeparator
  split
  · rename_i r hr
    have := length_skipBlank r
    rw [hr] at h; simp at h; omega
  · exact h

theorem length_argument {total : Nat} {kind : Kind} {s a r : List Char} (h : argument total kind s = .ok (a, r)) :
    r.length < s.length := by
  have hs := length_skipSeparator s
  unfold argument at h
  cases kind with
  | number =>
    simp only at h
    split at h
    · rename_i hn
      simp at h; subst h
      obtain ⟨ha, hne⟩ := number?_append hn
      have := List.length_pos_iff.2 hne
      rw [ha] at hs; simp at hs; omega
    · simp at h
  | flag =>
    simp only at h
    split at h
    · simp at h
    · rename_i hc
      split at h
      · simp at h; rw [hc] at hs; simp at hs; rw [← h.2]; omega
      · simp at h

theorem length_group {total : Nat} {kinds : List Kind} {s r : List Char} {as : List (List Char)}
    (h : group total kinds s = .ok (as, r)) : r.length + kinds.length ≤ s.length := by
  induction kinds generalizing s as r with
  | nil => simp [group] at h; simp [h]
  | cons kind kinds ih =>
    unfold group at h
    split at h
    · simp at h
    · rename_i a s' ha
      split at h
      · simp at h
      · rename_i as' r' hg
        simp at h
        have := length_argument ha
        have := ih hg
        rw [← h.2]; simp; omega

/-! ## Segments -/

/-- The arguments of a command that takes some: one group, and more as long as numbers follow. -/
def groups (total : Nat) (kind : Kind) (kinds : List Kind) (s : List Char) :
    Except PathFault (List (List Char) × List Char) :=
  match _h : group total (kind :: kinds) s with
  | .error f => .error f
  | .ok (as, s') =>
    if startsNumber (skipSeparator s') then
      match groups total kind kinds (skipSeparator s') with
      | .error f => .error f
      | .ok (bs, r) => .ok (as ++ bs, r)
    else .ok (as, skipSeparator s')
termination_by s.length
decreasing_by
  have := length_group _h
  have := length_skipSeparator s'
  simp at *; omega

theorem length_groups {total : Nat} {kind : Kind} {kinds : List Kind} {s r : List Char} {as : List (List Char)}
    (h : groups total kind kinds s = .ok (as, r)) : r.length < s.length := by
  induction hn : s.length using Nat.strongRecOn generalizing s as r with
  | _ n ih =>
    subst hn
    unfold groups at h
    split at h
    · simp at h
    · rename_i as' s' hg
      have h1 := length_group hg
      have h2 := length_skipSeparator s'
      simp only [List.length_cons] at h1
      split at h
      · split at h
        · simp at h
        · rename_i bs r' hr
          have := ih (skipSeparator s').length (by omega) hr rfl
          simp at h; rw [← h.2]; omega
      · simp at h; rw [← h.2]; omega

/-- What follows a command's letter: its arguments and the rest. -/
def arguments (total : Nat) (letter : Char) (s : List Char) : Except PathFault (List (List Char) × List Char) :=
  match kinds? letter with
  | none => .error (.unknownCommand letter)
  | some [] => .ok ([], skipSeparator s)
  | some (kind :: kinds) => groups total kind kinds s

theorem length_arguments {total : Nat} {letter : Char} {s r : List Char} {as : List (List Char)}
    (h : arguments total letter s = .ok (as, r)) : r.length ≤ s.length := by
  unfold arguments at h
  split at h
  · simp at h
  · simp at h; rw [← h.2]; exact length_skipSeparator s
  · exact Nat.le_of_lt (length_groups h)

/-- The segments in `s`, the end of path data of `total` bytes. -/
def segments (total : Nat) (s : List Char) : Except PathFault (List Segment) :=
  match s with
  | [] => .ok []
  | c :: r =>
    if c.isAlpha then
      match _h : arguments total c r with
      | .error f => .error f
      | .ok (args, rest) =>
        match segments total rest with
        | .error f => .error f
        | .ok segs => .ok (⟨c, args⟩ :: segs)
    else .error (.noCommand c)
termination_by s.length
decreasing_by have := length_arguments _h; simp; omega

/-- The segments of path data. -/
def parse (d : String) : Except PathFault (List Segment) :=
  segments d.utf8ByteSize (skipBlank d.toList)

/-! ## Writing -/

def Segment.text (s : Segment) : List Char := s.letter :: [' '].intercalate s.args

def write (segs : List Segment) : String := String.ofList ([' '].intercalate (segs.map Segment.text))

end SvgComponent.Path
