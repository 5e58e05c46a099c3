/-
  SvgComponent.Markup.Event — a text as a sequence of tags, text and other markup, up to the first fault.

  What follows an opening angle bracket decides by its first characters what it is (`markup`); each piece
  knows where it ends. Quotes hide a closing bracket anywhere in a tag. An end tag has to repeat the name of
  the innermost open tag (`Stream.matchTags`); tags that stay open are no fault here.
-/

import SvgComponent.Markup.Fault
import SvgComponent.Text.Blank
import SvgComponent.Text.Cut

namespace SvgComponent.Markup

/-- The blanks of markup: space, tab, carriage return and line feed. -/
def isSpace (c : Char) : Bool := c == ' ' || c == '\t' || c == '\r' || c == '\n'

inductive Event where
  | text (raw : List Char)
  /-- A start tag, all between its brackets. -/
  | start (content : List Char)
  /-- A tag without content, all up to its final slash. -/
  | empty (content : List Char)
  | finish (name : List Char)
  | comment (s : List Char)
  | cdata (s : List Char)
  /-- A declaration or an instruction. -/
  | skipped
  deriving DecidableEq

namespace Event

/-- Cuts at the closing bracket of a tag; `quote` is the open quote. -/
def cutTag (quote : Option Char) : List Char → Option (List Char × List Char)
  | [] => none
  | c :: s =>
    match quote with
    | none =>
      if c = '>' then some ([], s)
      else (cutTag (if c = '\"' ∨ c = '\'' then some c else none) s).map fun (a, b) => (c :: a, b)
    | some q => (cutTag (if c = q then none else some q) s).map fun (a, b) => (c :: a, b)

/-- Cuts at the bracket that closes a declaration with `depth` brackets open inside it. -/
def cutNested (depth : Nat) : List Char → Option (List Char × List Char)
  | [] => none
  | c :: s =>
    if c = '>' then
      match depth with
      | 0 => some ([], s)
      | depth + 1 => (cutNested depth s).map fun (a, b) => (c :: a, b)
    else (cutNested (if c = '<' then depth + 1 else depth) s).map fun (a, b) => (c :: a, b)

def comment? (s : List Char) : Option (List Char × List Char) :=
  (['-', '-'].isPrefixOf? s).bind (Text.cutBefore ['-', '-', '>'])

def cdata? (s : List Char) : Option (List Char × List Char) :=
  (['[', 'C', 'D', 'A', 'T', 'A', '['].isPrefixOf? s).bind (Text.cutBefore [']', ']', '>'])

/-- A closing bracket right after the question mark closes nothing. -/
def instruction? (s : List Char) : Option (List Char × List Char) :=
  if s.head? = some '>' then none else Text.cutBefore ['?', '>'] s

def doctype (s : List Char) : Except MarkupFault (Event × List Char) :=
  match cutNested 0 s with
  | none => .error (.unclosed .doctype)
  | some (content, rest) =>
    if (content.take 7).map Char.toUpper != ['D', 'O', 'C', 'T', 'Y', 'P', 'E'] then .error (.unclosed .doctype)
    else if (content.drop 7).all isSpace then .error .unnamedDoctype
    else .ok (.skipped, rest)

/-- What follows an exclamation mark. -/
def declaration (s : List Char) : Except MarkupFault (Event × List Char) :=
  match s.head? with
  | some '-' =>
    match comment? s with
    | some (content, rest) => .ok (.comment content, rest)
    | none => .error (.unclosed .comment)
  | some '[' =>
    match cdata? s with
    | some (content, rest) => .ok (.cdata content, rest)
    | none => .error (.unclosed .cdata)
  | some 'D' => doctype s
  | some 'd' => doctype s
  | _ => .error .stray

/-- The name in an end tag: all after the slash but the blanks at its end. Blanks alone are a name as they are. -/
def endName (s : List Char) : List Char := if s.all isSpace then s else Text.dropEndWhile isSpace s

/-- The tag with this content. -/
def ofTag (content : List Char) : Event :=
  if content.head? = some '/' then .finish (endName (content.drop 1))
  else if content.getLast? = some '/' then .empty content.dropLast
  else .start content

/-- What follows an opening bracket, and the rest after it. -/
def markup : List Char → Except MarkupFault (Event × List Char)
  | '!' :: s => declaration s
  | '?' :: s =>
    match instruction? s with
    | some (_, rest) => .ok (.skipped, rest)
    | none => .error (.unclosed .instruction)
  | s =>
    match cutTag none s with
    | some (content, rest) => .ok (ofTag content, rest)
    | none => .error (.unclosed .tag)

/-! ## Every piece of markup takes something -/

theorem cutTag_eq_some {q : Option Char} {s a b : List Char} (h : cutTag q s = some (a, b)) :
    s = a ++ '>' :: b := by
  induction s generalizing q a b with
  | nil => simp [cutTag] at h
  | cons c s ih =>
    cases q with
    | none =>
      unfold cutTag at h
      dsimp only at h
      split at h
      · rename_i hc; simp at h; simp [h, hc]
      · obtain ⟨⟨a', b'⟩, h', he⟩ := Option.map_eq_some_iff.1 h
        simp at he; obtain ⟨rfl, rfl⟩ := he
        simp [ih h']
    | some q =>
      unfold cutTag at h
      obtain ⟨⟨a', b'⟩, h', he⟩ := Option.map_eq_some_iff.1 h
      simp at he; obtain ⟨rfl, rfl⟩ := he
      simp [ih h']

theorem cutNested_eq_some {n : Nat} {s a b : List Char} (h : cutNested n s = some (a, b)) :
    s = a ++ '>' :: b := by
  induction s generalizing n a b with
  | nil => simp [cutNested] at h
  | cons c s ih =>
    unfold cutNested at h
    split at h
    · rename_i hc
      split at h
      · simp at h; simp [h, hc]
      · obtain ⟨⟨a', b'⟩, h', he⟩ := Option.map_eq_some_iff.1 h
        simp at he; obtain ⟨rfl, rfl⟩ := he
        simp [ih h']
    · obtain ⟨⟨a', b'⟩, h', he⟩ := Option.map_eq_some_iff.1 h
      simp at he; obtain ⟨rfl, rfl⟩ := he
      simp [ih h']

theorem length_cutTag {q : Option Char} {s a b : List Char} (h : cutTag q s = some (a, b)) :
    b.length < s.length := by
  rw [cutTag_eq_some h]; simp; omega

theorem length_cutNested {n : Nat} {s a b : List Char} (h : cutNested n s = some (a, b)) :
    b.length < s.length := by
  rw [cutNested_eq_some h]; simp; omega

theorem length_cutBefore {pat s a b : List Char} (h : Text.cutBefore pat s = some (a, b)) :
    b.length ≤ s.length := by
  rw [Text.cutBefore_eq_some h]; simp; omega

theorem length_comment? {s a b : List Char} (h : comment? s = some (a, b)) : b.length ≤ s.length := by
  obtain ⟨r, hr, h⟩ := Option.bind_eq_some_iff.1 h
  have := length_cutBefore h
  rw [Text.isPrefixOf?_eq_some hr]; simp; omega

theorem length_cdata? {s a b : List Char} (h : cdata? s = some (a, b)) : b.length ≤ s.length := by
  obtain ⟨r, hr, h⟩ := Option.bind_eq_some_iff.1 h
  have := length_cutBefore h
  rw [Text.isPrefixOf?_eq_some hr]; simp; omega

theorem length_instruction? {s a b : List Char} (h : instruction? s = some (a, b)) : b.length ≤ s.length := by
  unfold instruction? at h
  split at h
  · simp at h
  · exact length_cutBefore h

theorem length_doctype {s rest : List Char} {e : Event} (h : doctype s = .ok (e, rest)) :
    rest.length ≤ s.length := by
  unfold doctype at h
  split at h
  · simp at h
  · rename_i content rest' hc
    have := length_cutNested hc
    split at h
    · simp at h
    · split at h
      · simp at h
      · simp at h; rw [← h.2]; omega

theorem length_declaration {s rest : List Char} {e : Event} (h : declaration s = .ok (e, rest)) :
    rest.length ≤ s.length := by
  unfold declaration at h
  split at h
  · split at h
    · rename_i hc; simp at h; rw [← h.2]; exact length_comment? hc
    · simp at h
  · split at h
    · rename_i hc; simp at h; rw [← h.2]; exact length_cdata? hc
    · simp at h
  · exact length_doctype h
  · exact length_doctype h
  · simp at h

theorem length_markup {s rest : List Char} {e : Event} (h : markup s = .ok (e, rest)) :
    rest.length ≤ s.length := by
  unfold markup at h
  split at h
  · have := length_declaration h; simp; omega
  · split at h
    · rename_i hc; have := length_instruction? hc; simp at h; rw [← h.2]; simp; omega
    · simp at h
  · split at h
    · rename_i hc; have := length_cutTag hc; simp at h; rw [← h.2]; omega
    · simp at h

end Event

/-- The events of a text as far as the first fault, and that fault. -/
structure Stream where
  events : List Event
  fault : Option MarkupFault
  deriving DecidableEq

namespace Stream

def cons (e : Event) (s : Stream) : Stream := ⟨e :: s.events, s.fault⟩

/-- Cuts text into pieces without looking at names. -/
def scan (s : List Char) : Stream :=
  match s with
  | [] => ⟨[], none⟩
  | c :: r =>
    if c = '<' then
      match _h : Event.markup r with
      | .ok (e, rest) => (scan rest).cons e
      | .error f => ⟨[], some f⟩
    else (scan (r.dropWhile (· != '<'))).cons (.text (c :: r.takeWhile (· != '<')))
termination_by s.length
decreasing_by
  · have := Event.length_markup _h; simp; omega
  · have := Text.length_dropWhile_le (· != '<') r; simp; omega

/-- The name of the tag with this content: all before the first blank. -/
def tagName (content : List Char) : List Char := content.takeWhile (!isSpace ·)

/-- Ends the stream at the first end tag that closes no tag or another; `opened` holds the open names. -/
def matchTags (opened : List (List Char)) : List Event → Option MarkupFault → Stream
  | [], fault => ⟨[], fault⟩
  | .start content :: es, fault => (matchTags (tagName content :: opened) es fault).cons (.start content)
  | .finish name :: es, fault =>
    match opened with
    | [] => ⟨[], some (.unmatched (String.ofList name))⟩
    | o :: opened =>
      if o = name then (matchTags opened es fault).cons (.finish name)
      else ⟨[], some (.mismatched (String.ofList o) (String.ofList name))⟩
  | e :: es, fault => (matchTags opened es fault).cons e

/-- The events of a text; one byte order mark at its start is no part of it. -/
def ofText (s : List Char) : Stream :=
  let pieces := scan (if s.head? = some '\uFEFF' then s.drop 1 else s)
  matchTags [] pieces.events pieces.fault

end Stream

end SvgComponent.Markup
