/-
  SvgComponent.Markup.TagAttributes — the element that a start tag's content spells.

  The name is all before the first blank, and may be empty. Attributes are read one by one: its key, the
  check that the key is new, its quoted value and the references in it. The first fault ends the reading.
-/

import SvgComponent.Markup.Element
import SvgComponent.Markup.Event
import SvgComponent.Markup.Reference

namespace SvgComponent.Markup.TagAttributes

def isKeyChar (c : Char) : Bool := c != '=' && !isSpace c

/-- A key with its position, and what follows its equals sign. -/
structure Key where
  text : List Char
  position : Nat
  rest : List Char

/-- The first character belongs to the key whatever it is. -/
def key (total : Nat) (c : Char) (s : List Char) : Except AttributeFault Key :=
  match (s.dropWhile isKeyChar).dropWhile isSpace with
  | [] => .error (.noEquals total)
  | d :: rest =>
    if d = '=' then .ok ⟨c :: s.takeWhile isKeyChar, total - Text.byteSize (c :: s), rest⟩
    else .error (.noEquals (total - Text.byteSize (d :: rest)))

/-- A key may come once; `seen` holds the earlier ones with their positions. -/
def unseen (seen : List (List Char × Nat)) (k : Key) : Except AttributeFault Unit :=
  match seen.lookup k.text with
  | some first => .error (.duplicate k.position first)
  | none => .ok ()

/-- The text between the quotes and what follows them. -/
def value (total : Nat) (s : List Char) : Except AttributeFault (List Char × List Char) :=
  match s.dropWhile isSpace with
  | [] => .error (.noValue total)
  | q :: r =>
    if q = '\"' ∨ q = '\'' then
      match Text.cutAt q r with
      | some cut => .ok cut
      | none => .error (.unclosed total q)
    else .error (.unquoted (total - Text.byteSize (q :: r)))

theorem length_key {total : Nat} {c : Char} {s : List Char} {k : Key} (h : key total c s = .ok k) :
    k.rest.length < s.length := by
  unfold key at h
  split at h
  · simp at h
  · rename_i d rest hr
    have h1 := Text.length_dropWhile_le isSpace (s.dropWhile isKeyChar)
    have h2 := Text.length_dropWhile_le isKeyChar s
    simp only [hr, List.length_cons] at h1
    split at h
    · simp at h; subst h; simp only; omega
    · simp at h

theorem length_value {total : Nat} {s raw rest : List Char} (h : value total s = .ok (raw, rest)) :
    rest.length < s.length := by
  unfold value at h
  have shorter := Text.length_dropWhile_le isSpace s
  split at h
  · simp at h
  · rename_i q r hr
    simp only [hr, List.length_cons] at shorter
    split at h
    · split at h
      · rename_i cut hc
        simp at h; subst h
        have := congrArg List.length (Text.cutAt_eq_some hc)
        simp at this; omega
      · simp at h
    · simp at h

/-- The attributes in `s`, the end of a tag's content of `total` bytes. -/
def read (total : Nat) (seen : List (List Char × Nat)) (s : List Char) : Except Fault (List Attribute) :=
  match _hs : s.dropWhile isSpace with
  | [] => .ok []
  | c :: r =>
    match _hk : key total c r with
    | .error f => .error (.attr f)
    | .ok k =>
      match unseen seen k with
      | .error f => .error (.attr f)
      | .ok () =>
        match _hv : value total k.rest with
        | .error f => .error (.attr f)
        | .ok (raw, rest) =>
          match Reference.expand raw with
          | .error f => .error (.reference f)
          | .ok text =>
            (⟨Name.parse (String.ofList k.text), String.ofList text⟩ :: ·) <$>
              read total ((k.text, k.position) :: seen) rest
termination_by s.length
decreasing_by
  have h1 := Text.length_dropWhile_le isSpace s
  have h2 := length_key _hk
  have h3 := length_value _hv
  simp only [_hs, List.length_cons] at h1
  omega

/-- The element of a tag with this content. -/
def element (content : List Char) : Except Fault Element :=
  (⟨Name.parse (String.ofList (Stream.tagName content)), ·⟩) <$>
    read (Text.byteSize content) [] (content.dropWhile (!isSpace ·))

end SvgComponent.Markup.TagAttributes
