/-
  SvgComponent.Text.Offsets — positions in a text, counted in bytes of its UTF-8 form.

  Text is cut at positions between characters only: a cut elsewhere is a fault, and its answer is `none`.
-/

namespace SvgComponent.Text

/-- A position between two characters, or at one of the ends. -/
def IsBoundary (s : String) (i : Nat) : Prop := String.Pos.Raw.IsValid s ⟨i⟩

instance (s : String) (i : Nat) : Decidable (IsBoundary s i) :=
  inferInstanceAs (Decidable (String.Pos.Raw.IsValid s ⟨i⟩))

def byteAt? (s : String) (i : Nat) : Option UInt8 := s.toByteArray.data[i]?

/-- The text between two positions in order. -/
def slice? (s : String) (i j : Nat) : Option (List Char) :=
  if h : IsBoundary s i ∧ IsBoundary s j ∧ i ≤ j then some (s.extract (s.pos ⟨i⟩ h.1) (s.pos ⟨j⟩ h.2.1)).toList
  else none

theorem lt_of_byteAt? {s : String} {i : Nat} {b : UInt8} (h : byteAt? s i = some b) : i < s.utf8ByteSize :=
  (Array.getElem?_eq_some_iff.mp h).1

theorem lt_of_slice? {s : String} {i j : Nat} {t : List Char} (h : slice? s i j = some t) (ht : t ≠ []) : i < j := by
  rw [slice?] at h
  split at h
  · rename_i hslice
    refine Nat.lt_of_le_of_ne hslice.2.2 fun heq => ht ?_
    subst heq
    cases h
    rw [String.toList_eq_nil_iff, ← String.toByteArray_inj, String.toByteArray_extract]
    simp
  · cases h

end SvgComponent.Text
