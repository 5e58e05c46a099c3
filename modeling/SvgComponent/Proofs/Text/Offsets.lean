/-
  SvgComponent.Proofs.Text.Offsets — the positions between the characters of a text, told by what is left there.

  What is left of a text begins at its `offset`, and these are the positions between characters (`isBoundary_offset`,
  `exists_offset`): the text between two of them is what one is longer by (`slice?_offset`). A character that takes one
  byte is that byte, and no byte of any other is one of those (`byteAt?_narrow`, `byteAt?_wide`), so what passes over
  all the others gets behind a wide character from anywhere in it (`eq_offset_of_passes`).
-/

import Mathlib.Data.List.Basic
import SvgComponent.Text.Offsets
import SvgComponent.Text.Size

namespace SvgComponent.Text

theorem byteSize_toList (s : String) : byteSize s.toList = s.utf8ByteSize := by
  obtain ⟨l, rfl⟩ := s.exists_eq_ofList
  rw [String.toList_ofList]
  induction l with
  | nil => rfl
  | cons c l ih =>
    have hcons : String.ofList (c :: l) = String.singleton c ++ String.ofList l := by
      rw [String.singleton_eq_ofList, ← String.ofList_append, List.singleton_append]
    rw [byteSize, ih, hcons, String.utf8ByteSize_append, String.utf8ByteSize_singleton]

/-- Where the end of a text begins. -/
def offset (s : String) (rest : List Char) : Nat := s.utf8ByteSize - byteSize rest

variable {s : String} {c : Char} {a t r : List Char} {i k : Nat}

theorem offset_eq (h : s.toList = a ++ r) : offset s r = byteSize a := by
  rw [offset, ← byteSize_toList, h, byteSize_append, Nat.add_sub_cancel]

theorem offset_nil (s : String) : offset s [] = s.utf8ByteSize := rfl

theorem offset_toList (s : String) : offset s s.toList = 0 := by
  rw [offset, byteSize_toList, Nat.sub_self]

theorem offset_append (h : t ++ r <:+ s.toList) : offset s (t ++ r) + byteSize t = offset s r := by
  obtain ⟨a, ha⟩ := h
  have hr : s.toList = (a ++ t) ++ r := by rw [List.append_assoc, ha]
  rw [offset_eq ha.symm, offset_eq hr, byteSize_append]

theorem offset_cons (h : c :: r <:+ s.toList) : offset s (c :: r) + c.utf8Size = offset s r :=
  offset_append (t := [c]) h

theorem suffix_of_cons (h : c :: r <:+ s.toList) : r <:+ s.toList := (List.suffix_cons c r).trans h

theorem offset_le (s : String) (r : List Char) : offset s r ≤ s.utf8ByteSize := Nat.sub_le _ _

/-- What is shorter is left later. -/
theorem offset_lt (h : r <:+ s.toList) (ht : t <:+ s.toList) (hlength : t.length < r.length) :
    offset s r < offset s t := by
  obtain ⟨u, rfl⟩ := List.suffix_of_suffix_length_le ht h (Nat.le_of_lt hlength)
  have hoffset := offset_append h
  cases u with
  | nil => exact absurd hlength (Nat.lt_irrefl _)
  | cons c u =>
    have := c.utf8Size_pos
    rw [byteSize] at hoffset
    omega

/-! ## Boundaries -/

theorem isBoundary_iff : IsBoundary s i ↔ ∃ a b, s.toList = a ++ b ∧ i = byteSize a := by
  unfold IsBoundary
  rw [String.Pos.Raw.isValid_iff_exists_take_toList]
  constructor
  · rintro ⟨n, hn⟩
    refine ⟨s.toList.take n, s.toList.drop n, (List.take_append_drop n _).symm, ?_⟩
    rw [← String.toList_ofList (l := s.toList.take n), byteSize_toList]
    exact hn
  · rintro ⟨a, b, hs, rfl⟩
    refine ⟨a.length, ?_⟩
    rw [hs, List.take_left, ← byteSize_toList, String.toList_ofList]

theorem isBoundary_offset (h : r <:+ s.toList) : IsBoundary s (offset s r) := by
  obtain ⟨a, ha⟩ := h
  exact isBoundary_iff.mpr ⟨a, r, ha.symm, offset_eq ha.symm⟩

theorem exists_offset (h : IsBoundary s i) : ∃ r, r <:+ s.toList ∧ i = offset s r := by
  obtain ⟨a, r, hs, rfl⟩ := isBoundary_iff.mp h
  exact ⟨r, ⟨a, hs.symm⟩, (offset_eq hs).symm⟩

/-! ## Bytes -/

theorem data_eq (s : String) : s.toByteArray.data.toList = s.toList.flatMap String.utf8EncodeChar := by
  rw [← String.utf8Encode_toList]
  simp [List.utf8Encode]

theorem length_flatMap_utf8EncodeChar (t : List Char) : (t.flatMap String.utf8EncodeChar).length = byteSize t := by
  induction t with
  | nil => rfl
  | cons c t ih => rw [List.flatMap_cons, List.length_append, String.length_utf8EncodeChar, ih, byteSize]

theorem size_utf8Encode (t : List Char) : t.utf8Encode.size = byteSize t := by
  rw [← length_flatMap_utf8EncodeChar]
  simp [List.utf8Encode]

theorem toList_extract {p q : s.Pos} (hs : s.toList = a ++ (t ++ r)) (hp : p.offset.byteIdx = byteSize a)
    (hq : q.offset.byteIdx = byteSize a + byteSize t) : (s.extract p q).toList = t := by
  have hbytes : s.toByteArray = a.utf8Encode ++ (t.utf8Encode ++ r.utf8Encode) := by
    rw [← String.utf8Encode_toList, hs, List.utf8Encode_append, List.utf8Encode_append]
  rw [← String.toList_ofList (l := t), String.toList_inj, ← String.toByteArray_inj, String.toByteArray_extract,
    String.toByteArray_ofList, hp, hq, hbytes, ← size_utf8Encode, ← size_utf8Encode, ← Nat.add_zero a.utf8Encode.size,
    Nat.add_assoc, ByteArray.extract_append_size_add, Nat.zero_add, ByteArray.extract_append_eq_left rfl]

theorem slice?_offset (h : t ++ r <:+ s.toList) : slice? s (offset s (t ++ r)) (offset s r) = some t := by
  have hr : r <:+ s.toList := (List.suffix_append t r).trans h
  have hle : offset s (t ++ r) ≤ offset s r := by
    rw [← offset_append h]
    exact Nat.le_add_right _ _
  rw [slice?, dif_pos ⟨isBoundary_offset h, isBoundary_offset hr, hle⟩, Option.some.injEq]
  have hto := offset_append h
  obtain ⟨a, ha⟩ := h
  rw [offset_eq ha.symm] at hto
  exact toList_extract ha.symm (offset_eq ha.symm) hto.symm

/-- One byte on is inside the first character. -/
example : slice? "é<" 1 3 = none ∧ slice? "é<" 2 3 = some ['<'] := by decide +kernel

theorem byteAt?_offset (h : c :: r <:+ s.toList) (hk : k < c.utf8Size) :
    byteAt? s (offset s (c :: r) + k) = (String.utf8EncodeChar c)[k]? := by
  obtain ⟨a, ha⟩ := h
  rw [byteAt?, ← Array.getElem?_toList, data_eq, offset_eq ha.symm, ← ha, List.flatMap_append,
    List.getElem?_append_right (by rw [length_flatMap_utf8EncodeChar]; exact Nat.le_add_right _ _),
    length_flatMap_utf8EncodeChar, Nat.add_sub_cancel_left, List.flatMap_cons,
    List.getElem?_append_left (by rwa [String.length_utf8EncodeChar])]

theorem exists_byteAt? (h : c :: r <:+ s.toList) : ∃ b, byteAt? s (offset s (c :: r)) = some b := by
  have hlength : 0 < (String.utf8EncodeChar c).length := by
    rw [String.length_utf8EncodeChar]
    exact c.utf8Size_pos
  exact ⟨_, (byteAt?_offset h c.utf8Size_pos).trans (List.getElem?_eq_getElem hlength)⟩

theorem byteAt?_eq_none (h : s.utf8ByteSize ≤ i) : byteAt? s i = none := Array.getElem?_eq_none h

theorem byteAt?_nil (s : String) : byteAt? s (offset s []) = none := byteAt?_eq_none (Nat.le_refl _)

theorem exists_rest {b : UInt8} (h : IsBoundary s i) (hb : byteAt? s i = some b) :
    ∃ c r, c :: r <:+ s.toList ∧ i = offset s (c :: r) := by
  obtain ⟨r, hr, rfl⟩ := exists_offset h
  cases r with
  | nil =>
    rw [byteAt?_nil] at hb
    cases hb
  | cons c r => exact ⟨c, r, hr, rfl⟩

/-- A character of one byte is that byte. -/
theorem byteAt?_narrow (h : c :: r <:+ s.toList) (hc : c.utf8Size = 1) :
    byteAt? s (offset s (c :: r)) = some c.toUInt8 := by
  have hbyte := byteAt?_offset h (k := 0) (by rw [hc]; exact Nat.one_pos)
  rw [String.utf8EncodeChar_eq_singleton hc] at hbyte
  exact hbyte

theorem toUInt8_inj {d : Char} (hc : c.utf8Size = 1) (hd : d.utf8Size = 1) : c.toUInt8 = d.toUInt8 ↔ c = d := by
  refine ⟨fun h => ?_, fun h => by rw [h]⟩
  rw [Char.utf8Size_eq_one_iff, UInt32.le_iff_toNat_le] at hc hd
  have hbyte := congrArg UInt8.toNat h
  simp only [Char.toUInt8, UInt32.toNat_toUInt8] at hbyte
  apply Char.ext
  rw [← UInt32.toNat_inj]
  have hmax : (127 : UInt32).toNat = 127 := rfl
  omega

theorem toUInt8_lt (hc : c.utf8Size = 1) : c.toUInt8 < 128 := by
  rw [Char.utf8Size_eq_one_iff, UInt32.le_iff_toNat_le] at hc
  rw [UInt8.lt_iff_toNat_lt, Char.toUInt8, UInt32.toNat_toUInt8]
  have hmax : (127 : UInt32).toNat = 127 := rfl
  have hhalf : (128 : UInt8).toNat = 128 := rfl
  omega

theorem le_ofNat {n : Nat} (h : 128 ≤ n) (hn : n < 256) : (128 : UInt8) ≤ UInt8.ofNat n := by
  rw [UInt8.le_iff_toNat_le, UInt8.toNat_ofNat_of_lt' hn]
  exact h

/-- No byte of any other character is one of those. -/
theorem le_of_mem_utf8EncodeChar (hc : c.utf8Size ≠ 1) : ∀ b ∈ String.utf8EncodeChar c, 128 ≤ b := by
  have hwide : ¬ c.val.toNat ≤ 0x7f := fun h => hc (Char.utf8Size_eq_one_iff.mpr h)
  unfold String.utf8EncodeChar
  dsimp only
  rw [if_neg hwide]
  split_ifs
  all_goals
    simp only [List.mem_cons, List.not_mem_nil, or_false, forall_eq_or_imp, forall_eq]
    and_intros <;> exact le_ofNat (by omega) (by omega)

theorem byteAt?_wide (h : c :: r <:+ s.toList) (hc : c.utf8Size ≠ 1) (hk : k < c.utf8Size) :
    ∃ b, byteAt? s (offset s (c :: r) + k) = some b ∧ 128 ≤ b := by
  have hlength : k < (String.utf8EncodeChar c).length := by rwa [String.length_utf8EncodeChar]
  exact ⟨_, (byteAt?_offset h hk).trans (List.getElem?_eq_getElem hlength),
    le_of_mem_utf8EncodeChar hc _ (List.getElem_mem hlength)⟩

/-- What passes over the bytes that no character of one byte is gets behind any other character, from the front or from
    anywhere in it. -/
theorem eq_offset_of_passes {α : Type} {f : Nat → α}
    (hf : ∀ i b, byteAt? s i = some b → 128 ≤ b → f i = f (i + 1)) (h : c :: r <:+ s.toList) (hc : c.utf8Size ≠ 1)
    (hk : k ≤ c.utf8Size) : f (offset s (c :: r) + k) = f (offset s r) := by
  induction hn : c.utf8Size - k generalizing k with
  | zero =>
    have hend : k = c.utf8Size := by omega
    rw [hend, offset_cons h]
  | succ n ih =>
    obtain ⟨b, hb, hwide⟩ := byteAt?_wide h hc (k := k) (by omega)
    rw [hf _ b hb hwide, Nat.add_assoc]
    exact ih (by omega) (by omega)

end SvgComponent.Text
