/-
  SvgComponent.Text.Size — how many bytes text takes in UTF-8, the unit of every size and position.
-/

namespace SvgComponent.Text

def byteSize : List Char → Nat
  | [] => 0
  | c :: s => c.utf8Size + byteSize s

@[simp] theorem byteSize_append (s t : List Char) : byteSize (s ++ t) = byteSize s + byteSize t := by
  induction s with
  | nil => simp [byteSize]
  | cons c s ih => simp [byteSize, ih, Nat.add_assoc]

end SvgComponent.Text
