/-
  SvgComponent.Text.Cut — cutting text in two at a character or at a pattern, and into lines.

  A cut loses only what it is made at: `cutAt_eq_some` and `cutBefore_eq_some` give the text back.
-/

namespace SvgComponent.Text

/-- The text before and after the first `d`. -/
def cutAt (d : Char) : List Char → Option (List Char × List Char)
  | [] => none
  | c :: s => if c = d then some ([], s) else (cutAt d s).map fun (a, b) => (c :: a, b)

/-- The text before and after the first `pat`. -/
def cutBefore (pat : List Char) : List Char → Option (List Char × List Char)
  | [] => (pat.isPrefixOf? []).map ([], ·)
  | c :: s =>
    match pat.isPrefixOf? (c :: s) with
    | some rest => some ([], rest)
    | none => (cutBefore pat s).map fun (a, b) => (c :: a, b)

/-- Lines end at a line feed, with the carriage return before it if there is one. A last line that is
    empty is no line, and keeps its carriage return otherwise. -/
def lines (s : List Char) : List (List Char) :=
  match (s.splitOn '\n').reverse with
  | [] => []
  | last :: before =>
    before.reverse.map (fun line => if line.getLast? = some '\r' then line.dropLast else line) ++
      (if last.isEmpty then [] else [last])

/-! ## What a cut keeps -/

theorem cutAt_eq_some {d : Char} {s a b : List Char} (h : cutAt d s = some (a, b)) : s = a ++ d :: b := by
  induction s generalizing a with
  | nil => simp [cutAt] at h
  | cons c s ih =>
    unfold cutAt at h
    split at h
    · rename_i hc; simp at h; simp [h, hc]
    · obtain ⟨⟨a', b'⟩, h', he⟩ := Option.map_eq_some_iff.1 h
      simp at he; obtain ⟨rfl, rfl⟩ := he
      simp [ih h']

theorem isPrefixOf?_eq_some {p s r : List Char} (h : p.isPrefixOf? s = some r) : s = p ++ r := by
  induction p generalizing s with
  | nil => exact Option.some.inj h
  | cons c p ih =>
    cases s with
    | nil => cases h
    | cons d s =>
      have h : (if c == d then p.isPrefixOf? s else none) = some r := h
      split at h
      · rename_i hc; rw [beq_iff_eq] at hc; simp [hc, ih h]
      · simp at h

theorem cutBefore_eq_some {pat s a b : List Char} (h : cutBefore pat s = some (a, b)) : s = a ++ pat ++ b := by
  induction s generalizing a with
  | nil =>
    obtain ⟨r, hr, he⟩ := Option.map_eq_some_iff.1 h
    simp at he; obtain ⟨rfl, rfl⟩ := he
    simpa using isPrefixOf?_eq_some hr
  | cons c s ih =>
    unfold cutBefore at h
    split at h
    · rename_i r hr
      simp at h; obtain ⟨rfl, rfl⟩ := h
      simpa using isPrefixOf?_eq_some hr
    · obtain ⟨⟨a', b'⟩, h', he⟩ := Option.map_eq_some_iff.1 h
      simp at he; obtain ⟨rfl, rfl⟩ := he
      simp [ih h']

theorem length_dropWhile_le (p : Char → Bool) (s : List Char) : (s.dropWhile p).length ≤ s.length :=
  (List.dropWhile_suffix p).length_le

end SvgComponent.Text
