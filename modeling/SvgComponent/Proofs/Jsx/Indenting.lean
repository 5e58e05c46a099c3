/-
  SvgComponent.Proofs.Jsx.Indenting — what moving lines to the right does to the text in them.

  Lines are found without regard to what they are in the middle of. So indenting puts blanks behind every line feed
  that a line with something in it follows, and takes the carriage returns before line feeds away (`shift`,
  `indent_eq_shift`), in strings and template literals as well: what is written in a literal is the shifted value
  (`shift_spell`). Text is shifted without change exactly if it has no line feed (`shift_eq_self_iff`).
-/

import SvgComponent.Jsx.Layout
import SvgComponent.Proofs.Jsx.Literals

namespace SvgComponent.Jsx.Layout

variable {w : Nat} {s a b : List Char}

/-- A line ends here, with nothing in it. -/
def startsBreak : List Char → Bool
  | [] => false
  | c :: s => c == '\n' || (c == '\r' && s.head? == some '\n')

/-- What a line is moved by that begins here. -/
def margin (w : Nat) (s : List Char) : List Char := if startsBreak s then [] else List.replicate w ' '

/-- The text in the middle of a line, with the lines after it moved. -/
def shift (w : Nat) : List Char → List Char
  | [] => []
  | c :: s =>
    if c = '\n' then '\n' :: (margin w s ++ shift w s)
    else if c = '\r' ∧ s.head? = some '\n' then shift w s
    else c :: shift w s

theorem shift_newline (w : Nat) (s : List Char) : shift w ('\n' :: s) = '\n' :: (margin w s ++ shift w s) := rfl

theorem shift_cons {c : Char} (hc : c ≠ '\n') (hreturn : c = '\r' → s.head? ≠ some '\n') :
    shift w (c :: s) = c :: shift w s := by
  rw [shift, if_neg hc, if_neg fun h => hreturn h.1 h.2]

theorem shift_return (h : s.head? = some '\n') : shift w ('\r' :: s) = shift w s := by
  rw [shift, if_neg (by decide), if_pos ⟨rfl, h⟩]

theorem shift_eq_self (h : '\n' ∉ s) : shift w s = s := by
  induction s with
  | nil => rfl
  | cons c s ih =>
    rw [List.mem_cons, not_or] at h
    rw [shift_cons (Ne.symm h.1) fun _ hhead => h.2 (List.mem_of_mem_head? hhead), ih h.2]

/-! ## Lines -/

/-- A line without the carriage return at its end. -/
def chomp (line : List Char) : List Char := if line.getLast? = some '\r' then line.dropLast else line

theorem lines_append (h : '\n' ∉ a) (s : List Char) : Text.lines (a ++ '\n' :: s) = chomp a :: Text.lines s := by
  have hsplit : (a ++ '\n' :: s).splitOn '\n' = a :: s.splitOn '\n' := List.splitOn_append_cons_self_of_not_mem h s
  unfold Text.lines
  rw [hsplit, List.reverse_cons]
  cases hrest : (s.splitOn '\n').reverse with
  | nil => exact absurd (List.reverse_eq_nil_iff.mp hrest) (List.splitOn_ne_nil _ _)
  | cons last before => simp [chomp]

theorem lines_single (h : '\n' ∉ s) (hs : s ≠ []) : Text.lines s = [s] := by
  have hsplit : s.splitOn '\n' = [s] := List.splitOn_eq_singleton h
  unfold Text.lines
  rw [hsplit]
  simp [hs]

theorem chomp_cons {c : Char} (h : c = '\r' → a ≠ []) : chomp (c :: a) = c :: chomp a := by
  unfold chomp
  cases a with
  | nil =>
    have : c ≠ '\r' := fun hc => h hc rfl
    simp [this]
  | cons d a =>
    rw [List.getLast?_cons_cons]
    split <;> simp

theorem shift_append_newline (h : '\n' ∉ a) (s : List Char) :
    shift w (a ++ '\n' :: s) = chomp a ++ '\n' :: (margin w s ++ shift w s) := by
  induction a with
  | nil => rfl
  | cons c a ih =>
    rw [List.mem_cons, not_or] at h
    by_cases hreturn : c = '\r' ∧ a = []
    · obtain ⟨rfl, rfl⟩ := hreturn
      rfl
    · have hne : c = '\r' → a ≠ [] := fun hc ha => hreturn ⟨hc, ha⟩
      have hhead : c = '\r' → (a ++ '\n' :: s).head? ≠ some '\n' := by
        intro hc
        cases a with
        | nil => exact absurd rfl (hne hc)
        | cons d a =>
          rw [List.mem_cons, not_or] at h
          exact fun heq => h.2.1 (Option.some.inj heq).symm
      rw [List.cons_append, shift_cons (Ne.symm h.1) hhead, ih h.2, chomp_cons hne, List.cons_append]

theorem startsBreak_append_newline (h : '\n' ∉ a) (s : List Char) :
    startsBreak (a ++ '\n' :: s) = (chomp a).isEmpty := by
  match a with
  | [] => rfl
  | [c] =>
    have hn : c ≠ '\n' := fun heq => h (heq ▸ List.mem_singleton_self c)
    by_cases hc : c = '\r'
    · subst hc
      rfl
    · simp [startsBreak, chomp, hc, hn]
  | c :: d :: a =>
    simp only [List.mem_cons, not_or] at h
    rw [chomp_cons fun _ => List.cons_ne_nil _ _]
    simp [startsBreak, Ne.symm h.1, Ne.symm h.2.1]

theorem startsBreak_eq_false (h : '\n' ∉ s) : startsBreak s = false := by
  cases s with
  | nil => rfl
  | cons c s =>
    rw [List.mem_cons, not_or] at h
    have hhead : s.head? ≠ some '\n' := fun heq => h.2 (List.mem_of_mem_head? heq)
    simp [startsBreak, Ne.symm h.1, hhead]

theorem lines_ne_nil (hs : s ≠ []) : Text.lines s ≠ [] := by
  by_cases h : '\n' ∈ s
  · obtain ⟨a, b, rfl, ha⟩ := List.eq_append_cons_of_mem h
    rw [lines_append ha]
    exact List.cons_ne_nil _ _
  · rw [lines_single h hs]
    exact List.cons_ne_nil _ _

/-- Indenting, one character after the other. -/
theorem indent_eq_shift (w : Nat) (s : List Char) (hs : s ≠ []) (hlast : s.getLast? ≠ some '\n') :
    indent w s = margin w s ++ shift w s := by
  by_cases hmem : '\n' ∈ s
  · obtain ⟨a, b, heq, ha⟩ := List.eq_append_cons_of_mem hmem
    have hb : b ≠ [] := by
      rintro rfl
      exact hlast (by simp [heq])
    have hlast' : b.getLast? ≠ some '\n' := by
      rwa [heq, List.getLast?_append_of_ne_nil _ (List.cons_ne_nil _ _), List.getLast?_cons_of_ne_nil hb] at hlast
    have hrest := indent_eq_shift w b hb hlast'
    obtain ⟨l, ls, hlines⟩ := List.exists_cons_of_ne_nil (lines_ne_nil hb)
    rw [indent, hlines, List.map_cons] at hrest
    rw [indent, heq, lines_append ha, hlines, List.map_cons, List.map_cons, List.intercalate_cons_cons, hrest,
      shift_append_newline ha]
    have hmargin : margin w (a ++ '\n' :: b) = if (chomp a).isEmpty then [] else List.replicate w ' ' := by
      rw [margin, startsBreak_append_newline ha]
    rw [hmargin]
    by_cases hempty : (chomp a).isEmpty = true
    · rw [if_pos hempty, if_pos hempty, List.isEmpty_iff.mp hempty]
      rfl
    · rw [if_neg hempty, if_neg hempty]
      simp only [List.append_assoc, List.singleton_append]
  · rw [indent, lines_single hmem hs, shift_eq_self hmem, margin, startsBreak_eq_false hmem]
    simp [hs]
termination_by s.length
decreasing_by
  rw [heq]
  simp
  omega

/-! ## Parts of a line -/

/-- Neither of the characters of a line break. -/
def isInline (c : Char) : Bool := c != '\n' && c != '\r'

theorem isInline_iff {c : Char} : isInline c = true ↔ c ≠ '\n' ∧ c ≠ '\r' := by
  simp [isInline]

/-- No line break stands across the end of `a` and the beginning of `b`. -/
def Apart (a b : List Char) : Prop := (∀ c ∈ a.getLast?, isInline c = true) ∨ ∀ c ∈ b.head?, isInline c = true

theorem Apart.tail {c d : Char} (h : Apart (c :: d :: a) b) : Apart (d :: a) b := by
  rwa [Apart, List.getLast?_cons_cons] at h

/-- Text that comes after half a line break. -/
theorem Apart.head {c : Char} (hc : isInline c = false) (h : Apart [c] b) : ∀ d ∈ b.head?, isInline d = true := by
  rcases h with h | h
  · rw [h c rfl] at hc
    cases hc
  · exact h

theorem Apart.startsBreak_append {c : Char} (hc : isInline c = false) (h : Apart (c :: a) b) :
    startsBreak (a ++ b) = startsBreak a := by
  match a with
  | [] =>
    have hb := h.head hc
    cases b with
    | nil => rfl
    | cons d b =>
      obtain ⟨hn, hr⟩ := isInline_iff.mp (hb d rfl)
      simp [startsBreak, hn, hr]
  | [d] =>
    by_cases hd : d = '\r'
    · subst hd
      have hb : b.head? ≠ some '\n' := fun heq => (isInline_iff.mp (h.tail.head rfl '\n' heq)).1 rfl
      simp [startsBreak, hb]
    · simp [startsBreak, hd]
  | d :: e :: a => rfl

theorem shift_append (h : Apart a b) : shift w (a ++ b) = shift w a ++ shift w b := by
  induction a with
  | nil => rfl
  | cons c a ih =>
    have htail : shift w (a ++ b) = shift w a ++ shift w b := by
      cases a with
      | nil => rfl
      | cons d a => exact ih h.tail
    by_cases hc : c = '\n'
    · subst hc
      rw [List.cons_append, shift_newline, shift_newline, htail, margin, margin, h.startsBreak_append rfl]
      simp only [List.cons_append, List.append_assoc]
    · by_cases hreturn : c = '\r'
      · subst hreturn
        have hhead : (a ++ b).head? = some '\n' ↔ a.head? = some '\n' := by
          cases a with
          | nil =>
            have hb : b.head? ≠ some '\n' := fun heq => (isInline_iff.mp (h.head rfl '\n' heq)).1 rfl
            simp [hb]
          | cons d a => rfl
        by_cases hbreak : a.head? = some '\n'
        · rw [List.cons_append, shift_return (hhead.mpr hbreak), shift_return hbreak, htail]
        · rw [List.cons_append, shift_cons (by decide) fun _ heq => hbreak (hhead.mp heq),
            shift_cons (by decide) fun _ => hbreak, htail, List.cons_append]
      · rw [List.cons_append, shift_cons hc fun heq => absurd heq hreturn, shift_cons hc fun heq => absurd heq hreturn,
          htail, List.cons_append]

/-! ## Which characters come and go -/

theorem mem_of_mem_shift {c : Char} (h : c ∈ shift w s) : c ∈ s ∨ c = ' ' := by
  induction s with
  | nil => exact Or.inl h
  | cons d s ih =>
    rw [shift] at h
    split_ifs at h with hd
    · rw [List.mem_cons, List.mem_append] at h
      rcases h with rfl | hmargin | hrest
      · exact Or.inl (hd ▸ List.mem_cons_self)
      · rw [margin] at hmargin
        split at hmargin
        · cases hmargin
        · exact Or.inr (List.eq_of_mem_replicate hmargin)
      · exact (ih hrest).imp_left (List.mem_cons_of_mem d)
    · exact (ih h).imp_left (List.mem_cons_of_mem d)
    · rcases List.mem_cons.mp h with rfl | h
      · exact Or.inl List.mem_cons_self
      · exact (ih h).imp_left (List.mem_cons_of_mem d)

theorem mem_shift {c : Char} (h : c ∈ s) (hreturn : c ≠ '\r') : c ∈ shift w s := by
  induction s with
  | nil => exact h
  | cons d s ih =>
    rw [shift]
    rcases List.mem_cons.mp h with rfl | h
    · by_cases hn : c = '\n'
      · rw [if_pos hn, hn]
        exact List.mem_cons_self
      · rw [if_neg hn, if_neg fun hboth => hreturn hboth.1]
        exact List.mem_cons_self
    · have hrest := ih h
      split_ifs
      · exact List.mem_cons_of_mem _ (List.mem_append_right _ hrest)
      · exact hrest
      · exact List.mem_cons_of_mem _ hrest

theorem newline_not_mem_chomp (h : '\n' ∉ a) : '\n' ∉ chomp a := by
  unfold chomp
  split
  · exact fun hmem => h (List.dropLast_subset a hmem)
  · exact h

theorem newline_not_mem_margin (w : Nat) (s : List Char) : '\n' ∉ margin w s := by
  unfold margin
  split
  · exact List.not_mem_nil
  · exact fun hmem => absurd (List.eq_of_mem_replicate hmem) (by decide)

/-- A text has one first line feed. -/
theorem eq_of_cut_newline {a' b' : List Char} (ha : '\n' ∉ a) (ha' : '\n' ∉ a') (h : a ++ '\n' :: b = a' ++ '\n' :: b') :
    b = b' := by
  have hcut := congrArg (Text.cutAt '\n') h
  rw [Text.cutAt_append ha, Text.cutAt_append ha'] at hcut
  simp only [Option.some.injEq, Prod.mk.injEq] at hcut
  exact hcut.2

/-- A last line with something in it is moved, whatever else becomes of the text. -/
theorem margin_shift_ne (hw : 0 < w) (s : List Char) : margin w s ++ shift w s ≠ s := by
  by_cases hmem : '\n' ∈ s
  · obtain ⟨a, b, heq, ha⟩ := List.eq_append_cons_of_mem hmem
    intro hsame
    rw [heq, shift_append_newline ha, ← heq, ← List.append_assoc] at hsame
    conv at hsame => rhs; rw [heq]
    have hfirst : '\n' ∉ margin w s ++ chomp a := by
      rw [List.mem_append, not_or]
      exact ⟨newline_not_mem_margin w s, newline_not_mem_chomp ha⟩
    have hrest := eq_of_cut_newline hfirst ha hsame
    exact margin_shift_ne hw b hrest
  · rw [shift_eq_self hmem, margin, startsBreak_eq_false hmem]
    intro hsame
    have := congrArg List.length hsame
    simp at this
    omega
termination_by s.length
decreasing_by
  rw [heq]
  simp
  omega

/-- Text is shifted without change exactly if it is on one line. -/
theorem shift_eq_self_iff (hw : 0 < w) : shift w s = s ↔ '\n' ∉ s := by
  refine ⟨?_, shift_eq_self⟩
  intro hsame hmem
  obtain ⟨a, b, rfl, ha⟩ := List.eq_append_cons_of_mem hmem
  rw [shift_append_newline ha] at hsame
  exact margin_shift_ne hw b (eq_of_cut_newline (newline_not_mem_chomp ha) ha hsame)

/-! ## Spelled text -/

/-- Text with each character spelled in view of the next one. -/
def spell (f : Char → Option Char → List Char) : List Char → List Char
  | [] => []
  | c :: s => f c s.head? ++ spell f s

/-- Blanks and line breaks are spelled as they are, and a spelling has none of its own. -/
structure Spares (f : Char → Option Char → List Char) : Prop where
  blank : ∀ next, f ' ' next = [' ']
  lineBreak : ∀ c, isInline c = false → ∀ next, f c next = [c]
  other : ∀ c, isInline c = true → ∀ next, f c next ≠ [] ∧ ∀ d ∈ f c next, isInline d = true
  next : ∀ c, f c (some '\r') = f c (some '\n')

namespace Spares

variable {f : Char → Option Char → List Char}

theorem spell_cons_break (hf : Spares f) {c : Char} (hc : isInline c = false) (s : List Char) :
    spell f (c :: s) = c :: spell f s := by
  rw [spell, hf.lineBreak c hc]
  rfl

/-- What begins with an inline character is spelled by text that does. -/
theorem head_spell (hf : Spares f) {c : Char} (hc : isInline c = true) (s : List Char) :
    ∃ d r, spell f (c :: s) = d :: r ∧ isInline d = true := by
  obtain ⟨hne, hinline⟩ := hf.other c hc s.head?
  obtain ⟨d, r, heq⟩ := List.exists_cons_of_ne_nil hne
  exact ⟨d, r ++ spell f s, by rw [spell, heq, List.cons_append], hinline d (heq ▸ List.mem_cons_self)⟩

theorem head?_spell_iff (hf : Spares f) (s : List Char) : (spell f s).head? = some '\n' ↔ s.head? = some '\n' := by
  cases s with
  | nil => rfl
  | cons c s =>
    cases hc : isInline c with
    | false =>
      rw [hf.spell_cons_break hc]
      rfl
    | true =>
      obtain ⟨d, r, heq, hd⟩ := hf.head_spell hc s
      rw [heq, List.head?_cons, List.head?_cons, Option.some.injEq, Option.some.injEq]
      exact iff_of_false (isInline_iff.mp hd).1 (isInline_iff.mp hc).1

theorem startsBreak_spell (hf : Spares f) (s : List Char) : startsBreak (spell f s) = startsBreak s := by
  cases s with
  | nil => rfl
  | cons c s =>
    cases hc : isInline c with
    | false =>
      rw [hf.spell_cons_break hc, startsBreak, startsBreak]
      congr 2
      rw [Bool.eq_iff_iff, beq_iff_eq, beq_iff_eq]
      exact hf.head?_spell_iff s
    | true =>
      obtain ⟨d, r, heq, hd⟩ := hf.head_spell hc s
      obtain ⟨hn, hr⟩ := isInline_iff.mp hd
      obtain ⟨hn', hr'⟩ := isInline_iff.mp hc
      rw [heq, startsBreak, startsBreak, beq_eq_false_iff_ne.mpr hn, beq_eq_false_iff_ne.mpr hr,
        beq_eq_false_iff_ne.mpr hn', beq_eq_false_iff_ne.mpr hr']
      rfl

theorem spell_replicate_append (hf : Spares f) (n : Nat) (s : List Char) :
    spell f (List.replicate n ' ' ++ s) = List.replicate n ' ' ++ spell f s := by
  induction n with
  | zero => rfl
  | succ n ih =>
    rw [List.replicate_succ, List.cons_append, spell, hf.blank, ih]
    rfl

theorem spell_margin_append (hf : Spares f) (t s : List Char) :
    spell f (margin w t ++ s) = margin w t ++ spell f s := by
  unfold margin
  split
  · rfl
  · exact hf.spell_replicate_append w s

/-- Shifting changes what comes next only where there is a line break anyhow. -/
theorem next_shift (hf : Spares f) (c : Char) (s : List Char) : f c (shift w s).head? = f c s.head? := by
  cases s with
  | nil => rfl
  | cons d s =>
    by_cases hbreak : d = '\r' ∧ s.head? = some '\n'
    · obtain ⟨rfl, hn⟩ := hbreak
      obtain ⟨r, rfl⟩ := List.head?_eq_some_iff.mp hn
      exact (hf.next c).symm
    · by_cases hd : d = '\n'
      · subst hd
        rfl
      · rw [shift_cons hd fun hr hn => hbreak ⟨hr, hn⟩]
        rfl

theorem shift_spell (hf : Spares f) (s : List Char) : shift w (spell f s) = spell f (shift w s) := by
  induction s with
  | nil => rfl
  | cons c s ih =>
    cases hc : isInline c with
    | true =>
      obtain ⟨hne, hinline⟩ := hf.other c hc s.head?
      obtain ⟨hn, hr⟩ := isInline_iff.mp hc
      have hnone : '\n' ∉ f c s.head? := fun hmem => (isInline_iff.mp (hinline _ hmem)).1 rfl
      have hapart : Apart (f c s.head?) (spell f s) := Or.inl fun d hd => hinline d (List.mem_of_mem_getLast? hd)
      rw [spell, shift_append hapart, shift_eq_self hnone, ih, shift_cons hn fun heq => absurd heq hr, spell,
        hf.next_shift]
    | false =>
      rw [hf.spell_cons_break hc]
      by_cases hn : c = '\n'
      · subst hn
        rw [shift_newline, shift_newline, hf.spell_cons_break rfl, hf.spell_margin_append, ih, margin, margin,
          hf.startsBreak_spell]
      · by_cases hnext : c = '\r' ∧ s.head? = some '\n'
        · obtain ⟨rfl, hhead⟩ := hnext
          rw [shift_return ((hf.head?_spell_iff s).mpr hhead), shift_return hhead, ih]
        · rw [shift_cons hn fun heq hhead => hnext ⟨heq, (hf.head?_spell_iff s).mp hhead⟩,
            shift_cons hn fun heq hhead => hnext ⟨heq, hhead⟩, hf.spell_cons_break hc, ih]

end Spares

/-! ## Literals in lines that were moved -/

theorem flatMap_eq_spell (f : Char → List Char) (s : List Char) : s.flatMap f = spell (fun c _ => f c) s := by
  induction s with
  | nil => rfl
  | cons c s ih => rw [List.flatMap_cons, spell, ih]

/-- Between brackets or quotes, text is in the middle of its line. -/
theorem shift_between {c d : Char} (hc : isInline c = true) (hd : isInline d = true) (s : List Char) :
    shift w (c :: (s ++ [d])) = c :: (shift w s ++ [d]) := by
  obtain ⟨hn, hr⟩ := isInline_iff.mp hc
  have hapart : Apart s [d] := Or.inr fun e he => by
    cases he
    exact hd
  have hlast : '\n' ∉ [d] := fun hmem => (isInline_iff.mp hd).1 (List.mem_singleton.mp hmem).symm
  rw [shift_cons hn fun heq => absurd heq hr, shift_append hapart, shift_eq_self hlast]

theorem spares_escapeAmpersand : Spares fun c _ => escapeAmpersand c where
  blank _ := rfl
  lineBreak c hc _ := by
    have : c ≠ '&' := by
      rintro rfl
      cases hc
    rw [escapeAmpersand, if_neg this]
  other c hc _ := by
    unfold escapeAmpersand
    split
    · decide
    · exact ⟨List.cons_ne_nil _ _, List.forall_mem_singleton.mpr hc⟩
  next _ := rfl

theorem spares_escapeDoubleQuoted : Spares fun c _ => escapeDoubleQuoted c where
  blank _ := rfl
  lineBreak c hc next := by
    have : c ≠ '\"' := by
      rintro rfl
      cases hc
    rw [escapeDoubleQuoted, if_neg this]
    exact spares_escapeAmpersand.lineBreak c hc next
  other c hc next := by
    unfold escapeDoubleQuoted
    split
    · decide
    · exact spares_escapeAmpersand.other c hc next
  next _ := rfl

theorem contains_shift {c : Char} (hblank : c ≠ ' ') (hreturn : c ≠ '\r') (s : List Char) :
    (shift w s).contains c = s.contains c := by
  rw [Bool.eq_iff_iff, List.contains_iff_mem, List.contains_iff_mem]
  exact ⟨fun h => (mem_of_mem_shift h).resolve_right hblank, fun h => mem_shift h hreturn⟩

/-- The string for a value, moved, is the string for the moved value. -/
theorem shift_attributeString (onlyDouble : Bool) (s : List Char) :
    shift w (attributeString onlyDouble s) = attributeString onlyDouble (shift w s) := by
  unfold attributeString
  rw [contains_shift (by decide) (by decide), contains_shift (by decide) (by decide)]
  split
  · rw [List.cons_append, shift_between rfl rfl, flatMap_eq_spell, spares_escapeAmpersand.shift_spell,
      ← flatMap_eq_spell, List.cons_append]
  · rw [List.cons_append, shift_between rfl rfl, flatMap_eq_spell, spares_escapeDoubleQuoted.shift_spell,
      ← flatMap_eq_spell, List.cons_append]

/-- How a template literal spells a character. -/
def templateSpelling (c : Char) (next : Option Char) : List Char :=
  if c = '$' ∧ next = some '\x7b' then ['\\', '$'] else if c = '\\' ∨ c = '\x60' then ['\\', c] else [c]

theorem escapeTemplate_eq_spell (s : List Char) : escapeTemplate s = spell templateSpelling s := by
  fun_induction escapeTemplate s with
  | case1 => rfl
  | case2 s ih =>
    rw [spell, spell, ih]
    rfl
  | case3 c s hno hc ih =>
    have hdollar : ¬ (c = '$' ∧ s.head? = some '\x7b') := by
      rintro ⟨rfl, _⟩
      exact absurd hc (by decide)
    rw [spell, templateSpelling, if_neg hdollar, if_pos hc, ih]
    rfl
  | case4 c s hno hc ih =>
    have hdollar : ¬ (c = '$' ∧ s.head? = some '\x7b') := by
      rintro ⟨rfl, hhead⟩
      obtain ⟨r, rfl⟩ := List.head?_eq_some_iff.mp hhead
      exact hno r rfl rfl
    rw [spell, templateSpelling, if_neg hdollar, if_neg hc, ih]
    rfl

theorem spares_templateSpelling : Spares templateSpelling where
  blank _ := rfl
  lineBreak c hc _ := by
    have hdollar : c ≠ '$' := by
      rintro rfl
      cases hc
    have hescaped : ¬ (c = '\\' ∨ c = '\x60') := by
      rintro (rfl | rfl) <;> cases hc
    rw [templateSpelling, if_neg fun h => hdollar h.1, if_neg hescaped]
  other c hc _ := by
    unfold templateSpelling
    split_ifs
    · decide
    · exact ⟨List.cons_ne_nil _ _, List.forall_mem_cons.mpr ⟨rfl, List.forall_mem_singleton.mpr hc⟩⟩
    · exact ⟨List.cons_ne_nil _ _, List.forall_mem_singleton.mpr hc⟩
  next _ := by simp [templateSpelling]

/-- How a comment spells a character. -/
def commentSpelling (c : Char) (next : Option Char) : List Char :=
  if c = '*' ∧ next = some '/' then ['*', ' '] else [c]

theorem openComment_eq_spell (s : List Char) : openComment s = spell commentSpelling s := by
  fun_induction openComment s with
  | case1 => rfl
  | case2 s ih =>
    rw [spell, spell, ih]
    rfl
  | case3 c s hno ih =>
    have hstar : ¬ (c = '*' ∧ s.head? = some '/') := by
      rintro ⟨rfl, hhead⟩
      obtain ⟨r, rfl⟩ := List.head?_eq_some_iff.mp hhead
      exact hno r rfl rfl
    rw [spell, commentSpelling, if_neg hstar, ih]
    rfl

theorem spares_commentSpelling : Spares commentSpelling where
  blank _ := rfl
  lineBreak c hc _ := by
    have hstar : c ≠ '*' := by
      rintro rfl
      cases hc
    rw [commentSpelling, if_neg fun h => hstar h.1]
  other c hc _ := by
    unfold commentSpelling
    split
    · decide
    · exact ⟨List.cons_ne_nil _ _, List.forall_mem_singleton.mpr hc⟩
  next _ := by simp [commentSpelling]

theorem shift_templateExpression (s : List Char) :
    shift w (templateExpression s) = templateExpression (shift w s) := by
  have htext : ∀ t, templateExpression t = '\x7b' :: ('\x60' :: (escapeTemplate t ++ ['\x60']) ++ ['\x7d']) := by
    intro t
    simp [templateExpression]
  rw [htext, htext, shift_between rfl rfl, shift_between rfl rfl, escapeTemplate_eq_spell,
    spares_templateSpelling.shift_spell, ← escapeTemplate_eq_spell]

theorem shift_commentExpression (s : List Char) : shift w (commentExpression s) = commentExpression (shift w s) := by
  have htext : ∀ t, commentExpression t =
      '\x7b' :: ('/' :: ('*' :: (' ' :: (openComment t ++ [' ']) ++ ['*']) ++ ['/']) ++ ['\x7d']) := by
    intro t
    simp [commentExpression]
  rw [htext, htext, shift_between rfl rfl, shift_between rfl rfl, shift_between rfl rfl, shift_between rfl rfl,
    openComment_eq_spell, spares_commentSpelling.shift_spell, ← openComment_eq_spell]

end SvgComponent.Jsx.Layout
