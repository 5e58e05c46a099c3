/-
  SvgComponent.Proofs.Markup.Quotes — where the closing bracket of a tag is found.

  `quoteAfter` runs through text and says which quote is open at its end, unless a closing bracket outside quotes
  comes first. A tag is cut exactly where the text before is `IsClosed` (`cutTag_of_quoteAfter`,
  `quoteAfter_of_cutTag`), so there is one such place at most (`closed_unique`).
-/

import SvgComponent.Markup.Event

namespace SvgComponent.Markup

def isQuoteMark (c : Char) : Bool := c == '\"' || c == '\''

/-- The quote that is open after the text, when `q` is before it. A closing bracket outside quotes ends the text. -/
def quoteAfter (q : Option Char) : List Char → Option (Option Char)
  | [] => some q
  | c :: s =>
    match q with
    | none => if c = '>' then none else quoteAfter (if c = '\"' ∨ c = '\'' then some c else none) s
    | some q => quoteAfter (if c = q then none else some q) s

/-- No closing bracket stands outside quotes, and no quote is open at the end. -/
def IsClosed (s : List Char) : Prop := quoteAfter none s = some none

instance (s : List Char) : Decidable (IsClosed s) := inferInstanceAs (Decidable (quoteAfter none s = some none))

/-- Every closing bracket stands inside quotes. -/
def HidesBrackets (s : List Char) : Prop := (quoteAfter none s).isSome

instance (s : List Char) : Decidable (HidesBrackets s) := inferInstanceAs (Decidable ((quoteAfter none s).isSome))

theorem IsClosed.hides {s : List Char} (h : IsClosed s) : HidesBrackets s := by
  rw [IsClosed] at h
  rw [HidesBrackets, h]
  rfl

theorem quoteAfter_append (q : Option Char) (a b : List Char) :
    quoteAfter q (a ++ b) = (quoteAfter q a).bind fun q => quoteAfter q b := by
  induction a generalizing q with
  | nil => rfl
  | cons c a ih =>
    cases q with
    | none =>
      simp only [List.cons_append, quoteAfter]
      split
      · rfl
      · exact ih _
    | some q => exact ih _

theorem cutTag_of_quoteAfter {q : Option Char} {a : List Char} (h : quoteAfter q a = some none) (b : List Char) :
    Event.cutTag q (a ++ '>' :: b) = some (a, b) := by
  induction a generalizing q with
  | nil =>
    cases h
    simp [Event.cutTag]
  | cons c a ih =>
    cases q with
    | none =>
      simp only [quoteAfter] at h
      split at h
      · cases h
      · rename_i hc
        simp only [List.cons_append, Event.cutTag, hc, if_false, ih h, Option.map_some]
    | some q =>
      simp only [quoteAfter] at h
      simp only [List.cons_append, Event.cutTag, ih h, Option.map_some]

theorem quoteAfter_of_cutTag {q : Option Char} {s a b : List Char} (h : Event.cutTag q s = some (a, b)) :
    quoteAfter q a = some none := by
  induction s generalizing q a b with
  | nil => simp [Event.cutTag] at h
  | cons c s ih =>
    cases q with
    | none =>
      unfold Event.cutTag at h
      dsimp only at h
      split at h
      · cases h
        rfl
      · rename_i hc
        obtain ⟨⟨a', b'⟩, h', he⟩ := Option.map_eq_some_iff.1 h
        cases he
        simp only [quoteAfter, hc, if_false]
        exact ih h'
    | some q =>
      unfold Event.cutTag at h
      obtain ⟨⟨a', b'⟩, h', he⟩ := Option.map_eq_some_iff.1 h
      cases he
      show quoteAfter (if c = q then none else some q) a' = some none
      exact ih h'

theorem cutTag_of_closed {a : List Char} (h : IsClosed a) (b : List Char) :
    Event.cutTag none (a ++ '>' :: b) = some (a, b) := cutTag_of_quoteAfter h b

theorem closed_unique {a b x y : List Char} (ha : IsClosed a) (hb : IsClosed b)
    (h : a ++ '>' :: x = b ++ '>' :: y) : a = b ∧ x = y := by
  have hcut := cutTag_of_closed ha x
  rw [h, cutTag_of_closed hb, Option.some.injEq, Prod.mk.injEq] at hcut
  exact ⟨hcut.1.symm, hcut.2.symm⟩

/-- A closing bracket after closed text is in no quotes. -/
theorem not_hides_of_closed {a : List Char} (h : IsClosed a) (b : List Char) : ¬ HidesBrackets (a ++ '>' :: b) := by
  rw [HidesBrackets, quoteAfter_append, h]
  simp [quoteAfter]

theorem HidesBrackets.of_append {a b : List Char} (h : HidesBrackets (a ++ b)) : HidesBrackets a := by
  rw [HidesBrackets, quoteAfter_append] at h
  rw [HidesBrackets]
  cases hq : quoteAfter none a with
  | none => rw [hq] at h; cases h
  | some q => rfl

/-! ## Text without quotes and closing brackets -/

/-- Neither a quote nor a closing bracket. -/
def isInert (c : Char) : Bool := !isQuoteMark c && c != '>'

theorem ne_of_isInert {c : Char} (h : isInert c = true) : c ≠ '\"' ∧ c ≠ '\'' ∧ c ≠ '>' := by
  simpa [isInert, isQuoteMark, and_assoc] using h

theorem quoteAfter_none_of_inert {s : List Char} (h : ∀ c ∈ s, isInert c = true) : quoteAfter none s = some none := by
  induction s with
  | nil => rfl
  | cons c s ih =>
    obtain ⟨h1, h2, h3⟩ := ne_of_isInert (h c List.mem_cons_self)
    simp only [quoteAfter, h1, h2, h3, or_false, if_false]
    exact ih fun d hd => h d (List.mem_cons_of_mem _ hd)

/-- A quote stays open as long as it does not come again. -/
theorem quoteAfter_some_of_not_mem {q : Char} {s : List Char} (h : q ∉ s) :
    quoteAfter (some q) s = some (some q) := by
  induction s with
  | nil => rfl
  | cons c s ih =>
    rw [List.mem_cons, not_or] at h
    simp only [quoteAfter, Ne.symm h.1, if_false]
    exact ih h.2

/-- Only a quote can be open. -/
theorem isQuoteMark_of_quoteAfter {q : Option Char} (hq : ∀ c ∈ q, isQuoteMark c = true) {s : List Char}
    {q' : Option Char} (h : quoteAfter q s = some q') : ∀ c ∈ q', isQuoteMark c = true := by
  induction s generalizing q with
  | nil =>
    cases h
    exact hq
  | cons c s ih =>
    cases q with
    | none =>
      simp only [quoteAfter] at h
      split at h
      · cases h
      · refine ih ?_ h
        intro d hd
        split at hd
        · rename_i hc
          cases hd
          rcases hc with rfl | rfl <;> rfl
        · cases hd
    | some q =>
      refine ih ?_ h
      intro d hd
      split at hd
      · cases hd
      · exact hq d hd

theorem closed_of_inert {s : List Char} (h : ∀ c ∈ s, isInert c = true) : IsClosed s := quoteAfter_none_of_inert h

/-- Inert text at the end of closed text may be left out. -/
theorem closed_append_inert {a b : List Char} (hb : ∀ c ∈ b, isInert c = true) : IsClosed (a ++ b) ↔ IsClosed a := by
  rw [IsClosed, IsClosed, quoteAfter_append]
  cases hq : quoteAfter none a with
  | none => rfl
  | some q =>
    cases q with
    | none => simp [quoteAfter_none_of_inert hb]
    | some q =>
      have hmark := isQuoteMark_of_quoteAfter (q := none) (by simp) hq q rfl
      have hnot : q ∉ b := by
        intro hm
        have := hb q hm
        simp [isInert, hmark] at this
      simp [quoteAfter_some_of_not_mem hnot]

theorem closed_cons_inert {c : Char} (hc : isInert c = true) (s : List Char) : IsClosed (c :: s) ↔ IsClosed s := by
  obtain ⟨h1, h2, h3⟩ := ne_of_isInert hc
  simp only [IsClosed, quoteAfter, h1, h2, h3, or_false, if_false]

theorem IsClosed.append {a b : List Char} (ha : IsClosed a) (hb : IsClosed b) : IsClosed (a ++ b) := by
  rw [IsClosed, quoteAfter_append, ha]
  exact hb

/-- Text between two quotes of the same kind. -/
theorem closed_quoted {s : List Char} (h : '\"' ∉ s) : IsClosed ('\"' :: (s ++ ['\"'])) := by
  simp [IsClosed, quoteAfter, quoteAfter_append, quoteAfter_some_of_not_mem h]

theorem isInert_of_isSpace {c : Char} (h : isSpace c = true) : isInert c = true := by
  unfold isSpace at h
  simp only [Bool.or_eq_true, beq_iff_eq] at h
  rcases h with ((rfl | rfl) | rfl) | rfl <;> rfl

end SvgComponent.Markup
