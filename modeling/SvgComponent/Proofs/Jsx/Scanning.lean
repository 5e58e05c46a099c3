/-
  SvgComponent.Proofs.Jsx.Scanning — where the tokens of markup begin and end.

  A tag and an expression are both found by running through the text with a position (`Within`) until the bracket
  that closes them comes up (`Bracket.run`): they end at the first such place (`Bracket.scanFrom_closed`) or not at all
  (`Bracket.scanFrom_open`). Hence the tokens of a text are the only list of tokens that can stand next to each other
  (`Adjoined`) and of which the text consists but for blanks between them (`Spread`): `tokens_eq_iff`.
-/

import SvgComponent.Jsx.Layout
import SvgComponent.Proofs.Text.Blank

namespace SvgComponent.Jsx.Layout

open Text (Stops isBlank trim)

/-! ## The two brackets -/

/-- What a token can begin with: the bracket of a tag, or the brace of an expression. -/
inductive Bracket where
  | angle
  | brace
  deriving DecidableEq

/-- A place inside a tag or an expression. -/
structure Within where
  /-- The quote that is open. -/
  quote : Option Char
  /-- The next character belongs to a backslash. -/
  escaped : Bool
  /-- How many braces are open. -/
  depth : Nat
  deriving DecidableEq

namespace Within

/-- Outside quotes and braces. -/
def outside : Within := ⟨none, false, 0⟩

end Within

/-- One character of a tag; none if it closes the tag. -/
def tagStep (w : Within) (c : Char) : Option Within :=
  match w.quote with
  | some q => some { w with quote := if c = q then none else some q }
  | none =>
    if isQuote c then some { w with quote := some c }
    else if c = '\x7b' then some { w with depth := w.depth + 1 }
    else if c = '\x7d' then some { w with depth := w.depth - 1 }
    else if c = '>' ∧ w.depth = 0 then none
    else some w

/-- One character of an expression; none if it closes the expression. -/
def expressionStep (w : Within) (c : Char) : Option Within :=
  if w.escaped then some { w with escaped := false }
  else
    match w.quote with
    | some q =>
      if c = '\\' then some { w with escaped := true } else some { w with quote := if c = q then none else some q }
    | none =>
      if isQuote c then some { w with quote := some c }
      else if c = '\x7b' then some { w with depth := w.depth + 1 }
      else if c = '\x7d' then if w.depth = 0 then none else some { w with depth := w.depth - 1 }
      else some w

namespace Bracket

def opens : Bracket → Char
  | angle => '<'
  | brace => '\x7b'

def closes : Bracket → Char
  | angle => '>'
  | brace => '\x7d'

def step : Bracket → Within → Char → Option Within
  | angle => tagStep
  | brace => expressionStep

/-- What is left of the token at a place inside it, and the rest. -/
def scanFrom : Bracket → Within → List Char → List Char × List Char
  | angle, w, s => scanTag w.quote w.depth s
  | brace, ⟨q, false, n⟩, s => scanExpression q n s
  | brace, ⟨_, true, _⟩, [] => ([], [])
  | brace, ⟨q, true, n⟩, c :: s => before c (scanExpression q n s)

theorem scanFrom_nil (k : Bracket) (w : Within) : k.scanFrom w [] = ([], []) := by
  obtain ⟨q, escaped, n⟩ := w
  cases k with
  | angle => rfl
  | brace => cases escaped <;> rfl

theorem scanFrom_cons (k : Bracket) (w : Within) (c : Char) (s : List Char) :
    k.scanFrom w (c :: s) = (k.step w c).elim ([c], s) fun w' => before c (k.scanFrom w' s) := by
  obtain ⟨q, escaped, n⟩ := w
  cases k with
  | angle =>
    cases q with
    | some q => rfl
    | none =>
      show scanTag none n (c :: s) = _
      simp only [scanTag, step, tagStep]
      split_ifs <;> rfl
  | brace =>
    cases escaped with
    | true => rfl
    | false =>
      cases q with
      | some q =>
        show scanExpression (some q) n (c :: s) = _
        simp only [step, expressionStep, Bool.false_eq_true, if_false]
        rw [scanExpression.eq_def]
        dsimp only
        split
        · cases s <;> rfl
        · rfl
      | none =>
        show scanExpression none n (c :: s) = _
        simp only [scanExpression, step, expressionStep, Bool.false_eq_true, if_false]
        split_ifs <;> cases n <;> first | rfl | contradiction

/-- The place that text leads to; none if the token is closed before its end. -/
def runFrom (k : Bracket) (w : Within) (s : List Char) : Option Within := s.foldlM k.step w

def run (k : Bracket) (s : List Char) : Option Within := k.runFrom .outside s

variable {k : Bracket} {w : Within} {c : Char} {s a b : List Char}

@[simp] theorem runFrom_nil : k.runFrom w [] = some w := rfl

theorem runFrom_cons : k.runFrom w (c :: s) = (k.step w c).bind (k.runFrom · s) := rfl

theorem runFrom_append : k.runFrom w (a ++ b) = (k.runFrom w a).bind (k.runFrom · b) := List.foldlM_append

theorem run_append_of_outside (ha : k.run a = some .outside) : k.run (a ++ b) = k.run b := by
  rw [run, runFrom_append, show k.runFrom .outside a = some .outside from ha]
  rfl

theorem isSome_run_of_append (h : (k.run (a ++ b)).isSome) : (k.run a).isSome := by
  rw [run, runFrom_append] at h
  cases hr : k.runFrom .outside a with
  | none => rw [hr] at h; cases h
  | some w => rw [run, hr]; rfl

theorem step_outside_closes (k : Bracket) : k.step .outside k.closes = none := by
  cases k <;> rfl

/-- A place that text can lead to: only a quote can be open, and nothing is escaped but in the quotes of an
    expression. -/
structure Fits (k : Bracket) (w : Within) : Prop where
  quote : ∀ q ∈ w.quote, isQuote q = true
  escaped : w.escaped = true → k = .brace ∧ w.quote.isSome

theorem fits_outside (k : Bracket) : k.Fits .outside := by
  constructor <;> intros <;> contradiction

/-- After a character in quotes, they are open or closed. -/
theorem Fits.of_quoted {w' : Within} {q : Char} (hw : k.Fits w) (hq : w.quote = some q)
    (h : w'.quote = some q ∨ w'.quote = none ∧ w'.escaped = false) (hk : w'.escaped = true → k = .brace) :
    k.Fits w' := by
  rcases h with h | ⟨hnone, hescaped⟩
  · refine ⟨?_, fun he => ⟨hk he, by rw [h]; rfl⟩⟩
    intro q' hq'
    rw [h] at hq'
    cases hq'
    exact hw.quote q hq
  · refine ⟨?_, fun he => ?_⟩
    · intro q' hq'
      rw [hnone] at hq'
      cases hq'
    · rw [hescaped] at he
      cases he

/-- What a character outside quotes leads to. -/
theorem Fits.of_code {w' : Within} (hw : k.Fits w) (hq : w.quote = none) (hescaped : w'.escaped = w.escaped)
    (h : w'.quote = none ∨ ∃ c, isQuote c = true ∧ w'.quote = some c) : k.Fits w' := by
  have hno : ¬ w.escaped = true := fun he => by simpa [hq] using (hw.escaped he).2
  refine ⟨?_, fun he => absurd (hescaped ▸ he) hno⟩
  intro q' hq'
  rcases h with h | ⟨c, hc, h⟩
  · rw [h] at hq'
    cases hq'
  · rw [h] at hq'
    cases hq'
    exact hc

theorem Fits.step {w' : Within} (hw : k.Fits w) (h : k.step w c = some w') : k.Fits w' := by
  cases k with
  | angle =>
    change tagStep w c = some w' at h
    have hno : ¬ w.escaped = true := fun he => by simpa using (hw.escaped he).1
    unfold tagStep at h
    split at h
    · rename_i q hq
      cases h
      refine hw.of_quoted hq ?_ fun he => absurd he hno
      by_cases hc : c = q
      · exact Or.inr ⟨if_pos hc, Bool.eq_false_iff.mpr hno⟩
      · exact Or.inl (if_neg hc)
    · rename_i hq
      split_ifs at h with hc <;> cases h
      · exact hw.of_code hq rfl (Or.inr ⟨c, hc, rfl⟩)
      · exact hw.of_code hq rfl (Or.inl hq)
      · exact hw.of_code hq rfl (Or.inl hq)
      · exact hw
  | brace =>
    change expressionStep w c = some w' at h
    unfold expressionStep at h
    split at h
    · rename_i he
      cases h
      obtain ⟨q, hq⟩ := Option.isSome_iff_exists.mp (hw.escaped he).2
      exact hw.of_quoted hq (Or.inl hq) fun h => by cases h
    · rename_i hno
      split at h
      · rename_i q hq
        split_ifs at h <;> cases h
        · exact hw.of_quoted hq (Or.inl hq) fun _ => rfl
        · exact hw.of_quoted hq (Or.inr ⟨rfl, Bool.eq_false_iff.mpr hno⟩) fun he => absurd he hno
        · exact hw.of_quoted hq (Or.inl rfl) fun he => absurd he hno
      · rename_i hq
        split_ifs at h with hc <;> cases h
        · exact hw.of_code hq rfl (Or.inr ⟨c, hc, rfl⟩)
        · exact hw.of_code hq rfl (Or.inl hq)
        · exact hw.of_code hq rfl (Or.inl hq)
        · exact hw

/-- Only the closing bracket closes, and only outside quotes and braces. -/
theorem Fits.eq_of_step_none (hw : k.Fits w) (h : k.step w c = none) : c = k.closes ∧ w = .outside := by
  obtain ⟨q, escaped, n⟩ := w
  cases k with
  | angle =>
    change tagStep _ c = none at h
    unfold tagStep at h
    split at h
    · cases h
    · rename_i hq
      cases hq
      split_ifs at h with _ _ _ hc
      obtain ⟨rfl, rfl⟩ := hc
      cases escaped with
      | true => simpa using (hw.escaped rfl).2
      | false => exact ⟨rfl, rfl⟩
  | brace =>
    change expressionStep _ c = none at h
    unfold expressionStep at h
    split at h
    · cases h
    · rename_i hescaped
      cases escaped with
      | true => exact absurd rfl hescaped
      | false =>
        split at h
        · split_ifs at h
        · rename_i hq
          cases hq
          split_ifs at h with _ _ hc hn
          cases hn
          exact ⟨hc, rfl⟩

theorem scanFrom_closed (h : k.runFrom w a = some .outside) (s : List Char) :
    k.scanFrom w (a ++ k.closes :: s) = (a ++ [k.closes], s) := by
  induction a generalizing w with
  | nil =>
    cases h
    rw [List.nil_append, scanFrom_cons, step_outside_closes]
    rfl
  | cons c a ih =>
    obtain ⟨w', hstep, hrun⟩ := Option.bind_eq_some_iff.mp h
    rw [List.cons_append, scanFrom_cons, hstep, Option.elim_some, ih hrun]
    rfl

theorem scanFrom_open (h : (k.runFrom w s).isSome) : k.scanFrom w s = (s, []) := by
  induction s generalizing w with
  | nil => exact scanFrom_nil k w
  | cons c s ih =>
    rw [runFrom_cons] at h
    cases hstep : k.step w c with
    | none => rw [hstep] at h; cases h
    | some w' =>
      rw [hstep] at h
      rw [scanFrom_cons, hstep, Option.elim_some, ih h]
      rfl

theorem Fits.closed_or_open (hw : k.Fits w) (s : List Char) :
    (∃ a b, s = a ++ k.closes :: b ∧ k.runFrom w a = some .outside) ∨ (k.runFrom w s).isSome := by
  induction s generalizing w with
  | nil => exact Or.inr rfl
  | cons c s ih =>
    cases hstep : k.step w c with
    | none =>
      obtain ⟨rfl, rfl⟩ := hw.eq_of_step_none hstep
      exact Or.inl ⟨[], s, rfl, rfl⟩
    | some w' =>
      rcases ih (hw.step hstep) with ⟨a, b, rfl, ha⟩ | hopen
      · exact Or.inl ⟨c :: a, b, rfl, by rw [runFrom_cons, hstep]; exact ha⟩
      · exact Or.inr (by rw [runFrom_cons, hstep]; exact hopen)

/-- A token is closed at the first closing bracket outside quotes and braces, or it never is. -/
theorem closed_or_open (k : Bracket) (s : List Char) :
    (∃ a b, s = a ++ k.closes :: b ∧ k.run a = some .outside) ∨ (k.run s).isSome :=
  (fits_outside k).closed_or_open s

theorem Fits.runFrom {w' : Within} (hw : k.Fits w) (h : k.runFrom w s = some w') : k.Fits w' := by
  induction s generalizing w with
  | nil =>
    cases h
    exact hw
  | cons c s ih =>
    obtain ⟨w₁, hstep, hrun⟩ := Option.bind_eq_some_iff.mp h
    exact ih (hw.step hstep) hrun

/-- Only the closing bracket closes. -/
theorem Fits.isSome_runFrom (hw : k.Fits w) (hs : k.closes ∉ s) : (k.runFrom w s).isSome := by
  rcases hw.closed_or_open s with ⟨a, b, rfl, _⟩ | hopen
  · exact absurd (List.mem_append_right a List.mem_cons_self) hs
  · exact hopen

theorem isSome_run_append (h : (k.run a).isSome) (hb : k.closes ∉ b) : (k.run (a ++ b)).isSome := by
  obtain ⟨w, hw⟩ := Option.isSome_iff_exists.mp h
  rw [run, runFrom_append, show k.runFrom .outside a = some w from hw]
  exact ((fits_outside k).runFrom hw).isSome_runFrom hb

end Bracket

/-! ## Text without marks -/

/-- Neither a quote, nor a brace or bracket. -/
def isPlain (c : Char) : Bool := !isQuote c && c != '\x7b' && c != '\x7d' && c != '<' && c != '>'

theorem isPlain_iff {c : Char} :
    isPlain c = true ↔ isQuote c = false ∧ c ≠ '\x7b' ∧ c ≠ '\x7d' ∧ c ≠ '<' ∧ c ≠ '>' := by
  simp [isPlain, and_assoc]

namespace Bracket

variable {k : Bracket} {w : Within} {c : Char} {s : List Char}

theorem step_outside_plain (k : Bracket) (hc : isPlain c = true) : k.step .outside c = some .outside := by
  obtain ⟨hq, ho, hn, -, hg⟩ := isPlain_iff.mp hc
  cases k with
  | angle => simp [step, tagStep, Within.outside, hq, ho, hn, hg]
  | brace => simp [step, expressionStep, Within.outside, hq, ho, hn]

theorem run_plain (k : Bracket) (hs : ∀ c ∈ s, isPlain c = true) : k.run s = some .outside := by
  induction s with
  | nil => rfl
  | cons c s ih =>
    rw [List.forall_mem_cons] at hs
    rw [run, runFrom_cons, step_outside_plain k hs.1]
    exact ih hs.2

/-- Plain characters lead in and out of nothing. -/
theorem Fits.step_plain (hw : k.Fits w) (hc : isPlain c = true) (hslash : c ≠ '\\') :
    ∃ w', k.step w c = some w' ∧ (w' = .outside ↔ w = .outside) := by
  obtain ⟨hq, ho, hn, -, hg⟩ := isPlain_iff.mp hc
  have hne : ∀ q ∈ w.quote, c ≠ q := by
    rintro q hmem rfl
    rw [hw.quote c hmem] at hq
    cases hq
  obtain ⟨q, escaped, n⟩ := w
  cases k with
  | angle =>
    refine ⟨_, ?_, Iff.rfl⟩
    cases q with
    | some q => simp [Bracket.step, tagStep, hne q rfl]
    | none => simp [Bracket.step, tagStep, hq, ho, hn, hg]
  | brace =>
    cases escaped with
    | true =>
      obtain ⟨q, rfl⟩ := Option.isSome_iff_exists.mp (hw.escaped rfl).2
      refine ⟨⟨some q, false, n⟩, by simp [Bracket.step, expressionStep], ?_⟩
      simp [Within.outside]
    | false =>
      refine ⟨_, ?_, Iff.rfl⟩
      cases q with
      | some q => simp [Bracket.step, expressionStep, hslash, hne q rfl]
      | none => simp [Bracket.step, expressionStep, hq, ho, hn]

theorem Fits.runFrom_plain (hw : k.Fits w) (hs : ∀ c ∈ s, isPlain c = true ∧ c ≠ '\\') :
    k.runFrom w s = some .outside ↔ w = .outside := by
  induction s generalizing w with
  | nil => simp
  | cons c s ih =>
    rw [List.forall_mem_cons] at hs
    obtain ⟨w', hstep, hiff⟩ := hw.step_plain hs.1.1 hs.1.2
    rw [runFrom_cons, hstep, Option.bind_some, ih (hw.step hstep) hs.2, hiff]

/-- Plain text at the end may be left out. -/
theorem run_append_plain {a : List Char} (hs : ∀ c ∈ s, isPlain c = true ∧ c ≠ '\\') :
    k.run (a ++ s) = some .outside ↔ k.run a = some .outside := by
  rw [run, runFrom_append]
  cases hrun : k.runFrom .outside a with
  | none => simp [run, hrun]
  | some w =>
    rw [Option.bind_some, ((fits_outside k).runFrom hrun).runFrom_plain hs, run, hrun, Option.some.injEq]

end Bracket

/-! ## One token after the other -/

theorem isText_iff {c : Char} : isText c = true ↔ ∀ k : Bracket, c ≠ k.opens := by
  constructor
  · rintro h k rfl
    cases k <;> cases h
  · intro h
    simp [isText, show c ≠ '<' from h .angle, show c ≠ '\x7b' from h .brace]

theorem eq_opens_of_not_isText {c : Char} (h : isText c = false) : ∃ k : Bracket, c = k.opens := by
  by_contra hnone
  rw [isText_iff.mpr (not_exists.mp hnone)] at h
  cases h

theorem isText_of_isBlank {c : Char} (h : isBlank c = true) : isText c = true := by
  rw [isText_iff]
  rintro k rfl
  cases k <;> cases h

namespace Bracket

theorem isBlank_opens (k : Bracket) : isBlank k.opens = false := by cases k <;> rfl

theorem isBlank_closes (k : Bracket) : isBlank k.closes = false := by cases k <;> rfl

theorem isText_opens (k : Bracket) : isText k.opens = false := by cases k <;> rfl

theorem scan_opens (k : Bracket) (s : List Char) : Layout.scan k.opens s = before k.opens (k.scanFrom .outside s) := by
  cases k <;> rfl

/-- Blanks close nothing. -/
theorem isSome_run_append_blanks {k : Bracket} {s g : List Char} (h : (k.run s).isSome)
    (hg : ∀ c ∈ g, isBlank c = true) : (k.run (s ++ g)).isSome := by
  apply isSome_run_append h
  intro hmem
  have := hg _ hmem
  rw [isBlank_closes] at this
  cases this

end Bracket

/-- A token with the kind that its text shows. -/
def tokenOf (t : List Char) : Token := ⟨kindOf t, t⟩

@[simp] theorem text_tokenOf (t : List Char) : (tokenOf t).text = t := rfl

/-- The token of trimmed text, if it is not empty. -/
def tokenOf? (t : List Char) : List Token := if t.isEmpty then [] else [tokenOf t]

theorem tokens_nil : tokens [] = [] := tokens.eq_def []

theorem tokens_cons (c : Char) (r : List Char) :
    tokens (c :: r) = tokenOf? (trim (scan c r).1) ++ tokens (scan c r).2 := by
  rw [tokens.eq_def]
  by_cases h : (trim (scan c r).1).isEmpty <;> simp [tokenOf?, tokenOf, h]

/-- What stands before the next bracket is one token. -/
theorem tokens_eq_text (s : List Char) :
    tokens s = tokenOf? (trim (s.takeWhile isText)) ++ tokens (s.dropWhile isText) := by
  cases s with
  | nil => rw [List.takeWhile_nil, List.dropWhile_nil, tokens_nil]; rfl
  | cons c r =>
    by_cases hc : isText c = true
    · have hscan : scan c r = before c (r.takeWhile isText, r.dropWhile isText) := by
        have hangle : c ≠ '<' := isText_iff.mp hc .angle
        have hbrace : c ≠ '\x7b' := isText_iff.mp hc .brace
        rw [scan, if_neg hangle, if_neg hbrace]
      rw [tokens_cons, hscan, List.takeWhile_cons_of_pos hc, List.dropWhile_cons_of_pos hc]
      rfl
    · rw [List.takeWhile_cons_of_neg hc, List.dropWhile_cons_of_neg hc]
      rfl

theorem tokens_closed (k : Bracket) {a : List Char} (h : k.run a = some .outside) (s : List Char) :
    tokens (k.opens :: (a ++ k.closes :: s)) = tokenOf (k.opens :: (a ++ [k.closes])) :: tokens s := by
  rw [tokens_cons, k.scan_opens, Bracket.scanFrom_closed h]
  show tokenOf? (trim (k.opens :: (a ++ [k.closes]))) ++ tokens s = _
  rw [trim, Text.trimWhile_between k.isBlank_opens k.isBlank_closes]
  rfl

theorem tokens_open (k : Bracket) {s : List Char} (h : (k.run s).isSome) :
    tokens (k.opens :: s) = [tokenOf (trim (k.opens :: s))] := by
  rw [tokens_cons, k.scan_opens, Bracket.scanFrom_open h]
  show tokenOf? (trim (k.opens :: s)) ++ tokens [] = _
  rw [trim, Text.trimWhile_cons k.isBlank_opens, tokens_nil]
  rfl

/-! ## What a text consists of -/

/-- The text is the tokens in order, with nothing but blanks around them. -/
inductive Spread : List Token → List Char → Prop where
  | nil {g : List Char} (hg : ∀ c ∈ g, isBlank c = true) : Spread [] g
  | cons {g s : List Char} {t : Token} {ts : List Token} (hg : ∀ c ∈ g, isBlank c = true) (h : Spread ts s) :
      Spread (t :: ts) (g ++ (t.text ++ s))

/-- The first token, if there is one, begins with a bracket. -/
def StartsBracket (ts : List Token) : Prop := ∀ t ∈ ts.head?, ∃ (k : Bracket) (b : List Char), t.text = k.opens :: b

/-- Tokens that can stand next to each other: each tag and expression is closed at its end, but for one at the
    very end that is never closed, and no text follows text. -/
inductive Adjoined : List Token → Prop where
  | nil : Adjoined []
  | last (k : Bracket) {b : List Char} (hopen : (k.run b).isSome) (htrim : trim (k.opens :: b) = k.opens :: b) :
      Adjoined [tokenOf (k.opens :: b)]
  | closed (k : Bracket) {a : List Char} {ts : List Token} (ha : k.run a = some .outside) (h : Adjoined ts) :
      Adjoined (tokenOf (k.opens :: (a ++ [k.closes])) :: ts)
  | text {t : List Char} {ts : List Token} (htext : ∀ c ∈ t, isText c = true) (hne : t ≠ []) (htrim : trim t = t)
      (hts : StartsBracket ts) (h : Adjoined ts) : Adjoined (tokenOf t :: ts)

theorem Spread.blanks_append {ts : List Token} {s g : List Char} (h : Spread ts s) (hg : ∀ c ∈ g, isBlank c = true) :
    Spread ts (g ++ s) := by
  cases h with
  | nil hs => exact .nil (List.forall_mem_append.mpr ⟨hg, hs⟩)
  | cons hs h =>
    rw [← List.append_assoc]
    exact .cons (List.forall_mem_append.mpr ⟨hg, hs⟩) h

/-- Before a bracket, only blanks can come. -/
theorem Spread.blank_takeWhile {ts : List Token} {s : List Char} (h : Spread ts s) (hts : StartsBracket ts) :
    ∀ c ∈ s.takeWhile isText, isBlank c = true := by
  cases h with
  | nil hg => exact fun c hc => hg c ((List.takeWhile_prefix _).subset hc)
  | @cons g s t ts hg h =>
    obtain ⟨k, b, ht⟩ := hts t rfl
    have hstop : Stops isText (t.text ++ s) := by
      rw [ht]
      exact Text.stops_cons k.isText_opens _
    rw [Text.takeWhile_append_stop (fun c hc => isText_of_isBlank (hg c hc)) hstop]
    exact hg

theorem tokens_blanks_append {g : List Char} (hg : ∀ c ∈ g, isBlank c = true) {s : List Char}
    (hs : Stops isText s) : tokens (g ++ s) = tokens s := by
  have htext : ∀ c ∈ g, isText c = true := fun c hc => isText_of_isBlank (hg c hc)
  have hempty : trim g = [] := by
    have := Text.trimWhile_append_left hg []
    rwa [List.append_nil] at this
  rw [tokens_eq_text, Text.takeWhile_append_stop htext hs, Text.dropWhile_append_stop htext hs, hempty]
  rfl

theorem tokens_dropWhile {s : List Char} (h : ∀ c ∈ s.takeWhile isText, isBlank c = true) :
    tokens (s.dropWhile isText) = tokens s := by
  conv => rhs; rw [← List.takeWhile_append_dropWhile (p := isText) (l := s)]
  exact (tokens_blanks_append h (Text.stops_dropWhile _ s)).symm

/-- Tokens that can stand next to each other are found, whatever blanks are around them. -/
theorem Adjoined.tokens_eq {ts : List Token} (h : Adjoined ts) {s : List Char} (hs : Spread ts s) : tokens s = ts := by
  induction h generalizing s with
  | nil =>
    cases hs with
    | nil hg =>
      have := tokens_blanks_append hg (s := []) Text.stops_nil
      rw [List.append_nil] at this
      rw [this, tokens_nil]
  | @last k b hopen htrim =>
    cases hs with
    | cons hg hs =>
      cases hs with
      | nil hg' =>
        rw [text_tokenOf, List.cons_append, tokens_blanks_append hg (Text.stops_cons k.isText_opens _),
          tokens_open k (Bracket.isSome_run_append_blanks hopen hg'), trim, ← List.cons_append,
          Text.trimWhile_append_right hg', ← trim, htrim]
  | @closed k a ts ha _ ih =>
    cases hs with
    | @cons g s _ _ hg hs =>
      rw [text_tokenOf, List.cons_append, tokens_blanks_append hg (Text.stops_cons k.isText_opens _),
        List.append_assoc, List.singleton_append, tokens_closed k ha, ih hs]
  | @text t ts htext hne htrim hts _ ih =>
    cases hs with
    | @cons g s _ _ hg hs =>
      have hblank := hs.blank_takeWhile hts
      have hgap : ∀ c ∈ g, isText c = true := fun c hc => isText_of_isBlank (hg c hc)
      have htrim' : trim (g ++ (t ++ s.takeWhile isText)) = t := by
        rw [trim, Text.trimWhile_append_left hg, Text.trimWhile_append_right hblank]
        exact htrim
      rw [text_tokenOf, tokens_eq_text, List.takeWhile_append_of_pos hgap, List.takeWhile_append_of_pos htext, htrim',
        List.dropWhile_append_of_pos hgap, List.dropWhile_append_of_pos htext, tokens_dropWhile hblank, ih hs,
        tokenOf?, List.isEmpty_eq_false_iff.mpr hne]
      rfl

theorem startsBracket_tokens {s : List Char} (hs : Stops isText s) : StartsBracket (tokens s) := by
  cases s with
  | nil =>
    rw [tokens_nil]
    intro t ht
    cases ht
  | cons c r =>
    obtain ⟨k, rfl⟩ := eq_opens_of_not_isText (hs c rfl)
    rcases k.closed_or_open r with ⟨a, b, rfl, ha⟩ | hopen
    · rw [tokens_closed k ha]
      intro t ht
      cases ht
      exact ⟨k, _, rfl⟩
    · rw [tokens_open k hopen, trim, Text.trimWhile_cons k.isBlank_opens]
      intro t ht
      cases ht
      exact ⟨k, _, rfl⟩

/-- Text before a bracket is one token, unless it is blank. -/
theorem adjoined_text {t rest : List Char} {ts : List Token} (htext : ∀ c ∈ t, isText c = true) (hts : StartsBracket ts)
    (h : Adjoined ts) (hs : Spread ts rest) :
    Adjoined (tokenOf? (trim t) ++ ts) ∧ Spread (tokenOf? (trim t) ++ ts) (t ++ rest) := by
  obtain ⟨g, g', ht, hg, hg'⟩ := Text.exists_trimWhile_eq isBlank t
  have hrest := hs.blanks_append hg'
  by_cases hempty : trim t = []
  · rw [hempty]
    refine ⟨h, ?_⟩
    rw [← trim, hempty, List.nil_append] at ht
    rw [ht, List.append_assoc]
    exact hrest.blanks_append hg
  · have hspread := Spread.cons (t := tokenOf (trim t)) hg hrest
    rw [text_tokenOf, ← List.append_assoc, ← List.append_assoc, List.append_assoc g, trim, ← ht] at hspread
    rw [tokenOf?, List.isEmpty_eq_false_iff.mpr hempty]
    have htrimmed : ∀ c ∈ trim t, isText c = true := fun c hc => htext c (Text.trimWhile_subset _ _ hc)
    exact ⟨.text htrimmed hempty (Text.trimWhile_trimWhile _ _) hts h, hspread⟩

/-- A bracket that is never closed goes as far as the last character that is not blank. -/
theorem adjoined_open (k : Bracket) {s : List Char} (h : (k.run s).isSome) :
    Adjoined [tokenOf (trim (k.opens :: s))] ∧ Spread [tokenOf (trim (k.opens :: s))] (k.opens :: s) := by
  have htrim : trim (k.opens :: s) = k.opens :: Text.dropEndWhile isBlank s := Text.trimWhile_cons k.isBlank_opens s
  have hsplit : Text.dropEndWhile isBlank s ++ s.rtakeWhile isBlank = s := List.rdropWhile_append_rtakeWhile
  rw [← hsplit] at h
  rw [htrim]
  refine ⟨.last k (Bracket.isSome_run_of_append h) ?_, ?_⟩
  · rw [← htrim]
    exact Text.trimWhile_trimWhile _ _
  · have hend : Spread [] (s.rtakeWhile isBlank) := .nil fun c => List.mem_rtakeWhile_imp
    have := hend.cons (g := []) (t := tokenOf (k.opens :: Text.dropEndWhile isBlank s)) nofun
    rwa [List.nil_append, text_tokenOf, List.cons_append, hsplit] at this

/-- The tokens of a text can stand next to each other, and the text has nothing but blanks around them. -/
theorem adjoined_tokens (s : List Char) : Adjoined (tokens s) ∧ Spread (tokens s) s := by
  match s with
  | [] =>
    rw [tokens_nil]
    exact ⟨.nil, .nil nofun⟩
  | c :: r =>
    by_cases hc : isText c = true
    · have hlt : ((c :: r).dropWhile isText).length < (c :: r).length := by
        rw [List.dropWhile_cons_of_pos hc, List.length_cons]
        have := Text.length_dropWhile_le isText r
        omega
      obtain ⟨hadjoined, hspread⟩ := adjoined_tokens ((c :: r).dropWhile isText)
      have hstart := startsBracket_tokens (Text.stops_dropWhile isText (c :: r))
      have hsplit : (c :: r).takeWhile isText ++ (c :: r).dropWhile isText = c :: r :=
        List.takeWhile_append_dropWhile
      have hboth := adjoined_text (t := (c :: r).takeWhile isText) (fun d => List.mem_takeWhile_imp) hstart hadjoined
        hspread
      rwa [← tokens_eq_text, hsplit] at hboth
    · obtain ⟨k, rfl⟩ := eq_opens_of_not_isText (Bool.eq_false_iff.mpr hc)
      rcases k.closed_or_open r with ⟨a, b, rfl, ha⟩ | hopen
      · obtain ⟨hadjoined, hspread⟩ := adjoined_tokens b
        rw [tokens_closed k ha]
        refine ⟨.closed k ha hadjoined, ?_⟩
        have := hspread.cons (g := []) (t := tokenOf (k.opens :: (a ++ [k.closes]))) nofun
        simpa [tokenOf] using this
      · rw [tokens_open k hopen]
        exact adjoined_open k hopen
termination_by s.length
decreasing_by
  all_goals simp_all <;> omega

/-- The tokens of a text are the only ones that can stand next to each other and of which the text consists. -/
theorem tokens_eq_iff {s : List Char} {ts : List Token} : tokens s = ts ↔ Adjoined ts ∧ Spread ts s := by
  constructor
  · rintro rfl
    exact adjoined_tokens s
  · rintro ⟨h, hs⟩
    exact h.tokens_eq hs

end SvgComponent.Jsx.Layout
