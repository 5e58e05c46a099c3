/-
  SvgComponent.Proofs.Jsx.Offsets — laying out markup by positions in its bytes never faults.

  Every byte that a scan looks for is a character of its own, so a wide character changes nothing of its state, even
  where a backslash skips into it (`passes_scanTag`, `passes_scanExpression?`). A token that begins between characters
  therefore ends between characters, where `Layout` ends it (`tokenEnd?_offset`), and behind its begin; the brace that
  ends an expression closes one that is open, for the expression begins with one. So the tokens and the lines are those
  of `Layout` for every text (`tokensFrom?_offset`, `format?_eq`).
-/

import SvgComponent.Jsx.Offsets
import SvgComponent.Proofs.Text.Offsets

namespace SvgComponent.Jsx.Offsets

open Text (byteAt? slice? offset)

variable {s : String} {c d : Char} {r : List Char} {b : UInt8} {i : Nat}

/-! ## Bytes and characters -/

theorem isQuote_toUInt8 (hc : c.utf8Size = 1) : isQuote c.toUInt8 = Layout.isQuote c := by
  have heq : ∀ d : Char, d.utf8Size = 1 → (c.toUInt8 == d.toUInt8) = (c == d) := fun d hd => by
    rw [Bool.eq_iff_iff, beq_iff_eq, beq_iff_eq, Text.toUInt8_inj hc hd]
  rw [isQuote, Layout.isQuote, heq '\"' rfl, heq '\'' rfl, heq '\x60' rfl]

/-- A wide character is none of those that count. -/
theorem ne_of_wide (hc : c.utf8Size ≠ 1) (hd : d.utf8Size = 1) : c ≠ d := by
  rintro rfl
  exact hc hd

theorem isQuote_eq_false (hb : 128 ≤ b) : isQuote b = false := by
  have hne : ∀ x : UInt8, x < 128 → (b == x) = false := fun x hx =>
    beq_eq_false_iff_ne.mpr fun heq => absurd (heq ▸ hb) (UInt8.not_le.mpr hx)
  rw [isQuote, hne _ (by decide), hne _ (by decide), hne _ (by decide)]
  rfl

theorem ne_toUInt8 (hb : 128 ≤ b) (hd : d.utf8Size = 1) : b ≠ d.toUInt8 := by
  rintro rfl
  exact absurd hb (UInt8.not_le.mpr (Text.toUInt8_lt hd))

/-- A quote is closed by its byte as it is by its character. -/
theorem closed_toUInt8 {q : Char} (hc : c.utf8Size = 1) (hq : q.utf8Size = 1) :
    (if c.toUInt8 = q.toUInt8 then none else some q.toUInt8) = (if c = q then none else some q).map Char.toUInt8 := by
  simp only [Text.toUInt8_inj hc hq]
  split_ifs <;> rfl

/-- A quote that is open takes one byte. -/
def Narrow (quote : Option Char) : Prop := ∀ q ∈ quote, q.utf8Size = 1

theorem narrow_none : Narrow none := by
  intro q hq
  cases hq

theorem narrow_some (hc : c.utf8Size = 1) : Narrow (some c) := by
  intro q hq
  cases hq
  exact hc

theorem Narrow.closed {q : Char} (hq : Narrow (some q)) (c : Char) : Narrow (if c = q then none else some q) := by
  split_ifs
  · exact narrow_none
  · exact hq

theorem size_begin : Char.utf8Size '<' = 1 := rfl

theorem size_end : Char.utf8Size '>' = 1 := rfl

theorem size_open : Char.utf8Size '\x7b' = 1 := rfl

theorem size_close : Char.utf8Size '\x7d' = 1 := rfl

theorem size_slash : Char.utf8Size '\\' = 1 := rfl

theorem size_of_isQuote (h : Layout.isQuote c = true) : c.utf8Size = 1 := by
  simp only [Layout.isQuote, Bool.or_eq_true, beq_iff_eq] at h
  rcases h with (rfl | rfl) | rfl <;> rfl

theorem offset_succ (h : c :: r <:+ s.toList) (hc : c.utf8Size = 1) : offset s (c :: r) + 1 = offset s r := by
  rw [← Text.offset_cons h, hc]

/-! ## Tags -/

theorem scanTag_eq (s : String) (quote : Option UInt8) (n i : Nat) : scanTag s quote n i =
    match byteAt? s i with
    | none => s.utf8ByteSize
    | some b =>
      match quote with
      | some q => scanTag s (if b = q then none else some q) n (i + 1)
      | none =>
        if isQuote b then scanTag s (some b) n (i + 1)
        else if b = '\x7b'.toUInt8 then scanTag s none (n + 1) (i + 1)
        else if b = '\x7d'.toUInt8 then scanTag s none (n - 1) (i + 1)
        else if b = '>'.toUInt8 ∧ n = 0 then i + 1
        else scanTag s none n (i + 1) := by
  rw [scanTag]
  split
  all_goals
    rename_i hb
    generalize byteAt? s i = o at hb ⊢
    subst hb
    rfl

theorem passes_scanTag {quote : Option Char} {n : Nat} (hq : Narrow quote)
    (h : byteAt? s i = some b) (hb : 128 ≤ b) :
    scanTag s (quote.map Char.toUInt8) n i = scanTag s (quote.map Char.toUInt8) n (i + 1) := by
  rw [scanTag_eq, h]
  cases quote with
  | some q =>
    dsimp only [Option.map_some]
    rw [if_neg (ne_toUInt8 hb (hq q rfl))]
  | none =>
    dsimp only [Option.map_none]
    rw [isQuote_eq_false hb, if_neg Bool.false_ne_true, if_neg (ne_toUInt8 hb rfl), if_neg (ne_toUInt8 hb rfl),
      if_neg fun hend => ne_toUInt8 hb rfl hend.1]

theorem scanTag_wide {quote : Option Char} {n : Nat} (hq : Narrow quote) (h : c :: r <:+ s.toList)
    (hc : c.utf8Size ≠ 1) :
    scanTag s (quote.map Char.toUInt8) n (offset s (c :: r)) = scanTag s (quote.map Char.toUInt8) n (offset s r) :=
  Text.eq_offset_of_passes (fun _ _ => passes_scanTag hq) h hc (Nat.zero_le _)

theorem scanTag_narrow {quote : Option Char} {n : Nat} (hq : Narrow quote) (h : c :: r <:+ s.toList)
    (hc : c.utf8Size = 1) : scanTag s (quote.map Char.toUInt8) n (offset s (c :: r)) =
    match quote with
    | some q => scanTag s ((if c = q then none else some q).map Char.toUInt8) n (offset s r)
    | none =>
      if Layout.isQuote c then scanTag s (some c.toUInt8) n (offset s r)
      else if c = '\x7b' then scanTag s none (n + 1) (offset s r)
      else if c = '\x7d' then scanTag s none (n - 1) (offset s r)
      else if c = '>' ∧ n = 0 then offset s r
      else scanTag s none n (offset s r) := by
  rw [scanTag_eq, Text.byteAt?_narrow h hc, offset_succ h hc]
  cases quote with
  | some q =>
    dsimp only [Option.map_some]
    rw [closed_toUInt8 hc (hq q rfl)]
  | none =>
    dsimp only [Option.map_none]
    simp only [isQuote_toUInt8 hc, Text.toUInt8_inj hc size_open,
      Text.toUInt8_inj hc size_close,
      Text.toUInt8_inj hc size_end]

theorem scanTag_offset {quote : Option Char} {n : Nat} (hq : Narrow quote) (h : r <:+ s.toList) :
    scanTag s (quote.map Char.toUInt8) n (offset s r) = offset s (Layout.scanTag quote n r).2 := by
  fun_induction Layout.scanTag quote n r with
  | case1 =>
    rw [scanTag_eq, Text.byteAt?_nil]
    rfl
  | case2 n c r q ih =>
    have ih := ih (hq.closed c) (Text.suffix_of_cons h)
    by_cases hc : c.utf8Size = 1
    · exact (scanTag_narrow hq h hc).trans ih
    · rw [if_neg (ne_of_wide hc (hq q rfl))] at ih ⊢
      exact (scanTag_wide hq h hc).trans ih
  | case3 n c r hquote ih =>
    have hc := size_of_isQuote hquote
    refine (scanTag_narrow hq h hc).trans ?_
    dsimp only
    rw [if_pos hquote]
    exact ih (narrow_some hc) (Text.suffix_of_cons h)
  | case4 n r hquote ih =>
    refine (scanTag_narrow hq h rfl).trans ?_
    dsimp only
    rw [if_neg hquote, if_pos rfl]
    exact ih narrow_none (Text.suffix_of_cons h)
  | case5 n r hquote hopen ih =>
    refine (scanTag_narrow hq h rfl).trans ?_
    dsimp only
    rw [if_neg hquote, if_neg hopen, if_pos rfl]
    exact ih narrow_none (Text.suffix_of_cons h)
  | case6 n c r hquote hopen hclose hend =>
    refine (scanTag_narrow hq h (hend.1 ▸ rfl)).trans ?_
    dsimp only
    rw [if_neg hquote, if_neg hopen, if_neg hclose, if_pos hend]
  | case7 n c r hquote hopen hclose hend ih =>
    have ih := ih narrow_none (Text.suffix_of_cons h)
    by_cases hc : c.utf8Size = 1
    · refine (scanTag_narrow hq h hc).trans ?_
      dsimp only
      rw [if_neg hquote, if_neg hopen, if_neg hclose, if_neg hend]
      exact ih
    · exact (scanTag_wide hq h hc).trans ih

/-! ## Expressions -/

theorem scanExpression?_eq (s : String) (quote : Option UInt8) (n i : Nat) : scanExpression? s quote n i =
    match byteAt? s i with
    | none => some s.utf8ByteSize
    | some b =>
      match quote with
      | some q =>
        if b = '\\'.toUInt8 then scanExpression? s (some q) n (i + 2)
        else scanExpression? s (if b = q then none else some q) n (i + 1)
      | none =>
        if isQuote b then scanExpression? s (some b) n (i + 1)
        else if b = '\x7b'.toUInt8 then scanExpression? s none (n + 1) (i + 1)
        else if b = '\x7d'.toUInt8 then
          if n = 0 then none
          else if n - 1 = 0 then some (i + 1)
          else scanExpression? s none (n - 1) (i + 1)
        else scanExpression? s none n (i + 1) := by
  rw [scanExpression?]
  split
  all_goals
    rename_i hb
    generalize byteAt? s i = o at hb ⊢
    subst hb
    rfl

theorem passes_scanExpression? {quote : Option Char} {n : Nat} (hq : Narrow quote)
    (h : byteAt? s i = some b) (hb : 128 ≤ b) :
    scanExpression? s (quote.map Char.toUInt8) n i = scanExpression? s (quote.map Char.toUInt8) n (i + 1) := by
  rw [scanExpression?_eq, h]
  cases quote with
  | some q =>
    dsimp only [Option.map_some]
    rw [if_neg (ne_toUInt8 hb rfl), if_neg (ne_toUInt8 hb (hq q rfl))]
  | none =>
    dsimp only [Option.map_none]
    rw [isQuote_eq_false hb, if_neg Bool.false_ne_true, if_neg (ne_toUInt8 hb rfl), if_neg (ne_toUInt8 hb rfl)]

theorem scanExpression?_wide {quote : Option Char} {n k : Nat} (hq : Narrow quote)
    (h : c :: r <:+ s.toList) (hc : c.utf8Size ≠ 1) (hk : k ≤ c.utf8Size) :
    scanExpression? s (quote.map Char.toUInt8) n (offset s (c :: r) + k) =
      scanExpression? s (quote.map Char.toUInt8) n (offset s r) :=
  Text.eq_offset_of_passes (fun _ _ => passes_scanExpression? hq) h hc hk

theorem scanExpression?_narrow {quote : Option Char} {n : Nat} (hq : Narrow quote)
    (h : c :: r <:+ s.toList) (hc : c.utf8Size = 1) :
    scanExpression? s (quote.map Char.toUInt8) n (offset s (c :: r)) =
    match quote with
    | some q =>
      if c = '\\' then scanExpression? s ((some q).map Char.toUInt8) n (offset s r + 1)
      else scanExpression? s ((if c = q then none else some q).map Char.toUInt8) n (offset s r)
    | none =>
      if Layout.isQuote c then scanExpression? s (some c.toUInt8) n (offset s r)
      else if c = '\x7b' then scanExpression? s none (n + 1) (offset s r)
      else if c = '\x7d' then
        if n = 0 then none
        else if n - 1 = 0 then some (offset s r)
        else scanExpression? s none (n - 1) (offset s r)
      else scanExpression? s none n (offset s r) := by
  rw [scanExpression?_eq, Text.byteAt?_narrow h hc, offset_succ h hc]
  cases quote with
  | some q =>
    dsimp only [Option.map_some]
    rw [closed_toUInt8 hc (hq q rfl), ← offset_succ h hc]
    simp only [Text.toUInt8_inj hc size_slash]
  | none =>
    dsimp only [Option.map_none]
    simp only [isQuote_toUInt8 hc, Text.toUInt8_inj hc size_open,
      Text.toUInt8_inj hc size_close]

/-- A skipped byte is a character, or the first byte of a wide one whose other bytes are passed over. -/
theorem scanExpression?_skip {q : Char} {n : Nat} (hq : Narrow (some q)) (h : d :: r <:+ s.toList) :
    scanExpression? s ((some q).map Char.toUInt8) n (offset s (d :: r) + 1) =
      scanExpression? s ((some q).map Char.toUInt8) n (offset s r) := by
  by_cases hd : d.utf8Size = 1
  · rw [offset_succ h hd]
  · exact scanExpression?_wide hq h hd d.utf8Size_pos

theorem scanExpression?_offset {quote : Option Char} {n : Nat} (hq : Narrow quote)
    (h : r <:+ s.toList) : scanExpression? s (quote.map Char.toUInt8) (n + 1) (offset s r) =
      some (offset s (Layout.scanExpression quote n r).2) := by
  fun_induction Layout.scanExpression quote n r with
  | case1 =>
    rw [scanExpression?_eq, Text.byteAt?_nil]
    rfl
  | case2 n q =>
    -- what is skipped is the end
    refine (scanExpression?_narrow hq h rfl).trans ?_
    have hend : byteAt? s (offset s [] + 1) = none := Text.byteAt?_eq_none (Nat.le_succ _)
    dsimp only
    rw [if_pos rfl, scanExpression?_eq, hend]
    rfl
  | case3 n q d r ih =>
    have hr := Text.suffix_of_cons h
    refine (scanExpression?_narrow hq h rfl).trans ?_
    dsimp only
    rw [if_pos rfl, scanExpression?_skip hq hr]
    exact ih hq (Text.suffix_of_cons hr)
  | case4 n c r q hslash ih =>
    have ih := ih (hq.closed c) (Text.suffix_of_cons h)
    by_cases hc : c.utf8Size = 1
    · refine (scanExpression?_narrow hq h hc).trans ?_
      dsimp only
      rw [if_neg hslash]
      exact ih
    · rw [if_neg (ne_of_wide hc (hq q rfl))] at ih ⊢
      exact (scanExpression?_wide hq h hc (Nat.zero_le _)).trans ih
  | case5 n c r hquote ih =>
    have hc := size_of_isQuote hquote
    refine (scanExpression?_narrow hq h hc).trans ?_
    dsimp only
    rw [if_pos hquote]
    exact ih (narrow_some hc) (Text.suffix_of_cons h)
  | case6 n r hquote ih =>
    refine (scanExpression?_narrow hq h rfl).trans ?_
    dsimp only
    rw [if_neg hquote, if_pos rfl]
    exact ih narrow_none (Text.suffix_of_cons h)
  | case7 r hquote hopen =>
    refine (scanExpression?_narrow hq h rfl).trans ?_
    dsimp only
    rw [if_neg hquote, if_neg hopen, if_pos rfl, if_neg Nat.one_ne_zero, if_pos rfl]
  | case8 r n hquote hopen ih =>
    refine (scanExpression?_narrow hq h rfl).trans ?_
    dsimp only
    rw [if_neg hquote, if_neg hopen, if_pos rfl, if_neg (Nat.succ_ne_zero _), Nat.add_sub_cancel,
      if_neg (Nat.succ_ne_zero n)]
    exact ih narrow_none (Text.suffix_of_cons h)
  | case9 n c r hquote hopen hclose ih =>
    have ih := ih narrow_none (Text.suffix_of_cons h)
    by_cases hc : c.utf8Size = 1
    · refine (scanExpression?_narrow hq h hc).trans ?_
      dsimp only
      rw [if_neg hquote, if_neg hopen, if_neg hclose]
      exact ih
    · exact (scanExpression?_wide hq h hc (Nat.zero_le _)).trans ih

/-! ## Tokens -/

theorem textEnd_eq (s : String) (i : Nat) : textEnd s i =
    match byteAt? s i with
    | none => s.utf8ByteSize
    | some b => if b = '<'.toUInt8 ∨ b = '\x7b'.toUInt8 then i else textEnd s (i + 1) := by
  rw [textEnd]
  split
  all_goals
    rename_i hb
    generalize byteAt? s i = o at hb ⊢
    subst hb
    rfl

theorem passes_textEnd (h : byteAt? s i = some b) (hb : 128 ≤ b) : textEnd s i = textEnd s (i + 1) := by
  rw [textEnd_eq, h]
  dsimp only
  rw [if_neg (not_or.mpr ⟨ne_toUInt8 hb rfl, ne_toUInt8 hb rfl⟩)]

theorem isText_iff : Layout.isText c = true ↔ c ≠ '<' ∧ c ≠ '\x7b' := by
  rw [Layout.isText, Bool.and_eq_true, bne_iff_ne, bne_iff_ne]

theorem textEnd_offset (h : r <:+ s.toList) : textEnd s (offset s r) = offset s (r.dropWhile Layout.isText) := by
  induction r with
  | nil =>
    rw [textEnd_eq, Text.byteAt?_nil]
    rfl
  | cons c r ih =>
    have ih := ih (Text.suffix_of_cons h)
    by_cases hc : c.utf8Size = 1
    · rw [textEnd_eq, Text.byteAt?_narrow h hc, offset_succ h hc]
      simp only [Text.toUInt8_inj hc size_begin, Text.toUInt8_inj hc size_open]
      by_cases hstop : c = '<' ∨ c = '\x7b'
      · rw [if_pos hstop, List.dropWhile_cons_of_neg]
        exact fun htext => not_or.mpr (isText_iff.mp htext) hstop
      · rw [if_neg hstop, List.dropWhile_cons_of_pos (isText_iff.mpr (not_or.mp hstop)), ih]
    · have hpass : textEnd s (offset s (c :: r)) = textEnd s (offset s r) :=
        Text.eq_offset_of_passes (fun _ _ => passes_textEnd) h hc (Nat.zero_le _)
      rw [hpass, List.dropWhile_cons_of_pos (isText_iff.mpr ⟨ne_of_wide hc rfl, ne_of_wide hc rfl⟩), ih]

/-- The first byte of a character tells whether it begins a tag or an expression. -/
theorem byte_eq_iff (h : c :: r <:+ s.toList) (hb : byteAt? s (offset s (c :: r)) = some b) (hd : d.utf8Size = 1) :
    b = d.toUInt8 ↔ c = d := by
  by_cases hc : c.utf8Size = 1
  · rw [Text.byteAt?_narrow h hc] at hb
    cases hb
    exact Text.toUInt8_inj hc hd
  · obtain ⟨b', hb', hwide⟩ := Text.byteAt?_wide h hc c.utf8Size_pos
    rw [Nat.add_zero, hb] at hb'
    cases hb'
    exact iff_of_false (ne_toUInt8 hwide hd) (ne_of_wide hc hd)

theorem tokenEnd?_offset (h : c :: r <:+ s.toList) (hb : byteAt? s (offset s (c :: r)) = some b) :
    tokenEnd? s b (offset s (c :: r)) = some (offset s (Layout.scan c r).2) := by
  have hr := Text.suffix_of_cons h
  unfold tokenEnd? Layout.scan Layout.before
  simp only [byte_eq_iff h hb size_begin, byte_eq_iff h hb size_open]
  split_ifs with htag hopen
  · subst htag
    rw [offset_succ h rfl, Option.some.injEq]
    exact @scanTag_offset s r none 0 narrow_none hr
  · -- the first brace is that of the expression itself
    subst hopen
    refine (@scanExpression?_narrow s _ r none 0 narrow_none h rfl).trans ?_
    exact @scanExpression?_offset s r none 0 narrow_none hr
  · rw [textEnd_offset h, List.dropWhile_cons_of_pos (isText_iff.mpr ⟨htag, hopen⟩)]

/-- A backslash that skips into a character of two bytes, in quotes that hold a brace. -/
example : tokenEnd? "\x7b'\\é\x7d'\x7d<" '\x7b'.toUInt8 0 = some 8 := by decide +kernel

theorem suffix_scan (h : c :: r <:+ s.toList) : (Layout.scan c r).2 <:+ s.toList :=
  List.IsSuffix.trans ⟨_, Layout.scan_append c r⟩ h

theorem offset_lt_scan (h : c :: r <:+ s.toList) : offset s (c :: r) < offset s (Layout.scan c r).2 :=
  Text.offset_lt h (suffix_scan h) (Nat.lt_succ_of_le (Layout.length_scan c r))

theorem tokensFrom?_eq (s : String) (i : Nat) : tokensFrom? s i =
    match byteAt? s i with
    | none => some []
    | some b =>
      match tokenEnd? s b i with
      | none => none
      | some stop =>
        if i < stop then do
          let token ← (slice? s i stop).map Text.trim
          let more ← tokensFrom? s stop
          return if token.isEmpty then more else ⟨Layout.kindOf token, token⟩ :: more
        else none := by
  rw [tokensFrom?]
  split
  all_goals
    rename_i hb
    generalize byteAt? s i = o at hb ⊢
    subst hb
    rfl

theorem tokensFrom?_offset (h : r <:+ s.toList) : tokensFrom? s (offset s r) = some (Layout.tokens r) := by
  induction hn : r.length using Nat.strongRecOn generalizing r with
  | _ n ih =>
    subst hn
    rw [tokensFrom?_eq, Layout.tokens.eq_def]
    cases r with
    | nil => rw [Text.byteAt?_nil]
    | cons c r =>
      have hshort : (Layout.scan c r).2.length < (c :: r).length := Nat.lt_succ_of_le (Layout.length_scan c r)
      have hslice : slice? s (offset s (c :: r)) (offset s (Layout.scan c r).2) = some (Layout.scan c r).1 := by
        have happend := Layout.scan_append c r
        rw [← Text.slice?_offset (happend ▸ h), happend]
      obtain ⟨b, hb⟩ := Text.exists_byteAt? h
      rw [hb]
      dsimp only
      rw [tokenEnd?_offset h hb]
      dsimp only
      rw [if_pos (offset_lt_scan h), hslice, ih _ hshort (suffix_scan h) rfl]
      rfl

theorem format?_eq (s : String) : format? s = some (Layout.format s.toList) := by
  have htokens := tokensFrom?_offset (List.suffix_refl s.toList)
  rw [Text.offset_toList] at htokens
  rw [format?, htokens]
  rfl

end SvgComponent.Jsx.Offsets
