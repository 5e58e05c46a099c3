/-
  SvgComponent.Proofs.Decimal.Carry — rounding on the digits themselves.

  To round away from zero at a place, the digits behind it are cut off, and if the first of these is five or more, one
  is carried into those that are kept: nines become zeros until another digit, or a new one in front, takes it
  (`carry`). The digits that come of it are those of the nearest quotient (`digitsValue_roundDigits`), so what is
  written of a rounded fraction is what rounding its digits writes (`text_round`).
-/

import SvgComponent.Proofs.Decimal.Numerals

namespace SvgComponent

namespace Text

/-! ## Digits and their numbers -/

/-- Digits without the zeros in front, but for a last one. -/
def trimZeros (s : List Char) : List Char :=
  match s.dropWhile (· == '0') with
  | [] => ['0']
  | t => t

theorem trimZeros_zero (s : List Char) : trimZeros ('0' :: s) = trimZeros s := rfl

theorem trimZeros_cons {c : Char} (hc : c ≠ '0') (s : List Char) : trimZeros (c :: s) = c :: s := by
  rw [trimZeros, List.dropWhile_cons_of_neg (by simpa using hc)]

theorem digitsValue_cons (c : Char) (s : List Char) :
    digitsValue (c :: s) = (c.toNat - 48) * 10 ^ s.length + digitsValue s := by
  rw [← List.singleton_append, digitsValue_append]
  simp [digitsValue]

theorem digit_bounds {c : Char} (h : c.isDigit = true) : 48 ≤ c.toNat ∧ c.toNat ≤ 57 := by
  simpa [Char.isDigit, UInt32.le_iff_toNat_le] using h

theorem digitsValue_lt {s : List Char} (hs : ∀ c ∈ s, c.isDigit = true) : digitsValue s < 10 ^ s.length := by
  induction s with
  | nil => decide
  | cons c s ih =>
    rw [List.forall_mem_cons] at hs
    have hc := digit_bounds hs.1
    have hrest := ih hs.2
    have hdigit : (c.toNat - 48) * 10 ^ s.length ≤ 9 * 10 ^ s.length := Nat.mul_le_mul_right _ (by omega)
    rw [digitsValue_cons, List.length_cons, Nat.pow_succ]
    omega

/-- The last digits are what is left when the number is divided by their power of ten. -/
theorem digitsValue_append_divMod (s : List Char) {t : List Char} (ht : ∀ c ∈ t, c.isDigit = true) :
    digitsValue (s ++ t) / 10 ^ t.length = digitsValue s ∧ digitsValue (s ++ t) % 10 ^ t.length = digitsValue t := by
  have hlt := digitsValue_lt ht
  rw [digitsValue_append, Nat.mul_add_mod_self_right, Nat.mod_eq_of_lt hlt, Nat.add_comm,
    Nat.add_mul_div_right _ _ (Nat.zero_lt_of_lt hlt), Nat.div_eq_of_lt hlt, Nat.zero_add]
  exact ⟨rfl, rfl⟩

/-- Further digits are written behind those of a number that is not zero. -/
theorem natDigits_append {n : Nat} (hn : 0 < n) {s : List Char} (hs : ∀ c ∈ s, c.isDigit = true) :
    natDigits (n * 10 ^ s.length + digitsValue s) = natDigits n ++ s := by
  induction s generalizing n with
  | nil => simp [digitsValue]
  | cons c s ih =>
    rw [List.forall_mem_cons] at hs
    have hc := digit_bounds hs.1
    have hdigit : (c.toNat - 48).digitChar = c := by
      apply Char.toNat_inj.mp
      rw [Nat.toNat_digitChar_of_lt_ten (by omega)]
      omega
    have hnext : natDigits (10 * n + (c.toNat - 48)) = natDigits n ++ [c] := by
      have hlt : c.toNat - 48 < 10 := by omega
      have happend := Nat.toDigits_append_toDigits (by decide) hn hlt
      rw [Nat.toDigits_of_lt_base hlt, hdigit] at happend
      exact happend.symm
    have hvalue : n * 10 ^ (c :: s).length + digitsValue (c :: s) =
        (10 * n + (c.toNat - 48)) * 10 ^ s.length + digitsValue s := by
      rw [digitsValue_cons, List.length_cons, Nat.pow_succ]
      ring
    rw [hvalue, ih (by omega) hs.2, hnext, List.append_assoc, List.singleton_append]

/-- The number that digits spell is written as they are, but for zeros in front. -/
theorem natDigits_digitsValue {s : List Char} (hs : ∀ c ∈ s, c.isDigit = true) :
    natDigits (digitsValue s) = trimZeros s := by
  induction s with
  | nil => rfl
  | cons c s ih =>
    rw [List.forall_mem_cons] at hs
    by_cases hc : c = '0'
    · subst hc
      rw [trimZeros_zero, ← ih hs.2, digitsValue_cons]
      congr 1
      simp
    · have hdigit := digit_bounds hs.1
      have hne : c.toNat ≠ 48 := fun h => hc (Char.toNat_inj.mp h)
      have hone : natDigits (c.toNat - 48) = [c] := by
        rw [natDigits, Nat.toDigits_of_lt_base (by omega)]
        congr 1
        apply Char.toNat_inj.mp
        rw [Nat.toNat_digitChar_of_lt_ten (by omega)]
        omega
      rw [trimZeros_cons hc, digitsValue_cons, natDigits_append (by omega) hs.2, hone, List.singleton_append]

theorem length_trimZeros_le {s : List Char} (hs : s ≠ []) : (trimZeros s).length ≤ s.length := by
  induction s with
  | nil => exact absurd rfl hs
  | cons c s ih =>
    by_cases hc : c = '0'
    · subst hc
      rw [trimZeros_zero]
      cases s with
      | nil => exact Nat.le_refl _
      | cons d s => exact (ih (List.cons_ne_nil d s)).trans (Nat.le_succ _)
    · rw [trimZeros_cons hc]

theorem replicate_append_trimZeros {s : List Char} (hs : s ≠ []) :
    List.replicate (s.length - (trimZeros s).length) '0' ++ trimZeros s = s := by
  induction s with
  | nil => exact absurd rfl hs
  | cons c s ih =>
    by_cases hc : c = '0'
    · subst hc
      rw [trimZeros_zero]
      cases s with
      | nil => rfl
      | cons d s =>
        have hle := length_trimZeros_le (List.cons_ne_nil d s)
        rw [List.length_cons, Nat.succ_sub hle, List.replicate_succ, List.cons_append, ih (List.cons_ne_nil d s)]
    · rw [trimZeros_cons hc, Nat.sub_self]
      rfl

/-- Digits are the number they spell, filled up to their length. -/
theorem padDigits_digitsValue {s : List Char} (hs : ∀ c ∈ s, c.isDigit = true) (hne : s ≠ []) :
    padDigits s.length (digitsValue s) = s := by
  rw [padDigits, natDigits_digitsValue hs]
  exact replicate_append_trimZeros hne

theorem digitsValue_eq_zero_iff {s : List Char} (hs : ∀ c ∈ s, c.isDigit = true) :
    digitsValue s = 0 ↔ ∀ c ∈ s, c = '0' := by
  induction s with
  | nil => simp [digitsValue]
  | cons c s ih =>
    rw [List.forall_mem_cons] at hs ⊢
    have hc := digit_bounds hs.1
    have hzero : c.toNat - 48 = 0 ↔ c = '0' := by
      rw [← Char.toNat_inj]
      show c.toNat - 48 = 0 ↔ c.toNat = 48
      omega
    rw [digitsValue_cons, Nat.add_eq_zero_iff, Nat.mul_eq_zero, ih hs.2, hzero,
      or_iff_left (Nat.pos_iff_ne_zero.mp (Nat.pow_pos (by decide)))]

end Text

namespace Decimal

/-! ## The carry -/

/-- Adds one to the number that the digits spell, the last digit first. -/
def carry : List Char → List Char
  | [] => ['1']
  | c :: s => if c = '9' then '0' :: carry s else Char.ofNat (c.toNat + 1) :: s

/-- The digits before a place, with one carried into them if the digit at the place is five or more. -/
def roundDigits (places : Nat) (whole decimals : List Char) : List Char :=
  let kept := whole ++ decimals.take places
  if decimals[places]?.any ('5' ≤ ·) then (carry kept.reverse).reverse else kept

/-- What is written of digits that are rounded at a place. -/
def roundedText (minus : Bool) (places : Nat) (whole decimals : List Char) : List Char :=
  let digits := roundDigits places whole decimals
  let front := digits.length - places
  let magnitude := Text.trimZeros (digits.take front) ++ (if places = 0 then [] else '.' :: digits.drop front)
  if minus && digits.any (· != '0') then '-' :: magnitude else magnitude

theorem toNat_succ {c : Char} (h : c.isDigit = true) : (Char.ofNat (c.toNat + 1)).toNat = c.toNat + 1 := by
  have hc := Text.digit_bounds h
  rw [Char.ofNat, dif_pos (Or.inl (by omega))]
  rfl

theorem isDigit_carry {s : List Char} (hs : ∀ c ∈ s, c.isDigit = true) : ∀ c ∈ carry s, c.isDigit = true := by
  induction s with
  | nil => decide
  | cons c s ih =>
    rw [List.forall_mem_cons] at hs
    rw [carry]
    split
    · exact List.forall_mem_cons.mpr ⟨by decide, ih hs.2⟩
    · rename_i hnine
      refine List.forall_mem_cons.mpr ⟨?_, hs.2⟩
      have hc := Text.digit_bounds hs.1
      have hne : c.toNat ≠ 57 := fun h => hnine (Char.toNat_inj.mp h)
      have hsucc := toNat_succ hs.1
      simp only [Char.isDigit, ge_iff_le, UInt32.le_iff_toNat_le, Bool.and_eq_true, decide_eq_true_eq]
      change 48 ≤ (Char.ofNat (c.toNat + 1)).toNat ∧ (Char.ofNat (c.toNat + 1)).toNat ≤ 57
      omega

theorem length_le_carry (s : List Char) : s.length ≤ (carry s).length := by
  induction s with
  | nil => exact Nat.zero_le _
  | cons c s ih =>
    rw [carry]
    split
    · exact Nat.succ_le_succ ih
    · exact Nat.le_refl _

theorem digitsValue_carry {s : List Char} (hs : ∀ c ∈ s, c.isDigit = true) :
    Text.digitsValue (carry s).reverse = Text.digitsValue s.reverse + 1 := by
  have hlast (c : Char) (s : List Char) :
      Text.digitsValue (c :: s).reverse = Text.digitsValue s.reverse * 10 + (c.toNat - 48) := by
    rw [List.reverse_cons, Text.digitsValue_append, Text.digitsValue_cons]
    simp [Text.digitsValue]
  induction s with
  | nil => rfl
  | cons c s ih =>
    rw [List.forall_mem_cons] at hs
    rw [carry]
    split
    · rename_i hnine
      subst hnine
      rw [hlast, hlast, ih hs.2]
      show (Text.digitsValue s.reverse + 1) * 10 + 0 = Text.digitsValue s.reverse * 10 + 9 + 1
      omega
    · have hc := Text.digit_bounds hs.1
      rw [hlast, hlast, toNat_succ hs.1]
      omega

/-! ## Rounded digits -/

variable {places : Nat} {whole decimals : List Char}

theorem isDigit_roundDigits (places : Nat) (hwhole : ∀ c ∈ whole, c.isDigit = true)
    (hdecimals : ∀ c ∈ decimals, c.isDigit = true) :
    ∀ c ∈ roundDigits places whole decimals, c.isDigit = true := by
  have hkept : ∀ c ∈ whole ++ decimals.take places, c.isDigit = true := by
    intro c hc
    rcases List.mem_append.mp hc with hc | hc
    · exact hwhole c hc
    · exact hdecimals c (List.mem_of_mem_take hc)
  unfold roundDigits
  dsimp only
  split
  · intro c hc
    exact isDigit_carry (fun c hc => hkept c (List.mem_reverse.mp hc)) c (List.mem_reverse.mp hc)
  · exact hkept

theorem lt_length_roundDigits (hwhole : whole ≠ []) (h : places < decimals.length) :
    places < (roundDigits places whole decimals).length := by
  have hkept : places < (whole ++ decimals.take places).length := by
    have := List.length_pos_of_ne_nil hwhole
    rw [List.length_append, List.length_take]
    omega
  unfold roundDigits
  dsimp only
  split
  · have := length_le_carry (whole ++ decimals.take places).reverse
    rw [List.length_reverse] at this ⊢
    omega
  · exact hkept

/-- Half the divisor is reached just if the first digit that is cut off is five or more. -/
theorem half_le_digitsValue_iff {c : Char} {s : List Char} (hc : c.isDigit = true) (hs : ∀ c ∈ s, c.isDigit = true) :
    10 ^ (s.length + 1) ≤ 2 * Text.digitsValue (c :: s) ↔ '5' ≤ c := by
  have hlt := Text.digitsValue_lt hs
  have hbounds := Text.digit_bounds hc
  have hfive : '5' ≤ c ↔ 5 ≤ c.toNat - 48 := by
    show (53 : Nat) ≤ c.toNat ↔ _
    omega
  rw [Text.digitsValue_cons, Nat.pow_succ, hfive]
  constructor
  · intro h
    by_contra hless
    have : (c.toNat - 48) * 10 ^ s.length ≤ 4 * 10 ^ s.length := Nat.mul_le_mul_right _ (by omega)
    omega
  · intro h
    have : 5 * 10 ^ s.length ≤ (c.toNat - 48) * 10 ^ s.length := Nat.mul_le_mul_right _ h
    omega

/-- Rounded digits spell the nearest quotient. -/
theorem digitsValue_roundDigits (hwhole : ∀ c ∈ whole, c.isDigit = true) (hdecimals : ∀ c ∈ decimals, c.isDigit = true)
    (h : places < decimals.length) : Text.digitsValue (roundDigits places whole decimals) =
      Tie.away.roundDiv (Text.digitsValue (whole ++ decimals)) (10 ^ (decimals.length - places)) := by
  have hdrop : decimals.drop places = decimals[places] :: decimals.drop (places + 1) := List.drop_eq_getElem_cons h
  have hlength : (decimals.drop places).length = decimals.length - places := List.length_drop
  have hdigits : ∀ c ∈ decimals.drop places, c.isDigit = true := fun c hc => hdecimals c (List.mem_of_mem_drop hc)
  have hsplit : whole ++ decimals = (whole ++ decimals.take places) ++ decimals.drop places := by
    rw [List.append_assoc, List.take_append_drop]
  obtain ⟨hquotient, hremainder⟩ := Text.digitsValue_append_divMod (whole ++ decimals.take places) hdigits
  have hhalf : 10 ^ (decimals.drop places).length < 2 * Text.digitsValue (decimals.drop places) ∨
      10 ^ (decimals.drop places).length = 2 * Text.digitsValue (decimals.drop places) ↔ '5' ≤ decimals[places] := by
    rw [hdrop] at hdigits ⊢
    rw [List.forall_mem_cons] at hdigits
    rw [← Nat.le_iff_lt_or_eq]
    exact half_le_digitsValue_iff hdigits.1 hdigits.2
  have hup : decimals[places]?.any ('5' ≤ ·) = true ↔ '5' ≤ decimals[places] := by
    rw [List.getElem?_eq_getElem h, Option.any_some, decide_eq_true_eq]
  have hkept : ∀ c ∈ (whole ++ decimals.take places).reverse, c.isDigit = true := by
    intro c hc
    rcases List.mem_append.mp (List.mem_reverse.mp hc) with hc | hc
    · exact hwhole c hc
    · exact hdecimals c (List.mem_of_mem_take hc)
  rw [roundDigits, Tie.roundDiv, hsplit, ← hlength, hquotient, hremainder]
  simp only [true_or, and_true, hup, hhalf]
  split
  · rw [digitsValue_carry hkept, List.reverse_reverse]
  · rfl

/-- What is written of a rounded fraction is what is written of its rounded digits. -/
theorem text_round (n : Numeral) (h : places < n.decimals.length) :
    (n.decimal.round .away places).text = roundedText n.minus places n.whole n.decimals := by
  obtain ⟨hne, hwhole⟩ := Text.isNumeral_iff.mp n.isNumeral_whole
  have hvalue := digitsValue_roundDigits hwhole n.isDigit_decimals h
  have hdigits := isDigit_roundDigits places hwhole n.isDigit_decimals
  have hlength := lt_length_roundDigits hne h
  have hround : n.decimal.round .away places =
      ⟨n.minus, Text.digitsValue (roundDigits places n.whole n.decimals), places⟩ := by
    rw [hvalue]
    exact if_pos h
  rw [hround, roundedText]
  generalize roundDigits places n.whole n.decimals = digits at hdigits hlength
  set front := digits.length - places with hfront
  have hback : (digits.drop front).length = places := by
    rw [List.length_drop]
    omega
  have hbackDigits : ∀ c ∈ digits.drop front, c.isDigit = true := fun c hc => hdigits c (List.mem_of_mem_drop hc)
  have hdivMod := Text.digitsValue_append_divMod (digits.take front) hbackDigits
  rw [List.take_append_drop, hback] at hdivMod
  obtain ⟨hquotient, hremainder⟩ : Text.digitsValue digits / Nat.pow 10 places = _ ∧
    Text.digitsValue digits % Nat.pow 10 places = _ := hdivMod
  have hmagnitude : magnitude ⟨n.minus, Text.digitsValue digits, places⟩ =
      Text.trimZeros (digits.take front) ++ (if places = 0 then [] else '.' :: digits.drop front) := by
    rw [magnitude, hquotient, hremainder,
      Text.natDigits_digitsValue fun c hc => hdigits c (List.mem_of_mem_take hc)]
    split
    · rfl
    · rename_i hplaces
      have hpad := Text.padDigits_digitsValue hbackDigits fun hnil => hplaces (by rw [← hback, hnil]; rfl)
      rw [hback] at hpad
      rw [hpad]
  have hzero : (Text.digitsValue digits != 0) = digits.any (· != '0') := by
    rw [Bool.eq_iff_iff, bne_iff_ne, Ne, Text.digitsValue_eq_zero_iff hdigits, List.any_eq_true]
    simp
  rw [text, hmagnitude, hzero]

end Decimal

end SvgComponent
