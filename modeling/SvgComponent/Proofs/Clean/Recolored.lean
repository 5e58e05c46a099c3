/-
  SvgComponent.Proofs.Clean.Recolored — which colors are rewritten, and to what.

  A color is rewritten just if it names three channels (`NamesChannels`) and is a fill or a stroke. Cut at its commas it
  has the channels for its parts, because neither digits nor blanks are commas (`rgbToHex?_eq_some_iff`). The new value
  is a number sign and six digits that stand for the same channels (`SpellsChannels`); all else stays as it was
  (`recolors_hexColors`).
-/

import SvgComponent.Proofs.Clean.Repetition
import SvgComponent.Proofs.Decimal.Numerals
import SvgComponent.Proofs.Markup.Reading

namespace SvgComponent.Markup

/-! ## Three channels by their names -/

/-- A number up to 255, in digits with any number of zeros before and blanks around. -/
structure IsChannel (s : List Char) (n : Nat) : Prop where
  numeral : Text.isNumeral (Text.trim s) = true
  value : Text.digitsValue (Text.trim s) = n
  le : n ≤ 255

/-- Between blanks, `rgb(` in any letter case, three channels with commas between them, and a closing parenthesis. -/
def NamesChannels (v : List Char) (r g b : Nat) : Prop :=
  ∃ name red green blue, Text.trim v = name ++ (red ++ ',' :: (green ++ ',' :: blue)) ++ [')'] ∧
    name.map Char.toLower = ['r', 'g', 'b', '('] ∧ IsChannel red r ∧ IsChannel green g ∧ IsChannel blue b

theorem channel?_eq_some_iff {s : List Char} {n : Nat} : channel? s = some n ↔ IsChannel s n := by
  unfold channel?
  dsimp only
  constructor
  · intro h
    split at h
    · rename_i hs
      cases h
      exact ⟨hs.1, rfl, hs.2⟩
    · cases h
  · rintro ⟨hnumeral, rfl, hle⟩
    rw [if_pos ⟨hnumeral, hle⟩]

/-- Neither digits nor blanks are commas. -/
theorem IsChannel.comma_not_mem {s : List Char} {n : Nat} (h : IsChannel s n) : ',' ∉ s := by
  intro hc
  obtain ⟨left, right, hs, hleft, hright⟩ := Text.exists_trimWhile_eq Text.isBlank s
  rw [← Text.trim] at hs
  rw [hs, List.mem_append, List.mem_append] at hc
  rcases hc with hc | hc | hc
  · exact absurd (hleft ',' hc) (by decide)
  · exact absurd ((Text.isNumeral_iff.mp h.numeral).2 ',' hc) (by decide)
  · exact absurd (hright ',' hc) (by decide)

theorem rgbArguments?_eq_some_iff {v inner : List Char} : rgbArguments? v = some inner ↔
    ∃ name, Text.trim v = name ++ inner ++ [')'] ∧ name.map Char.toLower = ['r', 'g', 'b', '('] := by
  unfold rgbArguments?
  dsimp only
  generalize Text.trim v = s
  constructor
  · intro h
    split at h
    · rename_i hs
      cases h
      refine ⟨s.take 4, ?_, hs.1⟩
      rw [List.append_assoc, List.dropLast_append_getLast? ')' hs.2, List.take_append_drop]
    · cases h
  · rintro ⟨name, rfl, hname⟩
    have hlength : name.length = 4 := by
      rw [← List.length_map (f := Char.toLower), hname]
      rfl
    have htake : (name ++ inner ++ [')']).take 4 = name := by
      rw [List.append_assoc, ← hlength, List.take_left]
    have hdrop : (name ++ inner ++ [')']).drop 4 = inner ++ [')'] := by
      rw [List.append_assoc, ← hlength, List.drop_left]
    rw [htake, hdrop, List.getLast?_concat, List.dropLast_concat, if_pos ⟨hname, rfl⟩]

/-- Three parts without commas, and a text that is cut into them. -/
theorem splitOn_comma_iff {inner red green blue : List Char} (hr : ',' ∉ red) (hg : ',' ∉ green) (hb : ',' ∉ blue) :
    inner.splitOn ',' = [red, green, blue] ↔ inner = red ++ ',' :: (green ++ ',' :: blue) := by
  constructor
  · intro h
    have hjoin : [','].intercalate (inner.splitOn ',') = inner := List.intercalate_splitOn ','
    rw [h] at hjoin
    rw [← hjoin]
    simp [List.intercalate_cons_cons]
  · rintro rfl
    rw [List.splitOn_append_cons_self_of_not_mem hr, List.splitOn_append_cons_self_of_not_mem hg,
      List.splitOn_eq_singleton hb]

theorem rgbToHex?_eq_some_iff {v w : List Char} : rgbToHex? v = some w ↔
    ∃ r g b, NamesChannels v r g b ∧ w = '#' :: (Text.hexPair r ++ Text.hexPair g ++ Text.hexPair b) := by
  unfold rgbToHex?
  constructor
  · intro h
    obtain ⟨inner, hinner, h⟩ := Option.bind_eq_some_iff.mp h
    obtain ⟨name, hv, hname⟩ := rgbArguments?_eq_some_iff.mp hinner
    split at h
    · rename_i red green blue hparts
      simp only [Option.bind_eq_bind, Option.bind_eq_some_iff, Option.pure_def, Option.some.injEq,
        channel?_eq_some_iff] at h
      obtain ⟨r, hr, g, hg, b, hb, rfl⟩ := h
      rw [splitOn_comma_iff hr.comma_not_mem hg.comma_not_mem hb.comma_not_mem] at hparts
      exact ⟨r, g, b, ⟨name, red, green, blue, hparts ▸ hv, hname, hr, hg, hb⟩, rfl⟩
    · cases h
  · rintro ⟨r, g, b, ⟨name, red, green, blue, hv, hname, hr, hg, hb⟩, rfl⟩
    have hparts := (splitOn_comma_iff hr.comma_not_mem hg.comma_not_mem hb.comma_not_mem).mpr rfl
    rw [rgbArguments?_eq_some_iff.mpr ⟨name, hv, hname⟩, Option.bind_eq_bind, Option.bind_some, hparts]
    simp [channel?_eq_some_iff.mpr hr, channel?_eq_some_iff.mpr hg, channel?_eq_some_iff.mpr hb]

/-! ## Three channels in hexadecimal digits -/

def isLowerHex (c : Char) : Bool := c.isDigit || ('a' ≤ c && c ≤ 'f')

/-- The numbers that pairs of hexadecimal digits spell. -/
def hexChannels? : List Char → Option (List Nat)
  | [] => some []
  | [_] => none
  | high :: low :: s => do
    let high ← Text.hexValue? high
    let low ← Text.hexValue? low
    return (16 * high + low) :: (← hexChannels? s)

/-- A number sign and six digits, two for each channel. -/
def SpellsChannels (v : List Char) (r g b : Nat) : Prop :=
  ∃ digits, v = '#' :: digits ∧ digits.length = 6 ∧ (∀ c ∈ digits, isLowerHex c = true) ∧
    hexChannels? digits = some [r, g, b]

theorem hexDigit_spells {n : Nat} (hn : n < 16) :
    isLowerHex (Text.hexDigit n) = true ∧ Text.hexValue? (Text.hexDigit n) = some n := by
  have : ∀ m : Fin 16, isLowerHex (Text.hexDigit m) = true ∧ Text.hexValue? (Text.hexDigit m) = some m.1 := by decide
  exact this ⟨n, hn⟩

theorem hexChannels?_hexPair {n : Nat} (hn : n ≤ 255) (s : List Char) :
    hexChannels? (Text.hexPair n ++ s) = (hexChannels? s).map (n :: ·) := by
  have hhigh := (hexDigit_spells (n := n / 16) (by omega)).2
  have hlow := (hexDigit_spells (n := n % 16) (by omega)).2
  have hsum : 16 * (n / 16) + n % 16 = n := Nat.div_add_mod n 16
  rw [Text.hexPair, List.cons_append, List.cons_append, List.nil_append, hexChannels?, hhigh, hlow]
  simp only [Option.bind_eq_bind, Option.bind_some, hsum]
  cases hexChannels? s <;> rfl

theorem isLowerHex_hexPair {n : Nat} (hn : n ≤ 255) : ∀ c ∈ Text.hexPair n, isLowerHex c = true := by
  rw [Text.hexPair, List.forall_mem_cons, List.forall_mem_singleton]
  exact ⟨(hexDigit_spells (by omega)).1, (hexDigit_spells (by omega)).1⟩

theorem spellsChannels_hexPairs {r g b : Nat} (hr : r ≤ 255) (hg : g ≤ 255) (hb : b ≤ 255) :
    SpellsChannels ('#' :: (Text.hexPair r ++ Text.hexPair g ++ Text.hexPair b)) r g b := by
  refine ⟨_, rfl, rfl, ?_, ?_⟩
  · rw [List.forall_mem_append, List.forall_mem_append]
    exact ⟨⟨isLowerHex_hexPair hr, isLowerHex_hexPair hg⟩, isLowerHex_hexPair hb⟩
  · rw [List.append_assoc, hexChannels?_hexPair hr, hexChannels?_hexPair hg, ← List.append_nil (Text.hexPair b),
      hexChannels?_hexPair hb]
    rfl

/-! ## The pass -/

/-- An unprefixed fill or stroke. -/
def Attribute.IsPaint (a : Attribute) : Prop := a.name.is "fill" = true ∨ a.name.is "stroke" = true

/-- What becomes of an attribute: a fill or stroke that names its channels is written in hexadecimal digits. -/
structure Recolors (a a' : Attribute) : Prop where
  name : a'.name = a.name
  rewritten_iff : a'.value ≠ a.value ↔ a.IsPaint ∧ ∃ r g b, NamesChannels a.value.toList r g b
  same_color : ∀ r g b, a.IsPaint → NamesChannels a.value.toList r g b → SpellsChannels a'.value.toList r g b

theorem hexColor?_eq_some_iff {a : Attribute} {w : String} :
    a.hexColor? = some w ↔ a.IsPaint ∧ rgbToHex? a.value.toList = some w.toList := by
  unfold Attribute.hexColor? Attribute.IsPaint
  rw [← Bool.or_eq_true]
  split
  · rename_i hpaint
    rw [Option.map_eq_some_iff]
    constructor
    · rintro ⟨t, ht, rfl⟩
      rw [String.toList_ofList]
      exact ⟨hpaint, ht⟩
    · exact fun h => ⟨w.toList, h.2, String.ofList_toList⟩
  · rename_i hpaint
    constructor
    · intro h
      cases h
    · exact fun h => absurd h.1 hpaint

theorem recolors_hexColor? (a : Attribute) :
    Recolors a ((a.hexColor?).elim a fun v => { a with value := v }) := by
  cases h : a.hexColor? with
  | none =>
    have hno : ∀ r g b, a.IsPaint → ¬ NamesChannels a.value.toList r g b := by
      intro r g b hpaint hnames
      have hhex := rgbToHex?_eq_some_iff.mpr ⟨r, g, b, hnames, rfl⟩
      have hsome := hexColor?_eq_some_iff.mpr ⟨hpaint, hhex.trans (congrArg some String.toList_ofList.symm)⟩
      rw [h] at hsome
      cases hsome
    refine ⟨rfl, ⟨fun hne => absurd rfl hne, ?_⟩, fun r g b hpaint hnames => absurd hnames (hno r g b hpaint)⟩
    rintro ⟨hpaint, r, g, b, hnames⟩
    exact absurd hnames (hno r g b hpaint)
  | some w =>
    obtain ⟨hpaint, hhex⟩ := hexColor?_eq_some_iff.mp h
    obtain ⟨r, g, b, hnames, -⟩ := rgbToHex?_eq_some_iff.mp hhex
    refine ⟨rfl, ⟨fun _ => ⟨hpaint, r, g, b, hnames⟩, fun _ heq => ?_⟩, ?_⟩
    · -- What was written is not rewritten, so it is not what was there before.
      have hagain := hexColor?_hexColor? h
      rw [show w = a.value from heq, h] at hagain
      cases hagain
    · intro r' g' b' _ hnames'
      have hhex' := rgbToHex?_eq_some_iff.mpr ⟨r', g', b', hnames', rfl⟩
      rw [hhex, Option.some.injEq] at hhex'
      obtain ⟨_, _, _, _, _, _, hr, hg, hb⟩ := hnames'
      exact hhex' ▸ spellsChannels_hexPairs hr.le hg.le hb.le

/-- Of the attributes of attached elements, just the fills and strokes that name their channels are rewritten, each in
    digits for the same channels. Nothing else that a node holds is changed. -/
theorem recolors_hexColors (d : Document) :
    (∀ i e, d.isAttached i = true → d.content i = .element e → ∃ e', d.hexColors.1.content i = .element e' ∧
      e'.name = e.name ∧ List.Forall₂ Recolors e.attributes e'.attributes) ∧
    (∀ i, d.isAttached i = false ∨ (d.content i).isElement = false → d.hexColors.1.content i = d.content i) ∧
    ∀ i, d.hexColors.1.children i = d.children i := by
  refine ⟨fun i e hi he => ?_, fun i hi => ?_, fun i => Document.children_editElements _ d i⟩
  · have hcontent := Document.content_edited_of_below (f := Element.replaceValues Attribute.hexColor?)
      (Document.isAttached_iff.mp hi)
    rw [he] at hcontent
    refine ⟨_, hcontent, rfl, ?_⟩
    rw [Element.replaceValues, List.forall₂_map_right_iff, List.forall₂_same]
    exact fun a _ => recolors_hexColor? a
  · refine (Document.content_editElements _ d i).trans (if_neg fun hmem => ?_)
    have helement := Change.isElement_of_mem_elementIds hmem
    have hattached := Document.isAttached_iff.mpr (Document.mem_elementIds.mp hmem).1
    rcases hi with hi | hi
    · rw [hi] at hattached
      cases hattached
    · rw [hi] at helement
      cases helement

/-- Blanks, capitals and zeros in front; a channel too many; a prefix; another attribute. -/
theorem recolors_hexColors_spaced :
    ∃ d, Document.parse "<svg viewBox=\"0 0 1 1\"><a fill=\" RGB( 016 ,32, 171)\" stroke=\"rgb(1,2,3,4)\" x:fill=\"rgb(1,2,3)\" color=\"rgb(1,2,3)\"/></svg>" = .ok d ∧
      ∃ e ∈ d.element? 1, e.attributes.map (·.value) = [" RGB( 016 ,32, 171)", "rgb(1,2,3,4)", "rgb(1,2,3)", "rgb(1,2,3)"] ∧
        ∃ e' ∈ d.hexColors.1.element? 1,
          e'.attributes.map (·.value) = ["#1020ab", "rgb(1,2,3,4)", "rgb(1,2,3)", "rgb(1,2,3)"] ∧
          List.Forall₂ Recolors e.attributes e'.attributes := by
  obtain ⟨d, hd, h1, e, he, hold, e', he', hnew⟩ : ∃ d, Document.parse
      "<svg viewBox=\"0 0 1 1\"><a fill=\" RGB( 016 ,32, 171)\" stroke=\"rgb(1,2,3,4)\" x:fill=\"rgb(1,2,3)\" color=\"rgb(1,2,3)\"/></svg>" = .ok d ∧
      d.isAttached 1 = true ∧
      ∃ e ∈ d.element? 1, e.attributes.map (·.value) = [" RGB( 016 ,32, 171)", "rgb(1,2,3,4)", "rgb(1,2,3)", "rgb(1,2,3)"] ∧
        ∃ e' ∈ d.hexColors.1.element? 1,
          e'.attributes.map (·.value) = ["#1020ab", "rgb(1,2,3,4)", "rgb(1,2,3)", "rgb(1,2,3)"] := by
    set_option maxRecDepth 1000 in
    refine exists_parse String.toList_ofList ?_
    decide +kernel
  obtain ⟨edited, hedited, _, hrecolors⟩ := (recolors_hexColors d).1 1 e h1 (Change.element?_eq_some.mp he)
  rw [Change.element?_eq_some.mp he'] at hedited
  cases hedited
  exact ⟨d, hd, e, he, hold, e', he', hnew, hrecolors⟩

end SvgComponent.Markup
