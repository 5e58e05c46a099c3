/-
  SvgComponent.Proofs.Markup.Grammar — what a text with references and a tag stand for, by grammar.

  The grammar says how the text is put together, and not how it is read:
  - a reference is one of five names, or a number in digits, decimal or hexadecimal after a small x, of a character that
    is not zero (`Reference.Names`);
  - a text holds references, and no other ampersand (`Reference.Expands`);
  - a tag is a name without blanks and after it attributes, each a key, an equals sign and a text between two quotes of
    one kind, with blanks where they may stand; no key comes twice (`TagAttributes.Lists`, `TagAttributes.Opens`).

  What is read is what the grammar says, and nothing that it allows is refused (`Reference.expand_iff`,
  `TagAttributes.read_iff`, `TagAttributes.element_iff`).
-/

import Mathlib.Data.List.Induction
import SvgComponent.Proofs.Markup.Tag

namespace SvgComponent.Markup

/-! ## Numbers -/

namespace Reference

/-- The number that the digits spell in the base. -/
inductive Digits (base : Nat) : List Char → Nat → Prop
  | first {c : Char} {d : Nat} (digit : digit? base c = some d) : Digits base [c] d
  | more {s : List Char} {c : Char} {n d : Nat} (before : Digits base s n) (digit : digit? base c = some d) :
      Digits base (s ++ [c]) (n * base + d)

variable {base n m : Nat} {s t : List Char} {c : Char}

theorem Digits.isSome (h : Digits base s n) : ∀ c ∈ s, (digit? base c).isSome = true := by
  induction h with
  | first digit =>
    rw [List.forall_mem_singleton, digit]
    rfl
  | more before digit ih =>
    rw [List.forall_mem_append, List.forall_mem_singleton, digit]
    exact ⟨ih, rfl⟩

theorem Digits.ne_nil (h : Digits base s n) : s ≠ [] := by
  cases h with
  | first digit => exact List.cons_ne_nil _ _
  | more before digit => simp

theorem number_append (base n : Nat) (s t : List Char) :
    number base n (s ++ t) = number base n s >>= fun m => number base m t := by
  induction s generalizing n with
  | nil => rfl
  | cons c s ih =>
    rw [List.cons_append, number, number]
    cases digit? base c with
    | none => rfl
    | some d =>
      dsimp only
      split
      · exact ih _
      · rfl

theorem number_singleton {d : Nat} (h : digit? base c = some d) (n : Nat) :
    number base n [c] = if n * base + d < UInt32.size then .ok (n * base + d) else .error .tooLarge := by
  rw [number, h]
  rfl

theorem number_of_digits (hbase : 0 < base) (h : Digits base s n) (hn : n < UInt32.size) : number base 0 s = .ok n := by
  induction h with
  | first digit =>
    rw [number_singleton digit, Nat.zero_mul, Nat.zero_add, if_pos hn]
  | @more s c n d before digit ih =>
    have hle : n ≤ n * base := Nat.le_mul_of_pos_right n hbase
    rw [number_append, ih (by omega)]
    exact (number_singleton digit n).trans (if_pos hn)

theorem digits_of_number (hs : s ≠ []) (h : number base 0 s = .ok n) : Digits base s n := by
  induction s using List.reverseRecOn generalizing n with
  | nil => exact absurd rfl hs
  | append_singleton s c ih =>
    rw [number_append] at h
    cases hm : number base 0 s with
    | error f => rw [hm] at h; cases h
    | ok m =>
      rw [hm] at h
      change number base m [c] = .ok n at h
      cases hd : digit? base c with
      | none => simp [number, hd] at h
      | some d =>
        rw [number_singleton hd] at h
        split at h
        · cases h
          by_cases hnil : s = []
          · subst hnil
            cases hm
            rw [Nat.zero_mul, Nat.zero_add]
            exact .first hd
          · exact .more (ih hnil hm) hd
        · cases h

theorem unsigned_of_digits (hbase : 0 < base) (h : Digits base s n) (hn : n < UInt32.size) : unsigned base s = .ok n := by
  have hnumber := number_of_digits hbase h hn
  cases s with
  | nil => exact absurd rfl h.ne_nil
  | cons c s =>
    have hsign : ¬ (c = '+' ∨ c = '-') := by
      have hdigit := h.isSome c List.mem_cons_self
      intro hc
      rcases hc with rfl | rfl
      · cases hdigit
      · cases hdigit
    rw [unsigned, List.head?_cons]
    exact (if_neg hsign).trans hnumber

theorem digits_of_unsigned (h : unsigned base s = .ok n) : Digits base s n := by
  cases s with
  | nil => cases h
  | cons c s =>
    rw [unsigned, List.head?_cons] at h
    dsimp only at h
    split at h
    · cases h
    · exact digits_of_number (List.cons_ne_nil c s) h

/-! ## References -/

/-- The character that a reference stands for, by what is between the ampersand and the semicolon. -/
inductive Names : List Char → Char → Prop
  | lt : Names ['l', 't'] '<'
  | gt : Names ['g', 't'] '>'
  | amp : Names ['a', 'm', 'p'] '&'
  | apos : Names ['a', 'p', 'o', 's'] '\''
  | quot : Names ['q', 'u', 'o', 't'] '\"'
  | decimal {digits : List Char} {c : Char} (code : Digits 10 digits c.toNat) (nonzero : c.toNat ≠ 0) :
      Names ('#' :: digits) c
  | hexadecimal {digits : List Char} {c : Char} (code : Digits 16 digits c.toNat) (nonzero : c.toNat ≠ 0) :
      Names ('#' :: 'x' :: digits) c

theorem character_iff : character n = .ok c ↔ n = c.toNat ∧ n ≠ 0 := by
  unfold character
  constructor
  · intro h
    split at h
    · cases h
    · rename_i hzero
      split at h
      · rename_i hvalid
        cases h
        refine ⟨?_, hzero⟩
        rw [Char.ofNat, dif_pos hvalid]
        rfl
      · cases h
  · intro h
    obtain ⟨rfl, hzero⟩ := h
    have hvalid : c.toNat.isValidChar := c.valid
    rw [if_neg hzero, if_pos hvalid, Char.ofNat_toNat]

theorem toNat_lt (c : Char) : c.toNat < UInt32.size := c.val.toNat_lt

theorem isNameChar_of_digit (h : (digit? base c).isSome = true) : isNameChar c = true := by
  have hne : c ≠ '&' ∧ c ≠ ';' := by
    constructor
    · intro heq
      subst heq
      cases h
    · intro heq
      subst heq
      cases h
  simp [isNameChar, hne]

theorem Names.isNameChar (h : Names s c) : ∀ d ∈ s, isNameChar d = true := by
  cases h with
  | decimal code _ =>
    rw [List.forall_mem_cons]
    exact ⟨rfl, fun d hd => isNameChar_of_digit (code.isSome d hd)⟩
  | hexadecimal code _ =>
    rw [List.forall_mem_cons, List.forall_mem_cons]
    exact ⟨rfl, rfl, fun d hd => isNameChar_of_digit (code.isSome d hd)⟩
  | _ => exact Text.forall_mem_of_all rfl

theorem numeric_iff : numeric s = .ok c ↔ Names ('#' :: s) c := by
  constructor
  · intro h
    have hcode : ∀ {base : Nat} {s : List Char}, (unsigned base s >>= character) = .ok c →
        Digits base s c.toNat ∧ c.toNat ≠ 0 := by
      intro base s h
      cases hn : unsigned base s with
      | error f => rw [hn] at h; cases h
      | ok n =>
        rw [hn] at h
        obtain ⟨rfl, hzero⟩ := character_iff.mp h
        exact ⟨digits_of_unsigned hn, hzero⟩
    unfold numeric at h
    split at h
    · obtain ⟨hdigits, hzero⟩ := hcode h
      exact .hexadecimal hdigits hzero
    · obtain ⟨hdigits, hzero⟩ := hcode h
      exact .decimal hdigits hzero
  · intro h
    have hread : ∀ {base : Nat} {s : List Char}, 0 < base → Digits base s c.toNat → c.toNat ≠ 0 →
        (unsigned base s >>= character) = .ok c := by
      intro base s hbase hdigits hzero
      rw [unsigned_of_digits hbase hdigits (toNat_lt c)]
      exact character_iff.mpr ⟨rfl, hzero⟩
    cases h with
    | decimal code nonzero =>
      unfold numeric
      split
      · -- no decimal digit is an x
        cases code.isSome 'x' List.mem_cons_self
      · exact hread (by decide) code nonzero
    | hexadecimal code nonzero => exact hread (by decide) code nonzero

theorem named?_iff : named? s = some c ↔ Names s c ∧ s.head? ≠ some '#' := by
  constructor
  · intro h
    unfold named? at h
    split_ifs at h with hlt hgt hamp hapos hquot
    · cases h
      exact ⟨hlt ▸ .lt, by rw [hlt]; decide⟩
    · cases h
      exact ⟨hgt ▸ .gt, by rw [hgt]; decide⟩
    · cases h
      exact ⟨hamp ▸ .amp, by rw [hamp]; decide⟩
    · cases h
      exact ⟨hapos ▸ .apos, by rw [hapos]; decide⟩
    · cases h
      exact ⟨hquot ▸ .quot, by rw [hquot]; decide⟩
  · intro h
    obtain ⟨hname, hsign⟩ := h
    cases hname with
    | decimal _ _ => exact absurd rfl hsign
    | hexadecimal _ _ => exact absurd rfl hsign
    | _ => rfl

theorem resolve_iff {total : Nat} {r : List Char} :
    resolve total r = .ok c ↔ Names (r.takeWhile isNameChar) c := by
  unfold resolve
  dsimp only
  generalize r.takeWhile isNameChar = name
  split
  · rename_i digits
    rw [← numeric_iff]
    cases numeric digits <;> simp [Except.mapError]
  · rename_i hsign
    have hhead : name.head? ≠ some '#' := by
      cases name with
      | nil => exact fun h => by cases h
      | cons d digits =>
        intro hd
        cases hd
        exact hsign digits rfl
    have hnamed : ∀ d, named? name = some d ↔ Names name d := fun d => by rw [named?_iff, and_iff_left hhead]
    rw [← hnamed c]
    cases named? name <;> simp

/-- The text that a text with references stands for. -/
inductive Expands : List Char → List Char → Prop
  | nil : Expands [] []
  | plain {c : Char} {r s : List Char} (plain : c ≠ '&') (rest : Expands r s) : Expands (c :: r) (c :: s)
  | reference {name r s : List Char} {c : Char} (named : Names name c) (rest : Expands r s) :
      Expands ('&' :: (name ++ ';' :: r)) (c :: s)

theorem expandEnd_of_expands (total : Nat) (h : Expands s t) : expandEnd total s = .ok t := by
  induction h with
  | nil => exact expandEnd_nil total
  | plain hplain _ ih =>
    rw [expandEnd_plain total hplain, ih]
    rfl
  | @reference name r s c hname _ ih =>
    have hstop : Text.Stops isNameChar (';' :: r) := Text.stops_cons rfl r
    have hresolve : resolve total (name ++ ';' :: r) = .ok c := by
      rw [resolve_iff, Text.takeWhile_append_stop hname.isNameChar hstop]
      exact hname
    rw [expandEnd_reference total (Text.dropWhile_append_stop hname.isNameChar hstop), hresolve, ih]
    rfl

theorem expands_of_expandEnd {total : Nat} (h : expandEnd total s = .ok t) : Expands s t := by
  induction s using expandEnd.induct generalizing t with
  | case1 =>
    rw [expandEnd_nil] at h
    cases h
    exact .nil
  | case2 s rest hs ih =>
    rw [expandEnd_reference total hs] at h
    cases hc : resolve total s with
    | error f => rw [hc] at h; cases h
    | ok c =>
      cases hr : expandEnd total rest with
      | error f => rw [hc, hr] at h; cases h
      | ok u =>
        rw [hc, hr] at h
        cases h
        rw [← List.takeWhile_append_dropWhile (p := Reference.isNameChar) (l := s), hs]
        exact .reference (resolve_iff.mp hc) (ih hr)
  | case3 s hs =>
    obtain ⟨f, hf⟩ := expandEnd_unterminated total (s := s) hs
    rw [hf] at h
    cases h
  | case4 c r hne ih =>
    rw [expandEnd_plain total hne] at h
    cases hr : expandEnd total r with
    | error f => rw [hr] at h; cases h
    | ok u =>
      rw [hr] at h
      cases h
      exact .plain hne (ih hr)

/-- References are read as the grammar says. -/
theorem expand_iff : expand s = .ok t ↔ Expands s t := ⟨expands_of_expandEnd, expandEnd_of_expands _⟩

end Reference

/-! ## Tags -/

namespace TagAttributes

/-- The attributes that a text lists. -/
inductive Lists : List Char → List Attribute → Prop
  | nil {b : List Char} (blank : ∀ c ∈ b, isSpace c = true) : Lists b []
  | cons {b₁ b₂ b₃ raw rest : List Char} {q : Char} {a : Attribute} {as : List Attribute} (key : a.Spelled)
      (before : ∀ c ∈ b₁, isSpace c = true) (left : ∀ c ∈ b₂, isSpace c = true) (right : ∀ c ∈ b₃, isSpace c = true)
      (quote : q = '\"' ∨ q = '\'') (closed : q ∉ raw) (value : Reference.Expands raw a.value.toList)
      (others : Lists rest as) (once : ∀ b ∈ as, b.name.full ≠ a.name.full) :
      Lists (b₁ ++ (a.name.full.toList ++ (b₂ ++ '=' :: (b₃ ++ q :: (raw ++ q :: rest))))) (a :: as)

/-- The element that the content of a tag stands for. -/
structure Opens (content : List Char) (e : Element) : Prop where
  name : Name.parse e.name.full = e.name
  blank : ∀ c ∈ e.name.full.toList, isSpace c = false
  attributes : ∃ s, content = e.name.full.toList ++ s ∧ (∀ c ∈ s.head?, isSpace c = true) ∧ Lists s e.attributes

variable {total : Nat} {seen : List (List Char × Nat)} {s content : List Char} {as : List Attribute} {e : Element}

theorem lists_of_read (h : read total seen s = .ok as) : Lists s as := by
  have hfresh := fresh_of_read h
  induction as generalizing seen s with
  | nil =>
    rcases read_ok h with ⟨hs, _⟩ | ⟨_, _, _, _, _, hcons, _⟩
    · exact .nil (List.dropWhile_eq_nil_iff.mp hs)
    · cases hcons
  | cons a as ih =>
    rcases read_ok h with ⟨_, hnil⟩ | ⟨_, _, rest, k, raw, hcons, hp, hr⟩
    · cases hnil
    · cases hcons
      obtain ⟨b₁, b₂, b₃, q, hs, hb₁, hb₂, hb₃, hq, hraw, _⟩ := text_of_parts hp
      have hfull : a.name.full.toList = k.text := by rw [hp.name, Name.full_parse, String.toList_ofList]
      have hunique := hfresh.unique
      rw [List.map_cons, List.nodup_cons] at hunique
      rw [hs, ← hfull]
      refine .cons (hfresh.spelled a List.mem_cons_self) hb₁ hb₂ hb₃ hq hraw (Reference.expand_iff.mp hp.text)
        (ih hr (fresh_of_read hr)) ?_
      intro b hb heq
      exact hunique.1 (List.mem_map.mpr ⟨b, hb, heq⟩)

theorem read_of_lists (h : Lists s as) (hnew : ∀ a ∈ as, a.name.full.toList ∉ seen.map (·.1)) :
    read total seen s = .ok as := by
  induction h generalizing seen with
  | nil hblank =>
    rw [read_eq, List.dropWhile_eq_nil_iff.mpr hblank]
  | @cons b₁ b₂ b₃ raw rest q a as hkey hb₁ hb₂ hb₃ hq hraw hvalue _ honce ih =>
    rw [List.forall_mem_cons] at hnew
    obtain ⟨position, hp⟩ := parts_of_text total hkey hnew.1 hb₁ hb₂ hb₃ hq hraw (Reference.expand_iff.mpr hvalue) rest
    have hrest : read total ((a.name.full.toList, position) :: seen) rest = .ok as := by
      refine ih ?_
      intro b hb
      rw [List.map_cons, List.mem_cons, not_or]
      exact ⟨fun heq => honce b hb (String.toList_inj.mp heq), hnew.2 b hb⟩
    rw [read_parts hp, hrest]
    rfl

/-- Attributes are read as the grammar says. -/
theorem read_iff : read total [] s = .ok as ↔ Lists s as :=
  ⟨lists_of_read, fun h => read_of_lists h fun _ _ => List.not_mem_nil⟩

/-- Tags are read as the grammar says. -/
theorem element_iff : element content = .ok e ↔ Opens content e := by
  constructor
  · intro h
    have hspelled := spelled_of_element h
    refine ⟨hspelled.name, hspelled.blank, content.dropWhile (!isSpace ·), ?_, ?_, read_iff.mp (element_ok h).2⟩
    · rw [full_of_element h]
      exact List.takeWhile_append_dropWhile.symm
    · intro c hc
      simpa using Text.stops_dropWhile (!isSpace ·) content c hc
  · intro h
    obtain ⟨s, rfl, hs, hlists⟩ := h.attributes
    have hname : ∀ c ∈ e.name.full.toList, (!isSpace c) = true := by
      intro c hc
      rw [h.blank c hc]
      rfl
    have hstop : Text.Stops (!isSpace ·) s := by
      intro c hc
      simp [hs c hc]
    have htag : Stream.tagName (e.name.full.toList ++ s) = e.name.full.toList := Text.takeWhile_append_stop hname hstop
    rw [element, htag, Text.dropWhile_append_stop hname hstop, read_iff.mpr hlists, String.ofList_toList, h.name]
    rfl

end TagAttributes

end SvgComponent.Markup
