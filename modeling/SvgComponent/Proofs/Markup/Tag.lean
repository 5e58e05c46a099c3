/-
  SvgComponent.Proofs.Markup.Tag — the content of a tag, and the element that it spells.

  `Element.content` is what is written between the brackets of a tag. `Element.Spelled` says which elements a tag
  can spell at all: their names hold no blanks, keys come once.
  - `element_content`: such an element is read from its content.
  - `spelled_of_element`: every element that is read is such.
-/

import Mathlib.Data.List.TakeWhile
import SvgComponent.Markup.TagAttributes
import SvgComponent.Proofs.Markup.Escaping

namespace SvgComponent.Markup

/-! ## Elements that a tag can spell -/

/-- A key begins with any character but a blank, and goes on with any but blanks and the equals sign. -/
structure Attribute.Spelled (a : Attribute) : Prop where
  name : Name.parse a.name.full = a.name
  nonempty : a.name.full.toList ≠ []
  blank : ∀ c ∈ a.name.full.toList, isSpace c = false
  equals : ∀ c ∈ a.name.full.toList.tail, c ≠ '='

structure Element.Spelled (e : Element) : Prop where
  name : Name.parse e.name.full = e.name
  blank : ∀ c ∈ e.name.full.toList, isSpace c = false
  attributes : ∀ a ∈ e.attributes, a.Spelled
  unique : (e.attributes.map (·.name.full)).Nodup

/-- What is written between the brackets, without a final slash. -/
def Element.content (e : Element) : List Char := e.name.full.toList ++ e.attributes.flatMap Attribute.markup

theorem opening_eq (e : Element) : e.opening = '<' :: e.content := rfl

namespace TagAttributes

/-! ## Reading attributes one by one -/

theorem read_eq (total : Nat) (seen : List (List Char × Nat)) (s : List Char) :
    read total seen s =
      match s.dropWhile isSpace with
      | [] => .ok []
      | c :: r =>
        match key total c r with
        | .error f => .error (.attr f)
        | .ok k =>
          match unseen seen k with
          | .error f => .error (.attr f)
          | .ok () =>
            match value total k.rest with
            | .error f => .error (.attr f)
            | .ok (raw, rest) =>
              match Reference.expand raw with
              | .error f => .error (.reference f)
              | .ok text =>
                (⟨Name.parse (String.ofList k.text), String.ofList text⟩ :: ·) <$>
                  read total ((k.text, k.position) :: seen) rest := by
  conv => lhs; unfold read
  cases s.dropWhile isSpace with
  | nil => rfl
  | cons c r =>
    dsimp only
    cases key total c r with
    | error f => rfl
    | ok k =>
      dsimp only
      cases unseen seen k with
      | error f => rfl
      | ok u =>
        cases value total k.rest with
        | error f => rfl
        | ok p => rfl

/-- What is read of the first attribute when there is one. -/
structure Parts (total : Nat) (seen : List (List Char × Nat)) (s : List Char) (a : Attribute) (rest : List Char)
    (k : Key) (raw : List Char) : Prop where
  key : ∃ c r, s.dropWhile isSpace = c :: r ∧ key total c r = .ok k
  unseen : unseen seen k = .ok ()
  value : value total k.rest = .ok (raw, rest)
  name : a.name = Name.parse (String.ofList k.text)
  text : Reference.expand raw = .ok a.value.toList

theorem read_parts {total : Nat} {seen : List (List Char × Nat)} {s rest raw : List Char} {a : Attribute} {k : Key}
    (h : Parts total seen s a rest k raw) :
    read total seen s = (a :: ·) <$> read total ((k.text, k.position) :: seen) rest := by
  obtain ⟨⟨c, r, hs, hk⟩, hu, hv, hn, ht⟩ := h
  have ha : (⟨Name.parse (String.ofList k.text), String.ofList a.value.toList⟩ : Attribute) = a := by
    rw [← hn, String.ofList_toList]
  rw [read_eq, hs]
  simp only [hk, hu, hv, ht, ha]

/-- Attributes that are read come one by one. -/
theorem read_ok {total : Nat} {seen : List (List Char × Nat)} {s : List Char} {as : List Attribute}
    (h : read total seen s = .ok as) :
    (s.dropWhile isSpace = [] ∧ as = []) ∨ ∃ a as' rest k raw, as = a :: as' ∧ Parts total seen s a rest k raw ∧
      read total ((k.text, k.position) :: seen) rest = .ok as' := by
  rw [read_eq] at h
  split at h
  · rename_i hs
    cases h
    exact Or.inl ⟨hs, rfl⟩
  · rename_i c r hs
    split at h
    · cases h
    · rename_i k hk
      split at h
      · cases h
      · rename_i hu
        split at h
        · cases h
        · rename_i raw rest hv
          split at h
          · cases h
          · rename_i text ht
            cases hr : read total ((k.text, k.position) :: seen) rest with
            | error f => rw [hr] at h; cases h
            | ok as' =>
              rw [hr] at h
              cases h
              refine Or.inr ⟨_, as', rest, k, raw, rfl, ⟨⟨c, r, hs, hk⟩, hu, hv, rfl, ?_⟩, hr⟩
              rw [ht, String.toList_ofList]

/-- The text of a key: its characters, and blanks before the equals sign. -/
theorem text_of_key {total : Nat} {c : Char} {r : List Char} {k : Key} (h : key total c r = .ok k)
    (hc : isSpace c = false) : ∃ b, c :: r = k.text ++ (b ++ '=' :: k.rest) ∧ (∀ c ∈ b, isSpace c = true) ∧
      k.text ≠ [] ∧ (∀ c ∈ k.text, isSpace c = false) ∧ (∀ c ∈ k.text.tail, c ≠ '=') := by
  have hkey := List.takeWhile_append_dropWhile (p := isKeyChar) (l := r)
  have hgap := List.takeWhile_append_dropWhile (p := isSpace) (l := (r.dropWhile isKeyChar))
  have hrun : ∀ x ∈ r.takeWhile isKeyChar, x ≠ '=' ∧ isSpace x = false := by
    intro x hx
    have := List.mem_takeWhile_imp hx
    unfold isKeyChar at this
    simpa only [Bool.and_eq_true, bne_iff_ne, Bool.not_eq_true'] using this
  unfold key at h
  split at h
  · cases h
  · rename_i d rest hd
    split at h
    · rename_i hdeq
      cases h
      subst hdeq
      refine ⟨(r.dropWhile isKeyChar).takeWhile isSpace, ?_, fun _ => List.mem_takeWhile_imp, by simp, ?_, ?_⟩
      · rw [← hd, List.cons_append, hgap, hkey]
      · intro x hx
        rcases List.mem_cons.mp hx with rfl | hx
        · exact hc
        · exact (hrun x hx).2
      · exact fun x hx => (hrun x hx).1
    · cases h

/-- The text of a value: blanks, and what stands between two quotes. -/
theorem text_of_value {total : Nat} {s raw rest : List Char} (h : value total s = .ok (raw, rest)) :
    ∃ b q, s = b ++ q :: (raw ++ q :: rest) ∧ (∀ c ∈ b, isSpace c = true) ∧ (q = '\"' ∨ q = '\'') ∧ q ∉ raw := by
  have hblank := List.takeWhile_append_dropWhile (p := isSpace) (l := s)
  unfold value at h
  split at h
  · cases h
  · rename_i q r hq
    split at h
    · rename_i hquote
      split at h
      · rename_i cut hcut
        cases h
        refine ⟨s.takeWhile isSpace, q, ?_, fun _ => List.mem_takeWhile_imp, hquote, Text.not_mem_of_cutAt hcut⟩
        rw [← Text.cutAt_eq_some hcut, ← hq, hblank]
      · cases h
    · cases h

/-- The parts of attribute text: blanks, a key, blanks around the equals sign, and a value between two quotes. -/
theorem text_of_parts {total : Nat} {seen : List (List Char × Nat)} {s rest raw : List Char} {a : Attribute} {k : Key}
    (h : Parts total seen s a rest k raw) :
    ∃ b1 b2 b3 q, s = b1 ++ (k.text ++ (b2 ++ '=' :: (b3 ++ q :: (raw ++ q :: rest)))) ∧
      (∀ c ∈ b1, isSpace c = true) ∧ (∀ c ∈ b2, isSpace c = true) ∧ (∀ c ∈ b3, isSpace c = true) ∧
      (q = '\"' ∨ q = '\'') ∧ q ∉ raw ∧ k.text ≠ [] ∧ (∀ c ∈ k.text, isSpace c = false) ∧
      (∀ c ∈ k.text.tail, c ≠ '=') := by
  obtain ⟨⟨c, r, hs, hk⟩, _, hv, _, _⟩ := h
  have hc : isSpace c = false := by
    have := Text.stops_dropWhile isSpace s
    rw [hs] at this
    exact this c rfl
  obtain ⟨b2, hkey, hb2, hne, hblank, hequals⟩ := text_of_key hk hc
  obtain ⟨b3, q, hvalue, hb3, hq, hraw⟩ := text_of_value hv
  refine ⟨s.takeWhile isSpace, b2, b3, q, ?_, fun _ => List.mem_takeWhile_imp, hb2, hb3, hq, hraw, hne, hblank,
    hequals⟩
  rw [← hvalue, ← hkey, ← hs, List.takeWhile_append_dropWhile]

/-! ## Every element that is read is spelled, and is read from its content -/

/-- What is left to say of attributes that come after those in `seen`. -/
structure Fresh (seen : List (List Char × Nat)) (as : List Attribute) : Prop where
  spelled : ∀ a ∈ as, a.Spelled
  unique : (as.map (·.name.full)).Nodup
  unseen : ∀ a ∈ as, a.name.full.toList ∉ seen.map (·.1)

theorem unseen_eq_ok {seen : List (List Char × Nat)} {k : Key} (h : k.text ∉ seen.map (·.1)) :
    unseen seen k = .ok () := by
  unfold unseen
  rw [List.lookup_eq_none_iff.mpr]
  intro p hp
  rw [bne_iff_ne]
  intro he
  exact h (List.mem_map.mpr ⟨p, hp, he.symm⟩)

theorem not_mem_of_unseen {seen : List (List Char × Nat)} {k : Key} (h : unseen seen k = .ok ()) :
    k.text ∉ seen.map (·.1) := by
  intro hm
  obtain ⟨p, hp, hk⟩ := List.mem_map.mp hm
  unfold unseen at h
  split at h
  · cases h
  · rename_i hn
    have := List.lookup_eq_none_iff.mp hn p hp
    rw [bne_iff_ne] at this
    exact this hk.symm

theorem Fresh.cons {seen : List (List Char × Nat)} {a : Attribute} {as : List Attribute} {p : Nat}
    (ha : a.Spelled) (hu : a.name.full.toList ∉ seen.map (·.1))
    (h : Fresh ((a.name.full.toList, p) :: seen) as) : Fresh seen (a :: as) := by
  refine ⟨?_, ?_, ?_⟩
  · intro b hb
    rcases List.mem_cons.mp hb with rfl | hb
    · exact ha
    · exact h.spelled b hb
  · rw [List.map_cons, List.nodup_cons]
    refine ⟨?_, h.unique⟩
    intro hm
    obtain ⟨b, hb, he⟩ := List.mem_map.mp hm
    exact h.unseen b hb (by simp [he])
  · intro b hb
    rcases List.mem_cons.mp hb with rfl | hb
    · exact hu
    · intro hm
      exact h.unseen b hb (List.mem_cons_of_mem _ hm)

theorem Fresh.tail {seen : List (List Char × Nat)} {a : Attribute} {as : List Attribute} (position : Nat)
    (h : Fresh seen (a :: as)) : Fresh ((a.name.full.toList, position) :: seen) as := by
  have hnd := h.unique
  rw [List.map_cons, List.nodup_cons] at hnd
  refine ⟨fun b hb => h.spelled b (List.mem_cons_of_mem _ hb), hnd.2, ?_⟩
  intro b hb hm
  rcases List.mem_cons.mp hm with he | hm
  · exact hnd.1 (List.mem_map.mpr ⟨b, hb, String.toList_inj.mp he⟩)
  · exact h.unseen b (List.mem_cons_of_mem _ hb) hm

/-- Blanks, a key, blanks around the equals sign and a value between two quotes are read as an attribute. -/
theorem parts_of_text (total : Nat) {seen : List (List Char × Nat)} {a : Attribute} {b1 b2 b3 raw : List Char} {q : Char}
    (ha : a.Spelled) (hu : a.name.full.toList ∉ seen.map (·.1)) (hb1 : ∀ c ∈ b1, isSpace c = true)
    (hb2 : ∀ c ∈ b2, isSpace c = true) (hb3 : ∀ c ∈ b3, isSpace c = true) (hq : q = '\"' ∨ q = '\'') (hraw : q ∉ raw)
    (htext : Reference.expand raw = .ok a.value.toList) (rest : List Char) :
    ∃ position, Parts total seen (b1 ++ (a.name.full.toList ++ (b2 ++ '=' :: (b3 ++ q :: (raw ++ q :: rest))))) a rest
      ⟨a.name.full.toList, position, b3 ++ q :: (raw ++ q :: rest)⟩ raw := by
  obtain ⟨c, key, hkey⟩ := List.exists_cons_of_ne_nil ha.nonempty
  have hblank := ha.blank
  have hequals := ha.equals
  rw [hkey, List.forall_mem_cons] at hblank
  rw [hkey, List.tail_cons] at hequals
  refine ⟨total - Text.byteSize (c :: (key ++ (b2 ++ '=' :: (b3 ++ q :: (raw ++ q :: rest))))),
    ⟨c, key ++ (b2 ++ '=' :: (b3 ++ q :: (raw ++ q :: rest))), ?_, ?_⟩, unseen_eq_ok hu, ?_, ?_, htext⟩
  · rw [hkey]
    exact Text.dropWhile_append_stop hb1 (Text.stops_cons hblank.1 _)
  · have hrun : ∀ x ∈ key, isKeyChar x = true := by
      intro x hx
      have hne := hequals x hx
      have hb := hblank.2 x hx
      simp [isKeyChar, hne, hb]
    have hstop : ∀ u, Text.Stops isKeyChar (b2 ++ '=' :: u) := by
      intro u
      cases b2 with
      | nil => exact Text.stops_cons (by decide) u
      | cons b b2 =>
        refine Text.stops_cons ?_ _
        rw [isKeyChar, hb2 b List.mem_cons_self]
        exact Bool.and_false _
    unfold TagAttributes.key
    rw [Text.dropWhile_append_stop hrun (hstop _), Text.takeWhile_append_stop hrun (hstop _),
      Text.dropWhile_append_stop hb2 (Text.stops_cons (by decide) _)]
    simp only [if_true, hkey]
  · have hnone : isSpace q = false := by
      rcases hq with rfl | rfl
      · rfl
      · rfl
    unfold TagAttributes.value
    rw [Text.dropWhile_append_stop hb3 (Text.stops_cons hnone _)]
    simp only [if_pos hq, Text.cutAt_append hraw]
  · rw [String.ofList_toList, ha.name]

/-- The written form of an attribute is read as it. -/
theorem parts_markup (total : Nat) {seen : List (List Char × Nat)} {a : Attribute} (ha : a.Spelled)
    (hu : a.name.full.toList ∉ seen.map (·.1)) (rest : List Char) :
    ∃ position, Parts total seen (a.markup ++ rest) a rest
      ⟨a.name.full.toList, position, '\"' :: (a.value.toList.flatMap escapeValue ++ '\"' :: rest)⟩
      (a.value.toList.flatMap escapeValue) := by
  have hquote : '\"' ∉ a.value.toList.flatMap escapeValue := fun h => (escapedValue_quote _ _ h).1 rfl
  have hblank : ∀ c ∈ [' '], isSpace c = true := by decide
  have hnone : ∀ c ∈ ([] : List Char), isSpace c = true := by decide
  have hparts := parts_of_text total ha hu hblank hnone hnone (Or.inl rfl) hquote (expand_escapeValue _) rest
  simpa [Attribute.markup] using hparts

theorem read_markup (total : Nat) {seen : List (List Char × Nat)} {as : List Attribute} (h : Fresh seen as) :
    read total seen (as.flatMap Attribute.markup) = .ok as := by
  induction as generalizing seen with
  | nil => rw [read_eq]; rfl
  | cons a as ih =>
    obtain ⟨position, hp⟩ := parts_markup total (h.spelled a List.mem_cons_self) (h.unseen a List.mem_cons_self)
      (as.flatMap Attribute.markup)
    rw [List.flatMap_cons, read_parts hp, ih (h.tail position)]
    rfl

theorem fresh_of_read {total : Nat} {seen : List (List Char × Nat)} {s : List Char} {as : List Attribute}
    (h : read total seen s = .ok as) : Fresh seen as := by
  induction as generalizing seen s with
  | nil => exact ⟨by simp, by simp, by simp⟩
  | cons a as ih =>
    rcases read_ok h with ⟨_, he⟩ | ⟨a', as', rest, k, raw, he, hp, hr⟩
    · cases he
    · cases he
      obtain ⟨b1, b2, b3, q, _, _, _, _, _, _, hne, hblank, hequals⟩ := text_of_parts hp
      have hfull : a.name.full.toList = k.text := by
        rw [hp.name, Name.full_parse, String.toList_ofList]
      have hparse : Name.parse a.name.full = a.name := by
        rw [hp.name, Name.full_parse]
      refine Fresh.cons ⟨hparse, by rwa [hfull], by rwa [hfull], by rwa [hfull]⟩ ?_ (p := k.position) ?_
      · rw [hfull]
        exact not_mem_of_unseen hp.unseen
      · rw [hfull]
        exact ih hr

end TagAttributes

open TagAttributes (Fresh Parts)

theorem Element.Spelled.fresh {e : Element} (h : e.Spelled) : Fresh [] e.attributes :=
  ⟨h.attributes, h.unique, fun _ _ => List.not_mem_nil⟩

/-- What follows the name in a tag does not go on with it. -/
theorem stops_attributes (as : List Attribute) : Text.Stops (!isSpace ·) (as.flatMap Attribute.markup) := by
  cases as with
  | nil => exact Text.stops_nil
  | cons a as => exact Text.stops_cons (by decide) _

theorem element_content {e : Element} (h : e.Spelled) : TagAttributes.element e.content = .ok e := by
  have hname : ∀ c ∈ e.name.full.toList, (!isSpace c) = true := by
    intro c hc
    rw [h.blank c hc]
    rfl
  have htake : Stream.tagName e.content = e.name.full.toList :=
    Text.takeWhile_append_stop hname (stops_attributes e.attributes)
  have hdrop : e.content.dropWhile (!isSpace ·) = e.attributes.flatMap Attribute.markup :=
    Text.dropWhile_append_stop hname (stops_attributes e.attributes)
  unfold TagAttributes.element
  rw [htake, hdrop, TagAttributes.read_markup _ h.fresh, String.ofList_toList, h.name]
  rfl

theorem element_ok {content : List Char} {e : Element} (h : TagAttributes.element content = .ok e) :
    e.name = Name.parse (String.ofList (Stream.tagName content)) ∧
      TagAttributes.read (Text.byteSize content) [] (content.dropWhile (!isSpace ·)) = .ok e.attributes := by
  unfold TagAttributes.element at h
  cases hr : TagAttributes.read (Text.byteSize content) [] (content.dropWhile (!isSpace ·)) with
  | error f => rw [hr] at h; cases h
  | ok as => rw [hr] at h; cases h; exact ⟨rfl, rfl⟩

theorem full_of_element {content : List Char} {e : Element} (h : TagAttributes.element content = .ok e) :
    e.name.full.toList = Stream.tagName content := by
  rw [(element_ok h).1, Name.full_parse, String.toList_ofList]

theorem spelled_of_element {content : List Char} {e : Element} (h : TagAttributes.element content = .ok e) :
    e.Spelled := by
  have hf := TagAttributes.fresh_of_read (element_ok h).2
  refine ⟨?_, ?_, hf.spelled, hf.unique⟩
  · rw [(element_ok h).1, Name.full_parse]
  · intro c hc
    rw [full_of_element h] at hc
    simpa using List.mem_takeWhile_imp hc

/-! ## A tag that is written as it was read -/

theorem eq_nil_of_stops {p : Char → Bool} {b s t : List Char} (hb : ∀ c ∈ b, p c = true) (ht : Text.Stops p t)
    (h : b ++ s = t) : b = [] := by
  cases b with
  | nil => rfl
  | cons c b =>
    have := ht c (by rw [← h]; rfl)
    rw [hb c List.mem_cons_self] at this
    cases this

/-- The text of an attribute that stands where its written form stands is that form. -/
theorem attribute_eq {total : Nat} {seen : List (List Char × Nat)} {s rest raw x y : List Char} {a : Attribute}
    {k : TagAttributes.Key} (h : Parts total seen s a rest k raw) (he : s ++ x = a.markup ++ y) :
    s = a.markup ++ rest ∧ rest ++ x = y := by
  obtain ⟨b1, b2, b3, q, hs, hb1, hb2, hb3, hq, hraw, hne, hblank, hequals⟩ := TagAttributes.text_of_parts h
  have hfull : a.name.full.toList = k.text := by
    rw [h.name, Name.full_parse, String.toList_ofList]
  obtain ⟨c, key, hkey⟩ := List.exists_cons_of_ne_nil hne
  have hc : isSpace c = false := hblank c (by rw [hkey]; exact List.mem_cons_self)
  have hstop : ∀ u, Text.Stops isSpace (k.text ++ u) := by
    intro u
    rw [hkey]
    exact Text.stops_cons hc _
  rw [hs] at he ⊢
  simp only [Attribute.markup, hfull, List.append_assoc, List.cons_append, List.nil_append] at he ⊢
  -- one blank stands before the key, since the next character begins the key
  obtain ⟨b, rfl, hb⟩ : ∃ b, b1 = ' ' :: b ∧ ∀ c ∈ b, isSpace c = true := by
    cases b1 with
    | nil =>
      rw [hkey] at he
      rw [List.nil_append, List.cons_append, List.cons.injEq] at he
      rw [he.1] at hc
      cases hc
    | cons b b1 =>
      rw [List.cons_append, List.cons.injEq] at he
      exact ⟨b1, by rw [he.1], fun c hc => hb1 c (List.mem_cons_of_mem _ hc)⟩
  simp only [List.cons_append, List.cons.injEq, true_and] at he ⊢
  obtain rfl := eq_nil_of_stops hb (hstop _) he
  rw [List.nil_append, List.append_cancel_left_eq] at he
  obtain rfl := eq_nil_of_stops hb2 (Text.stops_cons (by decide) _) he
  simp only [List.nil_append, List.cons.injEq, true_and] at he
  obtain rfl := eq_nil_of_stops hb3 (Text.stops_cons (by decide) _) he
  simp only [List.nil_append, List.cons.injEq] at he ⊢
  obtain ⟨rfl, he⟩ := he
  have hcut := Text.cutAt_append hraw (rest ++ x)
  rw [he, Text.cutAt_append fun h => (escapedValue_quote _ _ h).1 rfl] at hcut
  rw [Option.some.injEq, Prod.mk.injEq] at hcut
  exact ⟨by rw [hcut.1], hcut.2.symm⟩

/-- Attribute text that stands where its written form stands is that form. -/
theorem attributes_eq {total : Nat} {seen : List (List Char × Nat)} {s x y : List Char} {as : List Attribute}
    (h : TagAttributes.read total seen s = .ok as) (he : s ++ x = as.flatMap Attribute.markup ++ y)
    (hy : Text.Stops isSpace y) : s = as.flatMap Attribute.markup := by
  induction as generalizing seen s with
  | nil =>
    rcases TagAttributes.read_ok h with ⟨hs, _⟩ | ⟨a, as, rest, k, raw, hcons, _⟩
    · have hblank : ∀ c ∈ s, isSpace c = true := by
        rw [List.dropWhile_eq_nil_iff] at hs
        exact hs
      exact eq_nil_of_stops hblank hy he
    · cases hcons
  | cons a as ih =>
    rcases TagAttributes.read_ok h with ⟨_, hnil⟩ | ⟨a', as', rest, k, raw, hcons, hp, hr⟩
    · cases hnil
    · cases hcons
      rw [List.flatMap_cons, List.append_assoc] at he
      obtain ⟨hs, hrest⟩ := attribute_eq hp he
      rw [hs, List.flatMap_cons, ih hr hrest]

/-- A tag's content that stands where the written form of its element stands is that form. -/
theorem content_eq {content x y : List Char} {e : Element} (h : TagAttributes.element content = .ok e)
    (he : content ++ x = e.content ++ y) (hy : Text.Stops isSpace y) : content = e.content := by
  have hsplit : Stream.tagName content ++ content.dropWhile (!isSpace ·) = content :=
    List.takeWhile_append_dropWhile
  rw [← hsplit] at he ⊢
  rw [Element.content, full_of_element h, List.append_assoc, List.append_assoc, List.append_cancel_left_eq] at he
  rw [Element.content, full_of_element h, attributes_eq (element_ok h).2 he hy]

/-- The written form of an attribute tells the attribute. -/
theorem attribute_unique {a b : Attribute} (ha : a.Spelled) (hb : b.Spelled) {x y : List Char}
    (h : a.markup ++ x = b.markup ++ y) : a = b ∧ x = y := by
  obtain ⟨c, key, hkey⟩ := List.exists_cons_of_ne_nil ha.nonempty
  obtain ⟨c', key', hkey'⟩ := List.exists_cons_of_ne_nil hb.nonempty
  simp only [Attribute.markup, hkey, hkey', List.append_assoc, List.cons_append, List.nil_append, List.cons.injEq,
    true_and] at h
  obtain ⟨rfl, h⟩ := h
  have equals : '=' ∉ key := fun hm => ha.equals '=' (by rwa [hkey]) rfl
  have equals' : '=' ∉ key' := fun hm => hb.equals '=' (by rwa [hkey']) rfl
  have hcut := Text.cutAt_append equals _ ▸ congrArg (Text.cutAt '=') h
  rw [Text.cutAt_append equals', Option.some.injEq, Prod.mk.injEq, List.cons.injEq] at hcut
  obtain ⟨rfl, -, h⟩ := hcut
  have hcut := Text.cutAt_append (fun h => (escapedValue_quote _ _ h).1 rfl) _ ▸ congrArg (Text.cutAt '\"') h
  rw [Text.cutAt_append fun h => (escapedValue_quote _ _ h).1 rfl, Option.some.injEq, Prod.mk.injEq] at hcut
  obtain ⟨hvalue, h⟩ := hcut
  have hname : a.name = b.name := by
    rw [← ha.name, ← hb.name, String.toList_inj.mp (hkey.trans hkey'.symm)]
  have hexpand := expand_escapeValue a.value.toList
  rw [hvalue, expand_escapeValue, Except.ok.injEq] at hexpand
  refine ⟨?_, h⟩
  cases a
  cases b
  simp only [Attribute.mk.injEq]
  exact ⟨hname, String.toList_inj.mp hexpand.symm⟩

/-- The written forms of attributes tell the attributes, in front of anything that begins with no blank. -/
theorem attributes_unique {as bs : List Attribute} (ha : ∀ a ∈ as, a.Spelled) (hb : ∀ b ∈ bs, b.Spelled)
    {x y : List Char} (hx : Text.Stops isSpace x) (hy : Text.Stops isSpace y)
    (h : as.flatMap Attribute.markup ++ x = bs.flatMap Attribute.markup ++ y) : as = bs := by
  induction as generalizing bs with
  | nil =>
    cases bs with
    | nil => rfl
    | cons b bs =>
      have := hx ' ' (by rw [show x = _ from h]; rfl)
      cases this
  | cons a as ih =>
    cases bs with
    | nil =>
      have := hy ' ' (by rw [show y = _ from h.symm]; rfl)
      cases this
    | cons b bs =>
      rw [List.forall_mem_cons] at ha hb
      rw [List.flatMap_cons, List.flatMap_cons, List.append_assoc, List.append_assoc] at h
      obtain ⟨heq, hrest⟩ := attribute_unique ha.1 hb.1 h
      rw [heq, ih ha.2 hb.2 hrest]

end SvgComponent.Markup
