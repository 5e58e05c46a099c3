/-
  SvgComponent.Proofs.Markup.Attributes — the attributes of an element as a map that keeps the order.

  An attribute is looked up by its full name, and the list holds the name cut at its first colon. That no two
  attributes have one name, and that each is cut as its name is read, holds of every element that is new or was read
  (`isKeyed_of_isFresh`), and an edit keeps it (`IsKeyed.apply`), so it holds after any edits (`IsKeyed.amended`).
  `attributes_amended` says what that makes of the list: a map in the order in which its keys came in (`IsOrderedMap`),
  where a key has what the last edit of it says.
-/

import SvgComponent.Proofs.Markup.Denotation

namespace SvgComponent.Markup

/-! ## The list -/

theorem Element.has_iff {e : Element} {full : String} :
    e.has full = true ↔ full ∈ (e.attributes.map (·.name)).map Name.full := by
  simp [Element.has, Element.get?, List.find?_isSome]

namespace Attribute

variable {full value : String} {as before : List Attribute} {a : Attribute}

theorem names_assign (h : full ∈ (as.map (·.name)).map Name.full) :
    (assign full value as).map (·.name) = as.map (·.name) := by
  induction as with
  | nil => cases h
  | cons a as ih =>
    rw [assign]
    split
    · rfl
    · rename_i hne
      rw [List.map_cons, List.map_cons, List.mem_cons] at h
      rw [List.map_cons, List.map_cons, ih (h.resolve_left fun he => hne he.symm)]

theorem find?_assign {p : Attribute → Bool} (as : List Attribute)
    (hp : ∀ (n : Name) v, n.full = full → p ⟨n, v⟩ = false) : (assign full value as).find? p = as.find? p := by
  induction as with
  | nil =>
    have := hp (.parse full) value (Name.full_parse full)
    rw [assign, List.find?_singleton, this]
    rfl
  | cons a as ih =>
    rw [assign]
    split
    · rename_i h
      rw [List.find?_cons, List.find?_cons, hp a.name value h, hp a.name a.value h]
    · rw [List.find?_cons, List.find?_cons, ih]

theorem find?_assign_self (full value : String) (as : List Attribute) :
    ((assign full value as).find? fun a => a.name.full == full).map (·.value) = some value := by
  induction as with
  | nil => simp [assign, Name.full_parse]
  | cons a as ih =>
    rw [assign]
    split
    · rename_i h
      simp [h]
    · rename_i h
      rw [List.find?_cons_of_neg (by simpa using h), ih]

theorem assign_append (ha : a.name.full = full) (hbefore : ∀ b ∈ before, b.name.full ≠ full)
    (after : List Attribute) : assign full value (before ++ a :: after) = before ++ { a with value } :: after := by
  induction before with
  | nil => rw [List.nil_append, assign, if_pos ha, List.nil_append]
  | cons b before ih =>
    rw [List.forall_mem_cons] at hbefore
    rw [List.cons_append, assign, if_neg hbefore.1, ih hbefore.2, List.cons_append]

theorem assign_of_forall_ne (h : ∀ a ∈ as, a.name.full ≠ full) :
    assign full value as = as ++ [⟨Name.parse full, value⟩] := by
  induction as with
  | nil => rfl
  | cons a as ih =>
    rw [List.forall_mem_cons] at h
    rw [assign, if_neg h.1, ih h.2, List.cons_append]

end Attribute

theorem mem_assign {full value : String} {as : List Attribute} {a : Attribute}
    (h : a ∈ Attribute.assign full value as) : a ∈ as ∨ a.name.full = full := by
  induction as with
  | nil =>
    obtain rfl := List.mem_singleton.mp h
    exact Or.inr (Name.full_parse full)
  | cons b as ih =>
    rw [Attribute.assign] at h
    split at h
    · rename_i hb
      rcases List.mem_cons.mp h with rfl | h
      · exact Or.inr hb
      · exact Or.inl (List.mem_cons_of_mem b h)
    · rcases List.mem_cons.mp h with rfl | h
      · exact Or.inl List.mem_cons_self
      · exact (ih h).imp_left (List.mem_cons_of_mem b)

namespace Element

variable {e : Element} {full : String} {before after : List Attribute} {a : Attribute}

/-! ## Looking up -/

theorem get?_set (e : Element) (full value : String) : (e.set full value).get? full = some value :=
  Attribute.find?_assign_self full value e.attributes

theorem get?_set_of_ne {key value : String} (h : full ≠ key) (e : Element) :
    (e.set full value).get? key = e.get? key := by
  unfold get? set
  rw [Attribute.find?_assign]
  intro n v hn
  rw [hn]
  exact beq_false_of_ne h

theorem get?_remove (e : Element) (full : String) : (e.remove full).get? full = none := by
  rw [get?, Option.map_eq_none_iff, List.find?_eq_none]
  intro a ha
  simpa using (List.mem_filter.mp ha).2

theorem get?_remove_of_ne {key : String} (h : full ≠ key) (e : Element) : (e.remove full).get? key = e.get? key := by
  unfold get? remove
  rw [List.find?_filter]
  congr 2
  funext a
  by_cases hkey : a.name.full = key
  · simp [hkey, h.symm]
  · simp [hkey]

/-! ## One edit -/

/-- The keys of the map, in order. -/
def fullNames (e : Element) : List String := e.attributes.map (·.name.full)

theorem ne_of_not_mem_fullNames (h : full ∉ e.fullNames) : ∀ a ∈ e.attributes, a.name.full ≠ full := by
  rintro a ha rfl
  exact h (List.mem_map_of_mem ha)

theorem exists_split (h : full ∈ e.fullNames) : ∃ before a after, e.attributes = before ++ a :: after ∧
    a.name.full = full := by
  obtain ⟨a, ha, hfull⟩ := List.mem_map.mp h
  obtain ⟨before, after, heq⟩ := List.append_of_mem ha
  exact ⟨before, a, after, heq, hfull⟩

/-- The other attributes have other names. -/
theorem ne_of_split (h : e.fullNames.Nodup) (heq : e.attributes = before ++ a :: after) :
    (∀ b ∈ before, b.name.full ≠ a.name.full) ∧ ∀ b ∈ after, b.name.full ≠ a.name.full := by
  rw [fullNames, heq, List.map_append, List.map_cons, List.nodup_append, List.nodup_cons] at h
  obtain ⟨-, ⟨hafter, -⟩, hbefore⟩ := h
  refine ⟨fun b hb => hbefore _ (List.mem_map_of_mem hb) _ List.mem_cons_self, ?_⟩
  intro b hb hname
  exact hafter (hname ▸ List.mem_map_of_mem hb)

theorem attributes_set_of_not_mem (h : full ∉ e.fullNames) (value : String) :
    (e.set full value).attributes = e.attributes ++ [⟨Name.parse full, value⟩] :=
  Attribute.assign_of_forall_ne (ne_of_not_mem_fullNames h)

theorem attributes_set_of_split (h : e.fullNames.Nodup) (heq : e.attributes = before ++ a :: after) (value : String) :
    (e.set a.name.full value).attributes = before ++ { a with value } :: after := by
  rw [set]
  dsimp only
  rw [heq, Attribute.assign_append rfl (ne_of_split h heq).1]

theorem attributes_remove_of_not_mem (h : full ∉ e.fullNames) : (e.remove full).attributes = e.attributes := by
  rw [remove]
  dsimp only
  rw [List.filter_eq_self]
  intro a ha
  exact bne_iff_ne.mpr (ne_of_not_mem_fullNames h a ha)

theorem attributes_remove_of_split (h : e.fullNames.Nodup) (heq : e.attributes = before ++ a :: after) :
    (e.remove a.name.full).attributes = before ++ after := by
  obtain ⟨hbefore, hafter⟩ := ne_of_split h heq
  rw [remove]
  dsimp only
  rw [heq, List.filter_append, List.filter_cons_of_neg (by simp)]
  congr 1
  · exact List.filter_eq_self.mpr fun b hb => bne_iff_ne.mpr (hbefore b hb)
  · exact List.filter_eq_self.mpr fun b hb => bne_iff_ne.mpr (hafter b hb)

/-! ## Any edits -/

/-- No two attributes have one name, and every name is what its full name is read as. -/
structure IsKeyed (e : Element) : Prop where
  unique : e.fullNames.Nodup
  parsed : ∀ a ∈ e.attributes, Name.parse a.name.full = a.name

end Element

inductive AttributeEdit where
  | set (full value : String)
  | remove (full : String)

namespace AttributeEdit

def name : AttributeEdit → String
  | set full _ => full
  | remove full => full

/-- What the attribute is afterwards. -/
def value? : AttributeEdit → Option String
  | set _ value => some value
  | remove _ => none

def apply : AttributeEdit → Element → Element
  | set full value, e => e.set full value
  | remove full, e => e.remove full

theorem get?_apply (x : AttributeEdit) (e : Element) (full : String) :
    (x.apply e).get? full = if x.name = full then x.value? else e.get? full := by
  split
  · rename_i h
    subst h
    cases x with
    | set full value => exact e.get?_set full value
    | remove full => exact e.get?_remove full
  · rename_i h
    cases x with
    | set full' value => exact Element.get?_set_of_ne h e
    | remove full' => exact Element.get?_remove_of_ne h e

end AttributeEdit

namespace Element

variable {e : Element}

theorem IsKeyed.apply (h : e.IsKeyed) (x : AttributeEdit) : (x.apply e).IsKeyed := by
  cases x with
  | set full value =>
    by_cases hmem : full ∈ e.fullNames
    · obtain ⟨before, a, after, heq, rfl⟩ := exists_split hmem
      have hset : ((AttributeEdit.set a.name.full value).apply e).attributes = _ :=
        attributes_set_of_split h.unique heq value
      have hparsed := h.parsed
      rw [heq] at hparsed
      refine ⟨?_, ?_⟩
      · have hunique := h.unique
        rw [fullNames, heq, List.map_append, List.map_cons] at hunique
        rwa [fullNames, hset, List.map_append, List.map_cons]
      · rw [hset]
        rw [List.forall_mem_append, List.forall_mem_cons] at hparsed ⊢
        exact hparsed
    · have hset : ((AttributeEdit.set full value).apply e).attributes = _ := attributes_set_of_not_mem hmem value
      refine ⟨?_, ?_⟩
      · rw [fullNames, hset, List.map_append, List.map_singleton, Name.full_parse, List.nodup_append]
        refine ⟨h.unique, List.pairwise_singleton _ full, fun n hn m hm => ?_⟩
        rw [List.mem_singleton.mp hm]
        rintro rfl
        exact hmem hn
      · rw [hset, List.forall_mem_append, List.forall_mem_singleton]
        exact ⟨h.parsed, by rw [Name.full_parse]⟩
  | remove full =>
    exact ⟨h.unique.sublist (List.filter_sublist.map _), fun a ha => h.parsed a (List.mem_filter.mp ha).1⟩

/-- The element after the edits, the first of which comes first. -/
def amended (e : Element) (xs : List AttributeEdit) : Element := xs.foldl (fun e x => x.apply e) e

theorem IsKeyed.amended (h : e.IsKeyed) (xs : List AttributeEdit) : (e.amended xs).IsKeyed := by
  induction xs generalizing e with
  | nil => exact h
  | cons x xs ih => exact ih (h.apply x)

/-- The last edit of a name decides. -/
theorem get?_amended (e : Element) (xs : List AttributeEdit) (full : String) :
    (e.amended xs).get? full = ((xs.reverse.find? (·.name == full)).map (·.value?)).getD (e.get? full) := by
  induction xs generalizing e with
  | nil => rfl
  | cons x xs ih =>
    rw [amended, List.foldl_cons, ← amended, ih, x.get?_apply, List.reverse_cons, List.find?_append]
    cases xs.reverse.find? (·.name == full) with
    | some y => rfl
    | none =>
      by_cases hx : x.name = full
      · simp [hx]
      · simp [hx]

/-! ## Where elements come from -/

/-- A new element, or one that a document was read with. -/
inductive IsFresh : Element → Prop
  | named (full : String) : IsFresh (.named full)
  | read {s : String} {d : Document} {i : Nat} {e : Element} :
      Document.parse s = .ok d → d.content i = .element e → IsFresh e

theorem isKeyed_of_isFresh (h : e.IsFresh) : e.IsKeyed := by
  cases h with
  | named full => exact ⟨List.nodup_nil, fun a ha => by cases ha⟩
  | @read s d i _ hread he =>
    obtain ⟨_, _, _, hnumbers⟩ := denotes_of_parse hread
    have hi : i ∈ d.descendants 0 := by
      rw [hnumbers]
      exact List.mem_range.mpr (Document.lt_size_of_content he)
    have hwas := Document.all_outline_iff_below.mp (wasRead_of_parse hread) i (Document.mem_descendants_iff.mp hi)
    rw [he] at hwas
    have hspelled := hwas.1.spelled
    exact ⟨hspelled.unique, fun a ha => (hspelled.attributes a ha).name⟩

/-- The list is a map from full names that keeps the order in which they came in. -/
structure IsOrderedMap (e : Element) : Prop where
  unique : e.fullNames.Nodup
  parsed : ∀ a ∈ e.attributes, Name.parse a.name.full = a.name
  appended : ∀ full value, full ∉ e.fullNames →
    (e.set full value).attributes = e.attributes ++ [⟨Name.parse full, value⟩]
  replaced : ∀ before a after value, e.attributes = before ++ a :: after →
    (e.set a.name.full value).attributes = before ++ { a with value } :: after
  absent : ∀ full, full ∉ e.fullNames → (e.remove full).attributes = e.attributes
  removed : ∀ before a after, e.attributes = before ++ a :: after →
    (e.remove a.name.full).attributes = before ++ after

theorem IsKeyed.isOrderedMap (h : e.IsKeyed) : e.IsOrderedMap where
  unique := h.unique
  parsed := h.parsed
  appended _ value hfull := attributes_set_of_not_mem hfull value
  replaced _ _ _ value heq := attributes_set_of_split h.unique heq value
  absent _ hfull := attributes_remove_of_not_mem hfull
  removed _ _ _ heq := attributes_remove_of_split h.unique heq

/-- An element that is new or was read is such a map after any edits, and looking up a name gives what the last edit of
    it left, or what was there. Every text can be a name, for what is read of it is spelled like it. -/
theorem attributes_amended (h : e.IsFresh) (xs : List AttributeEdit) :
    (e.amended xs).IsOrderedMap ∧
      (∀ full, (e.amended xs).get? full =
        ((xs.reverse.find? (·.name == full)).map (·.value?)).getD (e.get? full)) ∧
      ∀ s, (Name.parse s).full = s :=
  ⟨((isKeyed_of_isFresh h).amended xs).isOrderedMap, e.get?_amended xs, Name.full_parse⟩

/-- Names with an empty part and with two colons: one is removed and comes back last. -/
theorem attributes_amended_colons :
    ∃ d e e', Document.parse "<svg viewBox=\"0 0 1 1\" :b=\"1\" a:b:c=\"2\"/>" = .ok d ∧ d.content 0 = .element e ∧
      e.fullNames = ["viewBox", ":b", "a:b:c"] ∧
      e.amended [.set "a:b:c" "3", .remove ":b", .set "x" "4", .set ":b" "5"] = e' ∧
      e'.attributes = [⟨⟨none, "viewBox"⟩, "0 0 1 1"⟩, ⟨⟨some "a", "b:c"⟩, "3"⟩, ⟨⟨none, "x"⟩, "4"⟩,
        ⟨⟨some "", "b"⟩, "5"⟩] ∧
      e'.IsOrderedMap ∧ e'.get? "viewBox" = e.get? "viewBox" := by
  obtain ⟨d, hd, e, -, he, hnames, hattributes⟩ :
      ∃ d, Document.parse "<svg viewBox=\"0 0 1 1\" :b=\"1\" a:b:c=\"2\"/>" = .ok d ∧
        ∃ e ∈ d.element? 0, d.content 0 = .element e ∧ e.fullNames = ["viewBox", ":b", "a:b:c"] ∧
          (e.amended [.set "a:b:c" "3", .remove ":b", .set "x" "4", .set ":b" "5"]).attributes =
            [⟨⟨none, "viewBox"⟩, "0 0 1 1"⟩, ⟨⟨some "a", "b:c"⟩, "3"⟩, ⟨⟨none, "x"⟩, "4"⟩, ⟨⟨some "", "b"⟩, "5"⟩] := by
    refine exists_parse String.toList_ofList ?_
    decide +kernel
  obtain ⟨hmap, hlooked, -⟩ := attributes_amended (.read hd he)
    [.set "a:b:c" "3", .remove ":b", .set "x" "4", .set ":b" "5"]
  exact ⟨d, e, _, hd, he, hnames, rfl, hattributes, hmap, hlooked "viewBox"⟩

end Element

end SvgComponent.Markup
