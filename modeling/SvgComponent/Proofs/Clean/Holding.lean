/-
  SvgComponent.Proofs.Clean.Holding — which passes keep an id and refer to nothing new.

  `Element.Holds` says that an element keeps its names and an id and refers to nothing new. Every pass but trimming
  does no more to an id that rounding does not touch (`takes_pruning`), and those that edit values cut nothing off
  (`takes_editing`). If style elements hold no elements, their text stays too, and no reference is new
  (`references_of_pruning`).
-/

import SvgComponent.Proofs.Clean.Naming
import SvgComponent.Proofs.Clean.Values

namespace SvgComponent.Markup

open Analysis (attributeReferences)

/-! ## Elements -/

/-- An element keeps its names and the id, and refers to nothing new. -/
structure Element.Holds (x : String) (e e' : Element) : Prop where
  names : e.SameNames e'
  id : e.get? "id" = some x → e'.get? "id" = some x
  references : e'.attributes.flatMap attributeReferences ⊆ e.attributes.flatMap attributeReferences

namespace Element.Holds

variable {x : String} {e e' : Element}

theorem trans {e'' : Element} (h : e.Holds x e') (h' : e'.Holds x e'') : e.Holds x e'' :=
  ⟨h.names.trans h'.names, fun hx => h'.id (h.id hx), List.Subset.trans h'.references h.references⟩

end Element.Holds

theorem holds_of_redrawn {e e' : Element} (x : String) (h : e.Redrawn e') : e.Holds x e' :=
  ⟨h.names, fun hx => (h.values (by decide)).trans hx, h.references⟩

/-- Replaced values refer to nothing, and the id is not replaced. -/
theorem holds_replaceValues {x : String} {f : Attribute → Option String}
    (hid : ∀ a, a.name.full = "id" → a.value = x → f a = none)
    (hrefs : ∀ a v, f a = some v → attributeReferences { a with value := v } = []) (e : Element) :
    e.Holds x (e.replaceValues f).1 := by
  refine ⟨sameNames_replaceValues f e, ?_, ?_⟩
  · intro h
    obtain ⟨a, ha, rfl⟩ := Option.map_eq_some_iff.mp h
    have hfull : a.name.full = "id" := by simpa using List.find?_some ha
    have hkey : ∀ b : Attribute, (((f b).elim b fun v => { b with value := v }).name.full == "id") =
        (b.name.full == "id") := fun b => by cases f b <;> rfl
    unfold Element.get? Element.replaceValues
    rw [List.find?_map, Function.comp_def]
    simp only [hkey, ha, Option.map_some, hid a hfull rfl, Option.elim_none]
  · intro y hy
    obtain ⟨b, hb, hyb⟩ := List.mem_flatMap.mp hy
    obtain ⟨a, ha, rfl⟩ := List.mem_map.mp hb
    cases hfa : f a with
    | none =>
      rw [hfa, Option.elim_none] at hyb
      exact List.mem_flatMap.mpr ⟨a, ha, hyb⟩
    | some v =>
      rw [hfa, Option.elim_some, hrefs a v hfa] at hyb
      cases hyb

/-! ## The changes -/

/-- What is no element stays as it is. -/
inductive Content.Holds (x : String) : Content → Content → Prop
  | element {e e' : Element} : e.Holds x e' → Holds x (.element e) (.element e')
  | other (c : Content) : Holds x c c

theorem Content.Holds.isElement {x : String} {a b : Content} (h : a.Holds x b) : b.isElement = a.isElement := by
  cases h <;> rfl

/-- Elements may be cut off. -/
def pruning (x : String) : Change where
  cut _ c := c.isElement = true
  edit := Content.Holds x
  refl := .other
  trans := by
    intro a b c hab hbc
    cases hab with
    | other => exact hbc
    | element h =>
      cases hbc with
      | other => exact .element h
      | element h' => exact .element (h.trans h')
  cut_iff h := by rw [h.isElement]

/-- Nothing is cut off. -/
def editing (x : String) : Change := { pruning x with cut := fun _ _ => False, cut_iff := fun _ => Iff.rfl }

variable {x : String} {d d' : Document}

theorem takes_pruning_of_editing (h : (editing x).Takes d d') : (pruning x).Takes d d' :=
  h.mono (fun _ _ hc => False.elim hc) fun hedit => hedit

theorem takes_naming_of_pruning (h : (pruning x).Takes d d') : naming.Takes d d' := by
  refine h.mono (fun _ _ _ => trivial) ?_
  intro a b hab
  cases hab with
  | element he => exact ⟨_, rfl, he.names⟩
  | other _ => exact naming.refl a

/-- The passes that edit values. -/
theorem takes_editing {places : Nat} {p : Clean.Pass} (hx : p = .rounding → roundedValue? places x = none)
    (hp : p = .rounding ∨ p = .paths ∨ p = .colors) (d : Document) :
    (editing x).Takes d (p.apply places d).1 := by
  rcases hp with rfl | rfl | rfl
  · refine Change.takes_editElements (fun e => Content.Holds.element (holds_replaceValues ?_ ?_ e)) d
    · intro a _ heq
      subst heq
      exact hx rfl
    · exact fun a v hv => roundedValue_refers_not hv a.name
  · exact Change.takes_editElements (fun e => Content.Holds.element (holds_of_redrawn x (redrawn_simplifyPath e))) d
  · refine Change.takes_editElements (fun e => Content.Holds.element (holds_replaceValues ?_ ?_ e)) d
    · intro a hid _
      unfold Attribute.hexColor?
      rw [if_neg]
      intro hname
      rw [Bool.or_eq_true] at hname
      have hfull : ∀ s, a.name.is s = true → a.name.full = s := by
        intro s hs
        obtain ⟨hspace, hbase⟩ := Bool.and_eq_true_iff.mp hs
        rw [Name.full, Option.isNone_iff_eq_none.mp hspace]
        exact eq_of_beq hbase
      rcases hname with h | h
      · have := (hfull _ h).symm.trans hid
        revert this
        decide
      · have := (hfull _ h).symm.trans hid
        revert this
        decide
    · exact fun a v hv => hexColor_refers_not hv

theorem takes_pruning {places : Nat} {p : Clean.Pass} (hx : p = .rounding → roundedValue? places x = none)
    (hp : p ≠ .whitespace) (d : Document) : (pruning x).Takes d (p.apply places d).1 := by
  cases p with
  | duplicates => exact (Change.takes_removeDuplicates d).of_cutting fun _ _ hc _ => hc
  | definitions => exact (Change.takes_removeUnusedDefinitions d).of_cutting fun _ _ hc _ => hc
  | rounding => exact takes_pruning_of_editing (takes_editing hx (by simp) d)
  | paths => exact takes_pruning_of_editing (takes_editing hx (by simp) d)
  | colors => exact takes_pruning_of_editing (takes_editing hx (by simp) d)
  | whitespace => exact absurd rfl hp
  | styles => exact (Change.takes_removeEmptyStyles d).of_cutting fun _ _ hc _ => hc
  | merging =>
    refine (takes_mergePaths d).mono (fun _ _ hc => hc.1) ?_
    intro a b hab
    cases hab with
    | element h => exact .element (holds_of_redrawn x h)
    | other => exact .other a

end SvgComponent.Markup
