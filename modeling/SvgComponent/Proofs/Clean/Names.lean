/-
  SvgComponent.Proofs.Clean.Names — elements with the same name and the same keys.

  Setting a value that is there and replacing values change no name (`sameNames_set`, `sameNames_replaceValues`), and
  what only asks for names is answered as before. New path data changes nothing but the path data (`redrawn_set`,
  `redrawn_simplifyPath`).
-/

import SvgComponent.Analysis.Reference
import SvgComponent.Clean.Paths
import SvgComponent.Markup.Parser
import SvgComponent.Proofs.Markup.Attributes

namespace SvgComponent.Markup

open Analysis (attributeReferences)

/-! ## Keys -/

/-- One element has the name and the keys of another. -/
structure Element.SameNames (e e' : Element) : Prop where
  name : e'.name = e.name
  keys : e'.attributes.map (·.name) = e.attributes.map (·.name)

namespace Element.SameNames

variable {e e' : Element}

theorem refl (e : Element) : SameNames e e := ⟨rfl, rfl⟩

theorem trans {e'' : Element} (h : SameNames e e') (h' : SameNames e' e'') : SameNames e e'' :=
  ⟨h'.name.trans h.name, h'.keys.trans h.keys⟩

theorem has (h : SameNames e e') (full : String) : e'.has full = e.has full := by
  rw [Bool.eq_iff_iff, has_iff, has_iff, h.keys]

theorem isSized (h : SameNames e e') : e'.isSized = e.isSized := by
  rw [Element.isSized, Element.isSized, h.has, h.has, h.has]

theorem isSome_pathData? (h : SameNames e e') : e'.pathData?.isSome = e.pathData?.isSome := by
  have hd : (e'.get? "d").isSome = (e.get? "d").isSome := h.has "d"
  unfold pathData? Element.is
  rw [h.name]
  split
  · exact hd
  · rfl

theorem nil_iff (h : SameNames e e') : e'.attributes = [] ↔ e.attributes = [] := by
  rw [← List.map_eq_nil_iff (f := (·.name)), h.keys, List.map_eq_nil_iff]

end Element.SameNames

theorem sameNames_set {e : Element} {full : String} (h : e.has full = true) (value : String) :
    e.SameNames (e.set full value) := ⟨rfl, Attribute.names_assign (Element.has_iff.mp h)⟩

theorem sameNames_replaceValues (f : Attribute → Option String) (e : Element) :
    e.SameNames (e.replaceValues f).1 := by
  refine ⟨rfl, ?_⟩
  rw [Element.replaceValues, List.map_map]
  apply List.map_congr_left
  intro a _
  show ((f a).elim a fun v => { a with value := v }).name = a.name
  cases f a <;> rfl

theorem has_of_pathData? {e : Element} (h : e.pathData?.isSome = true) : e.has "d" = true := by
  unfold Element.pathData? at h
  split at h
  · exact h
  · cases h

theorem is_path_of_pathData? {e : Element} (h : e.pathData?.isSome = true) : e.is "path" = true := by
  unfold Element.pathData? at h
  split at h
  · assumption
  · cases h

/-! ## Path data -/

/-- Nothing but path data differs. -/
structure Element.Redrawn (e e' : Element) : Prop where
  names : e.SameNames e'
  values : ∀ {key}, key ≠ "d" → e'.get? key = e.get? key
  references : e'.attributes.flatMap attributeReferences ⊆ e.attributes.flatMap attributeReferences

namespace Element.Redrawn

variable {e e' : Element}

theorem refl (e : Element) : e.Redrawn e := ⟨.refl e, fun _ => rfl, List.Subset.refl _⟩

theorem trans {e'' : Element} (h : e.Redrawn e') (h' : e'.Redrawn e'') : e.Redrawn e'' :=
  ⟨h.names.trans h'.names, fun hkey => (h'.values hkey).trans (h.values hkey),
    List.Subset.trans h'.references h.references⟩

theorem paint (h : e.Redrawn e') : e'.paint = e.paint := by
  unfold Element.paint
  rw [h.values (by decide), h.values (by decide), h.values (by decide)]

end Element.Redrawn

/-- Path data refers to nothing. -/
theorem redrawn_set {e : Element} (h : e.pathData?.isSome = true) (value : String) : e.Redrawn (e.set "d" value) := by
  refine ⟨sameNames_set (has_of_pathData? h) value, fun hkey => Element.get?_set_of_ne (Ne.symm hkey) e, ?_⟩
  intro y hy
  obtain ⟨a, ha, hya⟩ := List.mem_flatMap.mp hy
  rcases mem_assign ha with ha | ha
  · exact List.mem_flatMap.mpr ⟨a, ha, hya⟩
  · rw [attributeReferences, ha, if_neg (by decide)] at hya
    cases hya

/-- A path is left alone, or gets its path data in the simplest form. -/
theorem Element.simplifyPath_cases (e : Element) : e.simplifyPath = (e, 0) ∨
    ∃ data simpler, e.pathData? = some data ∧ Path.simplify data = .ok simpler ∧ e.simplifyPath.1 = e.set "d" simpler := by
  unfold simplifyPath
  split
  · exact Or.inl rfl
  · rename_i data hdata
    split
    · exact Or.inl rfl
    · rename_i simpler hsimple
      split
      · exact Or.inl rfl
      · exact Or.inr ⟨data, simpler, hdata, hsimple, rfl⟩

theorem redrawn_simplifyPath (e : Element) : e.Redrawn e.simplifyPath.1 := by
  rcases e.simplifyPath_cases with hsame | ⟨data, simpler, hdata, _, hset⟩
  · rw [hsame]
    exact .refl e
  · rw [hset]
    exact redrawn_set (by rw [hdata]; rfl) simpler

end SvgComponent.Markup
