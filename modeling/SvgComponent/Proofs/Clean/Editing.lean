/-
  SvgComponent.Proofs.Clean.Editing — what editing every element leaves.

  Each attached element is edited once, and nothing else is touched: the contents are known one by one
  (`content_editElements`), and every node stays where it is (`children_editElements`). So if an edited element would be
  left alone by the edit, a second pass finds nothing to do (`editElements_editElements`).
-/

import SvgComponent.Proofs.Clean.Change

namespace SvgComponent.Markup

/-- What becomes of the content of a node when its element is edited. -/
def Content.edited (f : Element → Element × Nat) : Content → Content
  | .element e => .element (f e).1
  | c => c

theorem Content.edited_eq_element {f : Element → Element × Nat} {c : Content} {e : Element}
    (h : c.edited f = .element e) : ∃ e', c = .element e' ∧ (f e').1 = e := by
  cases c with
  | element e' => exact ⟨e', rfl, Content.element.inj h⟩
  | _ => cases h

namespace Document

variable {d : Document} {f : Element → Element × Nat} {i j : Nat}

/-! ## One node -/

theorem eq_of_forest {d d' : Document} (h : d.toForest = d'.toForest) : d = d' := by
  cases d
  cases d'
  cases h
  rfl

/-- Filling a node with what it holds changes nothing. -/
theorem setContent_content (d : Document) (i : Nat) : d.setContent i (d.content i) = d := by
  have hnodes : d.nodes.modify i (fun n => { n with content := d.content i }) = d.nodes := by
    apply Array.ext_getElem?
    intro j
    rw [Array.getElem?_modify]
    split
    · rename_i hij
      subst hij
      unfold Forest.content
      cases d.nodes[i]? <;> rfl
    · rfl
  exact eq_of_forest (congrArg Forest.mk hnodes)

theorem editElement_eq_self (h : ∀ e, d.content i = .element e → f e = (e, 0)) : d.editElement f i = (d, 0) := by
  unfold editElement
  split
  · rename_i e he
    have hcontent := Change.element?_eq_some.mp he
    rw [h e hcontent, ← hcontent, setContent_content]
  · rfl

theorem content_editElement (f : Element → Element × Nat) (d : Document) (i j : Nat) :
    (d.editElement f i).1.content j = if j = i then (d.content j).edited f else d.content j := by
  unfold editElement
  cases he : d.element? i with
  | none =>
    have hsame : (d.content i).edited f = d.content i := by
      rw [Forest.element?] at he
      cases hcontent : d.content i with
      | element e =>
        rw [hcontent] at he
        cases he
      | _ => rfl
    by_cases hji : j = i
    · subst hji
      rw [if_pos rfl, hsame]
    · rw [if_neg hji]
  | some e =>
    have hcontent := Change.element?_eq_some.mp he
    refine (Forest.content_setContent (lt_size_of_content hcontent) _ j).trans ?_
    split
    · rename_i hji
      rw [hji, hcontent]
      rfl
    · rfl

theorem children_editElement (f : Element → Element × Nat) (d : Document) (i j : Nat) :
    (d.editElement f i).1.children j = d.children j := by
  unfold editElement
  split
  · exact Forest.children_setContent d.toForest i j _
  · rfl

/-! ## Many nodes -/

theorem parent?_detach (d : Document) (i j : Nat) :
    (d.detach i).parent? j = if j = i then none else d.parent? j := Forest.parent?_detach d.toForest i j

/-- Detached nodes hang nowhere, and all others where they were. -/
theorem parent?_detachAll (ids : List Nat) (d : Document) (i : Nat) :
    (ids.foldl detach d).parent? i = if i ∈ ids then none else d.parent? i := by
  induction ids generalizing d with
  | nil => rfl
  | cons j ids ih =>
    rw [List.foldl_cons, ih, parent?_detach]
    by_cases hij : i = j <;> simp [hij]

theorem content_detachAll (ids : List Nat) (d : Document) (i : Nat) : (ids.foldl detach d).content i = d.content i := by
  induction ids generalizing d with
  | nil => rfl
  | cons j ids ih => rw [List.foldl_cons, ih, content_detach]

/-- A pass that finds nothing to do anywhere leaves the document as it is. -/
theorem forEach_eq_self {step : Document → Nat → Document × Nat} {ids : List Nat}
    (h : ∀ i ∈ ids, step d i = (d, 0)) : d.forEach step ids = (d, 0) := by
  refine List.foldlRecOn ids (motive := fun s : Document × Nat => s = (d, 0)) _ rfl ?_
  rintro _ rfl i hi
  dsimp only
  rw [h i hi, Nat.zero_add]

/-- If a step changes what its node holds, and no other, each node that is met is changed once. -/
theorem content_forEach {step : Document → Nat → Document × Nat} {change : Content → Content} {ids : List Nat}
    (hids : ids.Nodup)
    (h : ∀ d i j, (step d i).1.content j = if j = i then change (d.content j) else d.content j) (d : Document) (j : Nat) :
    (d.forEach step ids).1.content j = if j ∈ ids then change (d.content j) else d.content j := by
  rw [Change.fst_forEach]
  induction ids generalizing d with
  | nil => rfl
  | cons i ids ih =>
    rw [List.nodup_cons] at hids
    rw [List.foldl_cons, ih hids.2, h]
    by_cases hji : j = i
    · subst hji
      rw [if_neg hids.1, if_pos rfl, if_pos List.mem_cons_self]
    · rw [if_neg hji]
      simp only [List.mem_cons, hji, false_or]

/-- Every attached element is edited once. -/
theorem content_editElements (f : Element → Element × Nat) (d : Document) (j : Nat) :
    (d.editElements f).1.content j = if j ∈ d.elementIds then (d.content j).edited f else d.content j :=
  content_forEach d.nodup_elementIds (content_editElement f) d j

theorem children_editElements (f : Element → Element × Nat) (d : Document) (j : Nat) :
    (d.editElements f).1.children j = d.children j := by
  unfold editElements
  rw [Change.fst_forEach]
  refine List.foldlRecOn d.elementIds _ (motive := fun d' : Document => d'.children j = d.children j) rfl ?_
  intro d' hd' i _
  rw [children_editElement, hd']

theorem below_editElements (f : Element → Element × Nat) (d : Document) : (d.editElements f).1.Below = d.Below := by
  unfold Below
  simp only [children_editElements]

theorem content_edited_of_below (h : d.Below 0 j) : (d.editElements f).1.content j = (d.content j).edited f := by
  rw [content_editElements]
  split
  · rfl
  · rename_i hj
    cases hc : d.content j with
    | element e => exact absurd (mem_elementIds.mpr ⟨h, e, hc⟩) hj
    | _ => rfl

/-- If an edit leaves alone what it has edited, so does the pass. -/
theorem editElements_editElements (h : ∀ e, f (f e).1 = ((f e).1, 0)) (d : Document) :
    (d.editElements f).1.editElements f = ((d.editElements f).1, 0) := by
  refine forEach_eq_self fun i hi => editElement_eq_self fun e he => ?_
  rw [mem_elementIds, below_editElements] at hi
  rw [content_edited_of_below hi.1] at he
  obtain ⟨e', _, rfl⟩ := Content.edited_eq_element he
  exact h e'

end Document

/-- If new values are not replaced, no value would be replaced again. -/
theorem Element.eq_none_of_mem_replaceValues {f : Attribute → Option String}
    (h : ∀ a v, f a = some v → f { a with value := v } = none) {e : Element} {a : Attribute}
    (ha : a ∈ (e.replaceValues f).1.attributes) : f a = none := by
  obtain ⟨b, _, rfl⟩ := List.mem_map.mp ha
  cases hb : f b with
  | none => exact hb
  | some v => exact h b v hb

theorem Element.replaceValues_replaceValues {f : Attribute → Option String}
    (h : ∀ a v, f a = some v → f { a with value := v } = none) (e : Element) :
    (e.replaceValues f).1.replaceValues f = ((e.replaceValues f).1, 0) := by
  have hnone : ∀ a ∈ (e.replaceValues f).1.attributes, f a = none := fun _ ha => eq_none_of_mem_replaceValues h ha
  generalize (e.replaceValues f).1 = e' at hnone
  have hmap : (e'.attributes.map fun a => (f a).elim a fun v => { a with value := v }) = e'.attributes := by
    refine (List.map_congr_left fun a ha => ?_).trans (List.map_id _)
    rw [hnone a ha]
    rfl
  have hcount : e'.attributes.countP (fun a => (f a).isSome) = 0 := by
    rw [List.countP_eq_zero]
    intro a ha
    rw [hnone a ha]
    exact Bool.false_ne_true
  rw [Element.replaceValues, hmap, hcount]

end SvgComponent.Markup
