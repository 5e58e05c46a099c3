/-
  SvgComponent.Proofs.Jsx.Identifiers — stripped identifiers leave no trace in the markup.

  Editing every attached element edits the tree of a document node by node (`tree_editElements`). If identifiers are
  stripped, no part of an element comes from an id (`parts_remove_id`), so a tree and the tree without its ids are converted
  to the same markup and the same styles (`convertRoot_withoutIds`).
-/

import SvgComponent.Proofs.Clean.Editing
import SvgComponent.Proofs.Jsx.Converted

namespace SvgComponent.Markup

/-! ## Trees with other contents -/

namespace Tree

mutual

/-- The tree with `f` of each content. -/
def map (f : Content → Content) : Tree → Tree
  | node i c ts => .node i (f c) (mapAll f ts)

def mapAll (f : Content → Content) : List Tree → List Tree
  | [] => []
  | t :: ts => map f t :: mapAll f ts

end

theorem mapAll_eq_map (f : Content → Content) (ts : List Tree) : mapAll f ts = ts.map (map f) := by
  induction ts with
  | nil => rfl
  | cons t ts ih => rw [mapAll, ih, List.map_cons]

theorem content_map (f : Content → Content) (t : Tree) : (t.map f).content = f t.content := by
  cases t
  rw [map]
  rfl

mutual

theorem subtrees_map (f : Content → Content) : ∀ t : Tree, (t.map f).subtrees = t.subtrees.map (map f)
  | .node i c ts => by rw [map, subtrees, subtreesOf_mapAll f ts, subtrees, List.map_cons, map]

theorem subtreesOf_mapAll (f : Content → Content) : ∀ ts : List Tree,
    subtreesOf (mapAll f ts) = (subtreesOf ts).map (map f)
  | [] => rfl
  | t :: ts => by rw [mapAll, subtreesOf, subtrees_map f t, subtreesOf_mapAll f ts, subtreesOf, List.map_append]

end

theorem textContent_map {f : Content → Content} (hf : ∀ c, (f c).characters = c.characters) (t : Tree) :
    (t.map f).textContent = t.textContent := by
  rw [textContent, textContent, subtrees_map, List.map_map]
  simp only [Function.comp_def, content_map, hf]

end Tree

theorem Content.characters_edited (f : Element → Element × Nat) (c : Content) : (c.edited f).characters = c.characters := by
  cases c <;> rfl

theorem Document.tree_editElements (f : Element → Element × Nat) {d : Document} {i : Nat} (hi : d.Below 0 i) :
    (d.editElements f).1.tree i = (d.tree i).map (Content.edited f) := by
  rw [tree_eq, content_edited_of_below hi, children_editElements, d.tree_eq i, Tree.map, Tree.mapAll_eq_map, List.map_map]
  congr 1
  refine List.map_congr_left fun c hc => ?_
  have hlt := d.linked.lt_of_mem_children hc
  have hsize := d.linked.mem_children_lt_size hc
  exact tree_editElements f (hi.child hc)
termination_by d.size - i

/-- The document with no id in it. -/
def Document.withoutIds (d : Document) : Document := (d.editElements fun e => (e.remove "id", 0)).1

end SvgComponent.Markup

namespace SvgComponent.Jsx

open Markup (Document Content Element)
open Style (Sheet)

variable {r : Rules}

/-! ## Ids and their markup -/

theorem parts_remove_id (hr : r.stripIdentifiers = true) (root : Bool) (as : List Markup.Attribute) (sheet : Sheet) :
    parts r root (as.filter (·.name.full != "id")) sheet = parts r root as sheet := by
  induction as generalizing sheet with
  | nil => rfl
  | cons a as ih =>
    rw [List.filter_cons]
    split
    · rw [parts_cons, parts_cons]
      dsimp only
      rw [ih]
    · rename_i hid
      have hid : a.name.full = "id" := by simpa using hid
      have hstyle : ¬ a.name.full = "style" := by
        rw [hid]
        decide
      have hnone : plainPart r root a = none := if_pos ⟨hid, hr⟩
      rw [parts_cons, if_neg hstyle, hnone, ih]
      rfl

/-- The content with no id in it. -/
abbrev withoutId : Content → Content := Content.edited fun e => (e.remove "id", 0)

mutual

theorem convert_withoutId (hr : r.stripIdentifiers = true) : ∀ (t : Markup.Tree) (sheet : Sheet),
    convert r (t.map withoutId) sheet = convert r t sheet
  | .node i (.element e) ts, sheet => by
    have htext := Markup.Tree.textContent_map (Content.characters_edited fun e => (e.remove "id", 0)) (.node i (.element e) ts)
    have hmap : (Markup.Tree.node i (.element e) ts).map withoutId =
        .node i (.element (e.remove "id")) (Markup.Tree.mapAll withoutId ts) := by
      rw [Markup.Tree.map]
      rfl
    rw [hmap] at htext ⊢
    by_cases hspace : e.name.space.isSome = true
    · rw [convert_spaced ts sheet hspace]
      exact convert_spaced _ sheet hspace
    · by_cases hstyle : e.is "style" = true
      · rw [convert_style ts sheet hspace hstyle, ← htext]
        exact convert_style _ sheet hspace hstyle
      · rw [convert_drawn ts sheet hspace hstyle]
        refine (convert_drawn (e := e.remove "id") _ sheet hspace hstyle).trans ?_
        rw [Element.remove, parts_remove_id hr false e.attributes sheet]
        dsimp only
        rw [convertAll_withoutId hr ts]
  | .node _ (.text _) _, _ => by
    rw [Markup.Tree.map]
    rfl
  | .node _ (.cdata _) _, _ => by
    rw [Markup.Tree.map]
    rfl
  | .node _ (.comment _) _, _ => by
    rw [Markup.Tree.map]
    rfl

theorem convertAll_withoutId (hr : r.stripIdentifiers = true) : ∀ (ts : List Markup.Tree) (sheet : Sheet),
    convertAll r (Markup.Tree.mapAll withoutId ts) sheet = convertAll r ts sheet
  | [], _ => rfl
  | t :: ts, sheet => by
    rw [Markup.Tree.mapAll, convertAll_cons, convert_withoutId hr t, convertAll_withoutId hr ts, convertAll_cons]

end

/-- Without its ids, an image has the same markup and styles. -/
theorem convertRoot_withoutIds (hr : r.stripIdentifiers = true) (d : Document) (e : Element) :
    convertRoot r (e.remove "id") d.withoutIds.root.children = convertRoot r e d.root.children := by
  have hroot : d.withoutIds.root = d.root.map withoutId := Document.tree_editElements _ (.refl d 0)
  have hchildren : d.withoutIds.root.children = Markup.Tree.mapAll withoutId d.root.children := by
    rw [hroot]
    cases d.root
    rw [Markup.Tree.map]
    rfl
  rw [hchildren]
  unfold convertRoot
  rw [Element.remove, parts_remove_id hr true e.attributes .empty]
  dsimp only
  rw [convertAll_withoutId hr]

end SvgComponent.Jsx
