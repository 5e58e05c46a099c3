/-
  SvgComponent.Proofs.Markup.Outline — trees without numbers, and the tags and texts that they are written as.

  An outline is what two documents have in common when they differ in their numbers only. `Outline.events` takes it
  apart into the pieces that a reader sees, and `markup_eq_written` says that a tree is written piece by piece.
  Text that stands side by side is one piece for a reader: `joined` for outlines, `joinTexts` for pieces.
-/

import SvgComponent.Markup.Event
import SvgComponent.Markup.Printer
import SvgComponent.Proofs.Markup.Below
import SvgComponent.Proofs.Markup.Tag

namespace SvgComponent.Markup

inductive Outline where
  | node (content : Content) (children : List Outline)

namespace Tree

mutual

def outline : Tree → Outline
  | node _ c ts => .node c (outlines ts)

def outlines : List Tree → List Outline
  | [] => []
  | t :: ts => outline t :: outlines ts

end

theorem outlines_eq_map (ts : List Tree) : outlines ts = ts.map outline := by
  induction ts with
  | nil => rfl
  | cons t ts ih => rw [outlines, ih, List.map_cons]

end Tree

def Document.outline (d : Document) (i : Nat) : Outline := (d.tree i).outline

theorem Document.outline_eq (d : Document) (i : Nat) :
    d.outline i = .node (d.content i) ((d.children i).map d.outline) := by
  unfold Document.outline
  rw [tree_eq, Tree.outline, Tree.outlines_eq_map, List.map_map]
  rfl

/-! ## Pieces -/

namespace Event

def isText : Event → Bool
  | text _ => true
  | _ => false

/-- How a piece is written; what is skipped is not. -/
def written : Event → List Char
  | text raw => raw
  | start content => '<' :: (content ++ ['>'])
  | empty content => '<' :: (content ++ ['/', '>'])
  | finish name => '<' :: '/' :: (name ++ ['>'])
  | comment s => ['<', '!', '-', '-'] ++ s ++ ['-', '-', '>']
  | cdata s => ['<', '!', '[', 'C', 'D', 'A', 'T', 'A', '['] ++ s ++ [']', ']', '>']
  | skipped => []

/-- Text in front of pieces goes into the text that they begin with. -/
def addText (raw : List Char) (es : List Event) : List Event :=
  if raw = [] then es
  else
    match es with
    | text raw' :: es => text (raw ++ raw') :: es
    | es => text raw :: es

def put : Event → List Event → List Event
  | text raw, es => addText raw es
  | e, es => e :: es

def joinTexts (es : List Event) : List Event := es.foldr put []

theorem put_of_not_isText {e : Event} (h : e.isText = false) (es : List Event) : e.put es = e :: es := by
  cases e <;> first | rfl | cases h

theorem addText_eq_cons {raw : List Char} (hne : raw ≠ []) {es : List Event} (h : ∀ e ∈ es.head?, e.isText = false) :
    addText raw es = text raw :: es := by
  unfold addText
  rw [if_neg hne]
  split
  · cases h _ rfl
  · rfl

theorem joinTexts_cons (e : Event) (es : List Event) : joinTexts (e :: es) = e.put (joinTexts es) := rfl

/-- Text does not reach over a piece that is none. -/
theorem joinTexts_append_cons {e : Event} (h : e.isText = false) (es fs : List Event) :
    joinTexts (es ++ e :: fs) = joinTexts es ++ e :: joinTexts fs := by
  induction es with
  | nil => exact put_of_not_isText h _
  | cons f es ih =>
    rw [List.cons_append, joinTexts_cons, joinTexts_cons, ih]
    cases f with
    | text raw =>
      cases hes : joinTexts es with
      | nil =>
        simp only [put, addText]
        split
        · rfl
        · cases e <;> first | rfl | cases h
      | cons g gs =>
        simp only [put, addText, List.cons_append]
        split
        · rfl
        · cases g <;> rfl
    | _ => rfl

theorem mem_addText {f : Event} (hf : f.isText = false) {raw : List Char} {es : List Event} :
    f ∈ addText raw es ↔ f ∈ es := by
  have hne : ∀ raw, f ≠ .text raw := by
    intro raw heq
    subst heq
    cases hf
  unfold addText
  split
  · exact Iff.rfl
  · split
    · simp [hne]
    · simp [hne]

theorem mem_joinTexts {f : Event} (hf : f.isText = false) {es : List Event} : f ∈ joinTexts es ↔ f ∈ es := by
  induction es with
  | nil => exact Iff.rfl
  | cons e es ih =>
    rw [joinTexts_cons, List.mem_cons, ← ih]
    cases e with
    | text raw =>
      rw [put, mem_addText hf]
      refine (or_iff_right ?_).symm
      intro heq
      subst heq
      cases hf
    | _ => rw [put_of_not_isText rfl, List.mem_cons]

theorem written_addText (raw : List Char) (es : List Event) :
    (addText raw es).flatMap written = raw ++ es.flatMap written := by
  unfold addText
  split
  · rename_i h
    rw [h, List.nil_append]
  · split
    · simp [written]
    · rfl

theorem written_joinTexts (es : List Event) : (joinTexts es).flatMap written = es.flatMap written := by
  induction es with
  | nil => rfl
  | cons e es ih =>
    rw [joinTexts_cons]
    cases e with
    | text raw => rw [put, written_addText, ih]; rfl
    | _ => rw [put_of_not_isText rfl, List.flatMap_cons, List.flatMap_cons, ih]

end Event

namespace Outline

mutual

def events : Outline → List Event
  | node (.element e) ts =>
    if ts.isEmpty then [.empty e.content]
    else .start e.content :: (eventsOf ts ++ [.finish e.name.full.toList])
  | node (.text s) _ => [.text (s.toList.flatMap escapeText)]
  | node (.comment s) _ => [.comment s.toList]
  | node (.cdata s) _ => [.cdata s.toList]

def eventsOf : List Outline → List Event
  | [] => []
  | t :: ts => events t ++ eventsOf ts

end

/-- The pieces of an element with children. -/
theorem events_element (e : Element) {ts : List Outline} (h : ts ≠ []) :
    (node (.element e) ts).events = .start e.content :: (eventsOf ts ++ [.finish e.name.full.toList]) := by
  rw [events, if_neg (by simpa using h)]

/-! ## Joining text -/

/-- Text in front of nodes goes into the text that they begin with, and empty text nowhere. -/
def addText (s : String) (ts : List Outline) : List Outline :=
  if s = "" then ts
  else
    match ts with
    | node (.text s') us :: ts => node (.text (s ++ s')) us :: ts
    | ts => node (.text s) [] :: ts

def put : Outline → List Outline → List Outline
  | node (.text s) _, ts => addText s ts
  | t, ts => t :: ts

mutual

/-- The outline with adjacent texts joined and empty ones dropped. -/
def joined : Outline → Outline
  | node c ts => .node c (joinAll ts)

def joinAll : List Outline → List Outline
  | [] => []
  | t :: ts => put (joined t) (joinAll ts)

end

end Outline

/-! ## What holds of every node -/

namespace Outline

mutual

/-- Every node's content and children satisfy `p`. -/
def All (p : Content → List Outline → Prop) : Outline → Prop
  | node c ts => p c ts ∧ AllOf p ts

def AllOf (p : Content → List Outline → Prop) : List Outline → Prop
  | [] => True
  | t :: ts => All p t ∧ AllOf p ts

end

mutual

theorem All.and {p q r : Content → List Outline → Prop} :
    ∀ {o : Outline}, o.All p → o.All q → (∀ c ts, p c ts → q c ts → r c ts) → o.All r
  | node _ _, ⟨hp, hps⟩, ⟨hq, hqs⟩, h => ⟨h _ _ hp hq, hps.and hqs h⟩

theorem AllOf.and {p q r : Content → List Outline → Prop} :
    ∀ {ts : List Outline}, AllOf p ts → AllOf q ts → (∀ c ts, p c ts → q c ts → r c ts) → AllOf r ts
  | [], _, _, _ => trivial
  | _ :: _, ⟨hp, hps⟩, ⟨hq, hqs⟩, h => ⟨hp.and hq h, hps.and hqs h⟩

end

theorem allOf_iff {p : Content → List Outline → Prop} {ts : List Outline} : AllOf p ts ↔ ∀ t ∈ ts, t.All p := by
  induction ts with
  | nil => simp [AllOf]
  | cons t ts ih => rw [AllOf, ih, List.forall_mem_cons]

end Outline

open Outline (AllOf) in
mutual

theorem all_outline_iff {p : Content → List Outline → Prop} : ∀ {t : Tree},
    t.outline.All p ↔ ∀ u ∈ t.subtrees, p u.content (Tree.outlines u.children)
  | .node i c ts => by
    rw [Tree.outline, Outline.All, Tree.subtrees, List.forall_mem_cons, allOf_outlines_iff]
    rfl

theorem allOf_outlines_iff {p : Content → List Outline → Prop} : ∀ {ts : List Tree},
    AllOf p (Tree.outlines ts) ↔ ∀ u ∈ Tree.subtreesOf ts, p u.content (Tree.outlines u.children)
  | [] => by simp [Tree.outlines, Outline.AllOf, Tree.subtreesOf]
  | t :: ts => by
    rw [Tree.outlines, Outline.AllOf, Tree.subtreesOf, List.forall_mem_append, all_outline_iff, allOf_outlines_iff]

end

/-- What holds of an outline holds of all nodes that hang below. -/
theorem Document.all_outline_iff_below {p : Content → List Outline → Prop} {d : Document} {i : Nat} :
    (d.outline i).All p ↔ ∀ j, d.Below i j → p (d.content j) ((d.children j).map d.outline) := by
  have hnode : ∀ j, p (d.tree j).content (Tree.outlines (d.tree j).children) ↔
      p (d.content j) ((d.children j).map d.outline) := by
    intro j
    rw [content_tree, children_tree, Tree.outlines_eq_map, List.map_map]
    rfl
  unfold outline
  rw [all_outline_iff]
  constructor
  · intro h j hj
    exact (hnode j).mp (h _ (mem_subtrees_iff.mpr ⟨j, hj, rfl⟩))
  · intro h t ht
    obtain ⟨j, hj, rfl⟩ := mem_subtrees_iff.mp ht
    exact (hnode j).mpr (h j hj)

theorem all_below {p : Content → List Outline → Prop} {d : Document} {i j : Nat} (h : (d.outline i).All p)
    (hj : d.Below i j) : (d.outline j).All p :=
  Document.all_outline_iff_below.mpr fun m hm => Document.all_outline_iff_below.mp h m (hj.trans hm)

/-! ## A tree is written piece by piece -/

open Outline (eventsOf)

mutual

theorem write_eq_written : ∀ (t : Tree) (rest : List Char),
    t.write rest = t.outline.events.flatMap Event.written ++ rest
  | .node _ (.element e) ts, rest => by
    rw [Tree.write, Tree.outline, Outline.events]
    cases ts with
    | nil => simp [Tree.outlines, Event.written, opening_eq]
    | cons t ts =>
      have ih := writeAll_eq_written (t :: ts)
      simp only [List.isEmpty_cons, Tree.outlines] at ih ⊢
      simp [ih, Event.written, opening_eq]
  | .node _ (.text s) _, rest => by simp [Tree.write, Tree.outline, Outline.events, Event.written]
  | .node _ (.comment s) _, rest => by simp [Tree.write, Tree.outline, Outline.events, Event.written]
  | .node _ (.cdata s) _, rest => by simp [Tree.write, Tree.outline, Outline.events, Event.written]

theorem writeAll_eq_written : ∀ (ts : List Tree) (rest : List Char),
    Tree.writeAll ts rest = (eventsOf (Tree.outlines ts)).flatMap Event.written ++ rest
  | [], _ => rfl
  | t :: ts, rest => by
    rw [Tree.writeAll, writeAll_eq_written ts, write_eq_written t, Tree.outlines, Outline.eventsOf,
      List.flatMap_append, List.append_assoc]

end

theorem markup_eq_written (t : Tree) : t.markup = t.outline.events.flatMap Event.written := by
  rw [Tree.markup, write_eq_written, List.append_nil]

theorem markup_toList (d : Document) : d.markup.toList = d.root.outline.events.flatMap Event.written := by
  rw [Document.markup, Document.nodeMarkup, String.toList_ofList]
  exact markup_eq_written _

end SvgComponent.Markup
