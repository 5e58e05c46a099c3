/-
  SvgComponent.Proofs.Clean.Frame — what cleaning leaves as it was.

  Nodes are cut off, and never made or moved. Of those that stay attached, each hangs below the same node as before,
  and its children are those of before that stay attached, in the same order (`Change.Takes.frame`).
  - An element keeps its name, and its attributes keep theirs in their order.
  - A value that is replaced was a decimal fraction, path data, or a fill or stroke, and a pass that replaces such
    values is on (`MayReplace`).
  - A text may be trimmed. Comments and CDATA stay.

  A value may be replaced several times. Whether it may is asked of the value that was there at first, so one pass after
  another replaces no more than they do one by one (`rewriting`). `runPasses_frames` is the whole.
-/

import Mathlib.Data.List.Sort
import SvgComponent.Proofs.Clean.Editing
import SvgComponent.Proofs.Clean.Naming
import SvgComponent.Proofs.Text.Blank

namespace SvgComponent.Markup

/-! ## Nodes -/

/-- A node that stays attached was attached, and hangs where it hung with what stays attached below it. -/
theorem Change.Takes.frame {k : Change} {d d' : Document} (h : k.Takes d d') {i : Nat} (hi : d'.isAttached i = true) :
    d.isAttached i = true ∧ d'.parent? i = d.parent? i ∧ d'.children i = (d.children i).filter d'.isAttached := by
  have hbelow := Document.isAttached_iff.mp hi
  have hparent : ∀ {j}, d'.Below 0 j → d'.parent? j = d.parent? j := by
    intro j hj
    rcases Relation.ReflTransGen.cases_tail hj with rfl | ⟨p, _, hp⟩
    · rw [Document.parent?_root, Document.parent?_root]
    · rw [(d'.linked.mem_children_iff p j).mp hp, (d.linked.mem_children_iff p j).mp ((h.children p).subset hp)]
  refine ⟨Document.isAttached_iff.mpr (h.below hbelow), hparent hbelow, ?_⟩
  refine (d'.linked.sorted i).eq_of_mem_iff ((d.linked.sorted i).filter _) fun c => ?_
  rw [List.mem_filter, Document.isAttached_iff]
  constructor
  · intro hc
    exact ⟨(h.children i).subset hc, hbelow.child hc⟩
  · intro hc
    obtain ⟨hc, hkept⟩ := hc
    rw [d'.linked.mem_children_iff, hparent hkept]
    exact (d.linked.mem_children_iff i c).mp hc

end SvgComponent.Markup

namespace SvgComponent.Clean

open Markup

/-! ## Values -/

/-- The values that passes which are on may replace. -/
def MayReplace (o : Options) (e : Element) (a : Attribute) : Prop :=
  (o.optimizePrecision = true ∧ (Decimal.parse? a.value.toList).isSome = true) ∨
  ((o.simplifyPaths = true ∨ o.mergePaths = true) ∧ e.is "path" = true ∧ a.name.full = "d") ∨
  (o.optimizeColors = true ∧ (a.name.is "fill" || a.name.is "stroke") = true)

/-- An attribute of the element keeps its name, and its value if that may not be replaced. -/
structure Reworded (o : Options) (e : Element) (a a' : Attribute) : Prop where
  name : a'.name = a.name
  value : a'.value = a.value ∨ MayReplace o e a

theorem Reworded.refl (o : Options) (e : Element) (a : Attribute) : Reworded o e a a := ⟨rfl, .inl rfl⟩

theorem Reworded.trans {o : Options} {e e' : Element} {a b c : Attribute} (hname : e'.name = e.name)
    (h : Reworded o e a b) (h' : Reworded o e' b c) : Reworded o e a c := by
  refine ⟨h'.name.trans h.name, ?_⟩
  rcases h.value with hsame | hmay
  · -- nothing was replaced yet, so the second pass asks of the value that was there at first
    have hb : b = a := by
      cases a
      cases b
      cases h.name
      cases hsame
      rfl
    subst hb
    refine h'.value.imp_right fun hmay => ?_
    rwa [MayReplace, Element.is, hname] at hmay
  · exact .inr hmay

/-- An element keeps its name, and its attributes are reworded one by one. -/
structure Restyled (o : Options) (e e' : Element) : Prop where
  name : e'.name = e.name
  attributes : List.Forall₂ (Reworded o e) e.attributes e'.attributes

theorem Restyled.refl (o : Options) (e : Element) : Restyled o e e :=
  ⟨rfl, List.forall₂_same.mpr fun a _ => .refl o e a⟩

theorem Restyled.trans {o : Options} {e e' e'' : Element} (h : Restyled o e e') (h' : Restyled o e' e'') :
    Restyled o e e'' := by
  refine ⟨h'.name.trans h.name, List.forall₂_iff_get.mpr ⟨?_, ?_⟩⟩
  · exact h.attributes.length_eq.trans h'.attributes.length_eq
  · intro i hi hi''
    have hi' := h.attributes.length_eq ▸ hi
    exact (h.attributes.get hi hi').trans h.name (h'.attributes.get hi' hi'')

theorem restyled_replaceValues {o : Options} {f : Attribute → Option String} {e : Element}
    (h : ∀ a v, f a = some v → MayReplace o e a) : Restyled o e (e.replaceValues f).1 := by
  refine ⟨rfl, List.forall₂_map_right_iff.mpr (List.forall₂_same.mpr fun a _ => ?_)⟩
  cases ha : f a with
  | none => exact .refl o e a
  | some v => exact ⟨rfl, .inr (h a v ha)⟩

theorem forall₂_assign {o : Options} {e : Element} {full : String} (value : String)
    (hmay : ∀ a : Attribute, a.name.full = full → MayReplace o e a) {as : List Attribute}
    (hfull : full ∈ (as.map (·.name)).map Name.full) :
    List.Forall₂ (Reworded o e) as (Attribute.assign full value as) := by
  induction as with
  | nil => cases hfull
  | cons a as ih =>
    rw [Attribute.assign]
    split
    · rename_i ha
      exact .cons ⟨rfl, .inr (hmay a ha)⟩ (List.forall₂_same.mpr fun b _ => .refl o e b)
    · rename_i ha
      rw [List.map_cons, List.map_cons, List.mem_cons] at hfull
      exact .cons (.refl o e a) (ih (hfull.resolve_left fun heq => ha heq.symm))

/-- New path data is a replaced value, if a pass that gives it is on. -/
theorem restyled_set {o : Options} {e : Element} (ho : o.simplifyPaths = true ∨ o.mergePaths = true)
    (h : e.pathData?.isSome = true) (data : String) : Restyled o e (e.set "d" data) := by
  refine ⟨rfl, forall₂_assign data (fun a ha => .inr (.inl ⟨ho, is_path_of_pathData? h, ha⟩)) ?_⟩
  exact Element.has_iff.mp (has_of_pathData? h)

theorem restyled_simplifyPath {o : Options} (ho : o.simplifyPaths = true) (e : Element) :
    Restyled o e e.simplifyPath.1 := by
  rcases e.simplifyPath_cases with hsame | ⟨data, simpler, hdata, _, hset⟩
  · rw [hsame]
    exact .refl o e
  · rw [hset]
    exact restyled_set (.inl ho) (by rw [hdata]; rfl) simpler

/-! ## Contents -/

/-- What is left of the content of a node. -/
inductive Rewritten (o : Options) : Content → Content → Prop
  | element {e e' : Element} : Restyled o e e' → Rewritten o (.element e) (.element e')
  | trimmed (s : String) : o.normalizeWhitespace = true → Rewritten o (.text s) (.text (Text.trimmed s))
  | same (c : Content) : Rewritten o c c

theorem Rewritten.trans {o : Options} {a b c : Content} (h : Rewritten o a b) (h' : Rewritten o b c) :
    Rewritten o a c := by
  cases h with
  | same => exact h'
  | element h =>
    cases h' with
    | element h' => exact .element (h.trans h')
    | same => exact .element h
  | trimmed s ho =>
    cases h' with
    | trimmed _ _ =>
      rw [Text.trimmed_trimmed]
      exact .trimmed s ho
    | same => exact .trimmed s ho

/-- Anything may be cut off, and what stays is rewritten at most. -/
def rewriting (o : Options) : Change where
  cut _ _ := True
  edit := Rewritten o
  refl := .same
  trans h h' := h.trans h'
  cut_iff _ := Iff.rfl

/-! ## Passes -/

theorem takes_rewriting_replaceValues {o : Options} {f : Attribute → Option String}
    (h : ∀ e a v, f a = some v → MayReplace o e a) (d : Document) :
    (rewriting o).Takes d (d.editElements (Element.replaceValues f)).1 :=
  Change.takes_editElements (k := rewriting o) (fun e => .element (restyled_replaceValues (h e))) d

theorem takes_rewriting {o : Options} {p : Pass} (hp : o.enables p = true) (d : Document) :
    (rewriting o).Takes d (p.apply o.places d).1 := by
  cases p with
  | duplicates => exact (Change.takes_removeDuplicates d).of_cutting fun _ _ _ _ => trivial
  | definitions => exact (Change.takes_removeUnusedDefinitions d).of_cutting fun _ _ _ _ => trivial
  | rounding =>
    refine takes_rewriting_replaceValues (fun e a v ha => .inl ⟨hp, ?_⟩) d
    unfold roundedValue? at ha
    split at ha
    · rename_i hx
      rw [hx]
      rfl
    · cases ha
  | paths => exact Change.takes_editElements (k := rewriting o) (fun e => .element (restyled_simplifyPath hp e)) d
  | colors =>
    refine takes_rewriting_replaceValues (fun e a v ha => .inr (.inr ⟨hp, ?_⟩)) d
    unfold Attribute.hexColor? at ha
    split at ha
    · assumption
    · cases ha
  | whitespace =>
    exact Change.takes_trimTexts (k := rewriting o) (fun _ _ _ => trivial) (fun s _ => .trimmed s hp) d
  | styles => exact (Change.takes_removeEmptyStyles d).of_cutting fun _ _ _ _ => trivial
  | merging =>
    refine (takes_repathing d).mono (fun _ _ _ => trivial) fun hedit => ?_
    exact hedit.induction .same (fun h h' => h.trans h') fun e data hdata => .element (restyled_set (.inr hp) hdata data)

/-- What stays attached in a run of the passes that are on stays where it was, with the same children less those that
    went, and is rewritten at most. -/
theorem runPasses_frames (o : Options) (d : Document) {i : Nat} (hi : (runPasses o d).1.isAttached i = true) :
    d.isAttached i = true ∧ (runPasses o d).1.parent? i = d.parent? i ∧
      (runPasses o d).1.children i = (d.children i).filter (runPasses o d).1.isAttached ∧
      Rewritten o (d.content i) ((runPasses o d).1.content i) := by
  have ht : (rewriting o).Takes d (runPasses o d).1 := Change.takes_runPasses (fun p hp d => takes_rewriting hp d) d
  obtain ⟨hattached, hparent, hchildren⟩ := ht.frame hi
  exact ⟨hattached, hparent, hchildren, ht.content i⟩

/-- All passes. -/
def Options.every : Options := { Options.standard with mergePaths := true }

/-- A path whose data grows by what is merged into it, between texts of which one is trimmed and one goes. -/
theorem runPasses_frames_merged :
    ∃ d, Document.parse "<svg viewBox=\"0 0 1 1\"> <g/> a <path d=\"M0 0\" y=\"0.129\"/><path d=\"M1 1\"/></svg>" = .ok d ∧
      (runPasses .every d).1.isAttached 0 = true ∧ (runPasses .every d).1.markup =
        "<svg viewBox=\"0 0 1 1\"><g/>a<path d=\"M0 0 M1 1\" y=\"0.13\"/></svg>" ∧
      d.children 0 = [1, 2, 3, 4, 5] ∧
      (runPasses .every d).1.children 0 = [1, 2, 3, 4, 5].filter (runPasses .every d).1.isAttached := by
  obtain ⟨d, hd, h0, hmarkup, hchildren⟩ : ∃ d, Document.parse
      "<svg viewBox=\"0 0 1 1\"> <g/> a <path d=\"M0 0\" y=\"0.129\"/><path d=\"M1 1\"/></svg>" = .ok d ∧
      (runPasses .every d).1.isAttached 0 = true ∧ (runPasses .every d).1.markup =
        "<svg viewBox=\"0 0 1 1\"><g/>a<path d=\"M0 0 M1 1\" y=\"0.13\"/></svg>" ∧
      d.children 0 = [1, 2, 3, 4, 5] := by decide +kernel
  exact ⟨d, hd, h0, hmarkup, hchildren, hchildren ▸ (runPasses_frames _ d h0).2.2.1⟩

end SvgComponent.Clean
