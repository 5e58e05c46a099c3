/-
  SvgComponent.Proofs.Clean.Accounting — the report says what was done, neither more nor less.

  `Pass.effect` is what a pass did, read off the document it found and the one it left: the elements that it cut off, or
  the values, paths or texts that are not what they were. `snd_apply` says that every pass counts its effect. An edit
  counts what it changes because it would leave alone what it writes, so what it writes is new.

  `runPasses_accounts` is the whole: each pass that is on reports its effect on what the passes before it left, one line
  each if there is any, and the removed elements are those that were attached at first and have no parent at the end.
  A line tells the pass and the count that it is for (`Pass.description_injective`).
  The root is an `svg` element there: a root that is an empty style element, or a blank text, would be counted and stay.
-/

import SvgComponent.Clean.Report
import SvgComponent.Proofs.Clean.Cuts
import SvgComponent.Proofs.Clean.Frame

namespace SvgComponent.Markup

/-! ## What is not as it was -/

/-- How many attributes do not have the value any more that they had. -/
def Element.changedValues (e e' : Element) : Nat :=
  e.attributes.zipIdx.countP fun x => (e'.attributes[x.2]?).map (·.value) != some x.1.value

namespace Document

/-- How many values the attached elements have that are not what they were. -/
def changedValues (d d' : Document) : Nat :=
  (d.elementIds.map fun i =>
    match d.element? i, d'.element? i with
    | some e, some e' => e.changedValues e'
    | _, _ => 0).sum

/-- How many attached paths are not what they were. -/
def changedPaths (d d' : Document) : Nat :=
  d.elementIds.countP fun i => (d.element? i).any (·.is "path") && d'.content i != d.content i

/-- How many attached texts are not what they were, or have no parent any more. -/
def changedTexts (d d' : Document) : Nat :=
  (d.descendants 0).countP fun i =>
    match d.content i with
    | .text s => d'.content i != .text s || (d'.parent? i).isNone
    | _ => false

end Document

theorem sum_ite_eq_countP {α : Type} (p : α → Bool) (l : List α) :
    (l.map fun a => if p a = true then 1 else 0).sum = l.countP p := by
  induction l with
  | nil => rfl
  | cons a l ih => rw [List.map_cons, List.sum_cons, ih, List.countP_cons, Nat.add_comm]

/-! ## Edited elements -/

section Edits

variable {f : Element → Element × Nat}

theorem snd_editElement (d : Document) (i : Nat) :
    (d.editElement f i).2 = ((d.element? i).map fun e => (f e).2).getD 0 := by
  unfold Document.editElement
  cases d.element? i <;> rfl

theorem snd_editElements (d : Document) :
    (d.editElements f).2 = (d.elementIds.map fun i => ((d.element? i).map fun e => (f e).2).getD 0).sum := by
  have hsame : ∀ (d : Document) (i j : Nat), i ≠ j →
      ((d.editElement f i).1.editElement f j).2 = (d.editElement f j).2 := by
    intro d i j hij
    have hcontent := Document.content_editElement f d i j
    rw [if_neg (Ne.symm hij)] at hcontent
    rw [snd_editElement, snd_editElement, Forest.element?, hcontent, Forest.element?]
  rw [Document.editElements, snd_forEach d.nodup_elementIds hsame]
  exact congrArg List.sum (List.map_congr_left fun i _ => snd_editElement d i)

/-- An edit of all elements counts what its effect on each element is. -/
theorem snd_editElements_eq (measure : Element → Element → Nat) (h : ∀ e, (f e).2 = measure e (f e).1) (d : Document) :
    (d.editElements f).2 = (d.elementIds.map fun i =>
      match d.element? i, (d.editElements f).1.element? i with
      | some e, some e' => measure e e'
      | _, _ => 0).sum := by
  rw [snd_editElements]
  refine congrArg List.sum (List.map_congr_left fun i hi => ?_)
  obtain ⟨_, e, he⟩ := Document.mem_elementIds.mp hi
  have he' := Document.content_editElements f d i
  rw [if_pos hi, he] at he'
  rw [Change.element?_eq_some.mpr he, Change.element?_eq_some.mpr he']
  exact h e

/-- New values are not the old ones if they would not be replaced themselves. -/
theorem snd_replaceValues {f : Attribute → Option String}
    (h : ∀ a v, f a = some v → f { a with value := v } = none) (e : Element) :
    (e.replaceValues f).2 = e.changedValues (e.replaceValues f).1 := by
  have hfst : e.attributes = e.attributes.zipIdx.map Prod.fst := (List.zipIdx_map_fst 0 e.attributes).symm
  have hcount : (e.replaceValues f).2 = e.attributes.zipIdx.countP fun x => (f x.1).isSome := by
    have hmap : (e.replaceValues f).2 = (e.attributes.zipIdx.map Prod.fst).countP fun a => (f a).isSome := by
      rw [← hfst]
      rfl
    rw [hmap, List.countP_map]
    rfl
  rw [hcount, Element.changedValues]
  refine List.countP_congr fun x hx => ?_
  obtain ⟨a, k⟩ := x
  have hk : e.attributes[k]? = some a := List.mem_zipIdx_iff_getElem?.mp hx
  rw [Element.replaceValues]
  dsimp only
  rw [List.getElem?_map, hk, Option.map_some, Option.map_some]
  cases hv : f a with
  | none => simp
  | some v =>
    simp only [Option.isSome_some, Option.elim_some, bne_iff_ne, ne_eq, Option.some.injEq, true_iff]
    rintro rfl
    have hnone := h a a.value hv
    rw [hv] at hnone
    cases hnone

theorem snd_simplifyPath (e : Element) :
    e.simplifyPath.2 = if e.is "path" && Content.element e.simplifyPath.1 != .element e then 1 else 0 := by
  have hone : e.simplifyPath = (e, 0) ∨ e.is "path" = true ∧ e.simplifyPath.2 = 1 := by
    unfold Element.simplifyPath
    split
    · exact .inl rfl
    · rename_i data hdata
      have hpath := is_path_of_pathData? (e := e) (by rw [hdata]; rfl)
      split
      · exact .inl rfl
      · split
        · exact .inl rfl
        · exact .inr ⟨hpath, rfl⟩
  rcases hone with hsame | ⟨hpath, hone⟩
  · rw [hsame]
    simp
  · have hne : e.simplifyPath.1 ≠ e := by
      intro heq
      -- were nothing changed, simplification would count nothing
      have hagain := congrArg Prod.snd (simplifyPath_simplifyPath e)
      rw [heq, hone] at hagain
      cases hagain
    rw [hone, hpath, if_pos (by simpa using hne)]

end Edits

theorem snd_simplifyPaths (d : Document) : d.simplifyPaths.2 = d.changedPaths d.simplifyPaths.1 := by
  rw [Document.simplifyPaths,
    snd_editElements_eq (fun e e' => if e.is "path" && Content.element e' != .element e then 1 else 0) snd_simplifyPath,
    Document.changedPaths, ← sum_ite_eq_countP]
  refine congrArg List.sum (List.map_congr_left fun i hi => ?_)
  obtain ⟨_, e, he⟩ := Document.mem_elementIds.mp hi
  have he' := Document.content_editElements Element.simplifyPath d i
  rw [if_pos hi, he] at he'
  rw [Change.element?_eq_some.mpr he, Change.element?_eq_some.mpr he', he, he', Option.any_some]
  rfl

/-! ## Trimmed texts -/

section Texts

variable {d : Document}

/-- Whether it is a text that is trimmed to nothing. -/
def Content.vanishes (c : Content) : Bool := c.trimmed != c && c.trimmed == .text ""

theorem trimText_eq (d : Document) (i : Nat) : d.trimText i =
    if (d.content i).trimmed = d.content i then (d, 0)
    else if (d.content i).trimmed = .text "" then (d.detach i, 1)
    else (d.setContent i (d.content i).trimmed, 1) := by
  unfold Document.trimText
  cases hc : d.content i with
  | text s => simp [Content.trimmed]
  | _ => exact (if_pos rfl).symm

theorem content_trimText {i j : Nat} (h : i ≠ j) (d : Document) : (d.trimText i).1.content j = d.content j := by
  rw [trimText_eq]
  split
  · rfl
  · split
    · exact Document.content_detach d i j
    · rcases Change.content_setContent d i (d.content i).trimmed j with hsame | ⟨hji, _⟩
      · exact hsame
      · exact absurd hji.symm h

theorem snd_trimText (d : Document) (i : Nat) :
    (d.trimText i).2 = if (d.content i).trimmed != d.content i then 1 else 0 := by
  rw [trimText_eq]
  by_cases h : (d.content i).trimmed = d.content i
  · simp [h]
  · rw [if_neg h]
    split <;> simp [h]

theorem parent?_trimText (d : Document) (i j : Nat) : (d.trimText i).1.parent? j =
    if j ∈ (if (d.content i).vanishes then [i] else []) then none else d.parent? j := by
  rw [trimText_eq]
  by_cases hsame : (d.content i).trimmed = d.content i
  · simp [Content.vanishes, hsame]
  · by_cases hempty : (d.content i).trimmed = .text ""
    · have hvanishes : (d.content i).vanishes = true := by
        rw [Content.vanishes, bne_iff_ne.mpr hsame, hempty]
        rfl
      rw [if_neg hsame, if_pos hempty, Document.parent?_detach, hvanishes]
      simp
    · have hstays : (d.content i).vanishes = false := by simp [Content.vanishes, hempty]
      rw [if_neg hsame, if_neg hempty, hstays]
      exact Forest.parent?_setContent d.toForest i j _

theorem parent?_trimTexts (d : Document) (i : Nat) : d.trimTexts.1.parent? i =
    if i ∈ (d.descendants 0).filter fun i => (d.content i).vanishes then none else d.parent? i := by
  have hfilter : ((d.descendants 0).filter fun i => (d.content i).vanishes) =
      (d.descendants 0).flatMap fun i => if (d.content i).vanishes then [i] else [] := by
    rw [← List.filterMap_eq_filter, List.filterMap_eq_flatMap_toList]
    refine List.flatMap_congr fun i _ => ?_
    cases h : (d.content i).vanishes <;> simp [Option.guard, h]
  rw [hfilter]
  refine parent?_forEach (fun d i => if (d.content i).vanishes then [i] else []) (d.nodup_descendants 0) ?_
    parent?_trimText d i
  intro d i j hij
  rw [content_trimText hij]

theorem snd_trimTexts (hroot : (d.content 0).isElement = true) : d.trimTexts.2 = d.changedTexts d.trimTexts.1 := by
  have hsame : ∀ (d : Document) (i j : Nat), i ≠ j → ((d.trimText i).1.trimText j).2 = (d.trimText j).2 := by
    intro d i j hij
    rw [snd_trimText, snd_trimText, content_trimText hij]
  have hcount : d.trimTexts.2 = (d.descendants 0).countP fun i => (d.content i).trimmed != d.content i := by
    rw [Document.trimTexts, snd_forEach (d.nodup_descendants 0) hsame, ← sum_ite_eq_countP]
    exact congrArg List.sum (List.map_congr_left fun i _ => snd_trimText d i)
  rw [hcount]
  refine List.countP_congr fun i hi => ?_
  have hbelow := Document.mem_descendants_iff.mp hi
  have ht := takes_trimTexts d
  have hparent := parent?_trimTexts d i
  cases hc : d.content i with
  | text s =>
    have hne : i ≠ 0 := by
      rintro rfl
      rw [hc] at hroot
      cases hroot
    simp only [bne_iff_ne, ne_eq, Bool.or_eq_true, Option.isNone_iff_eq_none]
    constructor
    · intro hnew
      -- what had something to trim is trimmed now, or hangs nowhere
      rcases settled_trimTexts hbelow with hsettled | hnone
      · left
        rw [← hsettled, trimmed_of_trimming ht, hc]
        exact hnew
      · right
        cases hp : d.trimTexts.1.parent? i with
        | none => rfl
        | some p => exact absurd ((d.trimTexts.1.linked.mem_children_iff p i).mpr hp) (hnone p)
    · intro hchanged hold
      have hvanishes : (d.content i).vanishes = false := by rw [Content.vanishes, hc, hold]; simp
      rcases hchanged with hchanged | hnone
      · rcases ht.content i with hsame | htrimmed
        · exact hchanged (hsame.trans hc)
        · exact hchanged (by rw [htrimmed, hc, hold])
      · rw [hparent, if_neg (by simp [hvanishes])] at hnone
        exact Cuts.parent?_ne_none hbelow hne hnone
  | _ => simp [Content.trimmed]

theorem cuts_trimTexts (hroot : (d.content 0).isElement = true) : Cuts d d.trimTexts.1 0 := by
  have htext : ∀ i ∈ (d.descendants 0).filter fun i => (d.content i).vanishes, (d.content i).isElement = false := by
    intro i hi
    have hvanishes := (List.mem_filter.mp hi).2
    cases hc : d.content i with
    | element e => simp [hc, Content.vanishes, Content.trimmed] at hvanishes
    | _ => rfl
  have hcount : (((d.descendants 0).filter fun i => (d.content i).vanishes).countP
      fun i => (d.content i).isElement) = 0 := by
    rw [List.countP_eq_zero]
    intro i hi
    rw [htext i hi]
    exact Bool.false_ne_true
  rw [← hcount]
  refine Cuts.of_detached ((d.nodup_descendants 0).filter _) (fun i hi => ⟨?_, ?_⟩)
    (Document.isElement_apply 0 .whitespace d) (parent?_trimTexts d)
  · exact Document.mem_descendants_iff.mp (List.mem_filter.mp hi).1
  · rintro rfl
    have hnone := htext 0 hi
    rw [hroot] at hnone
    cases hnone

end Texts

end SvgComponent.Markup

namespace SvgComponent.Clean

open Markup

/-! ## Pass by pass -/

/-- What a pass did, if it found the first document and left the second. -/
def Pass.effect (d d' : Document) : Pass → Nat
  | .duplicates | .definitions | .styles | .merging => (d.cutElements d').length
  | .rounding | .colors => d.changedValues d'
  | .paths => d.changedPaths d'
  | .whitespace => d.changedTexts d'

/-- The document is an image: its root is an `svg` element. -/
def IsImage (d : Document) : Prop := ∃ e, d.rootElement? = some e ∧ e.is "svg" = true

theorem IsImage.content {d : Document} (h : IsImage d) :
    ∃ e, d.content 0 = .element e ∧ e.is "style" = false := by
  obtain ⟨e, hroot, hsvg⟩ := h
  refine ⟨e, Change.element?_eq_some.mp hroot, Bool.eq_false_iff.mpr fun hstyle => ?_⟩
  have hbase : ("svg" : String) = "style" := (Name.base_of_is hsvg).symm.trans (Name.base_of_is hstyle)
  exact absurd hbase (by decide)

theorem IsImage.takes {d d' : Document} (h : IsImage d) (ht : naming.Takes d d') : IsImage d' := by
  obtain ⟨e, hroot, hsvg⟩ := h
  have hcontent := ht.content 0
  rw [Change.element?_eq_some.mp hroot] at hcontent
  obtain ⟨e', he', hs⟩ := hcontent
  exact ⟨e', Change.element?_eq_some.mpr he', by rwa [Element.is, hs.name]⟩

/-- A pass that removes cuts off the elements that it counts, and the others cut off none. -/
theorem cuts_apply (places : Nat) (p : Pass) {d : Document} (h : IsImage d) :
    Cuts d (p.apply places d).1 (if p.removes then (p.apply places d).2 else 0) := by
  obtain ⟨e, he, hs⟩ := h.content
  cases p with
  | duplicates => exact Document.cuts_removeDuplicates d
  | definitions => exact Document.cuts_removeUnusedDefinitions d
  | rounding => exact Document.cuts_editElements _ d
  | paths => exact Document.cuts_editElements _ d
  | colors => exact Document.cuts_editElements _ d
  | whitespace => exact cuts_trimTexts (by rw [he]; rfl)
  | styles => exact Document.cuts_removeEmptyStyles he hs
  | merging => exact Document.cuts_mergePaths d

/-- Every pass counts what it does. -/
theorem snd_apply (places : Nat) (p : Pass) {d : Document} (h : IsImage d) :
    (p.apply places d).2 = p.effect d (p.apply places d).1 := by
  obtain ⟨e, he, -⟩ := h.content
  have hcuts := cuts_apply places p h
  cases p with
  | duplicates => exact hcuts.count.symm
  | definitions => exact hcuts.count.symm
  | rounding =>
    have hrounded : ∀ (a : Attribute) v, roundedValue? places a.value = some v → roundedValue? places v = none :=
      fun a v ha => roundedValue?_roundedValue? ha
    exact snd_editElements_eq _ (snd_replaceValues hrounded) d
  | paths => exact snd_simplifyPaths d
  | colors => exact snd_editElements_eq _ (snd_replaceValues fun a v ha => hexColor?_hexColor? ha) d
  | whitespace => exact snd_trimTexts (by rw [he]; rfl)
  | styles => exact hcuts.count.symm
  | merging => exact hcuts.count.symm

/-! ## Entries -/

namespace Pass

/-- What an entry says before the count and after it. -/
def words : Pass → String × String
  | duplicates => ("Removed ", " duplicate elements")
  | definitions => ("Cleaned up ", " unused definitions")
  | rounding => ("Optimized precision in ", " attributes")
  | paths => ("Simplified ", " paths")
  | colors => ("Optimized ", " color values")
  | whitespace => ("Normalized whitespace in ", " text nodes")
  | styles => ("Removed ", " unused styles")
  | merging => ("Merged ", " compatible paths")

theorem description_eq (p : Pass) (n : Nat) :
    (p.description n).toList = p.words.1.toList ++ (Text.natDigits n ++ p.words.2.toList) := by
  have hdigits : (toString n).toList = Text.natDigits n := String.toList_ofList
  have hwords : p.description n = p.words.1 ++ toString n ++ p.words.2 := by cases p <;> rfl
  rw [hwords, String.toList_append, String.toList_append, hdigits, List.append_assoc]

theorem mem_all (p : Pass) : p ∈ all := by cases p <;> decide

theorem nodup_all : all.Nodup := by decide

theorem words_injective {p q : Pass} (h : p.words = q.words) : p = q :=
  List.inj_on_of_nodup_map (by decide : (all.map words).Nodup) (mem_all p) (mem_all q) h

/-- No digit stands before the count, and none right behind it. -/
theorem words_around (p : Pass) :
    (∀ c ∈ p.words.1.toList, (!c.isDigit) = true) ∧ Text.Stops Char.isDigit p.words.2.toList := by
  cases p <;> exact ⟨Text.forall_mem_of_all (by decide), Text.stops_cons (by decide) _⟩

/-- An entry tells the pass and the count. -/
theorem description_injective {p q : Pass} {n m : Nat} (h : p.description n = q.description m) : p = q ∧ n = m := by
  have hlead : ∀ (n : Nat) (r : List Char), Text.Stops (!Char.isDigit ·) (Text.natDigits n ++ r) := by
    intro n r
    obtain ⟨c, s, hs⟩ := List.exists_cons_of_ne_nil (show Text.natDigits n ≠ [] from Nat.toDigits_ne_nil)
    rw [hs]
    refine Text.stops_cons ?_ _
    rw [Text.isDigit_natDigits (n := n) (by rw [hs]; exact List.mem_cons_self)]
    rfl
  have htext := congrArg String.toList h
  rw [description_eq, description_eq] at htext
  obtain ⟨hbefore, hrest⟩ := Text.append_stop_inj (words_around p).1 (words_around q).1 (hlead n _) (hlead m _) htext
  obtain ⟨hcount, hafter⟩ := Text.append_stop_inj (fun _ => Text.isDigit_natDigits) (fun _ => Text.isDigit_natDigits)
    (words_around p).2 (words_around q).2 hrest
  refine ⟨words_injective (Prod.ext ?_ ?_), Text.natDigits_injective hcount⟩
  · exact String.toList_inj.mp hbefore
  · exact String.toList_inj.mp hafter

end Pass

/-! ## A whole run -/

variable {o : Options} {d : Document}

/-- What the enabled passes before a pass leave for it. -/
def found (o : Options) (d : Document) (p : Pass) : Document := (Pass.all.takeWhile (· != p)).foldl (stage o) d

/-- What a pass does in a run. -/
def effectIn (o : Options) (d : Document) (p : Pass) : Nat := p.effect (found o d p) (stage o (found o d p) p)

theorem snd_foldl_runAfter {l : List Pass} (hl : l.Nodup) (d : Document) (runs : List Run) :
    ((l.filter o.enables).foldl (Pass.runAfter o.places) (d, runs)).2 =
      runs ++ (l.filter o.enables).map fun p =>
        let d := (l.takeWhile (· != p)).foldl (stage o) d
        ⟨p, (p.apply o.places d).2, p.skips d⟩ := by
  induction l generalizing d runs with
  | nil => exact (List.append_nil runs).symm
  | cons p l ih =>
    rw [List.nodup_cons] at hl
    -- a later pass finds what `p` left of what was there
    have hlater : ∀ q ∈ l.filter o.enables,
        ((p :: l).takeWhile (· != q)).foldl (stage o) d = (l.takeWhile (· != q)).foldl (stage o) (stage o d p) := by
      intro q hq
      have hne : p ≠ q := fun heq => hl.1 (heq ▸ (List.mem_filter.mp hq).1)
      rw [List.takeWhile_cons, if_pos (by simpa using hne), List.foldl_cons]
    have hmap : (l.filter o.enables).map (fun q =>
        let d := ((p :: l).takeWhile (· != q)).foldl (stage o) d
        (⟨q, (q.apply o.places d).2, q.skips d⟩ : Run)) = (l.filter o.enables).map fun q =>
        let d := (l.takeWhile (· != q)).foldl (stage o) (stage o d p)
        ⟨q, (q.apply o.places d).2, q.skips d⟩ := List.map_congr_left fun q hq => by simp only [hlater q hq]
    by_cases hp : o.enables p = true
    · have hstage : stage o d p = (p.apply o.places d).1 := if_pos hp
      rw [List.filter_cons_of_pos hp, List.foldl_cons, Pass.runAfter, ih hl.2, List.map_cons, hmap, hstage,
        List.append_assoc, List.singleton_append]
      simp
    · have hstage : stage o d p = d := if_neg hp
      rw [List.filter_cons_of_neg hp, ih hl.2, hmap, hstage]

theorem isImage_foldl_stage (h : IsImage d) (l : List Pass) : IsImage (l.foldl (stage o) d) :=
  List.foldlRecOn l (stage o) (motive := IsImage) h fun d hd p _ => hd.takes (takes_stage o p d)

/-- The runs of the passes that are on, in their order, each with its effect. -/
theorem runs_eq (h : IsImage d) : (runPasses o d).2.map (fun r => (r.pass, r.count)) =
    (Pass.all.filter o.enables).map fun p => (p, effectIn o d p) := by
  rw [runPasses, snd_foldl_runAfter Pass.nodup_all, List.nil_append, List.map_map]
  refine List.map_congr_left fun p hp => ?_
  have hcount := snd_apply o.places p (isImage_foldl_stage (o := o) h (Pass.all.takeWhile (· != p)))
  have hstage : stage o (found o d p) p = (p.apply o.places (found o d p)).1 := if_pos (List.mem_filter.mp hp).2
  rw [effectIn, hstage]
  exact congrArg (Prod.mk p) hcount

/-- What all passes cut off, one after the other, is cut off in the end. -/
theorem cuts_foldl_runAfter (h : IsImage d) (l : List Pass) :
    Cuts d (l.foldl (Pass.runAfter o.places) (d, [])).1
      (((l.foldl (Pass.runAfter o.places) (d, [])).2.filter (·.pass.removes)).map (·.count)).sum := by
  refine (List.foldlRecOn l (Pass.runAfter o.places) (b := (d, [])) (motive := fun s : Document × List Run =>
    IsImage s.1 ∧ Cuts d s.1 ((s.2.filter (·.pass.removes)).map (·.count)).sum) ⟨h, .refl d⟩ ?_).2
  intro s hs p _
  refine ⟨hs.1.takes (takes_naming o.places p s.1), ?_⟩
  have hcuts := hs.2.trans (cuts_apply o.places p hs.1)
  rw [Pass.runAfter]
  dsimp only
  rw [List.filter_append, List.map_append, List.sum_append]
  cases hp : p.removes <;> simpa [hp] using hcuts

/-- In an image every pass counts what it does, and so does a run: each pass that is on counts its effect on what the
    passes before it left; the removed elements are those that were attached and have no parent any more, as many as the
    passes that remove have cut off; and there is one line for each pass that had an effect, in the order of the
    passes. A line tells the pass and the count. -/
theorem runPasses_accounts (o : Options) {d : Document} {e : Element} (hroot : d.rootElement? = some e)
    (hsvg : e.is "svg" = true) :
    (∀ places (p : Pass), (p.apply places d).2 = p.effect d (p.apply places d).1) ∧
      ((runPasses o d).2.map fun r => (r.pass, r.count)) =
        ((Pass.all.filter o.enables).map fun p => (p, effectIn o d p)) ∧
      (Report.ofRuns (runPasses o d).2).removedElements = (d.cutElements (runPasses o d).1).length ∧
      (Report.ofRuns (runPasses o d).2).removedElements =
        (((Pass.all.filter o.enables).filter Pass.removes).map (effectIn o d)).sum ∧
      (Report.ofRuns (runPasses o d).2).optimizations =
        (((Pass.all.filter o.enables).filter fun p => effectIn o d p != 0).map
          fun p => p.description (effectIn o d p)) ∧
      (∀ (p q : Pass) (n m : Nat), p.description n = q.description m → p = q ∧ n = m) := by
  have himage : IsImage d := ⟨e, hroot, hsvg⟩
  have hruns := runs_eq (o := o) himage
  have hremoved : (Report.ofRuns (runPasses o d).2).removedElements =
      (((runPasses o d).2.filter (·.pass.removes)).map (·.count)).sum := rfl
  refine ⟨fun places p => snd_apply places p himage, hruns, ?_, ?_, ?_, fun _ _ _ _ => Pass.description_injective⟩
  · rw [hremoved]
    exact (cuts_foldl_runAfter himage _).count.symm
  · have hpairs : ((runPasses o d).2.filter (·.pass.removes)).map (·.count) =
        (((runPasses o d).2.map fun r => (r.pass, r.count)).filter (·.1.removes)).map (·.2) := by
      rw [List.filter_map, List.map_map]
      rfl
    rw [hremoved, hpairs, hruns, List.filter_map, List.map_map]
    rfl
  · have hpairs : (Report.ofRuns (runPasses o d).2).optimizations =
        (((runPasses o d).2.map fun r => (r.pass, r.count)).filter (·.2 != 0)).map fun x => x.1.description x.2 := by
      rw [List.filter_map, List.map_map]
      rfl
    rw [hpairs, hruns, List.filter_map, List.map_map]
    rfl

/-- A path merged within a path that is merged itself, an empty style element in another, and a duplicate with a text
    to trim in it. -/
theorem runPasses_accounts_nested :
    ∃ d, Document.parse "<svg viewBox=\"0 0 1 1\"><style><style/></style><g> t </g><g> t </g><path d=\"M0 0\"/><path d=\"M1 1\"><path d=\"M2 2\"/><path d=\"M3 3\"/></path></svg>" = .ok d ∧
      d.cutElements (runPasses .every d).1 = [1, 2, 5, 8, 10] ∧
      (Report.ofRuns (runPasses .every d).2).removedElements = 5 ∧
      ((Pass.all.filter Pass.removes).map (effectIn .every d)).sum = 5 ∧
      ∀ p : Pass, (p.apply 2 d).2 = p.effect d (p.apply 2 d).1 := by
  obtain ⟨d, hd, e, hroot, hsvg, hcut⟩ : ∃ d, Document.parse "<svg viewBox=\"0 0 1 1\"><style><style/></style><g> t </g><g> t </g><path d=\"M0 0\"/><path d=\"M1 1\"><path d=\"M2 2\"/><path d=\"M3 3\"/></path></svg>" = .ok d ∧
      ∃ e ∈ d.rootElement?, e.is "svg" = true ∧ d.cutElements (runPasses .every d).1 = [1, 2, 5, 8, 10] := by
    decide +kernel
  obtain ⟨hcounts, _, hremoved, hsum, _, _⟩ := runPasses_accounts .every hroot hsvg
  have hfive : (Report.ofRuns (runPasses .every d).2).removedElements = 5 := by
    rw [hremoved, hcut]
    rfl
  exact ⟨d, hd, hcut, hfive, hsum.symm.trans hfive, hcounts 2⟩

end SvgComponent.Clean
