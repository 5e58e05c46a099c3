/-
  SvgComponent.Proofs.Markup.Nesting — which pieces build which outlines.

  `Spells` is the grammar of what stands inside an element. Pieces that spell outlines build them as new children of
  the innermost open element, and change nothing else (`build_spells`, with `Grows` for what a document becomes).
  Conversely, pieces from which a document is built are one element that is spelled, with nothing that leaves a
  trace around it (`whole_of_document`).
-/

import SvgComponent.Markup.Parser
import SvgComponent.Proofs.Markup.Scanning

namespace SvgComponent.Markup

open Event

/-- The pieces inside an element, and the outlines that they are written for. -/
inductive Spells : List Event → List Outline → Prop
  | nil : Spells [] []
  | skipped {es : List Event} {ts : List Outline} (h : Spells es ts) : Spells (.skipped :: es) ts
  | text {es : List Event} {ts : List Outline} {raw s : List Char} (read : Reference.expand raw = .ok s)
      (h : Spells es ts) : Spells (.text raw :: es) (.node (.text (String.ofList s)) [] :: ts)
  | comment {es : List Event} {ts : List Outline} (s : List Char) (h : Spells es ts) :
      Spells (.comment s :: es) (.node (.comment (String.ofList s)) [] :: ts)
  | cdata {es : List Event} {ts : List Outline} (s : List Char) (h : Spells es ts) :
      Spells (.cdata s :: es) (.node (.cdata (String.ofList s)) [] :: ts)
  | empty {es : List Event} {ts : List Outline} {content : List Char} {e : Element}
      (read : TagAttributes.element content = .ok e) (h : Spells es ts) :
      Spells (.empty content :: es) (.node (.element e) [] :: ts)
  | element {es fs : List Event} {ts us : List Outline} {content : List Char} {e : Element}
      (read : TagAttributes.element content = .ok e) (inside : Spells es ts) (h : Spells fs us) :
      Spells (.start content :: (es ++ .finish (Stream.tagName content) :: fs)) (.node (.element e) ts :: us)

/-! ## What a document becomes -/

/-- The document with new nodes below `i` alone, and the outlines of the new children. -/
structure Grows (d d' : Document) (i : Nat) (ts : List Outline) : Prop where
  size_le : d.size ≤ d'.size
  content : ∀ j < d.size, d'.content j = d.content j
  children : ∀ j < d.size, j ≠ i → d'.children j = d.children j
  grown : ∃ news, d'.children i = d.children i ++ news ∧ news.map d'.outline = ts ∧ ∀ n ∈ news, d.size ≤ n

namespace Document

/-- An outline depends only on nodes with at least its root's number. -/
theorem outline_congr {d d' : Document} {n : Nat}
    (h : ∀ j, n ≤ j → j < d.size → d'.content j = d.content j ∧ d'.children j = d.children j) (hn : n < d.size) :
    d'.outline n = d.outline n := by
  rw [outline_eq, outline_eq, (h n (Nat.le_refl n) hn).1, (h n (Nat.le_refl n) hn).2]
  congr 1
  apply List.map_congr_left
  intro c hc
  have hlt := d.linked.lt_of_mem_children hc
  have hsize := d.linked.mem_children_lt_size hc
  exact outline_congr (fun j hj => h j (by omega)) hsize
termination_by d.size - n

theorem size_append {d : Document} {i : Nat} (h : i < d.size) (c : Content) : (d.append i c).size = d.size + 1 :=
  Forest.size_append h

theorem content_append {d : Document} {i : Nat} (h : i < d.size) (c : Content) (j : Nat) :
    (d.append i c).content j = if j = d.size then c else d.content j := Forest.content_append h j

theorem children_append {d : Document} {i : Nat} (h : i < d.size) (c : Content) (j : Nat) :
    (d.append i c).children j = if j = i then d.children i ++ [d.size] else d.children j := Forest.children_append h j

theorem lt_size_append {d : Document} {i : Nat} (h : i < d.size) (c : Content) : i < (d.append i c).size := by
  rw [size_append h]
  omega

end Document

namespace Grows

variable {d d' d'' : Document} {i : Nat} {ts us : List Outline}

theorem refl (d : Document) (i : Nat) : Grows d d i [] :=
  ⟨Nat.le_refl _, fun _ _ => rfl, fun _ _ _ => rfl, [], by simp⟩

theorem trans (hi : i < d.size) (h : Grows d d' i ts) (h' : Grows d' d'' i us) : Grows d d'' i (ts ++ us) := by
  have hle := h.size_le
  obtain ⟨news, hc, ht, hn⟩ := h.grown
  obtain ⟨news', hc', ht', hn'⟩ := h'.grown
  refine ⟨by have := h'.size_le; omega, ?_, ?_, news ++ news', ?_, ?_, ?_⟩
  · intro j hj
    rw [h'.content j (by omega), h.content j hj]
  · intro j hj hne
    rw [h'.children j (by omega) hne, h.children j hj hne]
  · rw [hc', hc, List.append_assoc]
  · -- What grew first lies above `i` in number, so what grows below `i` afterwards leaves it alone.
    have same : news.map d''.outline = news.map d'.outline := by
      apply List.map_congr_left
      intro n hmem
      have hge := hn n hmem
      have hlt : n < d'.size := d'.linked.mem_children_lt_size (p := i) (by rw [hc]; simp [hmem])
      apply Document.outline_congr _ hlt
      intro j hj hjlt
      exact ⟨h'.content j hjlt, h'.children j hjlt (by omega)⟩
    rw [List.map_append, same, ht, ht']
  · intro n hmem
    rcases List.mem_append.mp hmem with hmem | hmem
    · exact hn n hmem
    · have := hn' n hmem
      omega

/-- A new last child, and what grows below it. -/
theorem child {c : Content} (hi : i < d.size) (h : Grows (d.append i c) d' d.size ts) :
    Grows d d' i [.node c ts] := by
  have hsize := Document.size_append hi c
  have hle := h.size_le
  obtain ⟨news, hc, ht, _⟩ := h.grown
  have hnone : d.children d.size = [] := Forest.children_eq_nil (Nat.le_refl _)
  rw [Document.children_append hi, if_neg (by omega), hnone, List.nil_append] at hc
  refine ⟨by omega, ?_, ?_, [d.size], ?_, ?_, by simp⟩
  · intro j hj
    rw [h.content j (by omega), Document.content_append hi, if_neg (by omega)]
  · intro j hj hne
    rw [h.children j (by omega) (by omega), Document.children_append hi, if_neg hne]
  · rw [h.children i (by omega) (by omega), Document.children_append hi, if_pos rfl]
  · rw [List.map_singleton, Document.outline_eq, h.content _ (by omega), Document.content_append hi, if_pos rfl, hc, ht]

theorem leaf (hi : i < d.size) (c : Content) : Grows d (d.append i c) i [.node c []] := child hi (refl _ _)

end Grows

/-! ## Building inside an element -/

namespace Builder

variable {d : Document} {i : Nat} {is : List Nat}

/-- A document with open elements takes a piece of text. -/
theorem step_text {raw s : List Char} (h : Reference.expand raw = .ok s) :
    step ⟨some d, i :: is⟩ (.text raw) = .ok ⟨some (d.append i (.text (String.ofList s))), i :: is⟩ := by
  simp [step, h, insert?, place?, Except.mapError, bind, Except.bind]

theorem step_start {content : List Char} {e : Element} (h : TagAttributes.element content = .ok e) :
    step ⟨some d, i :: is⟩ (.start content) = .ok ⟨some (d.append i (.element e)), d.size :: i :: is⟩ := by
  simp [step, h, place, bind, Except.bind]

theorem step_empty {content : List Char} {e : Element} (h : TagAttributes.element content = .ok e) :
    step ⟨some d, i :: is⟩ (.empty content) = .ok ⟨some (d.append i (.element e)), i :: is⟩ := by
  simp [step, h, place, bind, Except.bind]

theorem step_comment (s : List Char) :
    step ⟨some d, i :: is⟩ (.comment s) = .ok ⟨some (d.append i (.comment (String.ofList s))), i :: is⟩ := rfl

theorem step_cdata (s : List Char) :
    step ⟨some d, i :: is⟩ (.cdata s) = .ok ⟨some (d.append i (.cdata (String.ofList s))), i :: is⟩ := rfl

theorem step_finish (name : List Char) : step ⟨some d, i :: is⟩ (.finish name) = .ok ⟨some d, is⟩ := rfl

theorem foldlM_cons_ok {b b' : Builder} {e : Event} (h : step b e = .ok b') (es : List Event) :
    (e :: es).foldlM step b = es.foldlM step b' := by
  rw [List.foldlM_cons, h]
  rfl

theorem foldlM_append_ok {b b' : Builder} {es : List Event} (h : es.foldlM step b = .ok b') (fs : List Event) :
    (es ++ fs).foldlM step b = fs.foldlM step b' := by
  rw [List.foldlM_append, h]
  rfl

/-- Below the innermost open element, the pieces build the outlines. -/
def Builds (es : List Event) (d : Document) (i : Nat) (is : List Nat) (ts : List Outline) : Prop :=
  ∃ d', es.foldlM step ⟨some d, i :: is⟩ = .ok ⟨some d', i :: is⟩ ∧ Grows d d' i ts

theorem Builds.cons {d₁ : Document} {e : Event} {es : List Event} {ts us : List Outline} (hi : i < d.size)
    (hstep : step ⟨some d, i :: is⟩ e = .ok ⟨some d₁, i :: is⟩) (hgrows : Grows d d₁ i ts)
    (h : Builds es d₁ i is us) : Builds (e :: es) d i is (ts ++ us) := by
  obtain ⟨d', hrun, hgrows'⟩ := h
  exact ⟨d', by rw [foldlM_cons_ok hstep, hrun], hgrows.trans hi hgrows'⟩

/-- Pieces that spell outlines build them. -/
theorem build_spells {es : List Event} {ts : List Outline} (h : Spells es ts) (hi : i < d.size) :
    Builds es d i is ts := by
  induction h generalizing d i is with
  | nil => exact ⟨d, rfl, .refl d i⟩
  | skipped h ih => exact .cons hi rfl (.refl d i) (ih hi)
  | text read h ih => exact .cons hi (step_text read) (.leaf hi _) (ih (Document.lt_size_append hi _))
  | comment s h ih => exact .cons hi (step_comment s) (.leaf hi _) (ih (Document.lt_size_append hi _))
  | cdata s h ih => exact .cons hi (step_cdata s) (.leaf hi _) (ih (Document.lt_size_append hi _))
  | empty read h ih => exact .cons hi (step_empty read) (.leaf hi _) (ih (Document.lt_size_append hi _))
  | @element es fs ts us content e read inside h ih₁ ih₂ =>
    have hn : d.size < (d.append i (.element e)).size := by
      rw [Document.size_append hi]
      omega
    obtain ⟨d₁, hrun₁, hgrows₁⟩ : Builds es (d.append i (.element e)) d.size (i :: is) ts := ih₁ hn
    have hchild := Grows.child hi hgrows₁
    have hi₁ : i < d₁.size := Nat.lt_of_lt_of_le hi hchild.size_le
    obtain ⟨d₂, hrun₂, hgrows₂⟩ : Builds fs d₁ i is us := ih₂ hi₁
    refine ⟨d₂, ?_, hchild.trans hi hgrows₂⟩
    rw [foldlM_cons_ok (step_start read), foldlM_append_ok hrun₁, foldlM_cons_ok (step_finish _), hrun₂]

end Builder

/-! ## End tags -/

/-- Every end tag closes the innermost open tag; `opened` holds the names of those that are open before. -/
def Matched : List (List Char) → List Event → Prop
  | _, [] => True
  | opened, .start content :: es => Matched (Stream.tagName content :: opened) es
  | o :: opened, .finish name :: es => o = name ∧ Matched opened es
  | [], .finish _ :: _ => False
  | opened, _ :: es => Matched opened es

namespace Stream

theorem matchTags_of_matched {opened : List (List Char)} {es : List Event} (h : Matched opened es)
    (fault : Option MarkupFault) : matchTags opened es fault = ⟨es, fault⟩ := by
  induction es generalizing opened with
  | nil => rfl
  | cons e es ih =>
    cases e with
    | finish name =>
      cases opened with
      | nil => exact h.elim
      | cons o opened =>
        obtain ⟨rfl, h⟩ := h
        rw [matchTags, if_pos rfl, ih h]
        rfl
    | start content =>
      rw [matchTags, ih h]
      rfl
    | _ =>
      show (matchTags opened es fault).cons _ = _
      rw [ih h]
      rfl

theorem matched_of_matchTags {opened : List (List Char)} {es : List Event} {fault : Option MarkupFault}
    (h : (matchTags opened es fault).fault = none) : fault = none ∧ Matched opened es := by
  induction es generalizing opened with
  | nil => exact ⟨h, trivial⟩
  | cons e es ih =>
    cases e with
    | finish name =>
      cases opened with
      | nil => cases h
      | cons o opened =>
        rw [matchTags] at h
        split at h
        · rename_i heq
          exact ⟨(ih h).1, heq, (ih h).2⟩
        · cases h
    | _ => exact ih h

end Stream

theorem matched_spells {es : List Event} {ts : List Outline} (h : Spells es ts) {opened : List (List Char)}
    {rest : List Event} (hrest : Matched opened rest) : Matched opened (es ++ rest) := by
  induction h generalizing opened rest with
  | nil => exact hrest
  | element read inside h ih₁ ih₂ =>
    rw [List.cons_append, List.append_assoc, List.cons_append]
    exact ih₁ ⟨rfl, ih₂ hrest⟩
  | _ => rename_i ih; exact ih hrest

/-! ## Taking pieces apart -/

namespace Builder

variable {d : Document} {i : Nat} {is : List Nat}

theorem step_ok_start {content : List Char} {b b' : Builder} (h : step b (.start content) = .ok b') :
    ∃ e, TagAttributes.element content = .ok e := by
  cases he : TagAttributes.element content with
  | ok e => exact ⟨e, rfl⟩
  | error f => simp [step, he, bind, Except.bind] at h

theorem step_ok_empty {content : List Char} {b b' : Builder} (h : step b (.empty content) = .ok b') :
    ∃ e, TagAttributes.element content = .ok e := by
  cases he : TagAttributes.element content with
  | ok e => exact ⟨e, rfl⟩
  | error f => simp [step, he, bind, Except.bind] at h

theorem step_ok_text {raw : List Char} {b b' : Builder} (h : step b (.text raw) = .ok b') :
    ∃ s, Reference.expand raw = .ok s := by
  cases hs : Reference.expand raw with
  | ok s => exact ⟨s, rfl⟩
  | error f => simp [step, hs, Except.mapError, bind, Except.bind] at h

theorem foldlM_cons_inv {b b' : Builder} {e : Event} {es : List Event} (h : (e :: es).foldlM step b = .ok b') :
    ∃ b₁, step b e = .ok b₁ ∧ es.foldlM step b₁ = .ok b' := by
  rw [List.foldlM_cons] at h
  cases hstep : step b e with
  | error f => rw [hstep] at h; cases h
  | ok b₁ => rw [hstep] at h; exact ⟨b₁, rfl, h⟩

/-- What stands inside the innermost open element, as far as its end tag. -/
structure Inside (es : List Event) (o : List Char) (opened : List (List Char)) where
  inside : List Event
  rest : List Event
  outlines : List Outline
  eq : es = inside ++ .finish o :: rest
  spells : Spells inside outlines
  matched : Matched opened rest

/-- Pieces that close the innermost open element spell what is inside it. -/
theorem inside_of_run (es : List Event) {o : List Char} {opened : List (List Char)} {d : Document} {i : Nat}
    {is : List Nat} {b : Builder} (hi : i < d.size) (hrun : es.foldlM step ⟨some d, i :: is⟩ = .ok b)
    (hb : b.opened = []) (hm : Matched (o :: opened) es) :
    Nonempty (Inside es o opened) := by
  match es with
  | [] =>
    cases hrun
    cases hb
  | .skipped :: es =>
    obtain ⟨⟨inside, rest, ts, rfl, hs, hr⟩⟩ := inside_of_run es hi hrun hb hm
    exact ⟨⟨.skipped :: inside, rest, ts, rfl, .skipped hs, hr⟩⟩
  | .finish name :: es =>
    obtain ⟨rfl, hm⟩ := hm
    exact ⟨⟨[], es, [], rfl, .nil, hm⟩⟩
  | .text raw :: es =>
    obtain ⟨b₁, hstep, hrun⟩ := foldlM_cons_inv hrun
    obtain ⟨s, read⟩ := step_ok_text hstep
    rw [step_text read] at hstep
    cases hstep
    obtain ⟨⟨inside, rest, ts, rfl, hs, hr⟩⟩ := inside_of_run _ (Document.lt_size_append hi _) hrun hb hm
    exact ⟨⟨.text raw :: inside, rest, _, rfl, .text read hs, hr⟩⟩
  | .comment s :: es =>
    obtain ⟨⟨inside, rest, ts, rfl, hs, hr⟩⟩ := inside_of_run es (Document.lt_size_append hi _) hrun hb hm
    exact ⟨⟨.comment s :: inside, rest, _, rfl, .comment s hs, hr⟩⟩
  | .cdata s :: es =>
    obtain ⟨⟨inside, rest, ts, rfl, hs, hr⟩⟩ := inside_of_run es (Document.lt_size_append hi _) hrun hb hm
    exact ⟨⟨.cdata s :: inside, rest, _, rfl, .cdata s hs, hr⟩⟩
  | .empty content :: es =>
    obtain ⟨b₁, hstep, hrun⟩ := foldlM_cons_inv hrun
    obtain ⟨e, read⟩ := step_ok_empty hstep
    rw [step_empty read] at hstep
    cases hstep
    obtain ⟨⟨inside, rest, ts, rfl, hs, hr⟩⟩ := inside_of_run _ (Document.lt_size_append hi _) hrun hb hm
    exact ⟨⟨.empty content :: inside, rest, _, rfl, .empty read hs, hr⟩⟩
  | .start content :: es =>
    obtain ⟨b₁, hstep, hrun⟩ := foldlM_cons_inv hrun
    obtain ⟨e, read⟩ := step_ok_start hstep
    rw [step_start read] at hstep
    cases hstep
    have hn : d.size < (d.append i (.element e)).size := by
      rw [Document.size_append hi]
      omega
    -- First what is inside the new element, then what comes after it.
    obtain ⟨⟨inside₁, rest₁, ts₁, heq, hs₁, hr₁⟩⟩ := inside_of_run _ hn hrun hb hm
    obtain ⟨d₁, hrun₁, hgrows₁⟩ : Builds inside₁ (d.append i (.element e)) d.size (i :: is) ts₁ := build_spells hs₁ hn
    have hi₁ : i < d₁.size := Nat.lt_of_lt_of_le hi (Grows.child hi hgrows₁).size_le
    have hlen : rest₁.length < es.length := by
      rw [heq, List.length_append, List.length_cons]
      omega
    rw [heq, foldlM_append_ok hrun₁] at hrun
    obtain ⟨⟨inside₂, rest₂, ts₂, rfl, hs₂, hr₂⟩⟩ := inside_of_run rest₁ hi₁ hrun hb hr₁
    exact ⟨⟨.start content :: (inside₁ ++ .finish (Stream.tagName content) :: inside₂), rest₂, _, by simp [heq],
      .element read hs₁ hs₂, hr₂⟩⟩
termination_by es.length
decreasing_by all_goals rw [List.length_cons]; omega

end Builder

/-! ## Whole documents -/

/-- The pieces of one element, with the outline that they are written for. -/
inductive SpellsRoot : List Event → Outline → Prop
  | empty {content : List Char} {e : Element} (read : TagAttributes.element content = .ok e) :
      SpellsRoot [.empty content] (.node (.element e) [])
  | element {es : List Event} {ts : List Outline} {content : List Char} {e : Element}
      (read : TagAttributes.element content = .ok e) (inside : Spells es ts) :
      SpellsRoot (.start content :: (es ++ [.finish (Stream.tagName content)])) (.node (.element e) ts)

/-- A piece that leaves no trace around the root. -/
def Event.isAside : Event → Bool
  | text _ => true
  | comment _ => true
  | skipped => true
  | _ => false

namespace Builder

theorem step_start_root {content : List Char} {e : Element} (h : TagAttributes.element content = .ok e) :
    step start (.start content) = .ok ⟨some (.single (.element e)), [0]⟩ := by
  simp [step, h, place, start, bind, Except.bind]

theorem step_empty_root {content : List Char} {e : Element} (h : TagAttributes.element content = .ok e) :
    step start (.empty content) = .ok ⟨some (.single (.element e)), []⟩ := by
  simp [step, h, place, start, bind, Except.bind]

theorem outline_single (c : Content) : (Document.single c).outline 0 = .node c [] := by
  rw [Document.outline_eq]
  rfl

/-- Pieces that are one element build a document of that outline. -/
theorem build_root {es : List Event} {o : Outline} (h : SpellsRoot es o) :
    ∃ d, es.foldlM step start = .ok ⟨some d, []⟩ ∧ d.outline 0 = o := by
  cases h with
  | @empty content e read =>
    refine ⟨.single (.element e), ?_, outline_single _⟩
    rw [foldlM_cons_ok (step_empty_root read)]
    rfl
  | @element es ts content e read inside =>
    obtain ⟨d, hrun, hgrows⟩ : Builds es (.single (.element e)) 0 [] ts := build_spells inside (Document.nonempty _)
    refine ⟨d, ?_, ?_⟩
    · rw [foldlM_cons_ok (step_start_root read), foldlM_append_ok hrun]
      rfl
    · obtain ⟨news, hc, ht, _⟩ := hgrows.grown
      have hnone : (Document.single (.element e)).children 0 = [] := rfl
      rw [hnone, List.nil_append] at hc
      rw [Document.outline_eq, hc, ht, hgrows.content 0 (Document.nonempty _)]
      rfl

theorem document_root {es : List Event} {o : Outline} (h : SpellsRoot es o) :
    ∃ d, (Stream.mk es none).document = .ok d ∧ d.outline 0 = o := by
  obtain ⟨d, hrun, ho⟩ := build_root h
  refine ⟨d, ?_, ho⟩
  simp only [Stream.document, hrun, bind, Except.bind]
  rfl

/-- Outside the root a piece that is neither tag nor CDATA changes nothing. -/
theorem step_aside {b b' : Builder} {e : Event} (hplace : b.place? = none) (he : e.isAside = true)
    (h : step b e = .ok b') : b' = b := by
  have hinsert : ∀ c, b.insert? c = none := by
    intro c
    rw [insert?, hplace]
    rfl
  cases e with
  | text raw =>
    obtain ⟨s, read⟩ := step_ok_text h
    simp only [step, read, hinsert, Except.mapError, bind, Except.bind] at h
    split at h
    · cases h
      rfl
    · cases h
  | comment s =>
    simp only [step, hinsert] at h
    cases h
    rfl
  | skipped =>
    cases h
    rfl
  | _ => cases he

/-- After the root only asides are left. -/
theorem asides_of_run {d : Document} {es : List Event} {b : Builder} (hrun : es.foldlM step ⟨some d, []⟩ = .ok b)
    (hm : Matched [] es) : b = ⟨some d, []⟩ ∧ ∀ e ∈ es, e.isAside = true := by
  induction es with
  | nil =>
    cases hrun
    exact ⟨rfl, by simp⟩
  | cons e es ih =>
    obtain ⟨b₁, hstep, hrun⟩ := foldlM_cons_inv hrun
    have go : e.isAside = true → Matched [] es → b = ⟨some d, []⟩ ∧ ∀ f ∈ e :: es, f.isAside = true := by
      intro he hm
      obtain rfl := step_aside rfl he hstep
      obtain ⟨hb, hes⟩ := ih hrun hm
      refine ⟨hb, ?_⟩
      intro f hf
      rcases List.mem_cons.mp hf with rfl | hf
      · exact he
      · exact hes f hf
    cases e with
    | text raw => exact go rfl hm
    | comment s => exact go rfl hm
    | skipped => exact go rfl hm
    | cdata s => cases hstep
    | finish name => exact hm.elim
    | start content =>
      obtain ⟨e, read⟩ := step_ok_start hstep
      simp [step, read, place, bind, Except.bind] at hstep
    | empty content =>
      obtain ⟨e, read⟩ := step_ok_empty hstep
      simp [step, read, place, bind, Except.bind] at hstep

/-- Pieces from which a document is built are asides, the pieces of the root, and asides. -/
structure Whole (es : List Event) (d : Document) where
  before : List Event
  root : List Event
  after : List Event
  outline : Outline
  eq : es = before ++ root ++ after
  asides : ∀ e ∈ before ++ after, e.isAside = true
  spells : SpellsRoot root outline
  outline_eq : d.outline 0 = outline

theorem whole_of_run {d : Document} {es : List Event} (hrun : es.foldlM step start = .ok ⟨some d, []⟩)
    (hm : Matched [] es) : Nonempty (Whole es d) := by
  induction es with
  | nil => cases hrun
  | cons e es ih =>
    obtain ⟨b₁, hstep, hrun'⟩ := foldlM_cons_inv hrun
    have go : e.isAside = true → Matched [] es → Nonempty (Whole (e :: es) d) := by
      intro he hm
      obtain rfl := step_aside rfl he hstep
      obtain ⟨⟨before, root, after, o, rfl, ha, hs, ho⟩⟩ := ih hrun' hm
      refine ⟨⟨e :: before, root, after, o, rfl, ?_, hs, ho⟩⟩
      intro f hf
      rcases List.mem_cons.mp hf with rfl | hf
      · exact he
      · exact ha f hf
    have found : ∀ (root : List Event) {after : List Event} {o : Outline}, e :: es = root ++ after → SpellsRoot root o →
        Matched [] after → Nonempty (Whole (e :: es) d) := by
      intro root after o heq hs hm
      obtain ⟨d', hroot, ho⟩ := build_root hs
      rw [heq, foldlM_append_ok hroot] at hrun
      obtain ⟨hd, ha⟩ := asides_of_run hrun hm
      cases hd
      exact ⟨⟨[], root, after, o, heq, ha, hs, ho⟩⟩
    cases e with
    | text raw => exact go rfl hm
    | comment s => exact go rfl hm
    | skipped => exact go rfl hm
    | cdata s => cases hstep
    | finish name => exact hm.elim
    | empty content =>
      obtain ⟨e, read⟩ := step_ok_empty hstep
      exact found [.empty content] rfl (.empty read) hm
    | start content =>
      obtain ⟨e, read⟩ := step_ok_start hstep
      rw [step_start_root read] at hstep
      cases hstep
      obtain ⟨⟨inside, after, ts, rfl, hs, hr⟩⟩ := inside_of_run _ (Document.nonempty _) hrun' rfl hm
      exact found (.start content :: (inside ++ [.finish (Stream.tagName content)])) (by simp)
        (.element read hs) hr

end Builder

theorem whole_of_document {es : List Event} {d : Document} (h : (Stream.mk es none).document = .ok d)
    (hm : Matched [] es) : Nonempty (Builder.Whole es d) := by
  unfold Stream.document at h
  cases hrun : es.foldlM Builder.step Builder.start with
  | error f => simp [hrun, bind, Except.bind] at h
  | ok b =>
    simp only [hrun, bind, Except.bind, Builder.finish] at h
    obtain ⟨document, opened⟩ := b
    cases document with
    | none => simp [Builder.place?] at h
    | some d' =>
      cases opened with
      | cons i is => simp [Builder.place?] at h
      | nil =>
        simp only [Builder.place?] at h
        cases h
        exact Builder.whole_of_run hrun hm

end SvgComponent.Markup
