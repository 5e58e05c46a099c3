/-
  SvgComponent.Proofs.Markup.Denotation — which document a text stands for, told by its events alone.

  From the items that the events stand for and the number of elements that are open around each one can see whether the
  events are those of an image (`Stream.Denotes`): each of them stands for something, one element stands at the outermost
  level and is closed, only blank text and comments stand beside it, and it is a sized `svg`.

  `parse_denotes` says that exactly these texts are read, and that the tree that is built, taken apart again
  in document order (`Outline.items`), gives the items of the root and all inside, with nodes numbered in this order.
  That the builder cannot fail where nothing is wrong is `run_of_items`; that what it builds has these items follows
  from the grammar of what it reads (`Spells`).
-/

import SvgComponent.Proofs.Markup.Items

namespace SvgComponent.Markup

open Item (levels openAfter roots beside inside)
open Event (DenoteAll denotes_text)

/-- The stream is that of an image with these items. -/
structure Stream.Denotes (s : Stream) (items : List Item) : Prop where
  whole : s.fault = none
  events : Event.DenoteAll s.events items
  root : ∃ e, Item.roots (Item.levels 0 items) = [e] ∧ e.is "svg" = true ∧ e.isSized = true
  closed : Item.openAfter 0 items = 0
  beside : ∀ item ∈ Item.beside (Item.levels 0 items), item.isLoose = true

/-! ## What is built -/

namespace Builder

variable {b b' : Builder} {es fs : List Event}

theorem foldlM_append_inv (h : (es ++ fs).foldlM step b = .ok b') :
    ∃ b₁, es.foldlM step b = .ok b₁ ∧ fs.foldlM step b₁ = .ok b' := by
  rw [List.foldlM_append] at h
  cases hrun : es.foldlM step b with
  | error f => rw [hrun] at h; cases h
  | ok b₁ => rw [hrun] at h; exact ⟨b₁, rfl, h⟩

theorem insert?_eq_none (h : b.place? = none) (c : Content) : b.insert? c = none := by
  rw [insert?, h]
  rfl

/-- Outside the root a text can only pass if it is blank. -/
theorem items_of_aside {e : Event} (hplace : b.place? = none) (he : e.isAside = true) (h : step b e = .ok b') :
    ∃ items, e.Denotes items ∧ ∀ item ∈ items, item.isLoose = true := by
  cases e with
  | text raw =>
    obtain ⟨s, read⟩ := step_ok_text h
    refine ⟨_, denotes_text read, ?_⟩
    rw [List.forall_mem_singleton]
    simp only [step, read, insert?_eq_none hplace, Except.mapError, bind, Except.bind] at h
    split at h
    · rename_i hblank
      rwa [Item.isLoose, String.toList_ofList]
    · cases h
  | comment s => exact ⟨_, .comment s, by simp [Item.isLoose]⟩
  | skipped => exact ⟨_, .skipped, by simp⟩
  | _ => cases he

theorem items_of_asides (hplace : b.place? = none) (he : ∀ e ∈ es, e.isAside = true)
    (h : es.foldlM step b = .ok b') :
    b' = b ∧ ∃ items, DenoteAll es items ∧ ∀ item ∈ items, item.isLoose = true := by
  induction es with
  | nil =>
    cases h
    exact ⟨rfl, [], .nil, fun item hitem => by cases hitem⟩
  | cons e es ih =>
    rw [List.forall_mem_cons] at he
    obtain ⟨b₁, hstep, hrun⟩ := foldlM_cons_inv h
    obtain rfl := step_aside hplace he.1 hstep
    obtain ⟨is, his, hloose⟩ := items_of_aside hplace he.1 hstep
    obtain ⟨hb, js, hjs, hloose'⟩ := ih he.2 hrun
    exact ⟨hb, is ++ js, .cons his hjs, List.forall_mem_append.mpr ⟨hloose, hloose'⟩⟩

/-! ## Numbers in document order -/

/-- The nodes that are new below `i` are numbered in document order, from the next number on. -/
def Numbers (d d' : Document) (i : Nat) : Prop :=
  ∃ news, d'.children i = d.children i ++ news ∧
    news.flatMap d'.descendants = List.range' d.size (d'.size - d.size)

theorem Numbers.refl (d : Document) (i : Nat) : Numbers d d i := ⟨[], by simp⟩

theorem Numbers.trans {d d' d'' : Document} {i : Nat} {ts us : List Outline} (hi : i < d.size) (hg : Grows d d' i ts)
    (hg' : Grows d' d'' i us) (h : Numbers d d' i) (h' : Numbers d' d'' i) : Numbers d d'' i := by
  obtain ⟨news, hc, hn⟩ := h
  obtain ⟨news', hc', hn'⟩ := h'
  have hle := hg.size_le
  have hle' := hg'.size_le
  -- what was new first is not touched afterwards
  have hsame : ∀ m ∈ news, d''.descendants m = d'.descendants m := by
    intro m hm
    have hmem : m ∈ d'.descendants m := Document.mem_descendants_iff.mpr (.refl d' m)
    have hnew : m ∈ List.range' d.size (d'.size - d.size) := hn ▸ List.mem_flatMap.mpr ⟨m, hm, hmem⟩
    rw [List.mem_range'_1] at hnew
    have htree : d''.tree m = d'.tree m := by
      refine Document.tree_congr fun j hj => ?_
      have hmj := hj.le
      have hj' := hj.eq_or_lt_size
      exact ⟨hg'.content j (by omega), hg'.children j (by omega) (by omega)⟩
    rw [Document.descendants, htree, Document.descendants]
  refine ⟨news ++ news', by rw [hc', hc, List.append_assoc], ?_⟩
  rw [List.flatMap_append, List.flatMap_congr hsame, hn, hn']
  have hsplit : d''.size - d.size = (d'.size - d.size) + (d''.size - d'.size) := by omega
  have hnext : d.size + (d'.size - d.size) = d'.size := by omega
  rw [hsplit, ← List.range'_append_1, hnext]

theorem Numbers.child {d d' : Document} {i : Nat} {c : Content} {ts : List Outline} (hi : i < d.size)
    (hg : Grows (d.append i c) d' d.size ts) (h : Numbers (d.append i c) d' d.size) : Numbers d d' i := by
  obtain ⟨news, hc, hn⟩ := h
  have hsize := Document.size_append hi c
  have hle := hg.size_le
  have hnone : d.children d.size = [] := Forest.children_eq_nil (Nat.le_refl _)
  rw [Document.children_append hi, if_neg (by omega), hnone, List.nil_append] at hc
  refine ⟨[d.size], ?_, ?_⟩
  · rw [hg.children i (by omega) (by omega), Document.children_append hi, if_pos rfl]
  · rw [List.flatMap_singleton, Document.descendants_eq, hc, hn, hsize]
    have hsplit : d'.size - d.size = d'.size - (d.size + 1) + 1 := by omega
    rw [hsplit, List.range'_succ]

/-- Below the innermost open element the pieces build the outlines, numbered in document order. -/
def BuildsInOrder (es : List Event) (d : Document) (i : Nat) (is : List Nat) (ts : List Outline) : Prop :=
  ∃ d', es.foldlM step ⟨some d, i :: is⟩ = .ok ⟨some d', i :: is⟩ ∧ Grows d d' i ts ∧ Numbers d d' i

section InOrder

variable {d : Document} {i : Nat} {is : List Nat}

theorem BuildsInOrder.cons {d₁ : Document} {e : Event} {ts us : List Outline} (hi : i < d.size)
    (hstep : step ⟨some d, i :: is⟩ e = .ok ⟨some d₁, i :: is⟩) (hg : Grows d d₁ i ts) (hn : Numbers d d₁ i)
    (h : BuildsInOrder es d₁ i is us) : BuildsInOrder (e :: es) d i is (ts ++ us) := by
  obtain ⟨d', hrun, hg', hn'⟩ := h
  exact ⟨d', by rw [foldlM_cons_ok hstep, hrun], hg.trans hi hg', hn.trans hi hg hg' hn'⟩

/-- A new last child without children of its own. -/
theorem BuildsInOrder.leaf {e : Event} {c : Content} {us : List Outline} (hi : i < d.size)
    (hstep : step ⟨some d, i :: is⟩ e = .ok ⟨some (d.append i c), i :: is⟩)
    (h : i < (d.append i c).size → BuildsInOrder es (d.append i c) i is us) :
    BuildsInOrder (e :: es) d i is (.node c [] :: us) :=
  .cons hi hstep (.leaf hi c) (.child hi (.refl _ _) (.refl _ _)) (h (Document.lt_size_append hi c))

theorem buildsInOrder_of_spells {ts : List Outline} (h : Spells es ts) (hi : i < d.size) :
    BuildsInOrder es d i is ts := by
  induction h generalizing d i is with
  | nil => exact ⟨d, rfl, .refl d i, .refl d i⟩
  | skipped h ih => exact .cons hi rfl (.refl d i) (.refl d i) (ih hi)
  | text read h ih => exact .leaf hi (step_text read) ih
  | comment s h ih => exact .leaf hi (step_comment s) ih
  | cdata s h ih => exact .leaf hi (step_cdata s) ih
  | empty read h ih => exact .leaf hi (step_empty read) ih
  | @element es fs ts us content e read inside h ih₁ ih₂ =>
    have hn : d.size < (d.append i (.element e)).size := by
      rw [Document.size_append hi]
      omega
    obtain ⟨d₁, hrun₁, hg₁, hn₁⟩ : BuildsInOrder es (d.append i (.element e)) d.size (i :: is) ts := ih₁ hn
    have hchild := Grows.child hi hg₁
    obtain ⟨d₂, hrun₂, hg₂, hn₂⟩ : BuildsInOrder fs d₁ i is us := ih₂ (Nat.lt_of_lt_of_le hi hchild.size_le)
    refine ⟨d₂, ?_, hchild.trans hi hg₂, (Numbers.child hi hg₁ hn₁).trans hi hchild hg₂ hn₂⟩
    rw [foldlM_cons_ok (step_start read), foldlM_append_ok hrun₁, foldlM_cons_ok (step_finish _), hrun₂]

end InOrder

/-- A document that is built of one element is numbered in document order. -/
theorem descendants_of_root {o : Outline} (h : SpellsRoot es o) :
    ∃ d, es.foldlM step start = .ok ⟨some d, []⟩ ∧ d.descendants 0 = List.range d.size := by
  cases h with
  | @empty content e read =>
    refine ⟨.single (.element e), ?_, ?_⟩
    · rw [foldlM_cons_ok (step_empty_root read)]
      rfl
    · have hnone : (Document.single (.element e)).children 0 = [] := rfl
      rw [Document.descendants_eq, hnone]
      rfl
  | @element es ts content e read inside =>
    obtain ⟨d, hrun, hg, news, hc, hn⟩ : BuildsInOrder es (.single (.element e)) 0 [] ts :=
      buildsInOrder_of_spells inside (Document.nonempty _)
    refine ⟨d, ?_, ?_⟩
    · rw [foldlM_cons_ok (step_start_root read), foldlM_append_ok hrun]
      rfl
    · have hsize : (Document.single (.element e)).size = 1 := rfl
      have hnone : (Document.single (.element e)).children 0 = [] := rfl
      have hle := hg.size_le
      rw [hnone, List.nil_append] at hc
      rw [hsize] at hle hn
      have hsplit : d.size = d.size - 1 + 1 := by omega
      rw [Document.descendants_eq, hc, hn, List.range_eq_range', hsplit, List.range'_succ]
      rfl

/-- What is built has the items of the root, in document order and so numbered; they hold one element at the outermost
    level, which is closed, with loose items beside it. -/
theorem items_of_run {d : Document} (h : es.foldlM step start = .ok ⟨some d, []⟩) (hm : Matched [] es) :
    ∃ items e, DenoteAll es items ∧ openAfter 0 items = 0 ∧ roots (levels 0 items) = [e] ∧
      (∀ item ∈ beside (levels 0 items), item.isLoose = true) ∧ d.content 0 = .element e ∧
      inside (levels 0 items) = (d.outline 0).items ∧ d.descendants 0 = List.range d.size := by
  obtain ⟨⟨before, root, after, o, rfl, hasides, hs, ho⟩⟩ := whole_of_run h hm
  rw [List.forall_mem_append] at hasides
  obtain ⟨b₂, hrun₂, hafter⟩ := foldlM_append_inv h
  obtain ⟨b₁, hbefore, hroot⟩ := foldlM_append_inv hrun₂
  obtain ⟨rfl, is, his, hloose⟩ := items_of_asides rfl hasides.1 hbefore
  obtain ⟨d', hroot', hnumbers⟩ := descendants_of_root hs
  rw [hroot'] at hroot
  cases hroot
  obtain ⟨heq, js, hjs, hloose'⟩ := items_of_asides rfl hasides.2 hafter
  cases heq
  obtain ⟨e, ts, ho'⟩ : ∃ e ts, o = .node (.element e) ts := by
    cases hs with
    | empty read => exact ⟨_, _, rfl⟩
    | element read inside => exact ⟨_, _, rfl⟩
  subst ho'
  obtain ⟨hopen, hroots, hbeside, hinside⟩ := levels_around hloose hloose' e ts
  have hitems := (his.append (denoteAll_of_root hs)).append hjs
  have hcontent : d.content 0 = .element e := (Outline.node.inj ((d.outline_eq 0).symm.trans ho)).1
  exact ⟨_, e, hitems, hopen, hroots, hbeside, hcontent, by rw [hinside, ho], hnumbers⟩

/-! ## Where nothing is wrong -/

/-- Nothing is wrong with the items that are to come, where `n` elements are open: there is one root at most, with those
    that were built, and only loose items stand beside it. -/
structure Awaits (b : Builder) (n : Nat) (items : List Item) : Prop where
  opened : b.opened.length = n
  rootless : b.document = none → b.opened = []
  one : b.document.toList.length + (roots (levels n items)).length ≤ 1
  beside : ∀ item ∈ beside (levels n items), item.isLoose = true

theorem Awaits.cases {n : Nat} {items : List Item} (h : b.Awaits n items) :
    (∃ d i is, b = ⟨some d, i :: is⟩ ∧ n = is.length + 1) ∨ b.place? = none ∧ b.opened = [] ∧ n = 0 := by
  obtain ⟨document, opened⟩ := b
  have hlength : opened.length = n := h.opened
  cases document with
  | none =>
    obtain rfl : opened = [] := h.rootless rfl
    exact .inr ⟨rfl, rfl, hlength.symm⟩
  | some d =>
    cases opened with
    | nil => exact .inr ⟨rfl, rfl, hlength.symm⟩
    | cons i is => exact .inl ⟨d, i, is, rfl, hlength.symm⟩

/-- The builder takes the event, and the names of the open elements are known after it. -/
structure Proceeds (b b₁ : Builder) (n : Nat) (is : List Item) (opened₁ : List (List Char)) : Prop where
  depth : openAfter n is = opened₁.length
  opened : b₁.opened.length = opened₁.length
  rootless : b₁.document = none → b₁.opened = []
  built : b₁.document.toList.length = b.document.toList.length + (roots (levels n is)).length

theorem Awaits.rest {n : Nat} {is js : List Item} {b₁ : Builder} {opened₁ : List (List Char)}
    (h : b.Awaits n (is ++ js)) (hp : b.Proceeds b₁ n is opened₁) : b₁.Awaits opened₁.length js := by
  have hone := h.one
  have hbeside := h.beside
  rw [Item.levels_append, hp.depth, Item.roots_append, List.length_append] at hone
  rw [Item.levels_append, hp.depth, Item.beside_append, List.forall_mem_append] at hbeside
  refine ⟨hp.opened, hp.rootless, ?_, hbeside.2⟩
  have := hp.built
  omega

theorem Awaits.now {n : Nat} {is js : List Item} (h : b.Awaits n (is ++ js)) : b.Awaits n is := by
  have hone := h.one
  have hbeside := h.beside
  rw [Item.levels_append, Item.roots_append, List.length_append] at hone
  rw [Item.levels_append, Item.beside_append, List.forall_mem_append] at hbeside
  exact ⟨h.opened, h.rootless, by omega, hbeside.1⟩

/-- What is no tag goes into the innermost open element, or is loose. -/
theorem step_of_leaf {n : Nat} {e : Event} {item : Item} {c : Content} (h : b.Awaits n [item]) (htag : item.isTag = false)
    (hinside : ∀ d i is, step ⟨some d, i :: is⟩ e = .ok ⟨some (d.append i c), i :: is⟩)
    (hbeside : b.place? = none → item.isLoose = true → step b e = .ok b) {opened : List (List Char)}
    (hn : opened.length = n) : ∃ b₁, step b e = .ok b₁ ∧ b.Proceeds b₁ n [item] opened := by
  have htags : ∀ x ∈ [item], x.isTag = false := by simpa using htag
  obtain ⟨hlevels, hopen⟩ := Item.levels_of_not_isTag htags n
  have hroots : roots (levels n [item]) = [] := by
    rw [hlevels]
    cases item with
    | start e => cases htag
    | _ => rfl
  rcases h.cases with ⟨d, i, is, rfl, hd⟩ | ⟨hplace, -, rfl⟩
  · refine ⟨_, hinside d i is, ⟨hopen.trans hn.symm, h.opened.trans hn.symm, (fun hnone => by cases hnone), ?_⟩⟩
    rw [hroots]
    rfl
  · have hloose : item.isLoose = true := by
      refine h.beside item ?_
      rw [hlevels, beside, List.map_singleton, List.filter_cons_of_pos (by simp [Item.isBeside, htag])]
      exact List.mem_singleton.mpr rfl
    refine ⟨b, hbeside hplace hloose, ⟨hopen.trans hn.symm, h.opened.trans hn.symm, h.rootless, ?_⟩⟩
    rw [hroots]
    rfl

/-- A start tag opens an element: the root, if nothing is open. -/
theorem place_of_awaits {n : Nat} {e : Element} {items : List Item} (h : b.Awaits n (.start e :: items)) :
    ∃ d i, b.place e = .ok (d, i) ∧
      (some d).toList.length = b.document.toList.length + (roots [(n, .start e)]).length := by
  rcases h.cases with ⟨d, i, is, rfl, rfl⟩ | ⟨-, hopened, rfl⟩
  · exact ⟨_, _, rfl, rfl⟩
  · obtain ⟨document, opened⟩ := b
    obtain rfl : opened = [] := hopened
    cases document with
    | none => exact ⟨_, _, rfl, rfl⟩
    | some d =>
      -- there is a root already
      have hone := h.one
      have hroots : roots (levels 0 (.start e :: items)) = e :: roots (levels 1 items) := rfl
      rw [hroots, List.length_cons, Option.toList_some, List.length_singleton] at hone
      omega

theorem step_of_items {opened : List (List Char)} {e : Event} {is : List Item} (hm : Matched opened (e :: es))
    (his : e.Denotes is) (h : b.Awaits opened.length is) :
    ∃ b₁ opened₁, step b e = .ok b₁ ∧ Matched opened₁ es ∧ b.Proceeds b₁ opened.length is opened₁ := by
  cases his with
  | skipped =>
    exact ⟨b, opened, rfl, hm, rfl, h.opened, h.rootless, rfl⟩
  | @text raw s expands =>
    have read := Reference.expand_iff.mpr expands
    obtain ⟨b₁, hstep, hp⟩ := step_of_leaf h rfl (fun d i is => step_text read) (fun hplace hloose => by
      rw [Item.isLoose] at hloose
      simp [step, read, insert?_eq_none hplace, hloose, Except.mapError, bind, Except.bind]) rfl
    exact ⟨b₁, opened, hstep, hm, hp⟩
  | comment s =>
    obtain ⟨b₁, hstep, hp⟩ := step_of_leaf h rfl (fun d i is => step_comment s) (fun hplace _ => by
      rw [step, insert?_eq_none hplace]
      rfl) rfl
    exact ⟨b₁, opened, hstep, hm, hp⟩
  | cdata s =>
    obtain ⟨b₁, hstep, hp⟩ := step_of_leaf h rfl (fun d i is => step_cdata s) (fun _ hloose => by cases hloose) rfl
    exact ⟨b₁, opened, hstep, hm, hp⟩
  | @start content e opens =>
    have read := TagAttributes.element_iff.mpr opens
    obtain ⟨d, i, hplace, hbuilt⟩ := place_of_awaits h
    refine ⟨⟨some d, i :: b.opened⟩, _, ?_, hm, rfl, ?_, (fun hnone => by cases hnone), hbuilt⟩
    · simp [step, read, hplace, bind, Except.bind]
    · rw [List.length_cons, List.length_cons, h.opened]
  | @empty content e opens =>
    have read := TagAttributes.element_iff.mpr opens
    obtain ⟨d, i, hplace, hbuilt⟩ := place_of_awaits h
    refine ⟨⟨some d, b.opened⟩, opened, ?_, hm, rfl, h.opened, (fun hnone => by cases hnone), ?_⟩
    · simp [step, read, hplace, bind, Except.bind]
    · exact hbuilt
  | finish name =>
    cases opened with
    | nil => exact hm.elim
    | cons o opened =>
      have hlength : b.opened.length = opened.length + 1 := h.opened
      refine ⟨{ b with opened := b.opened.tail }, opened, rfl, hm.2, rfl, ?_, ?_, ?_⟩
      · rw [List.length_tail, hlength]
        rfl
      · intro hnone
        rw [h.rootless hnone]
        rfl
      · rfl

/-- If nothing is wrong with the items that are to come, the builder takes them all, and there are as many roots in the
    end as there were and are to come. -/
theorem run_of_items {opened : List (List Char)} {items : List Item} (hm : Matched opened es)
    (hitems : DenoteAll es items) (h : b.Awaits opened.length items) :
    ∃ b', es.foldlM step b = .ok b' ∧ b'.opened.length = openAfter opened.length items ∧
      b'.document.toList.length = b.document.toList.length + (roots (levels opened.length items)).length := by
  induction hitems generalizing b opened with
  | nil => exact ⟨b, rfl, h.opened, rfl⟩
  | cons his _ ih =>
    obtain ⟨b₁, opened₁, hstep, hm₁, hp⟩ := step_of_items hm his h.now
    obtain ⟨b', hrun, hopened, hbuilt⟩ := ih hm₁ (h.rest hp)
    refine ⟨b', by rw [foldlM_cons_ok hstep, hrun], ?_, ?_⟩
    · rw [Item.openAfter_append, hp.depth, hopened]
    · rw [Item.levels_append, hp.depth, Item.roots_append, List.length_append, hbuilt, hp.built, Nat.add_assoc]

end Builder

/-! ## Whole texts -/

theorem document_iff {s : Stream} {d : Document} :
    s.document = .ok d ↔ s.fault = none ∧ s.events.foldlM Builder.step Builder.start = .ok ⟨some d, []⟩ := by
  unfold Stream.document
  cases s.events.foldlM Builder.step Builder.start with
  | error f => simp [bind, Except.bind]
  | ok b =>
    obtain ⟨document, opened⟩ := b
    cases s.fault with
    | some f => simp [bind, Except.bind]
    | none => cases document <;> cases opened <;> simp [bind, Except.bind, Builder.finish, Builder.place?]

theorem matched_ofText {s : List Char} (h : (Stream.ofText s).fault = none) : Matched [] (Stream.ofText s).events := by
  unfold Stream.ofText at h ⊢
  obtain ⟨-, hm⟩ := Stream.matched_of_matchTags h
  rwa [Stream.matchTags_of_matched hm]

theorem parse_iff {s : String} {d : Document} :
    Document.parse s = .ok d ↔ (Stream.ofText s.toList).document = .ok d ∧ d.validate = .ok d := by
  unfold Document.parse
  cases (Stream.ofText s.toList).document with
  | error f => simp [bind, Except.bind]
  | ok d' =>
    constructor
    · intro h
      have hvalid : d'.validate = .ok d := h
      obtain rfl := validate_ok hvalid
      exact ⟨rfl, hvalid⟩
    · rintro ⟨heq, hvalid⟩
      cases heq
      exact hvalid

/-- The events of a text that was read are those of an image, whose items are those of the document. -/
theorem denotes_of_parse {s : String} {d : Document} (h : Document.parse s = .ok d) :
    ∃ items, (Stream.ofText s.toList).Denotes items ∧ inside (levels 0 items) = d.root.outline.items ∧
      d.descendants 0 = List.range d.size := by
  obtain ⟨hdocument, hvalid⟩ := parse_iff.mp h
  obtain ⟨hfault, hrun⟩ := document_iff.mp hdocument
  obtain ⟨items, e, hitems, hclosed, hroots, hbeside, hcontent, hinside, hnumbers⟩ :=
    Builder.items_of_run hrun (matched_ofText hfault)
  obtain ⟨e', he', hsvg, hsized⟩ := validate_iff.mp hvalid
  rw [hcontent] at he'
  cases he'
  exact ⟨items, ⟨hfault, hitems, ⟨e, hroots, hsvg, hsized⟩, hclosed, hbeside⟩, hinside, hnumbers⟩

/-- A text whose events are those of an image is read. -/
theorem parse_of_denotes {s : String} {items : List Item} (h : (Stream.ofText s.toList).Denotes items) :
    ∃ d, Document.parse s = .ok d := by
  obtain ⟨e, hroots, hsvg, hsized⟩ := h.root
  have hm := matched_ofText h.whole
  have hawaits : Builder.start.Awaits 0 items := ⟨rfl, fun _ => rfl, by rw [hroots]; exact Nat.le_refl 1, h.beside⟩
  obtain ⟨⟨document, opened⟩, hrun, hopened, hbuilt⟩ := Builder.run_of_items hm h.events hawaits
  obtain rfl : opened = [] := List.length_eq_zero_iff.mp (hopened.trans h.closed)
  cases document with
  | none =>
    have hnone : 0 = 0 + (roots (levels 0 items)).length := hbuilt
    rw [hroots] at hnone
    cases hnone
  | some d =>
    have hdocument := document_iff.mpr ⟨h.whole, hrun⟩
    obtain ⟨items', e', hitems, -, hroots', -, hcontent, -⟩ := Builder.items_of_run hrun hm
    obtain rfl := h.events.unique hitems
    rw [hroots] at hroots'
    cases hroots'
    exact ⟨d, parse_iff.mpr ⟨hdocument, validate_iff.mpr ⟨e, hcontent, hsvg, hsized⟩⟩⟩

/-- Exactly the texts are read whose events are those of an image. The tree that is built, taken apart in document
    order, gives the items of the root and all inside, and its nodes are numbered in this order. -/
theorem parse_denotes (s : String) :
    match Document.parse s with
    | .ok d => ∃ items, (Stream.ofText s.toList).Denotes items ∧
        Item.inside (Item.levels 0 items) = d.root.outline.items ∧ d.descendants 0 = List.range d.size
    | .error _ => ¬ ∃ items, (Stream.ofText s.toList).Denotes items := by
  cases h : Document.parse s with
  | ok d => exact denotes_of_parse h
  | error f =>
    rintro ⟨items, hitems⟩
    obtain ⟨d, hd⟩ := parse_of_denotes hitems
    rw [h] at hd
    cases hd

end SvgComponent.Markup
