/-
  SvgComponent.Proofs.Jsx.Converted — what converted markup is made of.

  A property that elements have if their children do holds of converted markup, if the contents of the image are such
  that its texts, comments and elements have it (`Inherits`). The names are those of the image, so if these have no marks,
  the markup is sound (`inherits_sound`). If tags show what they are, and classes, inlined styles and the comments that
  stay are plain as well (`Content.IsTame`), it is clear however it is printed (`clear_convertRoot`).
-/

import SvgComponent.Jsx.Convert
import SvgComponent.Proofs.Jsx.Attributes
import SvgComponent.Proofs.Jsx.Clear
import SvgComponent.Proofs.Markup.Below
import SvgComponent.Proofs.Style.Declarations

namespace SvgComponent.Markup

open Jsx.Layout (isPlain isQuote)

/-- Neither quotes, nor braces or brackets. -/
def Name.IsUnmarked (n : Name) : Prop := ∀ c ∈ n.full.toList, isPlain c = true

theorem Name.forall_mem_base {P : Char → Prop} {n : Name} (h : ∀ c ∈ n.full.toList, P c) : ∀ c ∈ n.base.toList, P c := by
  unfold full at h
  split at h
  · rw [String.toList_append, List.forall_mem_append] at h
    exact h.2
  · exact h

theorem Name.IsUnmarked.base {n : Name} (h : n.IsUnmarked) : ∀ c ∈ n.base.toList, isPlain c = true :=
  Name.forall_mem_base h

/-- The names of an element and of its attributes. -/
def Content.HasUnmarkedNames : Content → Prop
  | .element e => e.name.IsUnmarked ∧ ∀ a ∈ e.attributes, a.name.IsUnmarked
  | _ => True

/-- A name that no tag can be mistaken by, classes and inlined styles without quotes, braces and brackets, and
    comments without quotes and braces, if they stay. -/
def Content.IsTame (r : Jsx.Rules) : Content → Prop
  | .element e =>
    Jsx.BeginsTag e.name.base.toList ∧ e.name.base.toList.getLast? ≠ some '/' ∧
      ∀ a ∈ e.attributes, a.name.full = "class" ∨ (a.name.full = "style" ∧ r.extractStylesheet = false) →
        ∀ c ∈ a.value.toList, isPlain c = true
  | .comment s => r.stripComments = false → ∀ c ∈ s.toList, isQuote c = false ∧ c ≠ '\x7b' ∧ c ≠ '\x7d'
  | _ => True

instance : DecidablePred Content.HasUnmarkedNames
  | .element e => inferInstanceAs (Decidable ((∀ c ∈ e.name.full.toList, isPlain c = true) ∧
      ∀ a ∈ e.attributes, ∀ c ∈ a.name.full.toList, isPlain c = true))
  | .text _ => .isTrue trivial
  | .comment _ => .isTrue trivial
  | .cdata _ => .isTrue trivial

instance (r : Jsx.Rules) : DecidablePred (Content.IsTame r)
  | .element e => inferInstanceAs (Decidable (Jsx.BeginsTag e.name.base.toList ∧
      e.name.base.toList.getLast? ≠ some '/' ∧ ∀ a ∈ e.attributes,
        a.name.full = "class" ∨ (a.name.full = "style" ∧ r.extractStylesheet = false) →
          ∀ c ∈ a.value.toList, isPlain c = true))
  | .text _ => .isTrue trivial
  | .comment s => inferInstanceAs (Decidable (r.stripComments = false →
      ∀ c ∈ s.toList, isQuote c = false ∧ c ≠ '\x7b' ∧ c ≠ '\x7d'))
  | .cdata _ => .isTrue trivial

end SvgComponent.Markup

namespace SvgComponent.Jsx

open Layout (Bracket isPlain isQuote)
open Markup (Content)
open Style (Sheet Declaration)

variable {r : Rules}

/-! ## What a tree is converted to -/

theorem convert_spaced {i : Nat} {e : Markup.Element} (ts : List Markup.Tree) (sheet : Sheet)
    (hspace : e.name.space.isSome = true) : convert r (.node i (.element e) ts) sheet = (none, sheet) := by
  rw [convert, if_pos hspace]

theorem convert_style {i : Nat} {e : Markup.Element} (ts : List Markup.Tree) (sheet : Sheet)
    (hspace : ¬ e.name.space.isSome = true) (hstyle : e.is "style" = true) : convert r (.node i (.element e) ts) sheet =
      styleElement r (Text.trim (Markup.Tree.node i (.element e) ts).textContent.toList) sheet := by
  rw [convert, if_neg hspace, if_pos hstyle]

theorem convert_drawn {i : Nat} {e : Markup.Element} (ts : List Markup.Tree) (sheet : Sheet)
    (hspace : ¬ e.name.space.isSome = true) (hstyle : ¬ e.is "style" = true) : convert r (.node i (.element e) ts) sheet =
      let own := parts r false e.attributes sheet
      let below := convertAll r ts own.2
      (some (.element e.name.base.toList (assemble false own.1) below.1), below.2) := by
  rw [convert, if_neg hspace, if_neg hstyle]

theorem convertAll_cons (r : Rules) (t : Markup.Tree) (ts : List Markup.Tree) (sheet : Sheet) : convertAll r (t :: ts) sheet =
    ((convert r t sheet).1.toList ++ (convertAll r ts (convert r t sheet).2).1,
      (convertAll r ts (convert r t sheet).2).2) := by
  rw [convertAll]

/-! ## Properties of converted markup -/

/-- Texts, comments and styles have the property `P`, and an element that is drawn has it if all its children have, as
    far as the contents that they are made from are `Q`. -/
structure Inherits (r : Rules) (Q : Content → Prop) (P : Node → Prop) (All : List Node → Prop) : Prop where
  nil : All []
  cons : ∀ {n : Node} {ns : List Node}, P n → All ns → All (n :: ns)
  text : ∀ {s : List Char}, s ≠ [] → Text.trim s = s → P (.text s)
  comment : ∀ {s : String}, Q (.comment s) → r.stripComments = false → P (.comment (Text.trim s.toList))
  css : ∀ s : List Char, P (.css s)
  style : ∀ {children : List Node}, All children → P (.element ['s', 't', 'y', 'l', 'e'] [] children)
  drawn : ∀ {e : Markup.Element} {children : List Node} (root : Bool) (sheet : Sheet), Q (.element e) → All children →
    P (.element e.name.base.toList (assemble root (parts r root e.attributes sheet).1) children)

namespace Inherits

variable {Q : Content → Prop} {P : Node → Prop} {All : List Node → Prop}

theorem of_textNode (h : Inherits r Q P All) (s : String) : ∀ n ∈ textNode s, P n := by
  unfold textNode
  intro n hn
  dsimp only at hn
  split at hn
  · cases hn
  · rename_i hempty
    cases hn
    exact h.text (fun hnil => hempty (List.isEmpty_iff.mpr hnil)) (Text.trimWhile_trimWhile _ _)

theorem of_commentNode (h : Inherits r Q P All) {s : String} (hs : Q (.comment s)) : ∀ n ∈ commentNode r s, P n := by
  unfold commentNode
  intro n hn
  split at hn
  · cases hn
  · rename_i hstrip
    cases hn
    exact h.comment hs (Bool.eq_false_iff.mpr hstrip)

theorem of_styleElement (h : Inherits r Q P All) (css : List Char) (sheet : Sheet) :
    ∀ n ∈ (styleElement r css sheet).1, P n := by
  unfold styleElement
  intro n hn
  split at hn <;> cases hn
  refine h.style ?_
  split
  · exact h.nil
  · exact h.cons (h.css css) h.nil

theorem toList_append (h : Inherits r Q P All) {o : Option Node} {ns : List Node} (ho : ∀ n ∈ o, P n) (hns : All ns) :
    All (o.toList ++ ns) := by
  cases o with
  | none => exact hns
  | some n => exact h.cons (ho n rfl) hns

mutual

theorem of_convert (h : Inherits r Q P All) : ∀ (t : Markup.Tree) (sheet : Sheet), (∀ u ∈ t.subtrees, Q u.content) →
    ∀ n ∈ (convert r t sheet).1, P n
  | .node i (.element e) ts, sheet, hcontents => by
    rw [Markup.Tree.subtrees, List.forall_mem_cons] at hcontents
    by_cases hspace : e.name.space.isSome = true
    · rw [convert_spaced ts sheet hspace]
      exact fun n hn => absurd hn (Option.not_mem_none n)
    · by_cases hstyle : e.is "style" = true
      · rw [convert_style ts sheet hspace hstyle]
        exact h.of_styleElement _ sheet
      · rw [convert_drawn ts sheet hspace hstyle]
        intro n hn
        cases hn
        exact h.drawn false sheet hcontents.1 (of_convertAll h ts _ hcontents.2)
  | .node _ (.text s) _, sheet, _ => by
    rw [convert]
    exact h.of_textNode s
  | .node _ (.cdata s) _, sheet, _ => by
    rw [convert]
    exact h.of_textNode s
  | .node _ (.comment s) _, sheet, hcontents => by
    rw [Markup.Tree.subtrees, List.forall_mem_cons] at hcontents
    rw [convert]
    exact h.of_commentNode hcontents.1

theorem of_convertAll (h : Inherits r Q P All) : ∀ (ts : List Markup.Tree) (sheet : Sheet),
    (∀ u ∈ Markup.Tree.subtreesOf ts, Q u.content) → All (convertAll r ts sheet).1
  | [], _, _ => h.nil
  | t :: ts, sheet, hcontents => by
    rw [Markup.Tree.subtreesOf, List.forall_mem_append] at hcontents
    rw [convertAll_cons]
    exact h.toList_append (of_convert h t sheet hcontents.1) (of_convertAll h ts _ hcontents.2)

end

theorem of_convertRoot (h : Inherits r Q P All) {e : Markup.Element} {ts : List Markup.Tree}
    (hcontents : Q (.element e) ∧ ∀ u ∈ Markup.Tree.subtreesOf ts, Q u.content) : P (convertRoot r e ts).1 :=
  h.drawn true .empty hcontents.1 (h.of_convertAll ts _ hcontents.2)

end Inherits

theorem inherits_sound (r : Rules) : Inherits r Content.HasUnmarkedNames Node.Sound SoundAll where
  nil := trivial
  cons hn hns := ⟨hn, hns⟩
  text hne htrim := ⟨hne, htrim⟩
  comment _ _ := trivial
  css _ := trivial
  style hchildren := ⟨by decide, hchildren⟩
  drawn _ _ he hchildren := ⟨he.1.base, hchildren⟩

/-! ## The attributes of a converted element -/

/-- What an attribute contributes to its element. -/
inductive IsPartOf (r : Rules) (a : Markup.Attribute) : Part → Prop where
  | extracted (k : Nat) : IsPartOf r a (.classes [.extracted k])
  | inlined (hstyle : a.name.full = "style") (hr : r.extractStylesheet = false) :
      IsPartOf r a (.attr (.style (Style.parseDeclarations a.value)))
  | classes (hclass : a.name.full = "class") : IsPartOf r a (.classes ((Text.words a.value.toList).map .literal))
  | size : IsPartOf r a (.attr (.size a.name.full.toList))
  | color : IsPartOf r a (.attr (.color a.name.full.toList))
  | literal {spelled : List Char} (hspelled : attributeName? a.name = some spelled) :
      IsPartOf r a (.attr (.literal spelled a.value.toList))

theorem isPartOf_stylePart {a : Markup.Attribute} (hstyle : a.name.full = "style") {sheet : Sheet} {x : Part}
    (h : (stylePart r (Style.parseDeclarations a.value) sheet).1 = some x) : IsPartOf r a x := by
  unfold stylePart at h
  split_ifs at h with hempty hextract
  · cases h
    exact .extracted _
  · cases h
    exact .inlined hstyle (Bool.eq_false_iff.mpr hextract)

theorem isPartOf_plainPart {root : Bool} {a : Markup.Attribute} {x : Part} (h : plainPart r root a = some x) :
    IsPartOf r a x := by
  unfold plainPart at h
  dsimp only at h
  split_ifs at h with hid hclass hsize hcolor
  · cases h
    exact .classes hclass
  · cases h
    exact .size
  · cases h
    exact .color
  · obtain ⟨spelled, hspelled, rfl⟩ := Option.map_eq_some_iff.mp h
    exact .literal hspelled

theorem parts_cons (r : Rules) (root : Bool) (a : Markup.Attribute) (as : List Markup.Attribute) (sheet : Sheet) :
    parts r root (a :: as) sheet =
      let own := if a.name.full = "style" then stylePart r (Style.parseDeclarations a.value) sheet
        else (plainPart r root a, sheet)
      (own.1.toList ++ (parts r root as own.2).1, (parts r root as own.2).2) := by
  rw [parts]

/-- Each part comes from an attribute. -/
theorem isPartOf_of_mem_parts {root : Bool} {as : List Markup.Attribute} {sheet : Sheet} {x : Part}
    (h : x ∈ (parts r root as sheet).1) : ∃ a ∈ as, IsPartOf r a x := by
  induction as generalizing sheet with
  | nil => cases h
  | cons a as ih =>
    rw [parts_cons] at h
    rcases List.mem_append.mp h with hx | hx
    · refine ⟨a, List.mem_cons_self, ?_⟩
      by_cases hstyle : a.name.full = "style"
      · rw [if_pos hstyle] at hx
        exact isPartOf_stylePart hstyle (Option.mem_toList.mp hx)
      · rw [if_neg hstyle] at hx
        exact isPartOf_plainPart (Option.mem_toList.mp hx)
    · obtain ⟨b, hb, hpart⟩ := ih hx
      exact ⟨b, List.mem_cons_of_mem a hb, hpart⟩

theorem mem_place {binding : List Attribute} {ps : List Part} {a : Attribute} (h : a ∈ place binding ps) :
    a ∈ binding ∨ Part.attr a ∈ ps := by
  induction ps with
  | nil => exact Or.inl h
  | cons x ps ih =>
    cases x with
    | attr b =>
      rcases List.mem_cons.mp h with rfl | h
      · exact Or.inr List.mem_cons_self
      · exact (ih h).imp_right (List.mem_cons_of_mem _)
    | classes ts =>
      rcases List.mem_append.mp h with h | h
      · exact Or.inl h
      · obtain ⟨y, hy, ha⟩ := List.mem_filterMap.mp h
        cases y with
        | attr b =>
          cases ha
          exact Or.inr (List.mem_cons_of_mem _ hy)
        | classes ts => cases ha

/-- The attributes are those of the parts, the binding of all classes, and at the root the caller's. -/
theorem mem_assemble {root : Bool} {ps : List Part} {a : Attribute} (h : a ∈ assemble root ps) :
    Part.attr a ∈ ps ∨ a = .classes (ps.flatMap Part.tokens) root ∨ a = .spread := by
  unfold assemble at h
  rcases List.mem_append.mp h with h | h
  · rcases mem_place h with h | h
    · split at h
      · cases h
      · exact Or.inr (Or.inl (List.mem_singleton.mp h))
    · exact Or.inl h
  · split at h
    · exact Or.inr (Or.inr (List.mem_singleton.mp h))
    · cases h

/-- An attribute is spelled with the characters of its name, in upper or lower case, and with letters. -/
theorem forall_mem_attributeName? {P : Char → Prop} (hword : ∀ c : Char, c.isAlphanum = true → P c) {n : Markup.Name}
    (hbase : ∀ c ∈ n.base.toList, P c) {spelled : List Char} (h : attributeName? n = some spelled) :
    ∀ c ∈ spelled, P c := by
  have hupper : ∀ c : Char, c.isUpper = true → P c := fun c hc =>
    hword c (Text.isAlphanum_of_isUpper hc)
  have hletters : ∀ s : List Char, s.all Char.isAlphanum = true → ∀ c ∈ s, P c := fun s hs c hc =>
    hword c (List.all_eq_true.mp hs c hc)
  have hprefixed : ∀ s : List Char, s.all Char.isAlphanum = true → ∀ c ∈ s ++ capitalize n.base.toList, P c :=
    fun s hs => List.forall_mem_append.mpr ⟨hletters s hs, forall_mem_capitalize hupper hbase⟩
  unfold attributeName? at h
  split at h
  · cases h
    split
    · exact forall_mem_camelCase hupper hbase
    · exact hbase
  · split at h <;> cases h
    exact hprefixed _ (by decide)
  · split at h <;> cases h
    exact hprefixed _ (by decide)
  · split at h <;> cases h
    exact hletters _ (by decide)
  · cases h

/-- What an attribute of a tame element contributes is plain. -/
def Part.IsPlain : Part → Prop
  | .attr a => a.IsPlain
  | .classes ts => ∀ t ∈ ts, ∀ name, t = .literal name → ∀ c ∈ name, isPlain c = true

theorem IsPartOf.plain {a : Markup.Attribute} {x : Part} (h : IsPartOf r a x) (hname : a.name.IsUnmarked)
    (hvalue : a.name.full = "class" ∨ (a.name.full = "style" ∧ r.extractStylesheet = false) →
      ∀ c ∈ a.value.toList, isPlain c = true) : x.IsPlain := by
  cases h with
  | extracted k =>
    intro t ht name heq
    rw [List.mem_singleton.mp ht] at heq
    cases heq
  | inlined hstyle hr =>
    exact fun d hd c hc => hvalue (Or.inr ⟨hstyle, hr⟩) c (Style.subset_of_mem_parseDeclarations hd hc)
  | classes hclass =>
    intro t ht name heq
    obtain ⟨word, hword, rfl⟩ := List.mem_map.mp ht
    cases heq
    exact fun c hc => hvalue (Or.inl hclass) c (Text.mem_of_mem_words hword hc).1
  | size => exact hname
  | color => exact hname
  | literal hspelled => exact forall_mem_attributeName? (fun c hc => isPlain_of_isAlphanum hc) hname.base hspelled

theorem mem_tokens {t : ClassToken} {ps : List Part} (h : t ∈ ps.flatMap Part.tokens) :
    ∃ ts, .classes ts ∈ ps ∧ t ∈ ts := by
  obtain ⟨x, hx, ht⟩ := List.mem_flatMap.mp h
  cases x with
  | attr a => cases ht
  | classes ts => exact ⟨ts, hx, ht⟩

/-- The attributes of a tame element leave its tag as they found it. -/
theorem isPlain_of_mem_assemble {root : Bool} {e : Markup.Element} (sheet : Sheet)
    (hnames : (Content.element e).HasUnmarkedNames) (htame : (Content.element e).IsTame r) :
    ∀ a ∈ assemble root (parts r root e.attributes sheet).1, a.IsPlain := by
  have hparts : ∀ x ∈ (parts r root e.attributes sheet).1, x.IsPlain := by
    intro x hx
    obtain ⟨a, ha, hpart⟩ := isPartOf_of_mem_parts hx
    exact hpart.plain (hnames.2 a ha) (htame.2.2 a ha)
  intro a ha
  rcases mem_assemble ha with hpart | rfl | rfl
  · exact hparts _ hpart
  · intro t ht
    obtain ⟨ts, hts, ht⟩ := mem_tokens ht
    exact hparts _ hts t ht
  · trivial

/-! ## Tags that show what they are -/

theorem composes_beginsTag : Composes BeginsTag where
  nil := by decide
  append := fun {s t} hs ht => by
    unfold BeginsTag at *
    rw [List.head?_append]
    cases h : s.head? with
    | none => exact ht
    | some c => rwa [h] at hs

/-- Text that does not end in a slash. -/
def EndsTag (s : List Char) : Prop := s.getLast? ≠ some '/'

instance : DecidablePred EndsTag := fun s => inferInstanceAs (Decidable (s.getLast? ≠ some '/'))

theorem composes_endsTag : Composes EndsTag where
  nil := by decide
  append := fun {s t} hs ht => by
    unfold EndsTag at *
    rw [List.getLast?_append]
    cases h : t.getLast? with
    | none => exact hs
    | some c => rwa [h] at ht

theorem IsBinding.beginsTag {s : List Char} (h : IsBinding s) : BeginsTag s := by
  obtain ⟨r, c, rfl, _⟩ := h
  intro d hd
  cases hd
  decide

theorem IsBinding.endsTag {s : List Char} (h : IsBinding s) : EndsTag s := by
  obtain ⟨r, c, rfl, hc⟩ := h
  have hne : c ≠ '/' := by
    rintro rfl
    rcases hc with hc | hc <;> cases hc
  intro hlast
  rw [← List.cons_append, List.getLast?_concat] at hlast
  exact hne (Option.some.inj hlast)

/-- A tag is its name and the bindings of its attributes. -/
theorem Composes.inTag {P : List Char → Prop} (h : Composes P) (hbinding : ∀ s, IsBinding s → P s) (p : Printer)
    {name : List Char} (hname : P name) (attributes : List Attribute) : P (p.inTag name attributes) := by
  refine h.append hname (h.flatMap fun a _ => ?_)
  rcases isBinding_attr p a with hempty | hattr
  · rw [hempty]
    exact h.nil
  · exact hbinding _ hattr

theorem beginsTag_inTag (p : Printer) {name : List Char} (hname : BeginsTag name) (attributes : List Attribute) :
    BeginsTag (p.inTag name attributes) :=
  composes_beginsTag.inTag (fun _ h => h.beginsTag) p hname attributes

theorem endsTag_inTag (p : Printer) {name : List Char} (hname : EndsTag name) (attributes : List Attribute) :
    EndsTag (p.inTag name attributes) :=
  composes_endsTag.inTag (fun _ h => h.endsTag) p hname attributes

theorem clearTag_of_isTame (p : Printer) {e : Markup.Element} (root : Bool) (sheet : Sheet) (children : List Node)
    (hnames : (Content.element e).HasUnmarkedNames) (htame : (Content.element e).IsTame r) :
    ClearTag p e.name.base.toList (assemble root (parts r root e.attributes sheet).1) children where
  closed := (isCode_balanced.flatMap fun a ha => balanced_attr (isPlain_of_mem_assemble sheet hnames htame a ha)).run
  begins := beginsTag_inTag p htame.1 _
  ends _ := endsTag_inTag p htame.2.1 _

theorem inherits_clear (p : Printer) (r : Rules) :
    Inherits r (fun c => c.HasUnmarkedNames ∧ c.IsTame r) (Node.Clear p) (ClearAll p) where
  nil := trivial
  cons hn hns := ⟨hn, hns⟩
  text _ _ := trivial
  comment hs hstrip := run_comment fun c hc => hs.2 hstrip c (Text.trimWhile_subset _ _ hc)
  css _ := trivial
  style hchildren := by
    have hname : BeginsTag ['s', 't', 'y', 'l', 'e'] ∧ EndsTag ['s', 't', 'y', 'l', 'e'] := by decide
    exact ⟨⟨rfl, beginsTag_inTag p hname.1 [], fun _ => endsTag_inTag p hname.2 []⟩, hchildren⟩
  drawn root sheet he hchildren := ⟨clearTag_of_isTame p root sheet _ he.1 he.2, hchildren⟩

/-- The markup of a tame image is clear, and its root too if it stands alone. -/
theorem clear_convertRoot (p : Printer) {e : Markup.Element} {ts : List Markup.Tree}
    (h : ((Content.element e).HasUnmarkedNames ∧ (Content.element e).IsTame r) ∧
      ∀ u ∈ Markup.Tree.subtreesOf ts, u.content.HasUnmarkedNames ∧ u.content.IsTame r) :
    (convertRoot r e ts).1.ClearRoot p := by
  have htag := clearTag_of_isTame p true .empty (convertAll r ts (parts r true e.attributes .empty).2).1 h.1.1 h.1.2
  have hchildren := (inherits_clear p r).of_convertAll ts (parts r true e.attributes .empty).2 h.2
  show (Node.element _ _ (convertAll r ts (parts r true e.attributes .empty).2).1).ClearRoot p
  generalize (convertAll r ts (parts r true e.attributes .empty).2).1 = children at htag hchildren
  cases children with
  | nil => exact ⟨by rw [htag.closed]; rfl, htag.begins⟩
  | cons n ns => exact ⟨htag, hchildren⟩

end SvgComponent.Jsx
