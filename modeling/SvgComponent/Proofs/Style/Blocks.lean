/-
  SvgComponent.Proofs.Style.Blocks — reading the blocks of a stylesheet.

  A block goes from its opening brace to the brace that closes it, and semicolons separate its declarations, all of
  them outside quotes, parentheses and inner braces. A declaration of a style attribute can have braces and quotes in it
  that are never closed, and is written as it is; so the rules of a sheet are read as the declarations that they were
  made of exactly if every declaration closes what it opens (`blocks_rulesText_iff`).
-/

import SvgComponent.Proofs.Style.Nesting
import SvgComponent.Style.Sheet

namespace SvgComponent.Style

open Text (isBlank trim)

/-! ## Reading -/

/-- Ends a declaration. -/
def isEnd (c : Char) : Bool := c == ';' || c == '\x7d'

def opensBlock (c : Char) : Bool := c == '\x7b'

/-- The declarations of a block after its opening brace, and the text after the brace that closes it. -/
def body : List Char → List Declaration × List Char
  | [] => ([], [])
  | c :: s =>
    let cut := cutOutside isEnd .top (c :: s)
    let own := (Declaration.parse? cut.1).toList
    if cut.2.head? = some ';' then (own ++ (body cut.2.tail).1, (body cut.2.tail).2) else (own, cut.2.tail)
termination_by s => s.length
decreasing_by
  all_goals
    have := length_cutOutside isEnd .top (c :: s)
    rw [List.length_tail, List.length_cons] at *
    omega

/-- A selector and the declarations of its block. -/
structure Block where
  selector : List Char
  declarations : List Declaration
  deriving DecidableEq

theorem length_body (s : List Char) : (body s).2.length ≤ s.length := by
  fun_induction body s with
  | case1 => exact Nat.le_refl _
  | case2 c s cut own hnext ih =>
    have : cut.2.length ≤ (c :: s).length := length_cutOutside isEnd .top (c :: s)
    rw [List.length_tail] at ih
    exact ih.trans (by omega)
  | case3 c s cut own hnext =>
    have : cut.2.length ≤ (c :: s).length := length_cutOutside isEnd .top (c :: s)
    rw [List.length_tail]
    omega

/-- The blocks of a stylesheet. -/
def blocks : List Char → List Block
  | [] => []
  | c :: s =>
    let cut := cutOutside opensBlock .top (c :: s)
    if cut.2.isEmpty then [] else ⟨trim cut.1, (body cut.2.tail).1⟩ :: blocks (body cut.2.tail).2
termination_by s => s.length
decreasing_by
  have hcut := length_cutOutside opensBlock .top (c :: s)
  have hbody := length_body (cutOutside opensBlock .top (c :: s)).2.tail
  rw [List.length_tail, List.length_cons] at *
  omega

/-- A declaration that closes all that it opens, and no block. -/
def Declaration.IsClosed (d : Declaration) : Prop := Nesting.top.run isEnd d.text = some .top

instance : DecidablePred Declaration.IsClosed := fun d =>
  inferInstanceAs (Decidable (Nesting.top.run isEnd d.text = some .top))

/-! ## Declarations in a block -/

theorem Declaration.line_eq (d : Declaration) : d.line = ' ' :: ' ' :: (d.text ++ [';', '\n']) := by
  simp [line, text]

theorem not_isEnd_of_isInert {c : Char} (h : isInert c = true) : isEnd c = false := by
  rw [isEnd, Bool.or_eq_false_iff, beq_eq_false_iff_ne, beq_eq_false_iff_ne]
  constructor <;> rintro rfl <;> cases h

theorem body_eq (s : List Char) : body s =
    let cut := cutOutside isEnd .top s
    let own := (Declaration.parse? cut.1).toList
    if cut.2.head? = some ';' then (own ++ (body cut.2.tail).1, (body cut.2.tail).2) else (own, cut.2.tail) := by
  cases s with
  | nil =>
    rw [body]
    rfl
  | cons c s => rw [body]

theorem parse?_of_colon_not_mem {s : List Char} (h : ':' ∉ s) : Declaration.parse? s = none := by
  unfold Declaration.parse?
  cases hcut : Text.cutAt ':' s with
  | none => rfl
  | some cut =>
    rw [Text.cutAt_eq_some hcut] at h
    exact absurd (List.mem_append_right _ List.mem_cons_self) h

theorem colon_not_mem_blanks {g : List Char} (hg : ∀ c ∈ g, isBlank c = true) : ':' ∉ g := fun hmem =>
  absurd (hg ':' hmem) (by decide)

theorem colon_not_mem_property {d : Declaration} (hd : d.IsProper) {g : List Char} (hg : ∀ c ∈ g, isBlank c = true) :
    ':' ∉ g ++ d.property := by
  rw [List.mem_append, not_or]
  exact ⟨colon_not_mem_blanks hg, hd.colon⟩

/-- A declaration and more text are read as its property and what follows the colon. -/
theorem parse?_text {d : Declaration} (hd : d.IsProper) {g : List Char} (hg : ∀ c ∈ g, isBlank c = true) {v : List Char}
    (hv : trim v ≠ []) : Declaration.parse? (g ++ (d.property ++ ':' :: v)) = some ⟨d.property, trim v⟩ := by
  have hproperty : trim (g ++ d.property) = d.property := (Text.trimWhile_append_left hg _).trans hd.property_trim
  rw [← List.append_assoc, Declaration.parse?, Text.cutAt_append (colon_not_mem_property hd hg)]
  simp only [hproperty, List.isEmpty_iff, Bool.or_eq_true, hd.property_ne, hv, or_self, if_false]

/-- A closed declaration is read as it is. -/
theorem body_declaration {d : Declaration} (hd : d.IsProper) (hclosed : d.IsClosed) {g : List Char}
    (hg : ∀ c ∈ g, isBlank c = true) (rest : List Char) :
    body (g ++ (d.text ++ ';' :: rest)) = (d :: (body rest).1, (body rest).2) := by
  have hrun : Nesting.top.run isEnd (g ++ d.text) = some .top := by
    rw [Nesting.run_blanks_append (fun _ => not_isEnd_of_isInert) hg quotesOnly_top]
    exact hclosed
  have hcut : cutOutside isEnd .top (g ++ (d.text ++ ';' :: rest)) = (g ++ d.text, ';' :: rest) := by
    rw [← List.append_assoc, cutOutside_run hrun, cutOutside_stop rfl, List.append_nil]
  have hvalue : trim (' ' :: d.value) = d.value := (Text.trim_space _).trans hd.value_trim
  have hparse : Declaration.parse? (g ++ d.text) = some d := by
    rw [Declaration.text, parse?_text hd hg (by rw [hvalue]; exact hd.value_ne), hvalue]
  rw [body_eq, hcut]
  dsimp only
  rw [hparse]
  rfl

/-- Blanks before the brace are no declaration. -/
theorem body_end {g : List Char} (hg : ∀ c ∈ g, isBlank c = true) (rest : List Char) :
    body (g ++ '\x7d' :: rest) = ([], rest) := by
  have hcut : cutOutside isEnd .top (g ++ '\x7d' :: rest) = (g, '\x7d' :: rest) := by
    rw [cutOutside_run (Nesting.run_blanks (fun _ => not_isEnd_of_isInert) hg quotesOnly_top), cutOutside_stop rfl,
      List.append_nil]
  rw [body_eq, hcut]
  dsimp only
  rw [parse?_of_colon_not_mem (colon_not_mem_blanks hg)]
  rfl

/-- What comes first in a block is what stands before the first cut, if that is a declaration. -/
theorem head?_body {s a b : List Char} {d : Declaration} (hcut : cutOutside isEnd .top s = (a, b))
    (hparse : Declaration.parse? a = some d) : (body s).1.head? = some d := by
  rw [body_eq, hcut]
  dsimp only
  rw [hparse]
  split <;> rfl

theorem value_of_parse? {d d' : Declaration} (hd : d.IsProper) {g : List Char} (hg : ∀ c ∈ g, isBlank c = true)
    {v : List Char} (h : Declaration.parse? (g ++ (d.property ++ ':' :: v)) = some d') : d'.value = trim v := by
  rw [← List.append_assoc, Declaration.parse?, Text.cutAt_append (colon_not_mem_property hd hg)] at h
  dsimp only at h
  split at h <;> cases h
  rfl

/-- A part of a declaration is not read as all of it. -/
theorem parse?_ne_of_part {d : Declaration} (hd : d.IsProper) {g u w : List Char} {c : Char}
    (hg : ∀ c ∈ g, isBlank c = true) (h : d.text = u ++ c :: w) : Declaration.parse? (g ++ u) ≠ some d := by
  intro hparse
  by_cases hcolon : ':' ∈ u
  · obtain ⟨a, b, rfl, ha⟩ := List.eq_append_cons_of_mem hcolon
    have hcut := congrArg (Text.cutAt ':') h
    rw [Declaration.text, Text.cutAt_append hd.colon, List.append_assoc, List.cons_append, Text.cutAt_append ha] at hcut
    simp only [Option.some.injEq, Prod.mk.injEq] at hcut
    obtain ⟨rfl, hvalue⟩ := hcut
    have htrim := value_of_parse? hd hg hparse
    cases b with
    | nil => exact hd.value_ne htrim
    | cons e b =>
      rw [List.cons_append, List.cons.injEq] at hvalue
      obtain ⟨rfl, hvalue⟩ := hvalue
      have hle := Text.length_trim_le b
      have hlength := congrArg List.length hvalue
      rw [List.length_append, List.length_cons] at hlength
      rw [Text.trim_space] at htrim
      rw [← htrim] at hle
      omega
  · have hnone : ':' ∉ g ++ u := by
      rw [List.mem_append, not_or]
      exact ⟨colon_not_mem_blanks hg, hcolon⟩
    rw [parse?_of_colon_not_mem hnone] at hparse
    cases hparse

/-- A brace outside quotes and brackets ends the block in the middle of a declaration. -/
theorem body_broken {d : Declaration} (hd : d.IsProper) (hbroken : Nesting.top.run isEnd d.text = none) {g : List Char}
    (hg : ∀ c ∈ g, isBlank c = true) (rest : List Char) : (body (g ++ (d.text ++ ';' :: rest))).1.head? ≠ some d := by
  obtain ⟨u, c, w, htext, hu, hc⟩ := Nesting.exists_of_run_eq_none hbroken
  have hsemicolon : c ≠ ';' := by
    rintro rfl
    have hmono : Nesting.top.run (· == ';') u = some .top :=
      Nesting.run_mono (fun c hc => by simp [isEnd, beq_iff_eq.mp hc]) hu
    have hwhole := hd.whole
    rw [htext, Nesting.run_append, hmono] at hwhole
    cases hwhole
  have hcut : cutOutside isEnd .top (g ++ (d.text ++ ';' :: rest)) = (g ++ u, c :: (w ++ ';' :: rest)) := by
    have hfront : Nesting.top.run isEnd (g ++ u) = some .top := by
      rwa [Nesting.run_blanks_append (fun _ => not_isEnd_of_isInert) hg quotesOnly_top]
    have hsplit : g ++ (d.text ++ ';' :: rest) = (g ++ u) ++ c :: (w ++ ';' :: rest) := by
      rw [htext]
      simp
    rw [hsplit, cutOutside_run hfront, cutOutside_stop hc, List.append_nil]
  have hown : (body (g ++ (d.text ++ ';' :: rest))).1 = (Declaration.parse? (g ++ u)).toList := by
    rw [body_eq, hcut]
    dsimp only
    rw [List.head?_cons, if_neg fun h => hsemicolon (Option.some.inj h)]
  have hpart := parse?_ne_of_part hd hg htext
  rw [hown]
  cases hparse : Declaration.parse? (g ++ u) with
  | none => exact nofun
  | some d' => rwa [hparse] at hpart

/-- With a quote or a bracket left open, a declaration goes on behind its semicolon. -/
theorem body_unclosed {d : Declaration} (hd : d.IsProper) {m : Nesting} (hrun : Nesting.top.run isEnd d.text = some m)
    (hm : m ≠ .top) {g : List Char} (hg : ∀ c ∈ g, isBlank c = true) (rest : List Char) :
    (body (g ++ (d.text ++ ';' :: rest))).1.head? ≠ some d := by
  have hfront : Nesting.top.run isEnd (g ++ d.text) = some m := by
    rwa [Nesting.run_blanks_append (fun _ => not_isEnd_of_isInert) hg quotesOnly_top]
  have hcut : cutOutside isEnd .top (g ++ (d.text ++ ';' :: rest)) =
      (g ++ d.text ++ ';' :: (cutOutside isEnd (m.step ';') rest).1, (cutOutside isEnd (m.step ';') rest).2) := by
    rw [← List.append_assoc, cutOutside_run hfront, cutOutside, if_neg fun h => hm h.1]
  generalize (cutOutside isEnd (m.step ';') rest).1 = more at hcut
  have hchunk : g ++ d.text ++ ';' :: more = g ++ (d.property ++ ':' :: (' ' :: (d.value ++ ';' :: more))) := by
    simp [Declaration.text]
  have hne : trim (' ' :: (d.value ++ ';' :: more)) ≠ [] := by
    intro hnil
    have hblanks : ∀ c ∈ ' ' :: (d.value ++ ';' :: more), isBlank c = true := by
      apply Text.all_of_trimWhile
      rw [← trim, hnil]
      exact fun c hc => absurd hc List.not_mem_nil
    exact absurd (hblanks ';' (by simp)) (by decide)
  have hparse := parse?_text hd hg hne
  rw [← hchunk] at hparse
  rw [head?_body hcut hparse]
  intro heq
  have hvalue := congrArg Declaration.value (Option.some.inj heq)
  rw [Text.trim_space] at hvalue
  exact Text.trim_append_ne hd.value_ne hd.value_trim rfl more hvalue

/-- A declaration that is not closed is not read as it is. -/
theorem body_open {d : Declaration} (hd : d.IsProper) (hopen : ¬ d.IsClosed) {g : List Char}
    (hg : ∀ c ∈ g, isBlank c = true) (rest : List Char) : (body (g ++ (d.text ++ ';' :: rest))).1.head? ≠ some d := by
  cases hrun : Nesting.top.run isEnd d.text with
  | none => exact body_broken hd hrun hg rest
  | some m =>
    have hm : m ≠ .top := by
      rintro rfl
      exact hopen hrun
    exact body_unclosed hd hrun hm hg rest

theorem lines_cons (g : List Char) (d : Declaration) (ds : List Declaration) (rest : List Char) :
    g ++ ((d :: ds).flatMap Declaration.line ++ rest) =
      (g ++ [' ', ' ']) ++ (d.text ++ ';' :: (['\n'] ++ (ds.flatMap Declaration.line ++ rest))) := by
  rw [List.flatMap_cons, Declaration.line_eq]
  simp

/-- The lines of a rule are read as its declarations exactly if each of these is closed. -/
theorem body_lines_iff {ds : List Declaration} (hds : ∀ d ∈ ds, d.IsProper) {g : List Char}
    (hg : ∀ c ∈ g, isBlank c = true) (rest : List Char) :
    (body (g ++ (ds.flatMap Declaration.line ++ '\x7d' :: rest))).1 = ds ↔ ∀ d ∈ ds, d.IsClosed := by
  induction ds generalizing g with
  | nil =>
    rw [List.flatMap_nil, List.nil_append, body_end hg]
    exact iff_of_true rfl nofun
  | cons d ds ih =>
    rw [List.forall_mem_cons] at hds ⊢
    have hg' : ∀ c ∈ g ++ [' ', ' '], isBlank c = true := List.forall_mem_append.mpr ⟨hg, by decide⟩
    have hnext : ∀ c ∈ ['\n'], isBlank c = true := by decide
    rw [lines_cons]
    by_cases hclosed : d.IsClosed
    · rw [body_declaration hds.1 hclosed hg', List.cons.injEq, and_iff_right rfl, ih hds.2 hnext, and_iff_right hclosed]
    · refine iff_of_false (fun heq => ?_) fun h => hclosed h.1
      apply body_open hds.1 hclosed hg' (['\n'] ++ (ds.flatMap Declaration.line ++ '\x7d' :: rest))
      rw [heq]
      rfl

theorem body_lines_rest {ds : List Declaration} (hds : ∀ d ∈ ds, d.IsProper) (hclosed : ∀ d ∈ ds, d.IsClosed)
    {g : List Char} (hg : ∀ c ∈ g, isBlank c = true) (rest : List Char) :
    (body (g ++ (ds.flatMap Declaration.line ++ '\x7d' :: rest))).2 = rest := by
  induction ds generalizing g with
  | nil => rw [List.flatMap_nil, List.nil_append, body_end hg]
  | cons d ds ih =>
    rw [List.forall_mem_cons] at hds hclosed
    have hg' : ∀ c ∈ g ++ [' ', ' '], isBlank c = true := List.forall_mem_append.mpr ⟨hg, by decide⟩
    have hnext : ∀ c ∈ ['\n'], isBlank c = true := by decide
    rw [lines_cons, body_declaration hds.1 hclosed.1 hg', ih hds.2 hclosed.2 hnext]

/-! ## Rules -/

theorem blocks_eq (s : List Char) : blocks s =
    let cut := cutOutside opensBlock .top s
    if cut.2.isEmpty then [] else ⟨trim cut.1, (body cut.2.tail).1⟩ :: blocks (body cut.2.tail).2 := by
  cases s with
  | nil =>
    rw [blocks]
    rfl
  | cons c s => rw [blocks]

/-- The block of a rule with this number. -/
def ruleBlock (k : Nat) (ds : List Declaration) : Block := ⟨'.' :: extractedClass k, ds⟩

theorem not_opensBlock_of_isInert {c : Char} (h : isInert c = true) : opensBlock c = false := by
  rw [opensBlock, beq_eq_false_iff_ne]
  rintro rfl
  cases h

/-- The selector of a rule is one word. -/
theorem selector_word (k : Nat) : ∀ c ∈ '.' :: extractedClass k, isBlank c = false ∧ isInert c = true := by
  rw [List.forall_mem_cons]
  refine ⟨by decide, fun c hc => ?_⟩
  rcases mem_extractedClass hc with hword | rfl
  · exact ⟨Text.isBlank_of_isAlphanum hword, isInert_of_isAlphanum hword⟩
  · decide

/-- A rule is read as its selector and its body. -/
theorem blocks_rule (k : Nat) (ds : List Declaration) {g : List Char} (hg : ∀ c ∈ g, isBlank c = true) (more : List Char) :
    let inside := body (['\n'] ++ (ds.flatMap Declaration.line ++ '\x7d' :: (['\n'] ++ more)))
    blocks (g ++ (ruleText k ds ++ more)) = ⟨'.' :: extractedClass k, inside.1⟩ :: blocks inside.2 := by
  have hword := selector_word k
  have hspace : ∀ c ∈ [' '], isBlank c = true := by decide
  have hrun : Nesting.top.run opensBlock (g ++ ('.' :: extractedClass k ++ [' '])) = some .top := by
    rw [Nesting.run_blanks_append (fun _ => not_opensBlock_of_isInert) hg quotesOnly_top]
    refine Nesting.run_inert (fun _ => not_opensBlock_of_isInert) ?_ rfl
    exact List.forall_mem_append.mpr ⟨fun c hc => (hword c hc).2, by decide⟩
  have htext : g ++ (ruleText k ds ++ more) = (g ++ ('.' :: extractedClass k ++ [' '])) ++
      '\x7b' :: (['\n'] ++ (ds.flatMap Declaration.line ++ '\x7d' :: (['\n'] ++ more))) := by
    simp [ruleText]
  have hselector : trim (g ++ ('.' :: extractedClass k ++ [' '])) = '.' :: extractedClass k := by
    rw [trim, Text.trimWhile_append_left hg, Text.trimWhile_append_right hspace]
    exact Text.trim_word fun c hc => (hword c hc).1
  rw [htext, blocks_eq, cutOutside_run hrun, cutOutside_stop rfl]
  dsimp only
  rw [List.append_nil, hselector]
  rfl

theorem blocks_blanks {g : List Char} (hg : ∀ c ∈ g, isBlank c = true) : blocks g = [] := by
  have hrun := Nesting.run_blanks (fun _ => not_opensBlock_of_isInert) hg quotesOnly_top
  have hcut := cutOutside_run hrun []
  rw [List.append_nil] at hcut
  rw [blocks_eq, hcut]
  rfl

theorem blocks_rulesFrom_iff {rules : List (List Declaration)} (h : ∀ ds ∈ rules, ∀ d ∈ ds, d.IsProper) (k : Nat)
    {g : List Char} (hg : ∀ c ∈ g, isBlank c = true) :
    blocks (g ++ (rules.zipIdx k).flatMap fun (ds, k) => ruleText k ds) =
        ((rules.zipIdx k).map fun (ds, k) => ruleBlock k ds) ↔
      ∀ ds ∈ rules, ∀ d ∈ ds, d.IsClosed := by
  induction rules generalizing k g with
  | nil =>
    rw [List.zipIdx_nil, List.flatMap_nil, List.append_nil, blocks_blanks hg]
    exact iff_of_true rfl nofun
  | cons ds rules ih =>
    rw [List.forall_mem_cons] at h ⊢
    have hnext : ∀ c ∈ ['\n'], isBlank c = true := by decide
    have hfirst : ∀ more, (⟨'.' :: extractedClass k,
        (body (['\n'] ++ (ds.flatMap Declaration.line ++ '\x7d' :: more))).1⟩ : Block) = ruleBlock k ds ↔
          ∀ d ∈ ds, d.IsClosed := by
      intro more
      rw [ruleBlock, Block.mk.injEq, and_iff_right rfl]
      exact body_lines_iff h.1 hnext more
    rw [List.zipIdx_cons, List.flatMap_cons, List.map_cons, blocks_rule k ds hg, List.cons.injEq]
    by_cases hclosed : ∀ d ∈ ds, d.IsClosed
    · rw [body_lines_rest h.1 hclosed hnext]
      exact and_congr (hfirst _) (ih h.2 (k + 1) hnext)
    · exact iff_of_false (fun hboth => hclosed ((hfirst _).mp hboth.1)) fun hboth => hclosed hboth.1

/-- The rules of a sheet are read as what they were made of exactly if every declaration is closed. -/
theorem blocks_rulesText_iff {sheet : Sheet} (h : ∀ ds ∈ sheet.rules, ∀ d ∈ ds, d.IsProper) :
    blocks sheet.rulesText = (sheet.rules.zipIdx.map fun (ds, k) => ruleBlock k ds) ↔
      ∀ ds ∈ sheet.rules, ∀ d ∈ ds, d.IsClosed :=
  blocks_rulesFrom_iff h 0 (g := []) nofun

end SvgComponent.Style
