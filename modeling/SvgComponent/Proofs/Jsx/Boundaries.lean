/-
  SvgComponent.Proofs.Jsx.Boundaries — when the layout of printed markup finds the tokens that were printed.

  The pieces of a node are its tokens with the depth that they are printed at, texts next to each other joined
  (`Printer.pieces`). Printed markup is the pieces one after the other, so the layout finds them exactly if they can
  stand next to each other, that is if every tag and every comment is closed where it ends and nowhere before, and
  every tag looks like what it is (`tokens_print_iff_adjoined`). The lines are then the pieces at their depths
  (`linesFrom_of_follows`), and the depth is back at zero.
-/

import SvgComponent.Jsx.Printer
import SvgComponent.Proofs.Jsx.Scanning

namespace SvgComponent.Jsx

open Layout (Bracket Adjoined Spread StartsBracket tokenOf kindOf isText isPlain Within)

/-- A token and the depth that it stands at. -/
structure Piece where
  depth : Nat
  token : Token
  deriving DecidableEq

/-- A run of text. -/
def Token.isRun (t : Token) : Bool := t.kind == .other && t.text.head? != some '\x7b'

namespace Piece

def line (x : Piece) : List Char := List.replicate (2 * x.depth) ' ' ++ x.token.text

/-- Puts a piece before others; a run before a run becomes one with it. -/
def put (x : Piece) : List Piece → List Piece
  | [] => [x]
  | y :: ys =>
    if x.token.isRun && y.token.isRun then ⟨x.depth, ⟨.other, x.token.text ++ y.token.text⟩⟩ :: ys else x :: y :: ys

def joinRuns (xs : List Piece) : List Piece := xs.foldr put []

end Piece

namespace Printer

mutual

/-- The tokens of a node that stands at a depth; the children of an element stand one deeper. -/
def nested (p : Printer) (depth : Nat) : Node → List Piece
  | .element name attributes children =>
    if children.isEmpty then [⟨depth, ⟨.selfClosing, p.opening name attributes ++ [' ', '/', '>']⟩⟩]
    else
      ⟨depth, ⟨.opening, p.opening name attributes ++ ['>']⟩⟩ :: nestedOf p (depth + 1) children ++
        [⟨depth, ⟨.closing, '<' :: '/' :: name ++ ['>']⟩⟩]
  | .text s => [⟨depth, ⟨.other, textLiteral s⟩⟩]
  | .comment s => [⟨depth, ⟨.other, commentExpression s⟩⟩]
  | .css s => [⟨depth, ⟨.other, templateExpression s⟩⟩]

def nestedOf (p : Printer) (depth : Nat) : List Node → List Piece
  | [] => []
  | n :: ns => nested p depth n ++ nestedOf p depth ns

end

/-- The pieces of the markup of a root. -/
def pieces (p : Printer) (root : Node) : List Piece := Piece.joinRuns (p.nested 0 root)

mutual

theorem token_nested (p : Printer) (depth : Nat) : ∀ n : Node, (p.nested depth n).map Piece.token = p.tokens n
  | .element name attributes children => by
    rw [nested, tokens]
    split
    · rfl
    · rw [List.cons_append, List.map_cons, List.map_append, token_nestedOf p (depth + 1) children]
      rfl
  | .text _ => rfl
  | .comment _ => rfl
  | .css _ => rfl

theorem token_nestedOf (p : Printer) (depth : Nat) :
    ∀ ns : List Node, (p.nestedOf depth ns).map Piece.token = p.tokensOf ns
  | [] => rfl
  | n :: ns => by
    rw [nestedOf, tokensOf, List.map_append, token_nested p depth n, token_nestedOf p depth ns]

end

end Printer

/-! ## Depths -/

namespace Layout

/-- The depth of the line of a token. -/
def here (depth : Nat) (t : Token) : Nat := if t.kind = .closing then depth - 1 else depth

/-- The depth after a token. -/
def after (depth : Nat) (t : Token) : Nat := if t.kind = .opening then here depth t + 1 else here depth t

theorem here_other {t : Token} (h : t.kind = .other) (depth : Nat) : here depth t = depth := by
  rw [here, h]
  rfl

theorem after_other {t : Token} (h : t.kind = .other) (depth : Nat) : after depth t = depth := by
  rw [after, here_other h, h]
  rfl

end Layout

open Layout (here after here_other after_other)

/-- The depths of the pieces are those that their tokens lead to, and so is the depth after them. -/
def Follows (depth : Nat) : List Piece → Nat → Prop
  | [], last => depth = last
  | x :: xs, last => x.depth = here depth x.token ∧ Follows (after depth x.token) xs last

theorem Follows.append {xs ys : List Piece} {depth mid last : Nat} (hx : Follows depth xs mid)
    (hy : Follows mid ys last) : Follows depth (xs ++ ys) last := by
  induction xs generalizing depth with
  | nil =>
    cases hx
    exact hy
  | cons x xs ih => exact ⟨hx.1, ih hx.2⟩

theorem linesFrom_of_follows {xs : List Piece} {depth last : Nat} (h : Follows depth xs last) :
    Layout.linesFrom depth (xs.map Piece.token) = xs.map Piece.line ∧ (xs.map Piece.token).foldl after depth = last := by
  induction xs generalizing depth with
  | nil => exact ⟨rfl, h⟩
  | cons x xs ih =>
    obtain ⟨hx, hxs⟩ := h
    obtain ⟨hlines, hdepth⟩ := ih hxs
    refine ⟨?_, hdepth⟩
    rw [List.map_cons, List.map_cons, ← hlines, Piece.line, hx]
    rfl

theorem Follows.put {x : Piece} {xs : List Piece} {depth last : Nat} (h : Follows depth (x :: xs) last) :
    Follows depth (x.put xs) last := by
  cases xs with
  | nil => exact h
  | cons y ys =>
    rw [Piece.put]
    split
    · rename_i hruns
      simp only [Token.isRun, Bool.and_eq_true, beq_iff_eq] at hruns
      obtain ⟨hx, _, hys⟩ := h
      rw [here_other hruns.1.1] at hx
      rw [after_other hruns.2.1, after_other hruns.1.1] at hys
      exact ⟨hx, hys⟩
    · exact h

theorem Follows.joinRuns {xs : List Piece} {depth last : Nat} (h : Follows depth xs last) :
    Follows depth (Piece.joinRuns xs) last := by
  induction xs generalizing depth with
  | nil => exact h
  | cons x xs ih => exact Follows.put ⟨h.1, ih h.2⟩

mutual

theorem follows_nested (p : Printer) (depth : Nat) : ∀ n : Node, Follows depth (p.nested depth n) depth
  | .element name attributes children => by
    rw [Printer.nested]
    split
    · exact ⟨rfl, rfl⟩
    · exact ⟨rfl, (follows_nestedOf p (depth + 1) children).append ⟨rfl, rfl⟩⟩
  | .text _ => ⟨rfl, rfl⟩
  | .comment _ => ⟨rfl, rfl⟩
  | .css _ => ⟨rfl, rfl⟩

theorem follows_nestedOf (p : Printer) (depth : Nat) : ∀ ns : List Node, Follows depth (p.nestedOf depth ns) depth
  | [] => rfl
  | n :: ns => (follows_nested p depth n).append (follows_nestedOf p depth ns)

end

theorem follows_pieces (p : Printer) (root : Node) : Follows 0 (p.pieces root) 0 := (follows_nested p 0 root).joinRuns

/-! ## Printed markup is its pieces -/

theorem text_put (x : Piece) (xs : List Piece) :
    (x.put xs).flatMap (·.token.text) = x.token.text ++ xs.flatMap (·.token.text) := by
  cases xs with
  | nil => rfl
  | cons y ys =>
    rw [Piece.put]
    split
    · rw [List.flatMap_cons, List.flatMap_cons, List.append_assoc]
    · rw [List.flatMap_cons]

theorem text_joinRuns (xs : List Piece) : (Piece.joinRuns xs).flatMap (·.token.text) = xs.flatMap (·.token.text) := by
  induction xs with
  | nil => rfl
  | cons x xs ih => rw [Piece.joinRuns, List.foldr_cons, text_put, ← Piece.joinRuns, ih, List.flatMap_cons]

theorem spread_text (ts : List Token) : Spread ts (ts.flatMap (·.text)) := by
  induction ts with
  | nil => exact .nil fun c hc => absurd hc List.not_mem_nil
  | cons t ts ih =>
    have := ih.cons (g := []) (t := t) fun c hc => absurd hc List.not_mem_nil
    rwa [List.nil_append] at this

theorem spread_print (p : Printer) (root : Node) : Spread ((p.pieces root).map Piece.token) (p.print root) := by
  have htext : p.print root = ((p.pieces root).map Piece.token).flatMap (·.text) := by
    rw [Printer.print, ← Printer.token_nested p 0 root, List.flatMap_map, List.flatMap_map, Printer.pieces,
      text_joinRuns]
  rw [htext]
  exact spread_text _

theorem spread_of_put {x : Piece} {xs : List Piece} {s : List Char} (h : Spread ((x.put xs).map Piece.token) s) :
    Spread (x.token :: xs.map Piece.token) s := by
  cases xs with
  | nil => exact h
  | cons y ys =>
    rw [Piece.put] at h
    split at h
    · cases h with
      | @cons g r _ _ hg hr =>
        have hy := hr.cons (g := []) (t := y.token) fun c hc => absurd hc List.not_mem_nil
        have := hy.cons (t := x.token) hg
        rw [List.nil_append] at this
        rwa [List.append_assoc]
    · exact h

/-- What the pieces are spread over, the tokens are spread over. -/
theorem spread_of_pieces {p : Printer} {root : Node} {s : List Char} (h : Spread ((p.pieces root).map Piece.token) s) :
    Spread (p.tokens root) s := by
  have hjoin : ∀ (xs : List Piece) (s : List Char), Spread ((Piece.joinRuns xs).map Piece.token) s →
      Spread (xs.map Piece.token) s := by
    intro xs
    induction xs with
    | nil => exact fun s h => h
    | cons x xs ih =>
      intro s h
      cases spread_of_put h with
      | cons hg hr => exact .cons hg (ih _ hr)
  rw [← Printer.token_nested p 0 root]
  exact hjoin _ s h

/-- The pieces are found exactly if they can stand next to each other. -/
theorem tokens_print_iff_adjoined (p : Printer) (root : Node) :
    Layout.tokens (p.print root) = (p.pieces root).map Piece.token ↔ Adjoined ((p.pieces root).map Piece.token) := by
  rw [Layout.tokens_eq_iff, and_iff_left (spread_print p root)]

/-- If the pieces are found, the lines are the pieces at their depths, and the depth comes back to zero. -/
theorem format_print {p : Printer} {root : Node}
    (h : Layout.tokens (p.print root) = (p.pieces root).map Piece.token) :
    Layout.format (p.print root) = ['\n'].intercalate ((p.pieces root).map Piece.line) ∧
      ((p.pieces root).map Piece.token).foldl after 0 = 0 := by
  obtain ⟨hlines, hdepth⟩ := linesFrom_of_follows (follows_pieces p root)
  refine ⟨?_, hdepth⟩
  rw [Layout.format, h, hlines]

/-! ## Tokens that are closed where they end -/

/-- Text that is no tag and no expression and has no blanks at its ends. -/
structure IsText (s : List Char) : Prop where
  nonempty : s ≠ []
  text : ∀ c ∈ s, isText c = true
  trimmed : Text.trim s = s

/-- What is printed: a run of text, or a tag or an expression. -/
inductive Stands : Token → Prop where
  | run {s : List Char} (h : IsText s) : Stands ⟨.other, s⟩
  | bracket (k : Bracket) (b : List Char) {kind : TokenKind} (h : kind = .other → k = .brace) :
      Stands ⟨kind, k.opens :: b⟩

/-- A tag or an expression that is closed at its end and no earlier, and looks like what it is. -/
def Whole (t : Token) : Prop := ∃ (k : Bracket) (a : List Char), k.run a = some .outside ∧
  t = tokenOf (k.opens :: (a ++ [k.closes]))

theorem opens_injective {k k' : Bracket} (h : k.opens = k'.opens) : k = k' := by
  cases k <;> cases k' <;> first | rfl | cases h

theorem whole_iff (kind : TokenKind) (k : Bracket) (a : List Char) :
    Whole ⟨kind, k.opens :: (a ++ [k.closes])⟩ ↔
      k.run a = some .outside ∧ kindOf (k.opens :: (a ++ [k.closes])) = kind := by
  constructor
  · rintro ⟨k', a', hrun, ht⟩
    rw [tokenOf, Token.mk.injEq, List.cons.injEq] at ht
    obtain ⟨hkind, hopens, htext⟩ := ht
    obtain rfl := opens_injective hopens
    obtain rfl := List.append_cancel_right htext
    exact ⟨hrun, hkind.symm⟩
  · rintro ⟨hrun, hkind⟩
    exact ⟨k, a, hrun, by rw [tokenOf, hkind]⟩

namespace IsText

variable {s t : List Char}

theorem isRun (h : IsText s) : (⟨.other, s⟩ : Token).isRun = true := by
  rw [Token.isRun, Bool.and_eq_true]
  refine ⟨rfl, ?_⟩
  cases s with
  | nil => rfl
  | cons c s =>
    have := h.text c List.mem_cons_self
    rw [Layout.isText, Bool.and_eq_true] at this
    simpa using this.2

theorem kindOf (h : IsText s) : kindOf s = .other := by
  cases s with
  | nil => rfl
  | cons c s =>
    have hc : c ≠ '<' := Layout.isText_iff.mp (h.text c List.mem_cons_self) .angle
    simp [Layout.kindOf, Ne.symm hc]

theorem append (hs : IsText s) (ht : IsText t) : IsText (s ++ t) :=
  ⟨fun h => hs.nonempty (List.append_eq_nil_iff.mp h).1, List.forall_mem_append.mpr ⟨hs.text, ht.text⟩,
    Text.trimWhile_append hs.trimmed ht.trimmed hs.nonempty ht.nonempty⟩

end IsText

theorem isRun_bracket {kind : TokenKind} {k : Bracket} (b : List Char) (h : kind = .other → k = .brace) :
    (⟨kind, k.opens :: b⟩ : Token).isRun = false := by
  by_cases hkind : kind = .other
  · obtain rfl := h hkind
    simp [Token.isRun, Bracket.opens]
  · simp [Token.isRun, hkind]

/-- Before more tokens, a tag or an expression has to be closed. -/
theorem adjoined_cons_bracket {k : Bracket} {b : List Char} {kind : TokenKind} {ts : List Token} (hts : ts ≠ []) :
    Adjoined (⟨kind, k.opens :: b⟩ :: ts) ↔ Whole ⟨kind, k.opens :: b⟩ ∧ Adjoined ts := by
  constructor
  · intro h
    generalize ht : (⟨kind, k.opens :: b⟩ : Token) = t at h
    cases h with
    | last => exact absurd rfl hts
    | closed k' ha h => exact ⟨⟨k', _, ha, rfl⟩, h⟩
    | text htext =>
      have htext := htext k.opens (by rw [tokenOf, Token.mk.injEq] at ht; rw [← ht.2]; exact List.mem_cons_self)
      rw [k.isText_opens] at htext
      cases htext
  · rintro ⟨⟨k', a, ha, ht⟩, h⟩
    rw [ht]
    exact .closed k' ha h

/-- A tag or an expression alone may as well be left open. -/
theorem adjoined_single_iff (kind : TokenKind) (k : Bracket) (a : List Char) :
    Adjoined [⟨kind, k.opens :: (a ++ [k.closes])⟩] ↔
      kindOf (k.opens :: (a ++ [k.closes])) = kind ∧ (k.run a).isSome := by
  constructor
  · intro h
    generalize ht : (⟨kind, k.opens :: (a ++ [k.closes])⟩ : Token) = t at h
    have hkind : t = tokenOf t.text := by
      cases h <;> rfl
    refine ⟨?_, ?_⟩
    · rw [← ht, tokenOf, Token.mk.injEq] at hkind
      exact hkind.1.symm
    · cases h with
      | last k' hopen =>
        rw [tokenOf, Token.mk.injEq, List.cons.injEq] at ht
        obtain ⟨_, hopens, rfl⟩ := ht
        obtain rfl := opens_injective hopens
        exact Bracket.isSome_run_of_append hopen
      | closed k' ha =>
        rw [tokenOf, Token.mk.injEq, List.cons.injEq] at ht
        obtain ⟨_, hopens, htext⟩ := ht
        obtain rfl := opens_injective hopens
        rw [List.append_cancel_right htext, ha]
        rfl
      | text htext =>
        rw [tokenOf, Token.mk.injEq] at ht
        have := htext k.opens (by rw [← ht.2]; exact List.mem_cons_self)
        rw [k.isText_opens] at this
        cases this
  · rintro ⟨hkind, hsome⟩
    obtain ⟨w, hw⟩ := Option.isSome_iff_exists.mp hsome
    rw [← hkind]
    by_cases houtside : w = .outside
    · rw [houtside] at hw
      exact .closed k hw .nil
    · refine .last k ?_ (Text.trimWhile_between k.isBlank_opens k.isBlank_closes a)
      rw [Bracket.run, Bracket.runFrom_append, show k.runFrom .outside a = some w from hw, Option.bind_some,
        Bracket.runFrom_cons]
      cases hstep : k.step w k.closes with
      | none => exact absurd (((k.fits_outside).runFrom hw).eq_of_step_none hstep).2 houtside
      | some w' => rfl

/-- Text has to come to an end at a tag or an expression. -/
theorem adjoined_cons_run {s : List Char} {ts : List Token} (hs : IsText s) :
    Adjoined (⟨.other, s⟩ :: ts) ↔ StartsBracket ts ∧ Adjoined ts := by
  have hbracket : ∀ (k : Bracket) (b : List Char), s ≠ k.opens :: b := by
    rintro k b rfl
    have := hs.text k.opens List.mem_cons_self
    rw [k.isText_opens] at this
    cases this
  constructor
  · intro h
    generalize ht : (⟨.other, s⟩ : Token) = t at h
    cases h with
    | last k => exact absurd (congrArg Token.text ht) (hbracket k _)
    | closed k => exact absurd (congrArg Token.text ht) (hbracket k _)
    | text _ _ _ hstart h => exact ⟨hstart, h⟩
  · rintro ⟨hstart, h⟩
    have := Adjoined.text hs.text hs.nonempty hs.trimmed hstart h
    rwa [tokenOf, hs.kindOf] at this

theorem stands_put {x : Piece} {xs : List Piece} (hx : Stands x.token) (hxs : ∀ y ∈ xs, Stands y.token) :
    ∀ y ∈ x.put xs, Stands y.token := by
  cases xs with
  | nil =>
    intro y hy
    obtain rfl := List.mem_singleton.mp hy
    exact hx
  | cons z zs =>
    rw [Piece.put]
    split
    · rename_i hruns
      rw [Bool.and_eq_true] at hruns
      rw [List.forall_mem_cons] at hxs ⊢
      refine ⟨?_, hxs.2⟩
      have hz := hxs.1
      obtain ⟨d, t⟩ := x
      obtain ⟨d', u⟩ := z
      change Stands t at hx
      change Stands u at hz
      show Stands ⟨.other, t.text ++ u.text⟩
      cases hx with
      | bracket k b h => simp [isRun_bracket b h] at hruns
      | run hs =>
        cases hz with
        | bracket k b h => simp [isRun_bracket b h] at hruns
        | run ht => exact .run (hs.append ht)
    · exact List.forall_mem_cons.mpr ⟨hx, hxs⟩

theorem stands_joinRuns {xs : List Piece} (h : ∀ x ∈ xs, Stands x.token) : ∀ x ∈ Piece.joinRuns xs, Stands x.token := by
  induction xs with
  | nil => exact h
  | cons x xs ih =>
    rw [List.forall_mem_cons] at h
    exact stands_put h.1 (ih h.2)

theorem put_ne_nil (x : Piece) (xs : List Piece) : x.put xs ≠ [] := by
  cases xs with
  | nil => exact List.cons_ne_nil _ _
  | cons y ys =>
    rw [Piece.put]
    split <;> exact List.cons_ne_nil _ _

/-- A piece in front of others that can stand next to each other. -/
theorem adjoined_put_iff {x : Piece} {xs : List Piece} (hx : Stands x.token) (hxs : ∀ y ∈ xs, Stands y.token)
    (hne : xs ≠ []) : Adjoined ((x.put xs).map Piece.token) ↔
      (x.token.isRun = true ∨ Whole x.token) ∧ Adjoined (xs.map Piece.token) := by
  obtain ⟨d, t⟩ := x
  cases xs with
  | nil => exact absurd rfl hne
  | cons y ys =>
    obtain ⟨d', u⟩ := y
    have hu : Stands u := hxs _ List.mem_cons_self
    change Stands t at hx
    cases hx with
    | bracket k b h =>
      have hrun := isRun_bracket b h
      rw [Piece.put, hrun]
      simp only [Bool.false_and, Bool.false_eq_true, if_false, false_or]
      exact adjoined_cons_bracket (List.cons_ne_nil _ _)
    | @run s hs =>
      rw [Piece.put, hs.isRun]
      simp only [Bool.true_and, true_or, true_and]
      cases hu with
      | bracket k b h =>
        rw [isRun_bracket b h]
        simp only [Bool.false_eq_true, if_false]
        refine (adjoined_cons_run hs).trans (and_iff_right ?_)
        intro v hv
        cases hv
        exact ⟨k, b, rfl⟩
      | @run s' hs' =>
        rw [hs'.isRun]
        simp only [if_true]
        exact (adjoined_cons_run (hs.append hs')).trans (adjoined_cons_run hs').symm

/-- Pieces before a last one that is whole can stand next to each other if each is a run or whole. -/
theorem adjoined_joinRuns_iff {xs : List Piece} {z : Piece} (hxs : ∀ x ∈ xs, Stands x.token) (hz : Stands z.token)
    (hwhole : Whole z.token) : Adjoined ((Piece.joinRuns (xs ++ [z])).map Piece.token) ↔
      ∀ x ∈ xs, x.token.isRun = true ∨ Whole x.token := by
  induction xs with
  | nil =>
    obtain ⟨k, a, ha, ht⟩ := hwhole
    refine iff_of_true ?_ fun x hx => absurd hx List.not_mem_nil
    show Adjoined [z.token]
    rw [ht]
    exact .closed k ha .nil
  | cons x xs ih =>
    rw [List.forall_mem_cons] at hxs
    have hstands : ∀ y ∈ Piece.joinRuns (xs ++ [z]), Stands y.token := by
      apply stands_joinRuns
      rw [List.forall_mem_append, List.forall_mem_singleton]
      exact ⟨hxs.2, hz⟩
    have hne : Piece.joinRuns (xs ++ [z]) ≠ [] := by
      cases xs with
      | nil => exact List.cons_ne_nil _ _
      | cons y ys => exact put_ne_nil _ _
    rw [List.forall_mem_cons, ← ih hxs.2]
    exact adjoined_put_iff hxs.1 hstands hne

end SvgComponent.Jsx
