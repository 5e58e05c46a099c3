/-
  SvgComponent.Proofs.Component.Bindings — the names that a component's module binds.

  A module is read line by line (`topLevelNames`). What its statements bind is named in the line that they begin with, in
  column 0, and the markup between them is moved to the right (`bound_indent`). So a module binds what the template imports
  and declares, and its component last (`bound_render`).

  - The name is made of letters and digits and begins with a letter (`isName_sanitizeName`), and such a name is left as it is
    (`sanitizeName_of_isName`).
  - The component's name is a reserved word only if the letters and digits asked for spell it, and a module binds a name
    twice only if they spell one that it imports (`generate_binds`).
  - Then nothing is put in front of them, as it is in front of a digit (`names_clash`).
-/

import SvgComponent.Proofs.Component.Tidying
import SvgComponent.Proofs.Markup.Reading
import SvgComponent.Proofs.Text.Cut
import SvgComponent.Proofs.Text.Kinds

namespace SvgComponent.Component

open Markup (Document)

/-! ## Names -/

/-- A name made of ASCII letters and digits that does not begin with a digit. -/
structure IsName (s : String) : Prop where
  nonempty : s ≠ ""
  alphanumeric : ∀ c ∈ s.toList, c.isAlphanum = true
  head : ∀ c ∈ s.toList.head?, c.isDigit = false

/-- The ASCII letters and digits of a text. -/
def letters (raw : String) : String := String.ofList (raw.toList.filter Char.isAlphanum)

theorem isAlphanum_letters (raw : String) : ∀ c ∈ (letters raw).toList, c.isAlphanum = true := by
  intro c hc
  rw [letters, String.toList_ofList] at hc
  exact (List.mem_filter.mp hc).2

theorem letters_of_isAlphanum {s : String} (h : ∀ c ∈ s.toList, c.isAlphanum = true) : letters s = s := by
  rw [letters, List.filter_eq_self.mpr h, String.ofList_toList]

/-- Without letters and digits the name is the default one, and a digit gets `Svg` in front of it. -/
theorem sanitizeName_cases (raw : String) :
    letters raw = "" ∧ sanitizeName raw = defaultName ∨
      (∃ c ∈ (letters raw).toList.head?, c.isDigit = true) ∧ sanitizeName raw = "Svg" ++ letters raw ∨
      IsName (letters raw) ∧ sanitizeName raw = letters raw := by
  have hall := isAlphanum_letters raw
  unfold letters sanitizeName at *
  cases hkept : raw.toList.filter Char.isAlphanum with
  | nil => exact .inl ⟨rfl, rfl⟩
  | cons c kept =>
    rw [hkept, String.toList_ofList] at hall
    simp only [String.toList_ofList, List.head?_cons, Option.mem_some_iff, exists_eq_left']
    by_cases hc : c.isDigit = true
    · exact .inr (.inl ⟨hc, if_pos hc⟩)
    · refine .inr (.inr ⟨⟨?_, ?_, ?_⟩, if_neg hc⟩)
      · simp
      · rwa [String.toList_ofList]
      · simpa using hc

theorem isName_sanitizeName (raw : String) : IsName (sanitizeName raw) := by
  obtain ⟨_, h⟩ | ⟨_, h⟩ | ⟨hname, h⟩ := sanitizeName_cases raw
  · rw [h]
    exact ⟨by decide, by decide, by decide⟩
  · rw [h]
    refine ⟨?_, ?_, ?_⟩
    · simp
    · rw [String.toList_append, List.forall_mem_append]
      exact ⟨by decide, isAlphanum_letters raw⟩
    · rw [String.toList_append]
      rintro c ⟨⟩
      rfl
  · rwa [h]

theorem sanitizeName_of_isName {s : String} (h : IsName s) : sanitizeName s = s := by
  have hletters := letters_of_isAlphanum h.alphanumeric
  obtain ⟨hempty, _⟩ | ⟨⟨c, hc, hdigit⟩, _⟩ | ⟨_, heq⟩ := sanitizeName_cases s
  · exact absurd (hletters.symm.trans hempty) h.nonempty
  · rw [hletters] at hc
    rw [h.head c hc] at hdigit
    cases hdigit
  · exact heq.trans hletters

/-- Only a name that begins with `S` can be other than the letters and digits asked for. -/
theorem sanitizeName_eq_iff {raw s : String} (h : IsName s) (hhead : s.toList.head? ≠ some 'S') :
    sanitizeName raw = s ↔ letters raw = s := by
  obtain ⟨hempty, heq⟩ | ⟨⟨c, hc, hdigit⟩, heq⟩ | ⟨_, heq⟩ := sanitizeName_cases raw
  · rw [hempty, heq]
    refine iff_of_false ?_ h.nonempty.symm
    rintro rfl
    exact hhead rfl
  · rw [heq]
    refine iff_of_false ?_ ?_
    · rintro rfl
      exact hhead (by rw [String.toList_append]; rfl)
    · rintro rfl
      rw [h.head c hc] at hdigit
      cases hdigit
  · rw [heq]

/-- The words that nothing can be named by in a module, where code is strict. -/
def reservedWords : List String :=
  ["await", "break", "case", "catch", "class", "const", "continue", "debugger", "default", "delete", "do", "else", "enum",
    "export", "extends", "false", "finally", "for", "function", "if", "implements", "import", "in", "instanceof",
    "interface", "let", "new", "null", "package", "private", "protected", "public", "return", "static", "super", "switch",
    "this", "throw", "true", "try", "typeof", "var", "void", "while", "with", "yield"]

/-- The names that a module imports. -/
def imports (styles memo : Bool) : List String :=
  (if styles then ["styles"] else []) ++ "React" :: if memo then ["memo"] else []

instance (s : String) : Decidable (IsName s) :=
  decidable_of_iff (s ≠ "" ∧ (∀ c ∈ s.toList, c.isAlphanum = true) ∧ ∀ c ∈ s.toList.head?, c.isDigit = false)
    ⟨fun ⟨h, h', h''⟩ => ⟨h, h', h''⟩, fun ⟨h, h', h''⟩ => ⟨h, h', h''⟩⟩

theorem sanitizeName_mem_iff {raw : String} {ws : List String} (hws : ∀ w ∈ ws, IsName w ∧ w.toList.head? ≠ some 'S') :
    sanitizeName raw ∈ ws ↔ letters raw ∈ ws := by
  constructor
  · intro h
    rwa [(sanitizeName_eq_iff (hws _ h).1 (hws _ h).2).mp rfl]
  · intro h
    rwa [(sanitizeName_eq_iff (hws _ h).1 (hws _ h).2).mpr rfl]

theorem sanitizeName_mem_reservedWords {raw : String} :
    sanitizeName raw ∈ reservedWords ↔ letters raw ∈ reservedWords :=
  sanitizeName_mem_iff (by decide)

theorem sanitizeName_mem_imports {raw : String} {styles memo : Bool} :
    sanitizeName raw ∈ imports styles memo ↔ letters raw ∈ imports styles memo := by
  have hwords : ∀ styles memo, ∀ w ∈ imports styles memo, IsName w ∧ w.toList.head? ≠ some 'S' := by decide
  exact sanitizeName_mem_iff (hwords styles memo)

/-! ## What a module binds -/

/-- A character of a name in code. -/
def isWord (c : Char) : Bool := c.isAlphanum || c == '_' || c == '$'

def wordsOf (s : List Char) : List String := ((s.splitOnP (!isWord ·)).filter (!·.isEmpty)).map String.ofList

/-- The keywords in front of the name that a statement declares. -/
def declaring : List String := ["const", "let", "var", "function", "class", "interface", "type", "enum"]

/-- The names that a statement binds which begins with a keyword: an import those before `from`, and a declaration the
    first. -/
def namesBound (keyword : String) (words : List String) : List String :=
  if keyword = "import" then words.takeWhile (· ≠ "from")
  else if keyword ∈ declaring then words.take 1
  else []

def boundBy (line : List Char) : List String :=
  namesBound (String.ofList (line.takeWhile isWord)) (wordsOf (line.dropWhile isWord))

def bound (s : List Char) : List String := (s.splitOn '\n').flatMap boundBy

/-- The names that the statements of a module bind, in order. Each statement begins in column 0 and names what it binds in
    its first line. -/
def topLevelNames (module : String) : List String := bound module.toList

section reading

variable {s w : List Char} {c : Char}

theorem wordsOf_cons (hc : isWord c = false) : wordsOf (c :: s) = wordsOf s := by
  have hsplit : (c :: s).splitOnP (!isWord ·) = [] :: s.splitOnP (!isWord ·) :=
    List.splitOnP_append_cons_of_forall_mem (List.forall_mem_nil _) c (by rw [hc]; rfl) s
  rw [wordsOf, hsplit, List.filter_cons_of_neg (by decide), wordsOf]

theorem wordsOf_append (hw : ∀ c ∈ w, isWord c = true) (hne : w ≠ []) (hc : isWord c = false) :
    wordsOf (w ++ c :: s) = String.ofList w :: wordsOf s := by
  have hsplit : (w ++ c :: s).splitOnP (!isWord ·) = w :: s.splitOnP (!isWord ·) :=
    List.splitOnP_append_cons_of_forall_mem (fun d hd => by rw [hw d hd]; rfl) c (by rw [hc]; rfl) s
  rw [wordsOf, hsplit, List.filter_cons_of_pos (by simpa using hne), List.map_cons, wordsOf]

theorem boundBy_statement (hw : ∀ c ∈ w, isWord c = true) (hc : isWord c = false) :
    boundBy (w ++ c :: s) = namesBound (String.ofList w) (wordsOf s) := by
  have hstop := Text.stops_cons hc s
  rw [boundBy, Text.takeWhile_append_stop hw hstop, Text.dropWhile_append_stop hw hstop, wordsOf_cons hc]

/-- No statement begins in a line that does not begin with a word. -/
theorem boundBy_of_stops (h : Text.Stops isWord s) : boundBy s = [] := by
  have hword : s.takeWhile isWord = [] := Text.takeWhile_append_stop (List.forall_mem_nil _) h
  rw [boundBy, hword]
  rfl

theorem bound_line (h : '\n' ∉ w) : bound w = boundBy w := by
  rw [bound, List.splitOn_eq_singleton h, List.flatMap_singleton]

theorem bound_append : bound (w ++ '\n' :: s) = bound w ++ bound s := by
  rw [bound, List.splitOn_append_cons_self, List.flatMap_append, bound, bound]

theorem bound_newline : bound ('\n' :: s) = bound s := bound_append (w := [])

theorem newline_not_mem_word (hw : ∀ c ∈ w, isWord c = true) : '\n' ∉ w := fun h => by cases hw _ h

/-- A declaration in the first line of a text. -/
theorem bound_declaration {k name : String} {text : List Char} (hk : k ∈ declaring)
    (hname : ∀ c ∈ name.toList, isWord c = true) (hne : name ≠ "") (hc : isWord c = false) (hw : '\n' ∉ c :: w)
    (htext : text = k.toList ++ ' ' :: (name.toList ++ c :: w) ++ '\n' :: s) : bound text = name :: bound s := by
  have hkeywords : ∀ k ∈ declaring, (∀ c ∈ k.toList, isWord c = true) ∧ k ≠ "import" := by decide
  obtain ⟨hword, himport⟩ := hkeywords k hk
  have hline : '\n' ∉ k.toList ++ ' ' :: (name.toList ++ c :: w) := by
    simp only [List.mem_append, List.mem_cons, not_or] at hw ⊢
    exact ⟨newline_not_mem_word hword, by decide, newline_not_mem_word hname, hw⟩
  have hbound : boundBy (k.toList ++ ' ' :: (name.toList ++ c :: w)) = [name] := by
    rw [boundBy_statement hword rfl, wordsOf_append hname (by simpa using hne) hc, String.ofList_toList, String.ofList_toList,
      namesBound, if_neg himport, if_pos hk, List.take_one]
    rfl
  rw [htext, bound_append, bound_line hline, hbound, List.singleton_append]

end reading

theorem IsName.isWord {s : String} (h : IsName s) : ∀ c ∈ s.toList, isWord c = true := by
  intro c hc
  rw [Component.isWord, h.alphanumeric c hc]
  rfl

section template

variable {t : Template} (hname : IsName t.name) (s : List Char)

include hname

theorem bound_stylesImport : bound (t.stylesImport.toList ++ s) = (if t.styles then ["styles"] else []) ++ bound s := by
  unfold Template.stylesImport
  split
  · have hline : ("import styles from \"./" ++ t.name ++ ".module.css\";\n\n").toList ++ s =
        ("import".toList ++ ' ' :: ("styles".toList ++ ' ' :: ("from".toList ++ ' ' :: ("\"./".toList ++ t.name.toList ++
          ".module.css\";".toList)))) ++ '\n' :: '\n' :: s := by
      simp only [String.toList_append]
      -- The characters of the literals first: to decode them takes much longer than the rest.
      repeat rw [String.toList_ofList]
      simp only [List.append_assoc, List.cons_append, List.nil_append]
    rw [hline, bound_append, bound_line, bound_newline, boundBy_statement (by decide) rfl,
      wordsOf_append (by decide) (by decide) rfl, wordsOf_append (by decide) (by decide) rfl]
    · rfl
    · simp [newline_not_mem_word hname.isWord]
  · rfl

omit hname in
theorem bound_reactImport :
    bound (t.reactImport.toList ++ s) = "React" :: (if t.memo then ["memo"] else []) ++ bound s := by
  unfold Template.reactImport
  split
  · have hline : ("import React" ++ ", \x7b memo \x7d" ++ " from \"react\";\n\n").toList ++ s =
        "import React, \x7b memo \x7d from \"react\";".toList ++ '\n' :: '\n' :: s := by
      simp only [String.toList_append]
      repeat rw [String.toList_ofList]
      simp only [List.cons_append, List.nil_append]
    have himport : bound "import React, \x7b memo \x7d from \"react\";".toList = ["React", "memo"] := by
      rw [String.toList_ofList]
      decide
    rw [hline, bound_append, bound_newline, himport]
  · have hline : ("import React" ++ "" ++ " from \"react\";\n\n").toList ++ s =
        "import React from \"react\";".toList ++ '\n' :: '\n' :: s := by
      simp only [String.toList_append]
      repeat rw [String.toList_ofList]
      simp only [List.cons_append, List.nil_append]
    have himport : bound "import React from \"react\";".toList = ["React"] := by
      rw [String.toList_ofList]
      decide
    rw [hline, bound_append, bound_newline, himport]

theorem bound_interface :
    bound ("interface ".toList ++ (t.name.toList ++ ("Props extends React.SVGProps<SVGSVGElement> \x7b\n".toList ++ s))) =
      (t.name ++ "Props") :: bound s := by
  have hprops : ∀ c ∈ (t.name ++ "Props").toList, isWord c = true := by
    rw [String.toList_append, List.forall_mem_append]
    exact ⟨hname.isWord, by decide⟩
  refine bound_declaration (k := "interface") (c := ' ') (w := "extends React.SVGProps<SVGSVGElement> \x7b".toList)
    (by decide) hprops (by simp) rfl (by decide) ?_
  simp only [String.toList_append]
  repeat rw [String.toList_ofList]
  simp only [List.append_assoc, List.cons_append, List.nil_append]

omit hname in
theorem bound_fields : bound ("  className?: string;\n".toList ++ ("  size?: number | string;\n".toList ++
    ("  color?: string;\n".toList ++ ("\x7d\n\n".toList ++ s)))) = bound s := by
  have hfields : bound "  className?: string;\n  size?: number | string;\n  color?: string;\n\x7d".toList = [] := by
    rw [String.toList_ofList]
    decide
  refine Eq.trans (congrArg bound ?_) (bound_append.trans (congrArg₂ _ hfields bound_newline))
  repeat rw [String.toList_ofList]
  simp only [List.cons_append, List.nil_append]

theorem bound_opening :
    bound (t.opening.toList ++ s) = (if t.types then [t.name ++ "Props"] else []) ++ t.name :: bound s := by
  have hnewline := newline_not_mem_word hname.isWord
  unfold Template.opening
  split
  · simp only [String.toList_append, List.append_assoc]
    rw [bound_interface hname, bound_fields, List.singleton_append, List.cons_inj_right]
    refine bound_declaration (k := "const") (c := ':')
      (w := " React.FC<".toList ++ t.name.toList ++ "Props> = (\x7b className, size = 24, color, ...props \x7d) => \x7b".toList)
      (by decide) hname.isWord hname.nonempty rfl (by simp [hnewline]) ?_
    rw [Template.parameters]
    repeat rw [String.toList_ofList]
    simp only [List.append_assoc, List.cons_append, List.nil_append]
  · simp only [String.toList_append, List.append_assoc]
    refine bound_declaration (k := "const") (c := ' ') (w := "= (\x7b className, size = 24, color, ...props \x7d) => \x7b".toList)
      (by decide) hname.isWord hname.nonempty rfl (by decide) ?_
    rw [Template.parameters]
    repeat rw [String.toList_ofList]
    simp only [List.append_assoc, List.cons_append, List.nil_append]

/-- What is exported has its name already. -/
theorem bound_exported : bound t.exported.toList = [] := by
  have hexport : ∀ w text, '\n' ∉ w → text = "export".toList ++ ' ' :: w ++ ['\n'] → bound text = [] := by
    rintro w _ hw rfl
    rw [bound_append, bound_line (by simp [hw]), boundBy_statement (by decide) rfl]
    rfl
  have hnewline := newline_not_mem_word hname.isWord
  unfold Template.exported
  split
  · exact hexport ("default memo(".toList ++ t.name.toList ++ ");".toList) _ (by simp [hnewline]) (by simp)
  · exact hexport ("default ".toList ++ t.name.toList ++ ";".toList) _ (by simp [hnewline]) (by simp)

/-- The template binds what it imports and declares, if nothing in the markup looks like a statement. -/
theorem bound_render (hmarkup : bound t.markup.toList = []) :
    topLevelNames t.render = imports t.styles t.memo ++ (if t.types then [t.name ++ "Props"] else []) ++ [t.name] := by
  have hreturn : ∀ s, bound ("  return (\n".toList ++ s) = bound s := fun s => bound_append (w := "  return (".toList)
  have hend : ∀ s, bound (t.markup.toList ++ ("\n  );\n\x7d;\n\n".toList ++ s)) = bound s := by
    intro s
    have hclosing : bound "  );\n\x7d;\n".toList = [] := by decide
    have htext : "\n  );\n\x7d;\n\n".toList ++ s = '\n' :: ("  );\n\x7d;\n".toList ++ '\n' :: s) := by simp
    rw [htext, bound_append, hmarkup, bound_append, hclosing]
    rfl
  unfold topLevelNames Template.render
  simp only [String.toList_append, List.append_assoc]
  rw [bound_stylesImport hname, bound_reactImport, bound_opening hname, hreturn, hend, bound_exported hname]
  simp [imports]

end template

/-- Lines that are moved to the right begin no statement. -/
theorem bound_indent {width : Nat} (hwidth : 0 < width) (s : List Char) : bound (Jsx.Layout.indent width s) = [] := by
  unfold Jsx.Layout.indent
  generalize hmoved : (Text.lines s).map (fun line => if line.isEmpty then [] else List.replicate width ' ' ++ line) = moved
  have hline : ∀ line ∈ moved, '\n' ∉ line ∧ Text.Stops isWord line := by
    intro line hmem
    rw [← hmoved] at hmem
    obtain ⟨l, hl, rfl⟩ := List.mem_map.mp hmem
    split
    · exact ⟨List.not_mem_nil, Text.stops_nil⟩
    · obtain ⟨n, rfl⟩ := Nat.exists_eq_add_one.mpr hwidth
      refine ⟨?_, ?_⟩
      · rw [List.mem_append, not_or]
        exact ⟨fun hmem => absurd (List.eq_of_mem_replicate hmem) (by decide), Text.newline_not_mem_of_mem_lines hl⟩
      · rw [List.replicate_succ, List.cons_append]
        exact Text.stops_cons rfl _
  by_cases hempty : moved = []
  · rw [hempty]
    rfl
  · rw [bound, List.splitOn_intercalate '\n' (fun line h => (hline line h).1) hempty, List.flatMap_eq_nil_iff]
    exact fun line h => boundBy_of_stops (hline line h).2

/-! ## Components -/

variable {o : Options} {d : Document} {g : Generated}

theorem exists_assemble (h : generate? o d = some g) : ∃ root, g.artifact = assemble o root g.artifact.stylesheet := by
  unfold generate? at h
  split at h
  · cases h
  · split at h
    · obtain ⟨⟨root, sheet⟩, _, rfl⟩ := Option.map_eq_some_iff.mp h
      exact ⟨root, rfl⟩
    · cases h

/-- The names are distinct if the last one is not imported: `Props` at the end sets the others apart. -/
theorem nodup_names (styles memo types : Bool) (name : String) :
    (imports styles memo ++ (if types then [name ++ "Props"] else []) ++ [name]).Nodup ↔ name ∉ imports styles memo := by
  have hprops : ∀ w ∈ imports styles memo, w ≠ name ++ "Props" := by
    rintro w hw rfl
    have hsuffix : ∀ styles memo, ∀ w ∈ imports styles memo, ¬ "Props".toList <:+ w.toList := by decide
    exact hsuffix styles memo _ hw ⟨name.toList, String.toList_append.symm⟩
  have hself : name ++ "Props" ≠ name := by
    intro h
    have := congrArg String.length h
    simp at this
  have himports : (imports styles memo).Nodup := by
    cases styles <;> cases memo <;> decide
  have hlast : name ∉ (if types then [name ++ "Props"] else []) := by
    split
    · simpa using hself.symm
    · exact List.not_mem_nil
  have hbefore : (imports styles memo ++ if types then [name ++ "Props"] else []).Nodup := by
    split
    · exact List.nodup_append.mpr ⟨himports, by simp, by simpa using hprops⟩
    · rwa [List.append_nil]
  rw [List.nodup_append]
  constructor
  · exact fun ⟨_, _, h⟩ hmem => h name (List.mem_append_left _ hmem) name List.mem_cons_self rfl
  · refine fun h => ⟨hbefore, by simp, ?_⟩
    rintro w hw _ (_ | ⟨_, ⟨⟩⟩) rfl
    exact (List.mem_append.mp hw).elim h hlast

/-- A module binds what it imports, the type of the properties, and its component. -/
theorem topLevelNames_generate (h : generate? o d = some g) :
    topLevelNames g.artifact.component = imports g.artifact.stylesheet.isSome o.wrapInMemoization ++
      (if o.emitTypeAnnotations then [o.name ++ "Props"] else []) ++ [o.name] := by
  obtain ⟨root, hg⟩ := exists_assemble h
  have hmarkup : ∀ printed, bound (layOut o printed).toList = [] := by
    intro printed
    rw [layOut, String.toList_ofList]
    exact bound_indent (by decide) _
  rw [congrArg Artifact.component hg]
  exact bound_render (isName_sanitizeName o.componentName) (hmarkup _)

theorem generate_binds (h : generate? o d = some g) :
    let name := sanitizeName o.componentName
    let imported := imports g.artifact.stylesheet.isSome o.wrapInMemoization
    IsName name ∧ sanitizeName name = name ∧ (name ∈ reservedWords ↔ letters o.componentName ∈ reservedWords) ∧
      topLevelNames g.artifact.component =
        imported ++ (if o.emitTypeAnnotations then [name ++ "Props"] else []) ++ [name] ∧
      ((topLevelNames g.artifact.component).Nodup ↔ letters o.componentName ∉ imported) := by
  have hname := isName_sanitizeName o.componentName
  have hnames := topLevelNames_generate h
  refine ⟨hname, sanitizeName_of_isName hname, sanitizeName_mem_reservedWords, hnames, ?_⟩
  rw [hnames, nodup_names]
  exact not_congr sanitizeName_mem_imports

def Options.named (name : String) : Options := { Options.standard with componentName := name }

/-- An image has a component with a stylesheet, whatever its name is. -/
theorem exists_named (name : String) : ∃ d, Document.parse "<svg viewBox='0 0 1 1'><path style='fill: red'/></svg>" = .ok d ∧
    ∃ g ∈ generate? (.named name) d, g.artifact.stylesheet.isSome = true := by
  obtain ⟨d, hd, e, he, hsvg, drawn, hdrawn, hstyles⟩ : ∃ d,
      Document.parse "<svg viewBox='0 0 1 1'><path style='fill: red'/></svg>" = .ok d ∧
        ∃ e ∈ d.rootElement?, e.is "svg" = true ∧
          ∃ drawn ∈ markup? .standard (prepare .standard d).1, drawn.2.toText?.isSome = true := by
    refine Markup.exists_parse String.toList_ofList ?_
    decide +kernel
  refine ⟨d, hd, ⟨assemble (.named name) drawn.1 drawn.2.toText?, (prepare .standard d).2⟩, ?_, hstyles⟩
  have hmarkup : markup? (.named name) (prepare (.named name) d).1 = some drawn := hdrawn
  rw [generate?, he]
  simp only [hsvg, if_true, hmarkup, Option.map_some]
  rfl

/-- A name that begins with a digit, of a component with a stylesheet. -/
theorem generate_binds_prefixed :
    ∃ d, Document.parse "<svg viewBox='0 0 1 1'><path style='fill: red'/></svg>" = .ok d ∧
      ∃ g ∈ generate? (.named "24px icon") d,
        topLevelNames g.artifact.component = ["styles", "React", "memo", "Svg24pxiconProps", "Svg24pxicon"] ∧
          (topLevelNames g.artifact.component).Nodup := by
  obtain ⟨d, hd, g, hg, hstyles⟩ := exists_named "24px icon"
  obtain ⟨_, _, _, hnames, hnodup⟩ := generate_binds hg
  rw [hstyles] at hnames hnodup
  exact ⟨d, hd, g, hg, hnames.trans (by decide), hnodup.mpr (by decide)⟩

/-- A reserved word and an imported name are taken as they are. -/
theorem names_clash :
    ∃ d, Document.parse "<svg viewBox='0 0 1 1'><path style='fill: red'/></svg>" = .ok d ∧
      (∃ g ∈ generate? (.named "class") d,
        topLevelNames g.artifact.component = ["styles", "React", "memo", "classProps", "class"] ∧
          sanitizeName "class" = "class" ∧ "class" ∈ reservedWords) ∧
      ∃ g ∈ generate? (.named "React") d,
        topLevelNames g.artifact.component = ["styles", "React", "memo", "ReactProps", "React"] := by
  obtain ⟨d, hd, g, hg, hstyles⟩ := exists_named "class"
  obtain ⟨d', hd', g', hg', hstyles'⟩ := exists_named "React"
  cases hd.symm.trans hd'
  have hnames := topLevelNames_generate hg
  have hnames' := topLevelNames_generate hg'
  rw [hstyles] at hnames
  rw [hstyles'] at hnames'
  exact ⟨d, hd, ⟨g, hg, hnames.trans (by decide), by decide, by decide⟩, g', hg', hnames'.trans (by decide)⟩

end SvgComponent.Component
