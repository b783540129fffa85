import TestMigration.Proofs.Grammar.Accepts

/-!
# Reading imports

An import of a default name or of names in braces that ends with a semicolon is read as one statement, whatever
stands behind it.
-/

namespace TestMigration

open Scanner

namespace Scanner

variable {rest gaps t u : Text} {w w' : String}

/-! ### Words and operators -/

theorem keyword_accepts (hgaps : gaps.all Lexeme.isGap = true) (hw : isWord w) (hstop : Lexeme.Stops rest) :
    Accepts (keyword w) (gaps ++ w.toList) rest :=
  token_accepts hgaps (.of_isWord hw rest) (word_append hw hstop)

theorem name_accepts (hgaps : gaps.all Lexeme.isGap = true) (hw : isWord w) (hstop : Lexeme.Stops rest) :
    Accepts Grammar.name (gaps ++ w.toList) rest :=
  (lexeme_accepts hgaps (.of_isWord hw rest) (word_append hw hstop)).bind_pure

theorem oneOf_rejects (hgaps : gaps.all Lexeme.isGap = true) (ht : Text.Ready t) {ws : List String}
    (hw : ∀ r ∈ Lexeme.word t, String.ofList r.1 ∉ ws) : Rejects (oneOf ws) (gaps ++ t) := by
  intro s hs
  have hrun : oneOf ws s = ((lexeme Lexeme.word s).bind fun r => some ((String.ofList r.1.1, r.1.2), r.2)).bind
      fun r => ((guard (ws.contains r.1.1) : Scanner Unit) r.2).bind fun u => some (r.1.1, u.2) := rfl
  rw [hrun, lexeme_run hgaps ht hs]
  cases hread : Lexeme.word t with
  | none => rfl
  | some r =>
    rw [Option.map_some, Option.bind_some, Option.bind_some, guard_run, if_neg (by simpa using hw r hread)]
    rfl

theorem word_punctuation {c : Char} (hc : c ∈ Lexeme.punctuation) (hslash : c ≠ '\\') (t : Text) :
    Lexeme.word (c :: t) = none := by
  have hstart : ¬ Lexeme.isWordStart c = true := by simp [Lexeme.isWordStart, Lexeme.isWordPart, hc]
  rw [Lexeme.word, if_neg hstart, Lexeme.unicodeEscape_eq_none hslash]

theorem operator_word (hw : isWord w) (rest : Text) : Lexeme.operator (w.toList ++ rest) = none := by
  have hheads : Lexeme.operators.all (fun op => op.head?.any fun d => Lexeme.punctuation.contains d && d != '\\') =
      true := by decide
  obtain ⟨c, t, ht, hmark, -, -⟩ := exists_head_of_isWord hw
  have hquestion : c ≠ '?' := hmark '?' (by decide) (by decide)
  rw [ht, List.cons_append]
  unfold Lexeme.operator
  split
  · rename_i heq
    exact absurd (List.cons.inj heq).1 hquestion
  · rw [Option.map_eq_none_iff, List.find?_eq_none]
    intro op hop hprefix
    obtain ⟨d, hhead, hd⟩ := (Option.any_eq_true _ _).mp (List.all_eq_true.mp hheads op hop)
    obtain ⟨op, rfl⟩ := List.head?_eq_some_iff.mp hhead
    simp only [Bool.and_eq_true, List.contains_iff_mem, bne_iff_ne] at hd
    exact hmark d hd.1 hd.2 (List.cons_prefix_cons.mp (List.isPrefixOf_iff_prefix.mp hprefix)).1.symm

end Scanner

namespace Grammar

variable {rest gaps : Text} {name : String}

/-- A name that an import can bind without being taken for a word of the grammar. -/
def isImportName (name : String) : Bool := isWord name && !(["type", "typeof"].contains name)

/-- What may follow the name of an import specifier. -/
structure BehindSpecifier (t : Text) : Prop where
  stops : Lexeme.Stops t
  rejects : Rejects (keyword "as") t

theorem behindSpecifier_comma (t : Text) : BehindSpecifier (',' :: t) where
  stops := Lexeme.stops_cons (by decide) (by decide)
  rejects := by
    refine token_rejects Lexeme.all_isGap_nil (.cons (by decide) (by decide) t) ?_
    rw [word_punctuation (by decide) (by decide)]
    exact nofun

theorem behindSpecifier_brace (t : Text) : BehindSpecifier (' ' :: '\x7d' :: t) where
  stops := Lexeme.stops_cons (by decide) (by decide)
  rejects := by
    refine token_rejects Lexeme.all_isGap_blank (.cons (by decide) (by decide) t) ?_
    rw [word_punctuation (by decide) (by decide)]
    exact nofun

theorem importSpecifier_accepts (hname : isImportName name) (hrest : BehindSpecifier rest) :
    Accepts importSpecifier (' ' :: name.toList) rest := by
  obtain ⟨hword, hplain⟩ : isWord name = true ∧ name ∉ ["type", "typeof"] := by
    simpa [isImportName] using hname
  have hread := word_append hword hrest.stops
  have hready := Text.Ready.of_isWord hword rest
  have hnamed : Accepts Grammar.name (' ' :: name.toList) rest := name_accepts Lexeme.all_isGap_blank hword hrest.stops
  refine Accepts.node (Accepts.bind (t := []) (u := ' ' :: name.toList) ?_ fun _ => Rejects.orElse ?_ ?_) _
  · refine Rejects.optional (Rejects.bind ?_)
    refine oneOf_rejects Lexeme.all_isGap_blank hready ?_
    rw [hread]
    rintro r ⟨⟩
    simpa using hplain
  · exact Accepts.bind_rejects hnamed.orElse fun _ => Rejects.bind hrest.rejects
  · exact hnamed.bind_pure

/-- Names in a list, each behind a comma. -/
def listed (names : List String) : List Text := names.map fun name => ',' :: ' ' :: name.toList

theorem commaSeparated_accepts {first : String} {names : List String} (hfirst : isImportName first)
    (hnames : ∀ name ∈ names, isImportName name) (rest : Text) :
    Accepts (commaSeparated importSpecifier) (' ' :: first.toList ++ (listed names).flatten) (' ' :: '\x7d' :: rest) := by
  have hcomma : Rejects (op "," *> optional importSpecifier) (' ' :: '\x7d' :: rest) := by
    refine Rejects.bind (token_rejects Lexeme.all_isGap_blank (.cons (by decide) (by decide) rest) ?_)
    rintro r ⟨⟩
    exact (by decide : ['\x7d'] ≠ ",".toList)
  have hitems := many_accepts hcomma (behindSpecifier_brace rest) (l := listed names) fun t ht => by
    obtain ⟨name, hname, rfl⟩ := List.mem_map.mp ht
    refine ⟨nofun, fun u => ⟨behindSpecifier_comma _, fun hu => ?_⟩⟩
    refine Accepts.bind (t := [',']) ?_ fun _ => (importSpecifier_accepts (hnames name hname) hu).optional
    exact token_accepts Lexeme.all_isGap_nil (.cons (by decide) (by decide) _) rfl
  have hrest := importSpecifier_accepts hfirst hitems.2
  exact Accepts.bind hrest.optional fun _ => hitems.1.bind_pure

def bracedNames (first : String) (names : List String) : Text :=
  '\x7b' :: (' ' :: first.toList ++ (listed names).flatten ++ [' ', '\x7d'])

theorem namedImports_accepts {first : String} {names : List String} (hfirst : isImportName first)
    (hnames : ∀ name ∈ names, isImportName name) (rest : Text) :
    Accepts namedImports (' ' :: bracedNames first names) rest := by
  have hopen (u : Text) : Accepts (op "\x7b") [' ', '\x7b'] u :=
    token_accepts Lexeme.all_isGap_blank (.cons (by decide) (by decide) u) rfl
  have hclose : Accepts (op "\x7d") [' ', '\x7d'] rest :=
    token_accepts Lexeme.all_isGap_blank (.cons (by decide) (by decide) rest) rfl
  have hitems := (commaSeparated_accepts hfirst hnames rest).ending false
  exact Accepts.node (Accepts.bind (hopen _) fun _ => Accepts.bind hitems fun l => hclose.bind_pure) _

/-! ### Import statements -/

/-- What an import binds: a default name or names in braces. -/
inductive ImportClause where
  | default (name : String)
  | named (first : String) (names : List String)

namespace ImportClause

def text : ImportClause → Text
  | default name => name.toList
  | named first names => bracedNames first names

def names : ImportClause → List String
  | default name => [name]
  | named first names => first :: names

theorem namespace_rejects {t : Text} (ht : Text.Ready t) (hstar : ∀ r ∈ Lexeme.operator t, r.1 ≠ ['*']) :
    Rejects namespaceImport (' ' :: t) :=
  Rejects.node (Rejects.bind (token_rejects Lexeme.all_isGap_blank ht hstar)) _

theorem accepts {c : ImportClause} (hc : ∀ name ∈ c.names, isImportName name) (rest : Text)
    (hrest : Lexeme.Stops rest) (hcomma : Rejects (op ",") rest) : Accepts importClause (' ' :: c.text) rest := by
  cases c with
  | default name =>
    have hname := hc name (List.mem_singleton_self name)
    have hword : isWord name = true := (Bool.and_eq_true_iff.mp hname).1
    have hready := Text.Ready.of_isWord hword rest
    have hoperator := operator_word hword rest
    have hbraces : Rejects namedImports (' ' :: (name.toList ++ rest)) := by
      refine Rejects.node (Rejects.bind (token_rejects Lexeme.all_isGap_blank hready ?_)) _
      rw [hoperator]
      exact nofun
    have hnamespace : Rejects namespaceImport (' ' :: (name.toList ++ rest)) := by
      refine namespace_rejects hready ?_
      rw [hoperator]
      exact nofun
    have hread : Accepts Grammar.name (' ' :: name.toList) rest := name_accepts Lexeme.all_isGap_blank hword hrest
    have hmore : Accepts (optional (op "," >>= fun _ => namespaceImport <|> namedImports)) [] rest :=
      (Rejects.bind hcomma).optional
    refine Accepts.node (Rejects.orElse (Rejects.bind (hnamespace.orElse_rejects hbraces)) ?_) _
    have hbound := Accepts.bind (u := []) hread fun n => hmore.bind_pure (f := fun more => n :: more.toList)
    rwa [List.append_nil] at hbound
  | named first names =>
    obtain ⟨hfirst, hnames⟩ := List.forall_mem_cons.mp hc
    have hnamespace : Rejects namespaceImport (' ' :: bracedNames first names ++ rest) := by
      refine namespace_rejects (.cons (by decide) (by decide) _) ?_
      rintro r ⟨⟩
      exact (by decide : ['\x7b'] ≠ ['*'])
    exact Accepts.node (Accepts.orElse (hnamespace.orElse (namedImports_accepts hfirst hnames rest)).bind_pure) _

theorem begins {c : ImportClause} (hc : ∀ name ∈ c.names, isImportName name) (rest : Text)
    (hrest : Lexeme.Stops rest) :
    Text.Ready (c.text ++ rest) ∧ Lexeme.string (c.text ++ rest) = none ∧
      ∀ r ∈ Lexeme.word (c.text ++ rest), String.ofList r.1 ∉ ["type", "typeof"] := by
  cases c with
  | default name =>
    obtain ⟨hword, hplain⟩ : isWord name = true ∧ name ∉ ["type", "typeof"] := by
      simpa [isImportName] using hc name (List.mem_singleton_self name)
    refine ⟨.of_isWord hword rest, ?_, ?_⟩
    · obtain ⟨c, t, ht, hmark, -⟩ := exists_head_of_isWord hword
      have hquote : ¬ (c == '\'' || c == '"') = true := by
        simpa using And.intro (hmark '\'' (by decide) (by decide)) (hmark '"' (by decide) (by decide))
      rw [text, ht, List.cons_append, Lexeme.string, if_neg hquote]
    · rw [text, word_append hword hrest]
      rintro r ⟨⟩
      rwa [String.ofList_toList]
  | named first names =>
    refine ⟨.cons (by decide) (by decide) _, rfl, ?_⟩
    rw [text, bracedNames, List.cons_append, word_punctuation (by decide) (by decide)]
    rintro r ⟨⟩

end ImportClause

/-- A text that is read as a string, whatever stands behind it. -/
structure Quoted (t : Text) : Prop where
  ready : ∀ rest, Text.Ready (t ++ rest)
  string : ∀ rest, Lexeme.string (t ++ rest) = some (t, rest)

theorem semicolon_accepts (inExpression : Bool) (rest : Text) : Accepts (semicolon inExpression) [';'] rest := by
  have hend : Rejects (lineEnd inExpression) (';' :: rest) := by
    intro s hs
    have hcomment : s.comment? = none := by
      have hgaps : s.skipGaps.rest = ';' :: rest := by
        unfold Scan.skipGaps
        rw [hs]
        rfl
      unfold Scan.comment?
      dsimp only
      rw [hgaps]
      rfl
    have hhere : Scan.endsHere inExpression s.rest = false := by
      rw [hs]
      rfl
    unfold lineEnd Scan.statementEnd? Scan.endGo
    rw [hhere, hcomment]
    rfl
  exact Rejects.orElse hend (token_accepts Lexeme.all_isGap_nil (.cons (by decide) (by decide) rest) rfl)

/-- The end of an import. -/
def fromText (quoted : Text) : Text := " from".toList ++ (' ' :: quoted)

def importText (c : ImportClause) (quoted : Text) : Text :=
  "import".toList ++ ((' ' :: c.text ++ fromText quoted) ++ [';'])

section
variable {c : ImportClause} {quoted : Text}

theorem fromModule_accepts (hquoted : Quoted quoted) (rest : Text) : Accepts fromModule (fromText quoted) rest := by
  have hfrom : Accepts (keyword "from") (" from".toList) (' ' :: quoted ++ rest) :=
    keyword_accepts (w := "from") Lexeme.all_isGap_blank (by decide) (Lexeme.stops_cons (by decide) (by decide))
  have hstring : Accepts stringLiteral (' ' :: quoted) rest :=
    (lexeme_accepts Lexeme.all_isGap_blank (hquoted.ready rest) (hquoted.string rest)).bind_pure
  exact Accepts.bind hfrom fun _ => hstring.bind_pure

theorem required_rejects (hc : ∀ name ∈ c.names, isImportName name) (rest : Text) :
    Rejects importStatement.required (' ' :: c.text ++ (" from".toList ++ rest)) := by
  refine Rejects.bind (Rejects.node ?_ _)
  cases c with
  | default name =>
    have hword : isWord name = true := (Bool.and_eq_true_iff.mp (hc name (List.mem_singleton_self name))).1
    have hread : Accepts Grammar.name (' ' :: name.toList) (" from".toList ++ rest) :=
      name_accepts Lexeme.all_isGap_blank hword (Lexeme.stops_cons (by decide) (by decide))
    have hassign : Rejects (op "=") ([' '] ++ ("from".toList ++ rest)) :=
      token_rejects Lexeme.all_isGap_blank (.cons (by decide) (by decide) _) nofun
    exact Accepts.bind_rejects hread fun _ => Rejects.bind hassign
  | named first names =>
    have hword : Rejects (lexeme Lexeme.word) ([' '] ++ (bracedNames first names ++ (" from".toList ++ rest))) :=
      lexeme_rejects Lexeme.all_isGap_blank (.cons (by decide) (by decide) _)
        (word_punctuation (by decide) (by decide) _)
    exact Rejects.bind (Rejects.bind hword)

theorem bound_accepts (hc : ∀ name ∈ c.names, isImportName name) (hquoted : Quoted quoted) (rest : Text) :
    Accepts importStatement.bound (' ' :: c.text ++ fromText quoted) rest := by
  have hrequired := required_rejects hc (' ' :: quoted ++ rest)
  have hcomma : Rejects (op ",") ([' '] ++ ("from".toList ++ (' ' :: quoted ++ rest))) :=
    token_rejects Lexeme.all_isGap_blank (.cons (by decide) (by decide) _) nofun
  have hclause := ImportClause.accepts hc (fromText quoted ++ rest)
    (Lexeme.stops_cons (by decide) (by decide)) hcomma
  refine Rejects.orElse ?_ (Accepts.bind hclause fun _ => (fromModule_accepts hquoted rest).bind_pure)
  rwa [fromText, List.append_assoc, List.append_assoc]

theorem importStatement_accepts (g : Rules) (hc : ∀ name ∈ c.names, isImportName name) (hquoted : Quoted quoted)
    (hgaps : gaps.all Lexeme.isGap = true) (rest : Text) :
    Accepts (importStatement g) (gaps ++ importText c quoted) rest := by
  have himport : Accepts (keyword "import") (gaps ++ "import".toList)
      ((' ' :: c.text ++ fromText quoted) ++ ([] ++ [';']) ++ rest) :=
    keyword_accepts hgaps (by decide) (Lexeme.stops_cons (by decide) (by decide))
  have hattributes : Accepts (optional (importAttributes g)) [] ([';'] ++ rest) := by
    refine Rejects.optional (Rejects.node (Rejects.bind ?_) _)
    refine oneOf_rejects Lexeme.all_isGap_nil (.cons (by decide) (by decide) rest) ?_
    rw [word_punctuation (by decide) (by decide)]
    exact nofun
  have hparts : Accepts (importStatement.bare <|> importStatement.typed <|> importStatement.bound)
      (' ' :: c.text ++ fromText quoted) ([] ++ [';'] ++ rest) := by
    obtain ⟨hready, hstring, htype⟩ :=
      c.begins hc (fromText quoted ++ ([] ++ [';'] ++ rest)) (Lexeme.stops_cons (by decide) (by decide))
    rw [← List.append_assoc] at hready hstring htype
    have hbare : Rejects importStatement.bare (' ' :: (c.text ++ fromText quoted ++ ([] ++ [';'] ++ rest))) :=
      Rejects.bind (Rejects.bind (lexeme_rejects Lexeme.all_isGap_blank hready hstring))
    have htyped : Rejects importStatement.typed (' ' :: (c.text ++ fromText quoted ++ ([] ++ [';'] ++ rest))) :=
      Rejects.bind (oneOf_rejects Lexeme.all_isGap_blank hready htype)
    exact hbare.orElse (htyped.orElse (bound_accepts hc hquoted _))
  have hend : Accepts (semicolon false) [';'] rest := semicolon_accepts false rest
  have hread := Accepts.bind himport fun _ => Accepts.bind hparts fun parts => Accepts.bind hattributes fun attrs =>
    hend.bind_pure (f := fun _ => parts ++ attrs.toList)
  rw [List.append_assoc] at hread
  exact Accepts.node hread _

/-- An import is one statement. -/
theorem statement_accepts (g : Rules) (hc : ∀ name ∈ c.names, isImportName name) (hquoted : Quoted quoted)
    (hgaps : gaps.all Lexeme.isGap = true) (rest : Text) :
    Accepts (statement g) (gaps ++ importText c quoted) rest := by
  intro s hs
  have hread := (importStatement_accepts g hc hquoted hgaps rest).orElse (q := importAlias <|> expressionStatement g)
  obtain ⟨t, ht⟩ : ∃ t, importText c quoted ++ rest = "import".toList ++ (' ' :: t) := ⟨_, rfl⟩
  have hskip : s.skip.rest = "import".toList ++ (' ' :: t) := by
    have hready : Text.Ready ("import".toList ++ (' ' :: t)) := .of_isWord (by decide) _
    rw [Scan.skip_of_ready hgaps hready (by rw [hs, List.append_assoc, ht])]
    rfl
  have hchar : peekChar s = some (some 'i', s) := by
    have hrun : peekChar s = some (s.skip.rest.head?, s) := rfl
    rw [hrun, hskip]
    rfl
  have hword : peekWord s = some ("import", s) := by
    rw [peekWord_run, hskip, word_append (by decide) (Lexeme.stops_cons (by decide) (by decide))]
    rfl
  have hrun : statement g s = (importStatement g <|> importAlias <|> expressionStatement g) s := by
    unfold statement
    simp only [bind, StateT.bind, hchar, Option.bind_some]
    change StateT.bind peekWord _ s = _
    rw [StateT.bind, hword]
    rfl
  rw [hrun]
  exact hread s hs

end

end Grammar

end TestMigration
