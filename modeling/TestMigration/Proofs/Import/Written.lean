import TestMigration.Proofs.Edit.Front
import TestMigration.Proofs.Grammar.Imports
import TestMigration.Proofs.Grammar.InFront
import TestMigration.Proofs.Run.Introduced

/-!
# New declarations as the grammar reads them

With semicolons, the imports that a planner writes are read one behind the other, whatever follows.

Main statements: `ImportPlanner.declare_imports` and `ImportPlanner.insertion_eq`.
-/

namespace TestMigration

/-! ### Imports and blanks -/

namespace Grammar

/-- Imports with blanks around them. -/
inductive Imports : Text → Prop where
  | blanks {gaps : Text} (hgaps : gaps.all Lexeme.isGap = true) : Imports gaps
  | cons {gaps quoted t : Text} {c : ImportClause} (hgaps : gaps.all Lexeme.isGap = true)
    (hc : ∀ name ∈ c.names, isImportName name) (hquoted : Quoted quoted) (ht : Imports t) :
    Imports (gaps ++ importText c quoted ++ t)

namespace Imports

variable {t u gaps : Text}

theorem blanks_append (hgaps : gaps.all Lexeme.isGap = true) (h : Imports t) : Imports (gaps ++ t) := by
  cases h with
  | blanks h => exact .blanks (by rw [List.all_append, hgaps, h]; rfl)
  | @cons gaps' quoted t c h hc hquoted ht =>
    rw [← List.append_assoc, ← List.append_assoc]
    exact .cons (by rw [List.all_append, hgaps, h]; rfl) hc hquoted ht

theorem append (h : Imports t) (h' : Imports u) : Imports (t ++ u) := by
  induction h with
  | blanks hgaps => exact h'.blanks_append hgaps
  | @cons gaps quoted t c hgaps hc hquoted ht ih =>
    rw [List.append_assoc]
    exact .cons hgaps hc hquoted ih

theorem lines {l : List String} (h : ∀ s ∈ l, Imports s.toList) : Imports (String.intercalate "\n" l).toList := by
  induction l with
  | nil => exact .blanks rfl
  | cons first rest ih =>
    obtain ⟨hfirst, hrest⟩ := List.forall_mem_cons.mp h
    cases rest with
    | nil => rwa [String.intercalate_singleton]
    | cons second rest =>
      rw [String.intercalate_cons_cons, String.toList_append, String.toList_append]
      exact (hfirst.append (.blanks (by decide))).append (ih hrest)

theorem head_ne (h : Imports t) : ∀ c ∈ t.head?, c ≠ '#' := by
  have hgap {gaps rest : Text} (hgaps : gaps.all Lexeme.isGap = true) (hrest : ∀ c ∈ rest.head?, c ≠ '#') :
      ∀ c ∈ (gaps ++ rest).head?, c ≠ '#' := by
    cases gaps with
    | nil => exact hrest
    | cons d gaps =>
      rintro c hc rfl
      obtain rfl : d = '#' := by simpa using hc
      exact absurd (List.all_eq_true.mp hgaps _ List.mem_cons_self) (by decide)
  cases h with
  | blanks hgaps => simpa using hgap hgaps (show ∀ c ∈ ([] : Text).head?, c ≠ '#' from nofun)
  | cons hgaps hc hquoted ht =>
    rw [List.append_assoc]
    refine hgap hgaps ?_
    rintro c ⟨⟩
    decide

/-- The statements of imports, and the blanks behind them. -/
theorem exists_statements (h : Imports t) : ∃ (ts : List Text) (gaps : Text), t = ts.flatten ++ gaps ∧
    gaps.all Lexeme.isGap = true ∧ ∀ t ∈ ts, ∀ (g : Rules) (rest : Text), Scanner.Accepts (statement g) t rest := by
  induction h with
  | @blanks gaps hgaps => exact ⟨[], gaps, rfl, hgaps, nofun⟩
  | @cons gaps quoted t c hgaps hc hquoted ht ih =>
    obtain ⟨ts, behind, rfl, hbehind, hts⟩ := ih
    refine ⟨(gaps ++ importText c quoted) :: ts, behind, by simp only [List.flatten_cons, List.append_assoc], hbehind, ?_⟩
    exact List.forall_mem_cons.mpr ⟨fun g rest => statement_accepts g hc hquoted hgaps rest, hts⟩

end Imports

/-! ### Strings without escapes -/

/-- The text can stand between quotes as it is. -/
def isUnescaped (t : Text) : Bool := t.all fun c => isPlain c && c != '\n' && c != '\r'

theorem closed_of_isUnescaped {t : Text} (h : isUnescaped t = true) : Lexeme.Closed t := by
  induction t with
  | nil => exact .nil
  | cons c t ih =>
    obtain ⟨hc, ht⟩ : (isPlain c = true ∧ c ≠ '\n' ∧ c ≠ '\r') ∧ isUnescaped t = true := by
      simpa [isUnescaped, and_assoc] using h
    obtain ⟨hplain, hnl, hcr⟩ := hc
    refine .char ?_ hnl hcr (ih ht)
    rintro rfl
    cases hplain

theorem quoted_of_isUnescaped {quote : Char} (hq : quote = '\'' ∨ quote = '"') {t : Text} (h : isUnescaped t = true) :
    Quoted (quote :: (t ++ [quote])) where
  ready rest := by
    rcases hq with rfl | rfl <;> exact .cons (by decide) (by decide) _
  string rest := by
    have hplain : t.all isPlain = true :=
      List.all_eq_true.mpr fun c hc => by
        have hc := List.all_eq_true.mp h c hc
        simp only [Bool.and_eq_true] at hc
        exact hc.1.1
    have hescape : escapeQuote quote false t = t := by
      simpa [escapeQuote] using escapeQuote_append_plain hq hplain []
    have hclosed : Lexeme.Closed (String.ofList t).toList := by
      rw [String.toList_ofList]
      exact closed_of_isUnescaped h
    have hread := (string_quoteLiteral_iff hq).mpr hclosed rest
    rwa [quoteLiteral, String.toList_ofList, String.toList_ofList, hescape] at hread

theorem toList_intercalate_comma (first : String) (names : List String) :
    (String.intercalate ", " (first :: names)).toList = first.toList ++ (listed names).flatten := by
  induction names generalizing first with
  | nil => simp [listed]
  | cons second rest ih =>
    rw [String.intercalate_cons_cons, String.toList_append, String.toList_append, ih, List.append_assoc]
    rfl

end Grammar

/-! ### Declarations -/

open Grammar

namespace ImportPlanner

variable {p : ImportPlanner} {specifier : String} {need : Need}

/-- The planner writes imports that end with semicolons. -/
structure WritesImports (p : ImportPlanner) : Prop where
  dialect : p.dialect = .esm
  semicolons : p.style.semicolons = true
  quote : p.style.quote = '\'' ∨ p.style.quote = '"'

/-- The string that a specifier is written as. -/
def quoted (p : ImportPlanner) (specifier : String) : Text :=
  p.style.quote :: (specifier.toList ++ [p.style.quote])

theorem declare_imports (hp : p.WritesImports) (hspecifier : isUnescaped specifier.toList = true)
    (hnames : ∀ name ∈ need.locals, isImportName name = true) : Grammar.Imports (p.declare specifier need).toList := by
  have hquoted : Quoted (p.quoted specifier) := quoted_of_isUnescaped hp.quote hspecifier
  have hline (bound : String) (c : ImportClause) (hbound : bound.toList = c.text)
      (hc : ∀ name ∈ c.names, isImportName name = true) : Grammar.Imports ("import " ++ bound ++ " from " ++
        (p.style.quoteText ++ specifier ++ p.style.quoteText) ++ p.style.terminator).toList := by
    have htext : ("import " ++ bound ++ " from " ++ (p.style.quoteText ++ specifier ++ p.style.quoteText) ++
        p.style.terminator).toList = [] ++ importText c (p.quoted specifier) ++ [] := by
      simp [String.toList_append, hbound, importText, fromText, quoted, Style.quoteText, Style.terminator,
        hp.semicolons]
    rw [htext]
    exact .cons rfl hc hquoted (.blanks rfl)
  obtain ⟨hdefault, hnamed⟩ := List.forall_mem_append.mp hnames
  unfold declare
  rw [hp.dialect]
  refine Grammar.Imports.lines (List.forall_mem_append.mpr ⟨?_, ?_⟩)
  · intro s hs
    obtain ⟨name, hname, rfl⟩ := Option.map_eq_some_iff.mp (Option.mem_toList.mp hs)
    refine hline name (.default name) rfl fun n hn => ?_
    obtain rfl := List.mem_singleton.mp hn
    exact hdefault n (Option.mem_toList.mpr hname)
  · cases hneed : need.named with
    | nil =>
      intro s hs
      cases hs
    | cons first names =>
      rw [hneed] at hnamed
      refine List.forall_mem_singleton.mpr (hline _ (.named first names) ?_ hnamed)
      rw [String.toList_append, String.toList_append, toList_intercalate_comma]
      simp [ImportClause.text, bracedNames]

/-! ### Where they are written -/

/-- Where new declarations are added. -/
def place (p : ImportPlanner) (source : Text) : Nat := (p.insertion source []).span.start

/-- Without a directive, new declarations are added at the beginning of a line, with blanks around them. -/
theorem insertion_eq {source : Text} (hscan : p.scan.Placed source) (hdirective : p.scan.directive = none) :
    (source.Boundary (p.place source) ∧ (source.takeBytes (p.place source)).lastLine = []) ∧
    ∃ before behind : String, before.toList.all Lexeme.isGap = true ∧ behind.toList.all Lexeme.isGap = true ∧
      ∀ declarations, p.insertion source declarations =
        .insert (p.place source) (before ++ String.intercalate "\n" declarations ++ behind) "import" := by
  have hmargin : ∀ c, isMargin c = true → Lexeme.isGap c = true := by
    intro c hc
    have hc : c = ' ' ∨ c = '\t' := by simpa [isMargin] using hc
    rcases hc with rfl | rfl <;> decide
  cases hfirst : p.scan.declarations.head? with
  | some first =>
    have hplace : p.place source = source.lineStart first.statement.span.start := by
      simp [place, insertion, hfirst, Edit.insert]
    have hboundary := (hscan.declarations first (List.mem_of_head? hfirst)).statement.start.lineStart
    refine ⟨⟨hplace ▸ hboundary, hplace ▸ Text.lastLine_takeBytes_lineStart ..⟩,
      source.lineIndent (p.place source), "\n", ?_, by decide, fun declarations => ?_⟩
    · rw [Text.lineIndent, String.toList_ofList]
      exact List.all_eq_true.mpr fun c hc => hmargin c (List.mem_takeWhile_imp hc)
    · rw [hplace]
      simp [insertion, hfirst]
  | none =>
    refine ⟨?_, "", "\n\n", rfl, by decide, fun declarations => ?_⟩
    · cases hstatement : p.scan.firstStatement with
      | none =>
        have hplace : p.place source = 0 := by simp [place, insertion, hfirst, hdirective, hstatement, Edit.insert]
        rw [hplace]
        exact ⟨Text.Boundary.zero source, by rw [Text.takeBytes_zero]; rfl⟩
      | some s =>
        have hplace : p.place source = source.lineStart s.span.start := by
          simp [place, insertion, hfirst, hdirective, hstatement, Edit.insert]
        rw [hplace]
        exact ⟨(hscan.firstStatement s hstatement).start.lineStart, Text.lastLine_takeBytes_lineStart ..⟩
    · simp [place, insertion, hfirst, hdirective, Edit.insert]

end ImportPlanner

/-! ### Specifiers and names -/

/-- The specifiers of the target modules can stand between quotes as they are. -/
def Targets.Unescaped (t : Targets) : Prop := ∀ kind, isUnescaped (t.specifier kind).toList = true

theorem isUnescaped_append (t u : Text) : isUnescaped (t ++ u) = (isUnescaped t && isUnescaped u) := List.all_append

theorem isUnescaped_logicalModule (specifier : String) :
    isUnescaped (logicalModule specifier).toList = isUnescaped specifier.toList := by
  have hhead (t : Text) : isUnescaped (dropHead "node:" t) = isUnescaped t := by
    unfold dropHead
    split
    · rename_i h
      obtain ⟨rest, rfl⟩ := List.isPrefixOf_iff_prefix.mp h
      rw [List.drop_left, isUnescaped_append]
      rfl
    · rfl
  have htail (t : Text) : isUnescaped (dropTail "/strict" t) = isUnescaped t := by
    unfold dropTail
    split
    · rename_i h
      obtain ⟨front, rfl⟩ := List.isSuffixOf_iff_suffix.mp h
      rw [List.length_append, Nat.add_sub_cancel, List.take_left, isUnescaped_append]
      exact (Bool.and_true _).symm
    · rfl
  rw [logicalModule, String.toList_ofList, htail, hhead]

namespace ImportPlanner

variable {p : ImportPlanner} {request : ImportRequest}

theorem specifier_of_mem_needs {x : String × Need} (h : x ∈ p.needs request) : ∃ kind, x.1 = p.targets.specifier kind := by
  have hadd (specifier : String) (need : Need) (l : List (String × Need)) {x : String × Need}
      (hx : x ∈ addNeed specifier need l) : x.1 = specifier ∨ ∃ y ∈ l, x.1 = y.1 := by
    induction l with
    | nil => exact .inl (congrArg Prod.fst (List.mem_singleton.mp hx))
    | cons first rest ih =>
      rw [addNeed] at hx
      split at hx
      · rcases List.mem_cons.mp hx with rfl | hx
        · exact .inr ⟨first, List.mem_cons_self, rfl⟩
        · exact .inr ⟨x, List.mem_cons_of_mem _ hx, rfl⟩
      · rcases List.mem_cons.mp hx with rfl | hx
        · exact .inr ⟨_, List.mem_cons_self, rfl⟩
        · rcases ih hx with heq | ⟨y, hy, heq⟩
          · exact .inl heq
          · exact .inr ⟨y, List.mem_cons_of_mem _ hy, heq⟩
  have hfold (kinds : List ModuleKind) (l : List (String × Need))
      (hl : ∀ y ∈ l, ∃ kind, y.1 = p.targets.specifier kind) :
      ∀ x ∈ kinds.foldl (fun l kind => addNeed (p.targets.specifier kind) (p.demand request kind) l) l,
        ∃ kind, x.1 = p.targets.specifier kind := by
    induction kinds generalizing l with
    | nil => exact hl
    | cons kind rest ih =>
      refine ih _ fun y hy => ?_
      rcases hadd _ _ l hy with heq | ⟨z, hz, heq⟩
      · exact ⟨kind, heq⟩
      · rw [heq]
        exact hl z hz
  exact hfold _ [] (List.forall_mem_nil _) x h

/-- What has to be declared anew, each need with its specifier. -/
def unmet (p : ImportPlanner) (request : ImportRequest) : List (String × Need) :=
  (p.needs request).filterMap fun x => (p.additionsFor x.1 x.2).2

/-- What is added to the declarations that the file has. -/
def extensions (p : ImportPlanner) (request : ImportRequest) : List Addition :=
  (p.needs request).flatMap fun x => (p.additionsFor x.1 x.2).1

theorem additions_eq (p : ImportPlanner) (request : ImportRequest) :
    p.additions request = p.extensions request ++ additions.declared (p.unmet request) := by
  unfold additions extensions unmet
  dsimp only
  rw [List.flatMap_map, List.filterMap_map]
  rfl

theorem mem_introduced_of_mem_unmet {x : String × Need} (h : x ∈ p.unmet request) :
    ∀ name ∈ x.2.locals, name ∈ p.introduced request := by
  intro name hname
  rw [introduced, additions_eq, List.flatMap_append]
  refine List.mem_append_right _ ?_
  cases hunmet : p.unmet request with
  | nil =>
    rw [hunmet] at h
    cases h
  | cons first rest =>
    rw [hunmet] at h
    exact List.mem_flatMap.mpr ⟨_, List.mem_singleton_self _, List.mem_flatMap.mpr ⟨x, h, hname⟩⟩

/-- New declarations name their modules without escapes. -/
theorem isUnescaped_of_mem_unmet (htargets : p.targets.Unescaped) {x : String × Need} (h : x ∈ p.unmet request) :
    isUnescaped x.1.toList = true := by
  obtain ⟨⟨specifier, need⟩, hneed, hx⟩ := List.mem_filterMap.mp h
  obtain ⟨kind, hkind⟩ := specifier_of_mem_needs hneed
  obtain rfl : specifier = p.targets.specifier kind := hkind
  unfold additionsFor at hx
  split at hx
  · rename_i d hd
    dsimp only at hx
    split at hx
    · cases hx
    · cases hx
      have hlogical : d.logical = logicalModule (p.targets.specifier kind) := by
        simpa using List.find?_some hd
      rw [← isUnescaped_logicalModule, ← Declaration.logical, hlogical, isUnescaped_logicalModule]
      exact htargets kind
  · cases hx
    exact htargets kind

/-- New declarations bind names that an import can bind. -/
theorem isImportName_of_mem_unmet (hnames : p.names = p.scan.names p.targets)
    (htest : ∀ name ∈ request.testNames, name ∈ Registration.importedNames) {x : String × Need}
    (h : x ∈ p.unmet request) : ∀ name ∈ x.2.locals, isImportName name = true := by
  intro name hname
  cases (mem_introduced_iff_lacks hnames).mp (mem_introduced_of_mem_unmet h name hname) with
  | registration _ hregistration _ =>
    exact (by decide : ∀ n ∈ Registration.importedNames, isImportName n = true) name (htest name hregistration)
  | assert | nodeAssert | mock | util => decide

end ImportPlanner

end TestMigration
