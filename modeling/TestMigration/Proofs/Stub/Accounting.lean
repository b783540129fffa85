import Mathlib.Data.List.Nodup
import TestMigration.Grammar.Source
import TestMigration.Proofs.Mock.Configuring
import TestMigration.Proofs.Stub.Gathering

/-!
# What becomes of the chains of a stub

A stub is given up with one warning, or its chains become one function: the chain that makes the stub, or the
first one that configures it, is replaced by a call that installs the function, and the statements of the others
are deleted. No chain is lost and none counts twice, since each has a condition of its own.

Main statement: `Plans.outcome_accounts`.
-/

namespace TestMigration

variable {ctx : Context}

/-! ### Chains without an obstacle -/

theorem Entry.free_of_taken?_eq_none {source : Text} {others : List Entry} {e : Entry}
    (h : e.taken? source others = none) :
    e.conditionText source ∉ others.map (·.conditionText source) := by
  unfold Entry.taken? at h
  split at h
  · cases hcond : e.conditionText source <;> simp [hcond] at h
  · rename_i hfree
    simpa using hfree

/-- A chain without an obstacle can be read, has a condition of its own, and has its place. -/
theorem StubConfig.of_obstacle?_eq_none {before : List StubConfig} {c : StubConfig}
    (h : c.obstacle? ctx before = none) :
    Entry.parse ctx c.tail = .ok (c.parsed? ctx) ∧
    (∀ e ∈ c.parsed? ctx,
      e.conditionText ctx.source ∉ (entriesOf ctx before).map (·.conditionText ctx.source)) ∧
    c.misplaced? before = none := by
  unfold obstacle? at h
  cases hparse : Entry.parse ctx c.tail with
  | error reason => simp [hparse] at h
  | ok entry =>
    have hparsed : c.parsed? ctx = entry := by simp [parsed?, hparse]
    obtain ⟨hfree, hplace⟩ : entry.bind (Entry.taken? ctx.source (entriesOf ctx before)) = none ∧
        c.misplaced? before = none := by
      simpa [hparse] using h
    refine ⟨by rw [hparsed], fun e he => ?_, hplace⟩
    obtain rfl : entry = some e := hparsed ▸ he
    exact Entry.free_of_taken?_eq_none hfree

theorem firstObstacle?_cons_eq_none {before rest : List StubConfig} {c : StubConfig} :
    firstObstacle? ctx before (c :: rest) = none ↔
      c.obstacle? ctx before = none ∧ firstObstacle? ctx (before ++ [c]) rest = none := by
  rw [firstObstacle?]
  cases c.obstacle? ctx before <;> simp

section
variable {before chains : List StubConfig}

theorem parse_of_unobstructed (h : firstObstacle? ctx before chains = none) :
    ∀ c ∈ chains, Entry.parse ctx c.tail = .ok (c.parsed? ctx) := by
  induction chains generalizing before with
  | nil => simp
  | cons c rest ih =>
    obtain ⟨hc, hrest⟩ := firstObstacle?_cons_eq_none.mp h
    exact List.forall_mem_cons.mpr ⟨(StubConfig.of_obstacle?_eq_none hc).1, ih hrest⟩

theorem unconditional_of_unobstructed (h : firstObstacle? ctx before chains = none) :
    ∀ c ∈ contributing chains, c.root.isUnconditional = true := by
  induction chains generalizing before with
  | nil => simp [contributing]
  | cons c rest ih =>
    obtain ⟨hc, hrest⟩ := firstObstacle?_cons_eq_none.mp h
    have hplace := (StubConfig.of_obstacle?_eq_none hc).2.2
    rw [contributing, List.filter_cons]
    split
    · rename_i hlater
      refine List.forall_mem_cons.mpr ⟨?_, ih hrest⟩
      simpa [StubConfig.misplaced?, (by simpa using hlater : c.isCreation = false)] using hplace
    · exact ih hrest

theorem conditions_of_unobstructed (h : firstObstacle? ctx before chains = none)
    (hbefore : ((entriesOf ctx before).map (·.conditionText ctx.source)).Nodup) :
    ((entriesOf ctx (before ++ chains)).map (·.conditionText ctx.source)).Nodup := by
  induction chains generalizing before with
  | nil => simpa using hbefore
  | cons c rest ih =>
    obtain ⟨hc, hrest⟩ := firstObstacle?_cons_eq_none.mp h
    have hfree := (StubConfig.of_obstacle?_eq_none hc).2.1
    rw [List.append_cons]
    refine ih hrest ?_
    rw [Plan.entriesOf_snoc, List.map_append]
    cases he : c.parsed? ctx with
    | none => simpa using hbefore
    | some e =>
      refine List.nodup_append.mpr ⟨hbefore, by simp, ?_⟩
      rintro a ha b hb rfl
      obtain rfl : a = e.conditionText ctx.source := by simpa using hb
      exact hfree e he ha

end

/-! ### Chains as they are found -/

theorem Entry.ofSteps_ok {withArgs : Option Step} {apply : Step} {entry : Option Entry}
    (h : Entry.ofSteps ctx withArgs apply = .ok entry) : entry.isSome = true := by
  unfold Entry.ofSteps at h
  split at h
  · cases h
  · split at h
    · cases h
      rfl
    · cases hmatchers : Matcher.parseAll ctx ((withArgs.map Step.args).getD []) with
      | error reason =>
        rw [hmatchers] at h
        cases h
      | ok matchers =>
        rw [hmatchers] at h
        cases h
        rfl

theorem Entry.parse_ok {steps : List Step} (hsteps : steps ≠ []) {entry : Option Entry}
    (h : Entry.parse ctx steps = .ok entry) : entry.isSome = true := by
  unfold Entry.parse Entry.parse.unrecognized at h
  split at h
  · exact absurd rfl hsteps
  · split at h
    · cases h
    · exact Entry.ofSteps_ok h
  · split at h
    · exact Entry.ofSteps_ok h
    · cases h
  · cases h

/-- The chain was noted down at some site of the file. -/
def StubConfig.Found (ctx : Context) (c : StubConfig) : Prop :=
  ∃ site, Mock.stubConfiguration ctx (Chain.walk ctx.source site) = some (.configure c)

/-- What is noted down at some sites, in their order. -/
def StubConfig.foundAt (ctx : Context) (sites : List Site) : List StubConfig :=
  sites.filterMap fun site =>
    match Mock.stubConfiguration ctx (Chain.walk ctx.source site) with
    | some (.configure c) => some c
    | _ => none

theorem StubConfig.mem_foundAt {sites : List Site} {c : StubConfig} : c ∈ StubConfig.foundAt ctx sites ↔
    ∃ site ∈ sites, Mock.stubConfiguration ctx (Chain.walk ctx.source site) = some (.configure c) := by
  unfold StubConfig.foundAt
  rw [List.mem_filterMap]
  refine exists_congr fun site => and_congr_right fun _ => ?_
  constructor
  · intro h
    split at h
    · rename_i c' hc'
      cases h
      exact hc'
    · cases h
  · intro h
    rw [h]

theorem StubConfig.found_of_mem_foundAt {sites : List Site} {c : StubConfig}
    (h : c ∈ StubConfig.foundAt ctx sites) : c.Found ctx := by
  obtain ⟨site, -, hsite⟩ := StubConfig.mem_foundAt.mp h
  exact ⟨site, hsite⟩

/-- A chain that configures a stub that was made before knows its variable, and all of its steps configure. -/
theorem StubConfig.Found.later {c : StubConfig} (h : c.Found ctx) (hlater : c.isCreation = false) :
    c.binding.isSome = true ∧ c.tail ≠ [] ∧ c.tail = (Chain.walk ctx.source c.root).steps := by
  obtain ⟨site, hsite⟩ := h
  cases Mock.stubConfiguration_cases hsite with
  | method => cases hlater
  | anonymous => cases hlater
  | later _ _ hsteps => exact ⟨rfl, hsteps, rfl⟩

theorem map_some_entriesOf {chains : List StubConfig} (h : ∀ c ∈ chains, (c.parsed? ctx).isSome = true) :
    (entriesOf ctx chains).map some = chains.map (·.parsed? ctx) := by
  induction chains with
  | nil => rfl
  | cons c rest ih =>
    obtain ⟨hc, hrest⟩ := List.forall_mem_cons.mp h
    obtain ⟨e, he⟩ := Option.isSome_iff_exists.mp hc
    simpa [entriesOf, he] using ih hrest

theorem roots_of_unobstructed {chains : List StubConfig} (hfound : ∀ c ∈ chains, c.Found ctx)
    (h : firstObstacle? ctx [] chains = none) : ((contributing chains).map (·.root)).Nodup := by
  have hlater : ∀ c ∈ contributing chains, c.tail ≠ [] ∧ c.tail = (Chain.walk ctx.source c.root).steps ∧
      Entry.parse ctx c.tail = .ok (c.parsed? ctx) := by
    intro c hc
    obtain ⟨hmem, hcreation⟩ : c ∈ chains ∧ c.isCreation = false := by simpa [contributing] using hc
    obtain ⟨-, hsteps, htail⟩ := (hfound c hmem).later hcreation
    exact ⟨hsteps, htail, parse_of_unobstructed h c hmem⟩
  have hconditions : ((contributing chains).map fun c =>
      (c.parsed? ctx).map (·.conditionText ctx.source)).Nodup := by
    have hsublist : (entriesOf ctx (contributing chains)).Sublist (entriesOf ctx chains) :=
      List.filter_sublist.filterMap _
    have hnodup := (conditions_of_unobstructed h (by simp [entriesOf])).sublist (hsublist.map _)
    have hsome : ∀ c ∈ contributing chains, (c.parsed? ctx).isSome = true := by
      intro c hc
      obtain ⟨hsteps, -, hparse⟩ := hlater c hc
      exact Entry.parse_ok hsteps hparse
    have hmap : ((contributing chains).map fun c => (c.parsed? ctx).map (·.conditionText ctx.source)) =
        ((entriesOf ctx (contributing chains)).map (·.conditionText ctx.source)).map some := by
      have hparsed := congrArg (List.map (Option.map (·.conditionText ctx.source))) (map_some_entriesOf hsome)
      simpa [List.map_map, Function.comp_def] using hparsed.symm
    rw [hmap]
    exact hnodup.map (Option.some_injective _)
  -- the root of a chain tells its steps, these tell its condition, and no condition occurs twice
  refine List.Nodup.map_on ?_ hconditions.of_map
  intro c hc d hd hroot
  refine List.inj_on_of_nodup_map hconditions hc hd ?_
  have htail : c.tail = d.tail := by rw [(hlater c hc).2.1, (hlater d hd).2.1, hroot]
  simp only [StubConfig.parsed?, htail]

/-! ### What chains come to -/

/-- The call that installs a stub's function in place of a chain: a chain that makes the stub makes the mock, and
any other gives the mock in its variable a new function. -/
def StubConfig.installation? (ctx : Context) (function : Expr) (c : StubConfig) : Option Expr :=
  if c.isCreation then
    match c.object with
    | some object =>
      some (.callPath (ctx.names.mock ++ ".method") [object.embed, .str c.member, function])
    | none => some (.callPath (ctx.names.mock ++ ".fn") [function])
  else c.binding.map fun v => (Expr.member (.ident v) "mock").method "mockImplementation" [function]

/-- The chain whose place the function takes: the one that makes the stub, or else the first one. -/
def installSite? (chains : List StubConfig) : Option StubConfig :=
  chains.find? (·.isCreation) <|> chains.head?

/-- The edits install one function with what all chains say, in their order and each under its own condition,
and delete the statement of every other chain that configures the stub. -/
structure Accounted (ctx : Context) (chains : List StubConfig) (edits : List Edit) : Prop where
  parsed : ∀ c ∈ chains, Entry.parse ctx c.tail = .ok (c.parsed? ctx)
  conditions : ((entriesOf ctx chains).map (·.conditionText ctx.source)).Nodup
  roots : ((contributing chains).map (·.root)).Nodup
  edits : ∃ (site : StubConfig) (installed : Expr) (merged : List StubConfig) (statements : List Site),
    installSite? chains = some site ∧
    site.installation? ctx (implementation ctx.names.util (entriesOf ctx chains)) = some installed ∧
    contributing chains = (if site.isCreation then merged else site :: merged) ∧
    merged.map (·.root.parentOf? .expressionStatement) = statements.map some ∧
    edits = .replace site.root.span installed "stub-configuration" ::
      statements.map fun s => .deleteStatement ctx.source s.span "stub-configuration-merged"

theorem Site.exists_statement {root : Site} (h : root.isUnconditional = true) :
    ∃ statement, root.parent? = some statement ∧ root.parentOf? .expressionStatement = some statement := by
  unfold Site.isUnconditional at h
  split at h
  · cases h
  · rename_i statement hstatement
    exact ⟨statement, (Option.filter_eq_some_iff.mp hstatement).1, hstatement⟩

theorem exists_statements {chains : List StubConfig} (h : ∀ c ∈ chains, c.root.isUnconditional = true)
    (edit : Site → Edit) : ∃ statements : List Site,
      chains.map (·.root.parentOf? .expressionStatement) = statements.map some ∧
      (chains.map (·.root)).filterMap (fun root => root.parent?.map edit) = statements.map edit := by
  induction chains with
  | nil => exact ⟨[], rfl, rfl⟩
  | cons c rest ih =>
    obtain ⟨hc, hrest⟩ := List.forall_mem_cons.mp h
    obtain ⟨statement, hparent, hstatement⟩ := Site.exists_statement hc
    obtain ⟨statements, hstatements, hedits⟩ := ih hrest
    exact ⟨statement :: statements, by simp [hstatement, hstatements], by simp [hparent, hedits]⟩

namespace Plan

variable {chains : List StubConfig} {key : ScopeKey}

theorem joined_installed? (scope : Span) (hne : chains ≠ []) (hfound : ∀ c ∈ chains, c.Found ctx)
    (hkey : ∀ c ∈ chains, c.key ctx = key) :
    ∃ (site : StubConfig) (installed : Expr) (merged : List StubConfig) (requires : List ModuleKind),
      installSite? chains = some site ∧
      site.installation? ctx (implementation ctx.names.util (entriesOf ctx chains)) = some installed ∧
      contributing chains = (if site.isCreation then merged else site :: merged) ∧
      (joined ctx scope chains).installed? ctx key =
        some (.replace site.root.span installed "stub-configuration", merged.map (·.root), requires) := by
  cases hmade : chains.find? (·.isCreation) with
  | some made =>
    have hcreation : made.isCreation = true := List.find?_some hmade
    have hmember : key.member = made.member := by
      rw [← hkey made (List.mem_of_find?_eq_some hmade), StubConfig.key, Site.scopeKey]
      split <;> rfl
    cases hobject : made.object with
    | some object =>
      exact ⟨made, .callPath (ctx.names.mock ++ ".method")
          [object.embed, .str made.member, implementation ctx.names.util (entriesOf ctx chains)],
        contributing chains, [.mock], by simp [installSite?, hmade],
        by simp [StubConfig.installation?, hcreation, hobject], by simp [hcreation],
        by simp [installed?, joined, hmade, hobject, hmember]⟩
    | none =>
      exact ⟨made, .callPath (ctx.names.mock ++ ".fn")
          [implementation ctx.names.util (entriesOf ctx chains)], contributing chains, [.mock],
        by simp [installSite?, hmade], by simp [StubConfig.installation?, hcreation, hobject],
        by simp [hcreation], by simp [installed?, joined, hmade, hobject]⟩
  | none =>
    have hlater : ∀ c ∈ chains, c.isCreation = false := by simpa using hmade
    have hall : contributing chains = chains := contributing_eq_self (by simpa using hlater)
    obtain ⟨first, rest, rfl⟩ := List.exists_cons_of_ne_nil hne
    have hfirst := hlater first List.mem_cons_self
    obtain ⟨v, hv⟩ := Option.isSome_iff_exists.mp ((hfound first List.mem_cons_self).later hfirst).1
    exact ⟨first, (Expr.member (.ident v) "mock").method "mockImplementation"
        [implementation ctx.names.util (entriesOf ctx (first :: rest))], rest, [],
      by simp [installSite?, hmade],
      by simp [StubConfig.installation?, hfirst, hv], by simp [hall, hfirst],
      by simp [installed?, joined, hmade, hall, hv]⟩

theorem joined_accounted (scope : Span) (hne : chains ≠ []) (hfound : ∀ c ∈ chains, c.Found ctx)
    (hkey : ∀ c ∈ chains, c.key ctx = key) (h : firstObstacle? ctx [] chains = none) :
    Accounted ctx chains ((joined ctx scope chains).outcome ctx key).edits ∧
      ((joined ctx scope chains).outcome ctx key).diagnostics = [] := by
  obtain ⟨site, installed, merged, requires, hsite, hinstallation, hmerged, hinstalled⟩ :=
    joined_installed? scope hne hfound hkey
  have hopen : (joined ctx scope chains).skipped = none := rfl
  have hunconditional : ∀ c ∈ merged, c.root.isUnconditional = true := by
    intro c hc
    refine unconditional_of_unobstructed h c ?_
    rw [hmerged]
    split
    · exact hc
    · exact List.mem_cons_of_mem _ hc
  obtain ⟨statements, hstatements, hedits⟩ := exists_statements hunconditional fun s =>
    .deleteStatement ctx.source s.span "stub-configuration-merged"
  refine ⟨⟨parse_of_unobstructed h, conditions_of_unobstructed h (by simp [entriesOf]),
    roots_of_unobstructed hfound h, site, installed, merged, statements, hsite, hinstallation, hmerged,
    hstatements, ?_⟩, by simp [outcome, hopen, hinstalled]⟩
  rw [← hedits]
  simp [outcome, hopen, hinstalled]

end Plan

theorem mem_of_mem_chainsOf {configs : List StubConfig} {key : ScopeKey} {c : StubConfig}
    (h : c ∈ chainsOf ctx configs key) : c ∈ configs ∧ c.key ctx = key := by
  simpa [chainsOf] using h

theorem unobstructed_of_givenUp?_eq_none {configs : List StubConfig} {key : ScopeKey}
    (h : givenUp? ctx configs key = none) : firstObstacle? ctx [] (chainsOf ctx configs key) = none := by
  unfold givenUp? at h
  cases hobstacle : firstObstacle? ctx [] (chainsOf ctx configs key) with
  | none => rfl
  | some o => simp [hobstacle] at h

/-- Each stub is given up with one warning, or accounts for all of its chains. -/
theorem Plans.outcome_accounts {configs : List StubConfig} (hfound : ∀ c ∈ configs, c.Found ctx) :
    (stubKeys ctx configs).Nodup ∧ ∃ edits : ScopeKey → List Edit,
      (Plans.outcome ctx (configs.foldl (Plans.add ctx) [])).edits = (stubKeys ctx configs).flatMap edits ∧
      (Plans.outcome ctx (configs.foldl (Plans.add ctx) [])).diagnostics =
        (stubKeys ctx configs).filterMap (fun key => (givenUp? ctx configs key).map fun (reason, at') =>
          skippedWarning key reason (ctx.source.locationAt at'.span.start)) ∧
      ∀ key ∈ stubKeys ctx configs,
        match givenUp? ctx configs key with
        | some _ => edits key = []
        | none => Accounted ctx (chainsOf ctx configs key) (edits key) := by
  have hkept {key : ScopeKey} (hkey : key ∈ stubKeys ctx configs) (hkept : givenUp? ctx configs key = none) :=
    Plan.joined_accounted (scopeOf ctx (chainsOf ctx configs key)) (mem_stubKeys.mp hkey)
      (fun c hc => hfound c (mem_of_mem_chainsOf hc).1) (fun c hc => (mem_of_mem_chainsOf hc).2)
      (unobstructed_of_givenUp?_eq_none hkept)
  refine ⟨stubKeys_nodup configs, fun key => ((settled ctx configs key).outcome ctx key).edits, ?_, ?_,
    fun key hkey => ?_⟩
  · rw [Plans.outcome_edits, withoutOverriding_gathered, List.flatMap_map]
  · rw [Plans.outcome_diagnostics, withoutOverriding_gathered, List.flatMap_map, List.filterMap_eq_flatMap_toList]
    refine List.flatMap_congr fun key hkey => ?_
    rw [settled_outcome hkey]
    cases hgiven : givenUp? ctx configs key with
    | some o => rfl
    | none => simpa using (hkept hkey hgiven).2
  · beta_reduce
    rw [settled_outcome hkey]
    cases hgiven : givenUp? ctx configs key with
    | some o => rfl
    | none => exact (hkept hkey hgiven).1

set_option maxRecDepth 100000 in
theorem Plans.outcome_accounts_two : ∃ (text : String) (ctx : Context) (configs : List StubConfig)
    (s t : ScopeKey) (edits : ScopeKey → List Edit),
    text = "const s = sinon.stub().returns(0);\nconst t = sinon.stub().returns(0);\n" ++
      "s.withArgs(1).returns(1);\nt.returns(2);\ns.withArgs(2).returns(2);\n" ∧
    ctx.source = text.toList ∧ (∀ c ∈ configs, c.Found ctx) ∧
    stubKeys ctx configs = [s, t] ∧ (chainsOf ctx configs s).length = 3 ∧
    Accounted ctx (chainsOf ctx configs s) (edits s) ∧
    (givenUp? ctx configs t).map (·.1) = some "default behaviour configured more than once" ∧
    (Plans.outcome ctx (configs.foldl (Plans.add ctx) [])).edits = edits s := by
  obtain ⟨text, htext⟩ : ∃ text, text = "const s = sinon.stub().returns(0);\nconst t = sinon.stub().returns(0);\n" ++
      "s.withArgs(1).returns(1);\nt.returns(2);\ns.withArgs(2).returns(2);\n" := ⟨_, rfl⟩
  have hfile : (Grammar.parse .plain text.toList).any (fun tree =>
      let ctx : Context :=
        { source := text.toList, names := {}, mocks := MockBindings.ofTree text.toList {} tree }
      let configs := StubConfig.foundAt ctx (tree.sites.filter (·.isCandidate))
      let s : ScopeKey := ⟨"s", "", "", 0⟩
      let t : ScopeKey := ⟨"t", "", "", 0⟩
      stubKeys ctx configs == [s, t] && (chainsOf ctx configs s).length == 3 &&
      (givenUp? ctx configs s).isNone &&
      (givenUp? ctx configs t).map (·.1) == some "default behaviour configured more than once") = true := by
    rw [htext]
    decide +kernel
  obtain ⟨tree, -, hfile⟩ := (Option.any_eq_true _ _).mp hfile
  simp only [Bool.and_eq_true, beq_iff_eq, Option.isNone_iff_eq_none] at hfile
  obtain ⟨⟨⟨hkeys, hlength⟩, hs⟩, ht⟩ := hfile
  generalize hctx : ({ source := text.toList, names := {}, mocks := MockBindings.ofTree text.toList {} tree } :
    Context) = ctx at hkeys hlength hs ht
  generalize hconfigs : StubConfig.foundAt ctx (tree.sites.filter (·.isCandidate)) = configs
    at hkeys hlength hs ht
  have hfound : ∀ c ∈ configs, c.Found ctx := by
    rw [← hconfigs]
    exact fun c => StubConfig.found_of_mem_foundAt
  obtain ⟨-, edits, hedits, -, hall⟩ := Plans.outcome_accounts hfound
  rw [hkeys] at hedits hall
  have haccounted := hall ⟨"s", "", "", 0⟩ (by simp)
  have hgivenUp := hall ⟨"t", "", "", 0⟩ (by simp)
  obtain ⟨o, ho, -⟩ := Option.map_eq_some_iff.mp ht
  rw [hs] at haccounted
  rw [ho] at hgivenUp
  exact ⟨text, ctx, configs, _, _, edits, htext, by rw [← hctx], hfound, hkeys, hlength, haccounted, ht,
    by simp [hedits, hgivenUp]⟩

end TestMigration
