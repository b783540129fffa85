import TestMigration.Proofs.Import.Additions
import TestMigration.Proofs.Import.Bindings
import TestMigration.Proofs.Rule.Hygiene
import TestMigration.Proofs.Run.Settled

/-!
# What a run requests of imports

Every expression that a run writes names the assert module, the mock tracker and the deep comparison only if the run
requests them. The planner then leaves each of these names known: the declaration that the file has of the module
has a name for it, or the name is introduced by one addition.

Main statement: `names_settled`. `pattern_used_as_name` shows that a declaration may be said to have a name that it
does not bind.
-/

namespace TestMigration

/-! ### Names in edits -/

/-- The edit writes no expression. -/
def Edit.isPlain (e : Edit) : Bool :=
  match e.replacement with
  | .expr _ => false
  | .text _ | .delete => true

/-- All identifiers of the expression that an edit writes satisfy `P`. -/
def Edit.NamesOnly (P : String → Prop) (e : Edit) : Prop :=
  ∀ written, e.replacement = .expr written → ∀ x ∈ written.idents, P x

namespace Edit.NamesOnly

variable {P Q : String → Prop}

theorem mono {e : Edit} (h : e.NamesOnly P) (hPQ : ∀ x, P x → Q x) : e.NamesOnly Q :=
  fun written hwritten x hx => hPQ x (h written hwritten x hx)

theorem of_isPlain {e : Edit} (h : e.isPlain = true) : e.NamesOnly P := by
  intro written hwritten
  simp [Edit.isPlain, hwritten] at h

theorem replace {span : Span} {e : Expr} {rule : String} (h : ∀ x ∈ e.idents, P x) :
    (Edit.replace span e rule).NamesOnly P := by
  intro written hwritten
  obtain rfl := Replacement.expr.inj hwritten
  exact h

end Edit.NamesOnly

/-! ### Chains -/

namespace Run

variable {ctx : Context} {migrations : List Migration} {r : Run}

theorem synthesis?_of_found? {m : Migration} {rule : Rule} {s : Synthesis} {root : Site}
    (h : found? ctx migrations root = some (m, rule, s)) :
    rule.synthesis? ctx (Chain.walk ctx.source root) = some s := by
  obtain ⟨m', -, hm'⟩ := List.exists_of_findSome?_eq_some h
  obtain ⟨f, hf, heq⟩ := Option.map_eq_some_iff.mp hm'
  cases heq
  exact synthesis?_of_findRule? hf

/-- All that the edits of the run name is requested, or is one of the other names. -/
def Requested (ctx : Context) (others : List String) (r : Run) : Prop :=
  ∀ e ∈ r.edits, e.NamesOnly fun x => Spelled ctx.names r.requires x ∨ x ∈ others

/-- A pass keeps what was requested and requests what its own edits name. -/
theorem Requested.append {others : List String} {r' : Run} (h : r.Requested ctx others) {edits : List Edit}
    (hedits : r'.edits = r.edits ++ edits) (hrequires : r.requires ⊆ r'.requires)
    (hnew : ∀ e ∈ edits, e.NamesOnly fun x => Spelled ctx.names r'.requires x ∨ x ∈ others) :
    r'.Requested ctx others := by
  unfold Requested
  rw [hedits]
  refine List.forall_mem_append.mpr ⟨fun e he => (h e he).mono fun x hx => ?_, hnew⟩
  exact hx.imp_left fun hspelled => hspelled.mono hrequires

theorem Requested.visit {others : List String} {root : Site} (h : r.Requested ctx others) :
    (r.visit ctx migrations root).Requested ctx others := by
  rw [visit_eq]
  cases hfound : found? ctx migrations root with
  | none => exact h
  | some f =>
    obtain ⟨m, rule, synthesis⟩ := f
    dsimp only
    cases synthesis with
    | replace target e =>
      have hcomposed := Rule.synthesis?_composed (synthesis?_of_found? hfound)
      refine h.append rfl (List.subset_append_left _ _) (List.forall_mem_singleton.mpr ?_)
      refine Edit.NamesOnly.replace fun x hx => .inl ?_
      exact (hcomposed.idents x hx).mono (List.subset_append_right _ _)
    | removeStatement statement =>
      refine h.append rfl (List.Subset.refl _) (List.forall_mem_singleton.mpr ?_)
      exact .of_isPlain rfl
    | removeSetup | removeDeclaration | configure | skip => exact h

theorem discover_requested (others : List String) (tree : Node) :
    (discover ctx migrations tree).Requested ctx others := by
  have hfold (sites : List Site) (r : Run) (hr : r.Requested ctx others) :
      (sites.foldl (visit ctx migrations) r).Requested ctx others := by
    induction sites generalizing r with
    | nil => exact hr
    | cons s rest ih => exact ih _ hr.visit
  exact hfold _ {} (by intro e he; cases he)

end Run

/-! ### Stubs -/

/-- The edit that installs a stub names what the plan needs and the variable of the stub. -/
theorem Plan.installed?_namesOnly {ctx : Context} {key : ScopeKey} {p : Plan} {install : Edit} {rest : List Site}
    {requires : List ModuleKind} (h : p.installed? ctx key = some (install, rest, requires)) :
    install.NamesOnly fun x =>
      Spelled ctx.names (requires ++ if p.comparesDeeply then [.util] else []) x ∨ p.binding = some x := by
  have hfunction := (@implementation_composed ctx.names p.entries).idents
  rw [← Plan.comparesDeeply_eq] at hfunction
  unfold Plan.installed? at h
  dsimp only at h
  split at h
  · cases h
    refine Edit.NamesOnly.replace fun x hx => .inl ?_
    simp only [Expr.callPath, Expr.idents, Expr.identsAll, idents_embed, List.nil_append, List.append_nil,
      List.mem_append, List.mem_singleton] at hx
    rcases hx with rfl | hx
    · exact (Mock.leads_mock "method" rfl).mono (List.subset_append_left _ _)
    · exact (hfunction x hx).mono (List.subset_append_right _ _)
  · cases h
    refine Edit.NamesOnly.replace fun x hx => .inl ?_
    simp only [Expr.callPath, Expr.idents, Expr.identsAll, List.append_nil, List.mem_append, List.mem_singleton] at hx
    rcases hx with rfl | hx
    · exact (Mock.leads_mock "fn" rfl).mono (List.subset_append_left _ _)
    · exact (hfunction x hx).mono (List.subset_append_right _ _)
  · split at h
    · rename_i binding first _ hbinding _
      cases h
      refine Edit.NamesOnly.replace fun x hx => ?_
      simp only [Expr.method, Expr.idents, Expr.identsAll, List.append_nil, List.mem_append, List.mem_singleton] at hx
      rcases hx with rfl | hx
      · exact .inr hbinding
      · exact .inl (hfunction x hx)
    · cases h

/-- The edits of a plan name what the plan needs and the variable of its stub. -/
theorem Plan.outcome_namesOnly {ctx : Context} {key : ScopeKey} {p : Plan} :
    ∀ e ∈ (p.outcome ctx key).edits,
      e.NamesOnly fun x => Spelled ctx.names (p.outcome ctx key).requires x ∨ p.binding = some x := by
  unfold Plan.outcome
  cases p.skipped with
  | some skipped => simp
  | none =>
    dsimp only
    cases hinstalled : p.installed? ctx key with
    | none => simp
    | some installed =>
      refine List.forall_mem_cons.mpr ⟨Plan.installed?_namesOnly hinstalled, ?_⟩
      intro e he
      obtain ⟨root, -, he⟩ := List.mem_filterMap.mp he
      obtain ⟨statement, -, rfl⟩ := Option.map_eq_some_iff.mp he
      exact .of_isPlain rfl

def Plans.variables (plans : Plans) : List String := plans.filterMap (·.2.binding)

theorem Plans.withoutOverriding_variables (source : Text) (plans : Plans) :
    (plans.withoutOverriding source).variables = plans.variables := by
  have hskip (p : Plan) (reason : String) (at' : Site) : (p.skip reason at' source).binding = p.binding := by
    unfold Plan.skip
    split <;> rfl
  unfold Plans.variables Plans.withoutOverriding
  rw [List.filterMap_map]
  refine List.filterMap_congr fun p _ => ?_
  dsimp only [Function.comp_def]
  split
  · exact hskip _ _ _
  · rfl

theorem Run.Requested.finishStubs {ctx : Context} {r : Run} (h : r.Requested ctx r.plans.variables) :
    (r.finishStubs ctx).Requested ctx r.plans.variables := by
  have hvariables := Plans.withoutOverriding_variables ctx.source r.plans
  refine h.append rfl (List.subset_append_left _ _) ?_
  rw [Plans.outcome_edits]
  intro e he
  obtain ⟨p, hp, he⟩ := List.mem_flatMap.mp he
  refine (Plan.outcome_namesOnly e he).mono fun x hx => ?_
  rcases hx with hx | hx
  · -- what one plan needs, all of them need
    refine .inl (hx.mono fun kind hkind => List.mem_append_right _ ?_)
    rw [Plans.outcome_eq]
    exact List.mem_flatMap.mpr ⟨p, hp, hkind⟩
  · refine .inr ?_
    rw [← hvariables]
    exact List.mem_filterMap.mpr ⟨p, hp, hx⟩

/-! ### The other passes -/

namespace Registration

variable {source : Text} {call callback : Site}

theorem callChange_isPlain (callee : Callee) : ∀ e ∈ (callChange source call callee).edits, e.isPlain = true := by
  intro e he
  rcases mem_callChange_iff.mp he with he | ⟨callback, -, ⟨-, he⟩ | ⟨-, statement, -, he⟩⟩
  · unfold rename at he
    split at he
    · split at he <;> simp_all [Change.one, Edit.replaceText, Edit.isPlain]
    · cases he
  · unfold contextParameter at he
    split at he
    · dsimp only at he
      split at he <;> simp_all [Change.one, Edit.replaceText, Edit.insert, Edit.isPlain]
    · cases he
  · unfold timeoutEdits at he
    dsimp only at he
    split_ifs at he <;> simp only [List.mem_cons, List.not_mem_nil, or_false] at he
    · rw [he]
      rfl
    · rcases he with rfl | rfl <;> rfl
    · rcases he with rfl | rfl <;> rfl

end Registration

theorem RegistrationPass.ofTree_isPlain (source : Text) (tree : Node) (edits : List Edit) :
    ∃ new, (RegistrationPass.ofTree source tree edits).edits = edits ++ new ∧ ∀ e ∈ new, e.isPlain = true := by
  have hfold (calls : List Site) (p : RegistrationPass) : ∃ new,
      (calls.foldl (addCall source) p).edits = p.edits ++ new ∧ ∀ e ∈ new, e.isPlain = true := by
    induction calls generalizing p with
    | nil => exact ⟨[], by simp, by simp⟩
    | cons call rest ih =>
      obtain ⟨later, hlater, hplain⟩ := ih (addCall source p call)
      rw [List.foldl_cons, hlater]
      unfold addCall
      split
      · exact ⟨later, rfl, hplain⟩
      · split
        · exact ⟨later, rfl, hplain⟩
        · refine ⟨_, List.append_assoc _ _ _, ?_⟩
          exact List.forall_mem_append.mpr ⟨Registration.callChange_isPlain _, hplain⟩
  exact hfold _ { edits }

namespace Run

variable {ctx : Context} {r : Run} {others : List String}

theorem Requested.removeSandboxes (h : r.Requested ctx others) (tree : Node) :
    (r.removeSandboxes ctx tree).Requested ctx others := by
  have hstep {r : Run} (h : r.Requested ctx others) (declarations : List (Site × String)) (name : String) :
      (r.removeSandbox ctx tree declarations name).Requested ctx others := by
    unfold removeSandbox
    dsimp only
    split
    · exact h
    · refine h.append rfl (List.Subset.refl _) fun e he => ?_
      obtain ⟨s, -, rfl⟩ := List.mem_map.mp he
      exact .of_isPlain rfl
  have hfold (names : List String) (r' : Run) (hr' : r'.Requested ctx others) :
      (names.foldl (removeSandbox ctx tree (sandboxDeclarations ctx tree r)) r').Requested ctx others := by
    induction names generalizing r' with
    | nil => exact hr'
    | cons name rest ih => exact ih _ (hstep hr' _ name)
  exact hfold _ r h

theorem Requested.register {source : Text} {tree : Node} {scan : ImportScan} {settings : Settings}
    (h : r.Requested ctx others) : (r.register source tree scan settings).1.Requested ctx others := by
  obtain ⟨new, hnew, hplain⟩ := RegistrationPass.ofTree_isPlain source tree r.edits
  have hnames (P : String → Prop) : ∀ e ∈ new, e.NamesOnly P := fun e he => .of_isPlain (hplain e he)
  unfold Run.register
  split
  · dsimp only
    split
    · exact h.append hnew (List.subset_append_left _ _) (hnames _)
    · exact h.append hnew (List.Subset.refl _) (hnames _)
  · exact h

theorem Requested.removeSetup {source : Text} {pending : List Leftover} (h : r.Requested ctx others) :
    (r.removeSetup source pending).Requested ctx others := by
  unfold Run.removeSetup
  split
  · exact h
  · split
    · refine h.append rfl (List.Subset.refl _) fun e he => ?_
      obtain ⟨s, -, rfl⟩ := List.mem_map.mp he
      exact .of_isPlain rfl
    · exact h

end Run

/-! ### Registration functions -/

theorem pairwise_insertName {name : String} {names : List String} (h : names.Pairwise (· < ·)) :
    (insertName name names).Pairwise (· < ·) := by
  induction names with
  | nil => simp [insertName]
  | cons other rest ih =>
    obtain ⟨hother, hrest⟩ := List.pairwise_cons.mp h
    unfold insertName
    split
    · exact h
    · rename_i hne
      split
      · rename_i hlt
        refine List.pairwise_cons.mpr ⟨List.forall_mem_cons.mpr ⟨hlt, fun n hn => ?_⟩, h⟩
        exact String.lt_trans hlt (hother n hn)
      · rename_i hle
        refine List.pairwise_cons.mpr ⟨fun n hn => ?_, ih hrest⟩
        rcases mem_insertName.mp hn with rfl | hn
        · -- the order is total, and the names differ
          refine Classical.byContradiction fun hnot => hne ?_
          exact beq_iff_eq.mpr (String.le_antisymm (String.not_lt.mp hnot) (String.not_lt.mp hle))
        · exact hother n hn

/-- The names under which registration functions are imported. -/
def Registration.importedNames : List String :=
  ["after", "afterEach", "before", "beforeEach", "describe", "it", "suite", "test"]

theorem Registration.ofName?_mem {base : String} {registers : Registration} (h : ofName? base = some registers) :
    base ∈ testCaseNames ++ suiteNames ++ hookNames := by
  unfold ofName? at h
  simp only [List.mem_append]
  split at h
  · rename_i hname
    exact .inl (.inl (by simpa using hname))
  · split at h
    · rename_i hname
      exact .inl (.inr (by simpa using hname))
    · split at h
      · rename_i hname
        exact .inr (by simpa using hname)
      · cases h

theorem Registration.importedName_mem {base : String} {registers : Registration} (h : ofName? base = some registers) :
    importedName base ∈ importedNames :=
  (by decide : ∀ b ∈ testCaseNames ++ suiteNames ++ hookNames, importedName b ∈ importedNames) base (ofName?_mem h)

theorem Registration.ofName?_of_registration? {s : Site} {source : Text} {callee : Callee}
    (h : s.registration? source = some callee) : ∃ registers, ofName? callee.base = some registers := by
  have hcallee {base : String} {modifier : Option String} (h : callee? base modifier = some callee) :
      ∃ registers, ofName? callee.base = some registers := by
    obtain ⟨registers, hregisters, rfl⟩ := Option.map_eq_some_iff.mp h
    exact ⟨registers, hregisters⟩
  simp only [Site.registration?, Option.bind_eq_bind, Option.bind_eq_some_iff] at h
  obtain ⟨-, -, f, -, h⟩ := h
  split at h
  · exact hcallee h
  · simp only [Option.bind_eq_some_iff] at h
    obtain ⟨object, -, property, -, -, -, -, -, h⟩ := h
    exact hcallee h
  · cases h

/-- The names are in order, without repetition, and those of registration functions. -/
structure NamesRegistrations (names : List String) : Prop where
  ordered : names.Pairwise (· < ·)
  imported : ∀ name ∈ names, name ∈ Registration.importedNames

namespace NamesRegistrations

theorem insertName {name : String} {names : List String} (h : NamesRegistrations names)
    (hname : name ∈ Registration.importedNames) : NamesRegistrations (insertName name names) where
  ordered := pairwise_insertName h.ordered
  imported n hn := by
    rcases mem_insertName.mp hn with rfl | hn
    · exact hname
    · exact h.imported n hn

theorem ofTree (source : Text) (tree : Node) (edits : List Edit) :
    NamesRegistrations (RegistrationPass.ofTree source tree edits).usage.names := by
  have hfold (calls : List Site) (p : RegistrationPass) (hp : NamesRegistrations p.usage.names) :
      NamesRegistrations (calls.foldl (RegistrationPass.addCall source) p).usage.names := by
    induction calls generalizing p with
    | nil => exact hp
    | cons call rest ih =>
      refine ih _ ?_
      unfold RegistrationPass.addCall
      split
      · exact hp
      · rename_i callee hcallee
        split
        · exact hp
        · obtain ⟨registers, hregisters⟩ := Registration.ofName?_of_registration? hcallee
          exact hp.insertName (Registration.importedName_mem hregisters)
  exact hfold _ { edits } ⟨List.Pairwise.nil, by simp⟩

theorem regular {request : ImportRequest} (h : NamesRegistrations request.testNames) : request.Regular where
  nodup := by
    refine h.ordered.imp ?_
    rintro name other hlt rfl
    exact String.lt_irrefl name hlt
  apart name hname := by
    have hall : ∀ n ∈ Registration.importedNames, n ∉ ["assert", "nodeAssert", "mock", "isDeepStrictEqual"] := by
      decide
    exact hall name (h.imported name hname)

end NamesRegistrations

theorem Run.register_names {source : Text} {tree : Node} {scan : ImportScan} {settings : Settings} {r : Run} :
    NamesRegistrations (r.register source tree scan settings).2 := by
  have hpass := NamesRegistrations.ofTree source tree r.edits
  unfold Run.register
  split
  · dsimp only
    split
    · dsimp only
      split
      · exact hpass
      · exact (hpass.insertName (by decide)).insertName (by decide)
    · exact ⟨List.Pairwise.nil, by simp⟩
  · exact ⟨List.Pairwise.nil, by simp⟩

theorem Addition.edit_isPlain (p : ImportPlanner) (source : Text) (a : Addition) :
    (a.edit p source).isPlain = true := by
  cases a with
  | declarations needs =>
    simp only [Addition.edit, ImportPlanner.insertion]
    split
    · rfl
    · split <;> rfl
    · rfl
  | inFront | behindLast | inBraces | behindDefault => rfl

namespace Settings

def stubVariables (settings : Settings) (source : Text) (tree : Node) : List String :=
  (settings.discovered source tree).plans.variables

/-- What the expressions of a run name is requested, or it is the variable of a stub. -/
theorem planned_namesOnly (settings : Settings) (path : String) (source : Text) (tree : Node) :
    ∀ e ∈ settings.planned path source tree, e.NamesOnly fun x =>
      Spelled (settings.context source tree).names (settings.request source tree).modules x
        ∨ x ∈ settings.stubVariables source tree := by
  have hdiscovered : (settings.discovered source tree).Requested (settings.context source tree)
      (settings.stubVariables source tree) := Run.discover_requested _ tree
  have hcollected : (settings.collected source tree).Requested (settings.context source tree)
      (settings.stubVariables source tree) :=
    (hdiscovered.finishStubs.removeSandboxes tree).register.removeSetup
  unfold planned
  rw [ImportPlanner.plan_eq, ImportPlanner.dropLegacy_eq]
  refine List.forall_mem_append.mpr ⟨List.forall_mem_append.mpr ⟨hcollected, fun e he => ?_⟩, fun e he => ?_⟩
  · obtain ⟨d, -, rfl⟩ := List.mem_map.mp he
    exact .of_isPlain rfl
  · obtain ⟨a, -, rfl⟩ := List.mem_map.mp he
    exact .of_isPlain (a.edit_isPlain _ _)

theorem request_regular (settings : Settings) (source : Text) (tree : Node) :
    (settings.request source tree).Regular :=
  NamesRegistrations.regular Run.register_names

end Settings

/-! ### Names are settled -/

namespace ImportPlanner

variable {p : ImportPlanner} {request : ImportRequest} {kind : ModuleKind} {name : String}

/-- A name of generated code is a name of the declaration that the file has of the module, or one addition introduces
it. -/
theorem known_or_introduced (hnames : p.names = p.scan.names p.targets) (hrequest : request.Regular)
    (hkind : kind ∈ request.modules) (hname : p.names.of? kind = some name) :
    (∃ d, p.scan.find? (p.targets.specifier kind) = some d ∧ name ∈ d.locals)
      ∨ (p.introduced request).count name = 1 := by
  rcases @name_known_or_missing p request kind name hnames hname with hknown | hmissing
  · exact .inl hknown
  · have hmem : name ∈ p.introduced request := mem_introduced.mpr ⟨kind, hkind, by simp [hmissing]⟩
    exact .inr (List.count_eq_one_of_mem (introduced_nodup hnames hrequest) hmem)

theorem legacy_of_mem_deleted {source : Text} {tree : Node} {edits : List Edit} {d : Declaration}
    (hd : d ∈ p.deleted source tree request edits) : d.logical ∈ request.legacy := by
  have hlegacy := (List.mem_filter.mp ((deletedFrom_sublist _ _ _).mem hd)).2
  simpa using hlegacy

end ImportPlanner

/-- Generated code names only what its run requests. What is requested is introduced by one addition, or the
declaration that the file has of the module has a name for it. Such a declaration stays unless its module should go,
and its statement binds the name unless a pattern was taken for one. -/
theorem names_settled (settings : Settings) (path : String) (source : Text) (tree : Node) :
    (∀ e ∈ settings.planned path source tree, e.NamesOnly fun x =>
      Spelled (settings.context source tree).names (settings.request source tree).modules x
        ∨ x ∈ settings.stubVariables source tree) ∧
    (∀ (p : ImportPlanner) (request : ImportRequest) (edits : List Edit),
      p.names = p.scan.names p.targets → request.Regular →
      (p.plan source tree request edits).1 = (p.dropLegacy source tree request edits).1
        ++ (p.additions request).map (Addition.edit p source) ∧
      ∀ kind ∈ request.modules, ∀ name ∈ p.names.of? kind,
        (∃ d, p.scan.find? (p.targets.specifier kind) = some d ∧ name ∈ d.locals ∧
          (d ∈ p.deleted source tree request edits → d.logical ∈ request.legacy)) ∨
        (p.introduced request).count name = 1) ∧
    (settings.request source tree).Regular ∧
    ∀ kind ∈ (settings.request source tree).modules, ∀ name ∈ (settings.planner path source tree).names.of? kind,
      (∃ d, (ImportScan.ofTree source tree).find? (settings.targets.specifier kind) = some d ∧
        (name ∈ d.nested source ∨ ∃ b ∈ d.statement.bindings, b.text source = name)) ∨
      ((settings.planner path source tree).introduced (settings.request source tree)).count name = 1 := by
  have hregular := settings.request_regular source tree
  refine ⟨settings.planned_namesOnly path source tree, ?_, hregular, fun kind hkind name hname => ?_⟩
  · intro p request edits hnames hrequest
    refine ⟨ImportPlanner.plan_eq edits, fun kind hkind name hname => ?_⟩
    rcases ImportPlanner.known_or_introduced hnames hrequest hkind hname with ⟨d, hd, hlocal⟩ | hcount
    · exact .inl ⟨d, hd, hlocal, ImportPlanner.legacy_of_mem_deleted⟩
    · exact .inr hcount
  · rcases ImportPlanner.known_or_introduced (p := settings.planner path source tree) rfl hregular hkind hname with
      ⟨d, hd, hlocal⟩ | hcount
    · have hbound := ImportScan.bound_of_mem_locals (List.mem_of_find?_eq_some hd)
      exact .inl ⟨d, hd, Decidable.or_iff_not_imp_left.mpr (hbound name hlocal)⟩
    · exact .inr hcount

set_option maxRecDepth 100000 in
/-- A file without declarations gets the assert module. -/
theorem names_settled_fresh : ∃ (text : String) (tree : Node), text = "expect(x).to.equal(1);\n" ∧
    Grammar.parse .plain text.toList = some tree ∧
    .assert ∈ (Settings.request {} text.toList tree).modules ∧
    ((Settings.planner {} "a.test.js" text.toList tree).introduced (Settings.request {} text.toList tree)).count
      "assert" = 1 := by
  obtain ⟨text, htext⟩ : ∃ text, text = "expect(x).to.equal(1);\n" := ⟨_, rfl⟩
  have hfile : (Grammar.parse .plain text.toList).any (fun tree =>
      (Settings.request {} text.toList tree).modules.contains .assert &&
      (ImportScan.ofTree text.toList tree).declarations.isEmpty &&
      ((Settings.planner {} "a.test.js" text.toList tree).names.of? .assert == some "assert")) = true := by
    rw [htext]
    decide +kernel
  obtain ⟨tree, hparse, hfile⟩ := (Option.any_eq_true _ _).mp hfile
  simp only [Bool.and_eq_true, List.contains_iff_mem, List.isEmpty_iff, beq_iff_eq] at hfile
  obtain ⟨⟨hassert, hnone⟩, hname⟩ := hfile
  refine ⟨text, tree, htext, hparse, hassert, ?_⟩
  obtain ⟨-, hplanner, hregular, -⟩ := names_settled {} "a.test.js" text.toList tree
  have hsettled := (hplanner (Settings.planner {} "a.test.js" text.toList tree)
    (Settings.request {} text.toList tree) [] rfl hregular).2 .assert hassert "assert" hname
  refine hsettled.resolve_left ?_
  rintro ⟨d, hd, -⟩
  have hmem := List.mem_of_find?_eq_some hd
  have hscan : (Settings.planner {} "a.test.js" text.toList tree).scan.declarations = [] := hnone
  rw [hscan] at hmem
  cases hmem

set_option maxRecDepth 100000 in
/-- A pattern in the place of a name is used as the name of the assert module. -/
theorem pattern_used_as_name : ¬ ∀ (settings : Settings) (path text : String) (tree : Node),
    Grammar.parse (Grammar.ofPath path) text.toList = some tree →
    ∀ kind ∈ (settings.request text.toList tree).modules,
    ∀ name ∈ (settings.planner path text.toList tree).names.of? kind,
      (∃ d, (ImportScan.ofTree text.toList tree).find? (settings.targets.specifier kind) = some d ∧
        ∃ b ∈ d.statement.bindings, b.text text.toList = name) ∨
      ((settings.planner path text.toList tree).introduced (settings.request text.toList tree)).count name = 1 := by
  intro h
  obtain ⟨text, htext⟩ : ∃ text, text =
      "const \x7b strict: \x7b ok \x7d \x7d = require('node:assert');\nexpect(x).to.equal(1);\n" := ⟨_, rfl⟩
  have hfile : (Grammar.parse (Grammar.ofPath "a.test.js") text.toList).any (fun tree =>
      (Settings.request {} text.toList tree).modules.contains .assert &&
      ((Settings.planner {} "a.test.js" text.toList tree).names.of? .assert == some "\x7b ok \x7d") &&
      ((ImportScan.ofTree text.toList tree).find? "node:assert").all (fun d =>
        d.statement.bindings.all fun b => b.text text.toList != "\x7b ok \x7d") &&
      ((Settings.planner {} "a.test.js" text.toList tree).introduced (Settings.request {} text.toList tree)).isEmpty) =
      true := by
    rw [htext]
    decide +kernel
  obtain ⟨tree, hparse, hfile⟩ := (Option.any_eq_true _ _).mp hfile
  simp only [Bool.and_eq_true, List.contains_iff_mem, beq_iff_eq, List.isEmpty_iff] at hfile
  obtain ⟨⟨⟨hassert, hname⟩, hall⟩, hnone⟩ := hfile
  rcases h {} "a.test.js" text tree hparse .assert hassert _ hname with ⟨d, hd, b, hb, htext'⟩ | hcount
  · have hd : (ImportScan.ofTree text.toList tree).find? "node:assert" = some d := hd
    rw [hd, Option.all_some, List.all_eq_true] at hall
    have hne := hall b hb
    rw [htext'] at hne
    exact absurd hne (by decide)
  · rw [hnone] at hcount
    exact absurd hcount (by decide)

end TestMigration
