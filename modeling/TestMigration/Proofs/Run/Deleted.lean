import TestMigration.Proofs.Import.Statements
import TestMigration.Proofs.Run.Requested
import TestMigration.Proofs.Run.Skipped
import TestMigration.Proofs.Stub.Accounting
import TestMigration.Proofs.Tree.Listed

/-!
# The statements that a run deletes

Six passes delete statements. `Settings.statements` lists the statements of each of them, and the deletions among
the planned edits are the deletions of these statements, one by one (`Settings.deletions_planned`). A statement that
stands in a list of statements leaves the others of the list as they are. Deleting the body of an `if` or of a loop
makes a body of whatever follows.

Three of the passes look at the place of a statement: a merged configuration runs unconditionally, a timeout stands
in the block of a callback, and a legacy declaration at the top level. The other three are content with an expression
statement or a declaration anywhere.

Main statement: `Settings.statements_listed_iff`.
-/

namespace TestMigration

/-! ### Deletions -/

def deletions (edits : List Edit) : List Edit := edits.filter (·.isDelete)

@[simp]
theorem deletions_append (a b : List Edit) : deletions (a ++ b) = deletions a ++ deletions b :=
  List.filter_append ..

@[simp]
theorem deletions_cons (e : Edit) (rest : List Edit) :
    deletions (e :: rest) = if e.isDelete then e :: deletions rest else deletions rest := List.filter_cons ..

theorem deletions_flatMap {α : Type} (l : List α) (f : α → List Edit) :
    deletions (l.flatMap f) = l.flatMap fun a => deletions (f a) := List.filter_flatMap ..

/-- The edits that delete statements for a rule. -/
def deleteAll (source : Text) (rule : String) (statements : List Site) : List Edit :=
  statements.map fun s => .deleteStatement source s.span rule

@[simp]
theorem deletions_deleteAll (source : Text) (rule : String) (statements : List Site) :
    deletions (deleteAll source rule statements) = deleteAll source rule statements := by
  refine List.filter_eq_self.mpr fun e he => ?_
  obtain ⟨s, -, rfl⟩ := List.mem_map.mp he
  rfl

theorem deleteAll_flatMap {α : Type} (source : Text) (rule : String) (l : List α) (f : α → List Site) :
    deleteAll source rule (l.flatMap f) = l.flatMap fun a => deleteAll source rule (f a) := List.map_flatMap ..

/-- The passes that delete statements. -/
inductive Deletion where
  /-- The threshold for slow tests. -/
  | slow
  /-- Configurations of a stub that were merged into another. -/
  | merged
  | sandbox
  | timeout
  /-- The setup of an assertion library. -/
  | setup
  /-- Declarations of a legacy module. -/
  | legacy
deriving DecidableEq, Repr

namespace Deletion

def all : List Deletion := [slow, merged, sandbox, timeout, setup, legacy]

/-- The rule that the deletions are reported for. -/
def rule : Deletion → String
  | slow => "slow-threshold"
  | merged => "stub-configuration-merged"
  | sandbox => "sandbox-creation"
  | timeout => "timeout-option"
  | setup => "assertion-setup"
  | legacy => "legacy-import"

/-- The pass looks at where a statement stands. -/
def checksPlace : Deletion → Bool
  | merged | timeout | legacy => true
  | slow | sandbox | setup => false

end Deletion

/-! ### Chains -/

section
variable {ctx : Context} {c : Chain} {statement : Site}

theorem MockRule.ne_removeStatement {r : MockRule} : r.synthesis? ctx c ≠ some (.removeStatement statement) := by
  intro h
  cases r with
  | stubConfiguration => rcases Mock.stubConfiguration_answers h with ⟨config, heq⟩ | ⟨reason, heq⟩ <;> cases heq
  | sandboxCreation | mockAssertArguments | anonymousFake =>
    simp [synthesis?, Mock.sandboxCreation, Mock.mockAssertArguments, Mock.anonymousFake, Option.bind_eq_some_iff,
      Chain.replaceBy] at h
  | restoreAll | mockAssert | methodSpy | callArguments | stubInspection =>
    simp only [synthesis?, Mock.restoreAll, Mock.mockAssert, Mock.methodSpy, Mock.callArguments, Mock.stubInspection,
      Option.bind_eq_bind, Option.bind_eq_some_iff] at h
    obtain ⟨_, -, h⟩ := h
    split at h <;> simp [Option.bind_eq_some_iff, Chain.replaceBy] at h

/-- The threshold for slow tests is the only thing that is deleted at once. -/
theorem Rule.eq_slowThreshold {r : Rule} (h : r.synthesis? ctx c = some (.removeStatement statement)) :
    r = .registration .slowThreshold := by
  unfold Rule.synthesis? at h
  split at h
  · cases h
  · cases r with
    | assertionSetup =>
      dsimp only [Assertion.setup?] at h
      split at h
      · simp [Option.bind_eq_some_iff] at h
      · cases h
    | assertion family =>
      simp only [Assertion.Family.synthesis?, Option.bind_eq_bind, Option.bind_eq_some_iff] at h
      obtain ⟨_, -, h⟩ := h
      split at h
      · cases h
      · simp [Option.bind_eq_some_iff] at h
    | mock rule => exact absurd h MockRule.ne_removeStatement
    | registration rule =>
      cases rule with
      | slowThreshold => rfl
      | aliasModifier =>
        dsimp only [RegistrationRule.synthesis?] at h
        split at h
        · simp [Option.bind_eq_some_iff] at h
        · cases h

theorem Mock.soleDeclaration?_within {tree : Node} {value : Site} {binding : String} (hvalue : value.Within tree)
    (h : soleDeclaration? ctx value = some (statement, binding)) : statement.Within tree := by
  simp only [soleDeclaration?, Option.bind_eq_bind, Option.bind_eq_some_iff] at h
  obtain ⟨parent, hparent, statement', hstatement, h⟩ := h
  have hwithin := (hvalue.parent? hparent).parent? hstatement
  split at h
  · simp only [Option.bind_eq_some_iff] at h
    obtain ⟨name, -, -, -, heq⟩ := h
    cases heq
    exact hwithin
  · simp only [Option.bind_eq_some_iff] at h
    obtain ⟨left, -, -, -, heq⟩ := h
    cases heq
    exact hwithin
  · cases h

end

/-- The statements that were noted down are sites of the tree. -/
structure Run.Within (tree : Node) (r : Run) : Prop where
  declarations : ∀ d ∈ r.declarations, d.1.Within tree
  setup : ∀ s ∈ r.setup, s.Within tree

namespace Run

variable {ctx : Context} {migrations : List Migration} {tree : Node} {r : Run}

theorem Within.visit {root : Site} (h : r.Within tree) (hroot : root.Within tree) :
    (r.visit ctx migrations root).Within tree := by
  rw [visit_eq]
  cases hfound : found? ctx migrations root with
  | none => exact h
  | some f =>
    obtain ⟨m, rule, synthesis⟩ := f
    cases aims_of_found? hfound with
    | setup hs =>
      refine ⟨h.declarations, List.forall_mem_append.mpr ⟨h.setup, List.forall_mem_singleton.mpr ?_⟩⟩
      exact hroot.parentOf? hs
    | declaration hs =>
      refine ⟨List.forall_mem_append.mpr ⟨h.declarations, List.forall_mem_singleton.mpr ?_⟩, h.setup⟩
      exact Mock.soleDeclaration?_within hroot hs
    | chain => exact ⟨h.declarations, h.setup⟩
    | callee => exact ⟨h.declarations, h.setup⟩
    | statement => exact ⟨h.declarations, h.setup⟩
    | configure => exact ⟨h.declarations, h.setup⟩
    | skip => exact ⟨h.declarations, h.setup⟩

theorem discover_within : (discover ctx migrations tree).Within tree := by
  have hfold (sites : List Site) (hsites : ∀ s ∈ sites, s.Within tree) (r : Run) (hr : r.Within tree) :
      (sites.foldl (visit ctx migrations) r).Within tree := by
    induction sites generalizing r with
    | nil => exact hr
    | cons s rest ih =>
      obtain ⟨hs, hrest⟩ := List.forall_mem_cons.mp hsites
      exact ih hrest _ (hr.visit hs)
  exact hfold _ (fun s hs => (List.mem_filter.mp hs).1) {} ⟨by simp, by simp⟩

/-- The statement that the chain at a site asks to delete at once. -/
def slow? (ctx : Context) (migrations : List Migration) (s : Site) : Option Site :=
  match found? ctx migrations s with
  | some (_, _, .removeStatement statement) => some statement
  | _ => none

theorem deletions_chainEdits (s : Site) : deletions (chainEdits ctx migrations s) =
    deleteAll ctx.source Deletion.slow.rule (slow? ctx migrations s).toList := by
  unfold chainEdits slow?
  cases hfound : found? ctx migrations s with
  | none => rfl
  | some f =>
    obtain ⟨m, rule, synthesis⟩ := f
    cases synthesis with
    | removeStatement statement =>
      rw [Rule.eq_slowThreshold (synthesis?_of_found? hfound)]
      rfl
    | replace | removeSetup | removeDeclaration | configure | skip => rfl

theorem slow?_within {s statement : Site} (hs : s.Within tree) (h : slow? ctx migrations s = some statement) :
    statement.Within tree := by
  unfold slow? at h
  split at h
  · rename_i hfound
    cases h
    cases aims_of_found? hfound with
    | statement hstatement => exact hs.parentOf? hstatement
  · cases h

theorem noted_within {c : StubConfig} (h : c ∈ noted ctx migrations tree) : c.root.Within tree := by
  obtain ⟨s, hs, hnoted⟩ := List.mem_filterMap.mp h
  unfold noted? at hnoted
  split at hnoted
  · rename_i hfound
    cases hnoted
    cases aims_of_found? hfound with
    | configure hroot _ =>
      rw [hroot]
      exact (List.mem_filter.mp hs).1
  · cases hnoted

end Run

/-! ### Merged configurations -/

/-- The statements whose configurations an installed function takes over. -/
def Plan.merged (ctx : Context) (key : ScopeKey) (p : Plan) : List Site :=
  match p.installed? ctx key with
  | none => []
  | some (_, rest, _) => rest.filterMap (·.parent?)

section
variable {ctx : Context} {key : ScopeKey} {p : Plan}

theorem Plan.installed?_spec {install : Edit} {rest : List Site} {requires : List ModuleKind}
    (h : p.installed? ctx key = some (install, rest, requires)) :
    install.isDelete = false ∧ rest ⊆ p.contributions := by
  unfold Plan.installed? at h
  dsimp only at h
  split at h
  · cases h
    exact ⟨rfl, List.Subset.refl _⟩
  · cases h
    exact ⟨rfl, List.Subset.refl _⟩
  · split at h
    · rename_i hcontributions
      cases h
      rw [hcontributions]
      exact ⟨rfl, List.subset_cons_self _ _⟩
    · cases h

theorem Plan.deletions_outcome (hopen : p.skipped = none) :
    deletions (p.outcome ctx key).edits = deleteAll ctx.source Deletion.merged.rule (p.merged ctx key) := by
  unfold Plan.outcome Plan.merged
  rw [hopen]
  cases hinstalled : p.installed? ctx key with
  | none => rfl
  | some i =>
    obtain ⟨install, rest, requires⟩ := i
    have hdeletions : (rest.filterMap fun root => root.parent?.map fun statement =>
        Edit.deleteStatement ctx.source statement.span "stub-configuration-merged") =
        deleteAll ctx.source Deletion.merged.rule (rest.filterMap (·.parent?)) := by
      rw [deleteAll, List.map_filterMap]
      rfl
    dsimp only
    rw [hdeletions, deletions_cons, (Plan.installed?_spec hinstalled).1, deletions_deleteAll]
    rfl

/-- A merged configuration was a statement of a list. -/
theorem Plan.merged_joined {scope : Span} {chains : List StubConfig} {statement : Site}
    (h : firstObstacle? ctx [] chains = none) (hs : statement ∈ (Plan.joined ctx scope chains).merged ctx key) :
    statement.isListed = true ∧ ∃ c ∈ chains, c.root.parent? = some statement := by
  unfold Plan.merged at hs
  split at hs
  · cases hs
  · rename_i rest _ hinstalled
    obtain ⟨root, hroot, hparent⟩ := List.mem_filterMap.mp hs
    obtain ⟨c, hc, rfl⟩ := List.mem_map.mp ((Plan.installed?_spec hinstalled).2 hroot)
    refine ⟨?_, c, (List.mem_filter.mp hc).1, hparent⟩
    exact Site.isListed_of_isUnconditional (unconditional_of_unobstructed h c hc) hparent

end

/-- The statements that are deleted because the stub of a key is installed. -/
def mergedStatements (ctx : Context) (configs : List StubConfig) (key : ScopeKey) : List Site :=
  let chains := chainsOf ctx configs key
  (Plan.joined ctx (scopeOf ctx chains) chains).merged ctx key

theorem unobstructed_of_mem_keptKeys {ctx : Context} {configs : List StubConfig} {key : ScopeKey}
    (h : key ∈ keptKeys ctx configs) : firstObstacle? ctx [] (chainsOf ctx configs key) = none :=
  unobstructed_of_givenUp?_eq_none (by simpa using (List.mem_filter.mp h).2)

/-! ### Sandboxes -/

theorem Site.emptiedHook?_within {tree : Node} {source : Text} {s hook : Site} (hs : s.Within tree)
    (h : s.emptiedHook? source = some hook) : hook.Within tree := by
  simp only [Site.emptiedHook?, Option.bind_eq_bind, Option.bind_eq_some_iff] at h
  obtain ⟨f, ⟨body, hbody, hf⟩, -, -, -, -, call, ⟨args, hargs, hcall⟩, callee, -, -, -, hhook⟩ := h
  exact ((((hs.parent? hbody).parent? hf).parent? hargs).parent? hcall).parentOf? hhook

namespace Run

variable {ctx : Context} {tree : Node} {r : Run}

theorem sandboxDeclarations_within (h : r.Within tree) : ∀ d ∈ sandboxDeclarations ctx tree r, d.1.Within tree := by
  refine List.forall_mem_append.mpr ⟨h.declarations, ?_⟩
  intro d hd
  obtain ⟨s, hs, hd⟩ := List.mem_filterMap.mp (List.mem_filter.mp hd).1
  simp only [Site.uninitialized?, Option.bind_eq_bind, Option.bind_eq_some_iff] at hd
  obtain ⟨-, -, hd⟩ := hd
  split at hd
  · simp only [Option.bind_eq_some_iff] at hd
    obtain ⟨name, -, -, -, heq⟩ := hd
    cases heq
    exact hs
  · cases hd

/-- The statements that go with a sandbox: its declarations, or the hooks that do nothing else. -/
def unboxedStatements (source : Text) (declarations : List (Site × String)) (binding : String) : List Site :=
  (sandboxStatements declarations binding).map fun s => (s.emptiedHook? source).getD s

theorem sandboxDeletions_eq (declarations : List (Site × String)) (binding : String) :
    sandboxDeletions ctx declarations binding =
      deleteAll ctx.source Deletion.sandbox.rule (unboxedStatements ctx.source declarations binding) := by
  rw [deleteAll, unboxedStatements, List.map_map]
  rfl

theorem unboxedStatements_within {source : Text} {declarations : List (Site × String)} {binding : String} {s : Site}
    (h : ∀ d ∈ declarations, d.1.Within tree) (hs : s ∈ unboxedStatements source declarations binding) :
    s.Within tree := by
  obtain ⟨t, ht, rfl⟩ := List.mem_map.mp hs
  obtain ⟨d, hd, rfl⟩ := List.mem_map.mp ht
  have hwithin := h d (List.mem_filter.mp hd).1
  cases hhook : d.1.emptiedHook? source with
  | none => exact hwithin
  | some hook => exact Site.emptiedHook?_within hwithin hhook

end Run

/-! ### Timeouts -/

namespace Registration

variable {source : Text} {call callback : Site}

/-- The first statement of the callback of a call that sets a timeout. -/
def timeout? (source : Text) (call : Site) : Option Site :=
  match call.callArguments.reverse.find? (·.isFunctionLiteral) with
  | some callback =>
    if callback.kind == .arrowFunction then none else callback.bodyStatements.find? (setsTimeout source)
  | none => none

theorem deletions_timeoutEdits {registers : Registration} {hasOptions : Bool} {statement : Site} {value : String} :
    deletions (timeoutEdits source registers callback hasOptions statement value) =
      deleteAll source Deletion.timeout.rule [statement] := by
  unfold timeoutEdits
  dsimp only
  split
  · rfl
  · split <;> rfl

theorem deletions_runnerCalls {registers : Registration} {hasOptions : Bool} (statements : List Site) :
    deletions (runnerCalls source registers callback hasOptions false statements).edits =
      deleteAll source Deletion.timeout.rule (statements.find? (setsTimeout source)).toList := by
  rw [runnerCalls_edits, if_neg (by simp)]
  cases statements.find? (setsTimeout source) with
  | none => rfl
  | some statement => simp [deletions_timeoutEdits]

theorem deletions_callChange {callee : Callee} : deletions (callChange source call callee).edits =
    deleteAll source Deletion.timeout.rule (timeout? source call).toList := by
  have hrename : deletions (rename call callee).edits = [] := by
    unfold rename
    split
    · split <;> rfl
    · rfl
  have hcontext (callback : Site) : deletions (contextParameter source callback).edits = [] := by
    unfold contextParameter
    split
    · dsimp only
      split <;> rfl
    · rfl
  unfold callChange timeout?
  dsimp only
  cases call.callArguments.reverse.find? (·.isFunctionLiteral) with
  | none => exact hrename
  | some callback =>
    have hparameter : deletions (if callee.registers == .suite then {}
        else contextParameter source callback : Change).edits = [] := by
      split
      · rfl
      · exact hcontext callback
    simp only [Change.append, callbackChange, deletions_append, hrename]
    split
    · exact hparameter
    · rw [deletions_append, hparameter, deletions_runnerCalls]
      rfl

theorem timeout?_spec {tree : Node} {statement : Site} (hcall : call.Within tree)
    (h : timeout? source call = some statement) : statement.Within tree ∧ statement.isListed = true := by
  unfold timeout? at h
  split at h
  · rename_i callback hcallback
    have hwithin := hcall.callArguments (List.mem_reverse.mp (List.mem_of_find?_eq_some hcallback))
    split at h
    · cases h
    · have hbody := List.mem_of_find?_eq_some h
      exact ⟨hwithin.bodyStatements hbody, Site.isListed_of_bodyStatements hbody⟩
  · cases h

end Registration

namespace RegistrationPass

variable {source : Text} {tree : Node}

/-- The statement that sets a timeout for a call, if the pass looks at the call. -/
def timeout? (source : Text) (p : RegistrationPass) (call : Site) : Option Site :=
  if (call.registration? source).isSome && !Edit.covers p.edits call.span then Registration.timeout? source call
  else none

/-- The statements with timeouts that the pass deletes, call by call. -/
def timeouts (source : Text) : RegistrationPass → List Site → List Site
  | _, [] => []
  | p, call :: rest => (p.timeout? source call).toList ++ timeouts source (p.addCall source call) rest

theorem deletions_addCall (p : RegistrationPass) (call : Site) : deletions (p.addCall source call).edits =
    deletions p.edits ++ deleteAll source Deletion.timeout.rule (p.timeout? source call).toList := by
  unfold addCall timeout?
  cases call.registration? source with
  | none => simp [deleteAll]
  | some callee =>
    cases Edit.covers p.edits call.span with
    | true => simp [deleteAll]
    | false => simp [Registration.deletions_callChange]

theorem deletions_foldl_addCall (calls : List Site) (p : RegistrationPass) :
    deletions (calls.foldl (addCall source) p).edits =
      deletions p.edits ++ deleteAll source Deletion.timeout.rule (timeouts source p calls) := by
  induction calls generalizing p with
  | nil => simp [timeouts, deleteAll]
  | cons call rest ih =>
    rw [List.foldl_cons, ih, deletions_addCall, timeouts]
    simp [deleteAll]

theorem timeouts_spec {calls : List Site} (hcalls : ∀ s ∈ calls, s.Within tree) (p : RegistrationPass) :
    ∀ s ∈ timeouts source p calls, s.Within tree ∧ s.isListed = true := by
  induction calls generalizing p with
  | nil => simp [timeouts]
  | cons call rest ih =>
    obtain ⟨hcall, hrest⟩ := List.forall_mem_cons.mp hcalls
    refine List.forall_mem_append.mpr ⟨fun s hs => ?_, ih hrest _⟩
    have htimeout := Option.mem_toList.mp hs
    unfold timeout? at htimeout
    split at htimeout
    · exact Registration.timeout?_spec hcall htimeout
    · cases htimeout

end RegistrationPass

/-! ### Declarations -/

namespace ImportPlanner

variable {p : ImportPlanner} {source : Text} {tree : Node} {request : ImportRequest}

theorem deletions_extend (d : Declaration) (need : Need) : deletions (p.extend d need).1 = [] := by
  have hdefault (name : Option String) : deletions (addDefault d name).1 = [] := by
    unfold addDefault
    split
    · rfl
    · split <;> rfl
  have hnamed (missing : List String) : deletions (addNamed d missing).1 = [] := by
    unfold addNamed
    dsimp only
    split
    · rfl
    · split
      · split <;> rfl
      · split <;> rfl
      · rfl
  show deletions ((addDefault d _).1 ++ (addNamed d _).1) = []
  rw [deletions_append, hdefault, hnamed]
  rfl

theorem insertion_isDelete (declarations : List String) : (p.insertion source declarations).isDelete = false := by
  unfold insertion
  dsimp only
  split
  · rfl
  · split <;> rfl
  · rfl

/-- All deletions for imports are those of legacy declarations. -/
theorem deletions_plan (edits : List Edit) : deletions (p.plan source tree request edits).1 =
    deletions edits ++
      deleteAll source Deletion.legacy.rule ((p.deleted source tree request edits).map (·.statement)) := by
  have hdropped : deletions (p.dropLegacy source tree request edits).1 = deletions edits ++
      deleteAll source Deletion.legacy.rule ((p.deleted source tree request edits).map (·.statement)) := by
    rw [dropLegacy_eq, deletions_append, ← deletions_deleteAll, deleteAll, List.map_map]
    rfl
  unfold plan
  dsimp only
  generalize hextended : (p.needs request).map _ = extended
  have hadded : deletions (extended.flatMap (·.1)) = [] := by
    rw [deletions_flatMap, List.flatMap_eq_nil_iff, ← hextended]
    intro x hx
    obtain ⟨n, -, rfl⟩ := List.mem_map.mp hx
    split
    · exact deletions_extend _ _
    · rfl
  split
  · rw [deletions_append, hadded, List.append_nil, hdropped]
  · rw [deletions_append, deletions_append, hadded, List.append_nil, hdropped, deletions_cons, insertion_isDelete]
    exact List.append_nil _

end ImportPlanner

/-! ### The whole run -/

namespace Settings

variable {settings : Settings} {path : String} {source : Text} {tree : Node}

/-- The statements that a pass deletes. -/
def statements (settings : Settings) (path : String) (source : Text) (tree : Node) : Deletion → List Site
  | .slow => (tree.sites.filter (·.isCandidate)).filterMap
      (Run.slow? (settings.context source tree) settings.migrations)
  | .merged => (keptKeys (settings.context source tree) (settings.noted source tree)).flatMap
      (mergedStatements (settings.context source tree) (settings.noted source tree))
  | .sandbox => (settings.removedSandboxes source tree).flatMap
      (Run.unboxedStatements source (settings.sandboxes source tree))
  | .timeout =>
    if settings.migrations.contains .registration then
      RegistrationPass.timeouts source { edits := (settings.unboxed source tree).edits }
        (tree.sites.filter (·.kind == .call))
    else []
  | .setup => if (settings.pending source tree).isEmpty then (settings.discovered source tree).setup else []
  | .legacy => (settings.deleted path source tree).map (·.statement)

theorem deletions_unboxed (path : String) : deletions (settings.unboxed source tree).edits =
    deleteAll source Deletion.slow.rule (settings.statements path source tree .slow) ++
    deleteAll source Deletion.merged.rule (settings.statements path source tree .merged) ++
    deleteAll source Deletion.sandbox.rule (settings.statements path source tree .sandbox) := by
  have hsource : (settings.context source tree).source = source := rfl
  rw [unboxed, Run.removeSandboxes, Run.foldl_removeSandbox_edits, deletions_append, discovered,
    Run.finishStubs_edits, deletions_append]
  congr 1
  · congr 1
    · rw [deletions_flatMap, statements, List.filterMap_eq_flatMap_toList, deleteAll_flatMap]
      exact List.flatMap_congr fun s _ => Run.deletions_chainEdits s
    · rw [deletions_flatMap, statements, deleteAll_flatMap]
      exact List.flatMap_congr fun key _ => Plan.deletions_outcome rfl
  · rw [deletions_flatMap, statements, deleteAll_flatMap]
    refine List.flatMap_congr fun name _ => ?_
    rw [Run.sandboxDeletions_eq, deletions_deleteAll]
    rfl

theorem deletions_registered (path : String) : deletions (settings.registered source tree).1.edits =
    deletions (settings.unboxed source tree).edits ++
      deleteAll source Deletion.timeout.rule (settings.statements path source tree .timeout) := by
  rw [statements, registered]
  split
  · rename_i henabled
    rw [(Run.register_of_enabled henabled).1]
    exact RegistrationPass.deletions_foldl_addCall _ _
  · rename_i hdisabled
    rw [Run.register_of_disabled hdisabled]
    exact (List.append_nil _).symm

theorem registered_setup : (settings.registered source tree).1.setup = (settings.discovered source tree).setup := by
  rw [registered, Run.register_setup, unboxed, (Run.removeSandboxes_keeps _).2]
  rfl

theorem deletions_collected (path : String) : deletions (settings.collected source tree).edits =
    deletions (settings.registered source tree).1.edits ++
      deleteAll source Deletion.setup.rule (settings.statements path source tree .setup) := by
  rw [collected, Run.removeSetup, statements, registered_setup]
  split
  · rename_i hsetup
    rw [hsetup]
    split <;> exact (List.append_nil _).symm
  · rename_i first rest hsetup
    split
    · rw [hsetup]
      show deletions (_ ++ deleteAll _ Deletion.setup.rule (first :: rest)) = _
      rw [deletions_append, deletions_deleteAll]
    · exact (List.append_nil _).symm

/-- The deletions that a run plans are those of the statements of its passes, in the order of the passes. -/
theorem deletions_planned : deletions (settings.planned path source tree) =
    Deletion.all.flatMap fun d => deleteAll source d.rule (settings.statements path source tree d) := by
  rw [planned, ImportPlanner.deletions_plan, deletions_collected path, deletions_registered path,
    deletions_unboxed path]
  simp only [Deletion.all, List.flatMap_cons, List.flatMap_nil, List.append_nil, List.append_assoc]
  rfl

theorem statements_timeout : ∀ s ∈ settings.statements path source tree .timeout,
    s.Within tree ∧ s.isListed = true := by
  rw [statements]
  split
  · exact RegistrationPass.timeouts_spec (fun c hc => (List.mem_filter.mp hc).1) _
  · simp

theorem statements_within (d : Deletion) :
    ∀ s ∈ settings.statements path source tree d, s.Within tree := by
  have hdiscovered := @Run.discover_within (settings.context source tree) settings.migrations tree
  intro s hs
  cases d with
  | slow =>
    obtain ⟨root, hroot, hslow⟩ := List.mem_filterMap.mp hs
    exact Run.slow?_within (List.mem_filter.mp hroot).1 hslow
  | merged =>
    obtain ⟨key, hkey, hs⟩ := List.mem_flatMap.mp hs
    obtain ⟨-, c, hc, hparent⟩ := Plan.merged_joined (unobstructed_of_mem_keptKeys hkey) hs
    exact (Run.noted_within (List.mem_filter.mp hc).1).parent? hparent
  | sandbox =>
    obtain ⟨name, -, hs⟩ := List.mem_flatMap.mp hs
    exact Run.unboxedStatements_within (Run.sandboxDeclarations_within hdiscovered) hs
  | timeout => exact (statements_timeout s hs).1
  | setup =>
    rw [statements] at hs
    split at hs
    · exact hdiscovered.setup s hs
    · cases hs
  | legacy =>
    obtain ⟨d, hd, rfl⟩ := List.mem_map.mp hs
    have hchild := ImportScan.statement_mem_children (ImportPlanner.mem_declarations_of_mem_deleted hd)
    have hroot : (⟨tree, []⟩ : Site).Within tree := by
      cases tree
      exact List.mem_cons_self
    exact hroot.children hchild

/-- Passes that look at the place of a statement delete only statements of lists. -/
theorem isListed_of_checksPlace (htree : tree.kind = .program) {d : Deletion} (hd : d.checksPlace = true) :
    ∀ s ∈ settings.statements path source tree d, s.isListed = true := by
  intro s hs
  cases d with
  | slow | sandbox | setup => cases hd
  | merged =>
    obtain ⟨key, hkey, hs⟩ := List.mem_flatMap.mp hs
    exact (Plan.merged_joined (unobstructed_of_mem_keptKeys hkey) hs).1
  | timeout => exact (statements_timeout s hs).2
  | legacy =>
    obtain ⟨d, hd, rfl⟩ := List.mem_map.mp hs
    obtain ⟨n, -, hn⟩ := List.mem_map.mp
      (ImportScan.statement_mem_children (ImportPlanner.mem_declarations_of_mem_deleted hd))
    rw [← hn]
    refine Site.isListed_down ?_
    show tree.kind.listsStatements = true
    rw [htree]
    rfl

/-- The deletions of a run are those of the listed statements, all of them sites of the file. Every deleted
statement stands in a list of statements exactly when those do that are deleted without a look at their place:
thresholds for slow tests, sandboxes and the setup of assertion libraries. -/
theorem statements_listed_iff {text : String}
    (hparse : Grammar.parse (Grammar.ofPath path) text.toList = some tree) :
    (settings.planned path text.toList tree).filter (·.isDelete) = (Deletion.all.flatMap fun d =>
      (settings.statements path text.toList tree d).map fun s => .deleteStatement text.toList s.span d.rule) ∧
    (∀ d, ∀ s ∈ settings.statements path text.toList tree d, s ∈ tree.sites) ∧
    ((∀ d, ∀ s ∈ settings.statements path text.toList tree d, s.isListed = true) ↔
      ∀ d, d.checksPlace = false → ∀ s ∈ settings.statements path text.toList tree d, s.isListed = true) := by
  refine ⟨deletions_planned, statements_within, fun h d _ => h d, fun h d => ?_⟩
  cases hd : d.checksPlace with
  | false => exact h d hd
  | true => exact isListed_of_checksPlace (Grammar.parse_kind hparse) hd

set_option maxRecDepth 100000 in
theorem statements_listed_in_suite : ∃ (text : String) (tree : Node),
    text = "describe('a', function () \x7b\n  this.timeout(9);\n  this.slow(5);\n\x7d);\n" ∧
    Grammar.parse (Grammar.ofPath "a.test.js") text.toList = some tree ∧
    (∃ s, s ∈ Settings.statements {} "a.test.js" text.toList tree .slow) ∧
    ∀ d, ∀ s ∈ Settings.statements {} "a.test.js" text.toList tree d, s.isListed = true := by
  obtain ⟨text, htext⟩ : ∃ text, text =
      "describe('a', function () \x7b\n  this.timeout(9);\n  this.slow(5);\n\x7d);\n" := ⟨_, rfl⟩
  have hfile : (Grammar.parse (Grammar.ofPath "a.test.js") text.toList).any (fun tree =>
      !(Settings.statements {} "a.test.js" text.toList tree .slow).isEmpty &&
      [.slow, .sandbox, .setup].all fun d =>
        (Settings.statements {} "a.test.js" text.toList tree d).all (·.isListed)) = true := by
    rw [htext]
    decide +kernel
  obtain ⟨tree, hparse, hfile⟩ := (Option.any_eq_true _ _).mp hfile
  obtain ⟨hslow, hlisted⟩ := Bool.and_eq_true_iff.mp hfile
  refine ⟨text, tree, htext, hparse, List.exists_mem_of_ne_nil _ (by simpa using hslow), ?_⟩
  refine (statements_listed_iff hparse).2.2.mpr fun d hd => ?_
  have hd : d ∈ [.slow, .sandbox, .setup] := by cases d <;> simp_all [Deletion.checksPlace]
  exact List.all_eq_true.mp (List.all_eq_true.mp hlisted d hd)

set_option maxRecDepth 100000 in
/-- The body of an `if` is deleted, and the statement behind it becomes the body. -/
theorem body_deleted : ∃ (text output : String) (tree later : Node),
    text = "if (x) this.slow(5);\nf();\n" ∧ output = "if (x)\nf();\n" ∧
    Grammar.parse (Grammar.ofPath "a.test.js") text.toList = some tree ∧
    (∃ s ∈ Settings.statements {} "a.test.js" text.toList tree .slow, s.isListed = false) ∧
    (∀ s ∈ tree.sites, s.text text.toList = "f();" → s.isListed = true) ∧
    (migrateTree {} "a.test.js" text.toList tree).output = output ∧
    Grammar.parse (Grammar.ofPath "a.test.js") output.toList = some later ∧
    ∃ s ∈ later.sites, s.text output.toList = "f();" ∧ s.isListed = false := by
  obtain ⟨text, htext⟩ : ∃ text, text = "if (x) this.slow(5);\nf();\n" := ⟨_, rfl⟩
  obtain ⟨output, houtput⟩ : ∃ output, output = "if (x)\nf();\n" := ⟨_, rfl⟩
  have hfile : (Grammar.parse (Grammar.ofPath "a.test.js") text.toList).any (fun tree =>
      ((∃ s ∈ Settings.statements {} "a.test.js" text.toList tree .slow, s.isListed = false) ∧
        (∀ s ∈ tree.sites, s.text text.toList = "f();" → s.isListed = true) ∧
        (migrateTree {} "a.test.js" text.toList tree).output = output : Bool)) = true := by
    rw [htext, houtput]
    decide +kernel
  have hresult : (Grammar.parse (Grammar.ofPath "a.test.js") output.toList).any (fun later =>
      (∃ s ∈ later.sites, s.text output.toList = "f();" ∧ s.isListed = false : Bool)) = true := by
    rw [houtput]
    decide +kernel
  obtain ⟨tree, hparse, hfile⟩ := (Option.any_eq_true _ _).mp hfile
  obtain ⟨later, hlater, hresult⟩ := (Option.any_eq_true _ _).mp hresult
  obtain ⟨hdeleted, hbefore, hmigrated⟩ := of_decide_eq_true hfile
  exact ⟨text, output, tree, later, htext, houtput, hparse, hdeleted, hbefore, hmigrated, hlater,
    of_decide_eq_true hresult⟩

end Settings

end TestMigration
