import TestMigration.Proofs.Import.Settled
import TestMigration.Proofs.Registration.Settled
import TestMigration.Proofs.Run.Planned

/-!
# When a run has nothing to do

`Settings.Settled settings source tree` lists what every pass has to find, or not to find, for a run to
plan no edit: no chain is rewritten at once, no stub can be installed, every sandbox, setup and legacy
declaration is still needed, and every registration is written the way the test module wants it and
imported.

Main statement: `Settings.planned_eq_nil_iff`, a run plans no edit exactly on settled files.
-/

namespace TestMigration

/-! ### Chains -/

/-- The synthesis makes no edit at once. -/
def Synthesis.Waits : Synthesis → Prop
  | .replace _ _ | .removeStatement _ => False
  | .removeSetup _ | .removeDeclaration _ _ | .configure _ | .skip _ => True

namespace Run

variable {ctx : Context} {migrations : List Migration} {tree : Node}

/-- The chain is left as it is for now. -/
def Waits (ctx : Context) (migrations : List Migration) (root : Site) : Prop :=
  ∀ m rule synthesis, found? ctx migrations root = some (m, rule, synthesis) → synthesis.Waits

theorem visit_edits_eq_nil_iff {r : Run} {root : Site} :
    (r.visit ctx migrations root).edits = [] ↔ r.edits = [] ∧ Waits ctx migrations root := by
  rw [visit_eq]
  unfold Waits
  cases hfound : found? ctx migrations root with
  | none => simp
  | some f =>
    obtain ⟨m, rule, synthesis⟩ := f
    have hiff : (∀ m' rule' synthesis', some (m, rule, synthesis) = some (m', rule', synthesis') →
        synthesis'.Waits) ↔ synthesis.Waits := by
      constructor
      · exact fun h => h m rule synthesis rfl
      · rintro h m' rule' synthesis' heq
        cases heq
        exact h
    rw [hiff]
    cases synthesis <;> simp [Run.add, Synthesis.Waits]

theorem visit_requires {r : Run} {root : Site} (h : Waits ctx migrations root) :
    (r.visit ctx migrations root).requires = r.requires := by
  rw [visit_eq]
  cases hfound : found? ctx migrations root with
  | none => rfl
  | some f =>
    obtain ⟨m, rule, synthesis⟩ := f
    have hwaits := h m rule synthesis hfound
    cases synthesis <;> first | rfl | exact absurd hwaits id

theorem discover_edits_eq_nil_iff : (discover ctx migrations tree).edits = [] ↔
    ∀ s ∈ tree.sites, s.isCandidate = true → Waits ctx migrations s := by
  have hfold (sites : List Site) (r : Run) :
      (sites.foldl (visit ctx migrations) r).edits = [] ↔
        r.edits = [] ∧ ∀ s ∈ sites, Waits ctx migrations s := by
    induction sites generalizing r with
    | nil => simp
    | cons s rest ih => rw [List.foldl_cons, ih, visit_edits_eq_nil_iff, List.forall_mem_cons, and_assoc]
  simpa [discover] using hfold (tree.sites.filter (·.isCandidate)) {}

theorem discover_requires (h : ∀ s ∈ tree.sites, s.isCandidate = true → Waits ctx migrations s) :
    (discover ctx migrations tree).requires = [] := by
  have hfold (sites : List Site) (hsites : ∀ s ∈ sites, Waits ctx migrations s) (r : Run) :
      (sites.foldl (visit ctx migrations) r).requires = r.requires := by
    induction sites generalizing r with
    | nil => rfl
    | cons s rest ih =>
      obtain ⟨hs, hrest⟩ := List.forall_mem_cons.mp hsites
      rw [List.foldl_cons, ih hrest, visit_requires hs]
  exact hfold _ (fun s hs => h s (List.mem_filter.mp hs).1 (List.mem_filter.mp hs).2) {}

/-! ### Stubs -/

theorem visit_installable {r : Run} {root : Site} (h : ∀ p ∈ r.plans, p.2.Installable) :
    ∀ p ∈ (r.visit ctx migrations root).plans, p.2.Installable := by
  rw [visit_eq]
  cases hfound : found? ctx migrations root with
  | none => exact h
  | some f =>
    obtain ⟨m, rule, synthesis⟩ := f
    -- a configuration that makes no stub knows its variable
    cases aims_of_found? hfound with
    | configure hroot hbinding => exact Plans.installable_addAt h hbinding
    | chain => exact h
    | callee => exact h
    | statement => exact h
    | setup => exact h
    | declaration => exact h
    | skip => exact h

theorem discover_installable : ∀ p ∈ (discover ctx migrations tree).plans, p.2.Installable := by
  have hfold (sites : List Site) (r : Run) (hr : ∀ p ∈ r.plans, p.2.Installable) :
      ∀ p ∈ (sites.foldl (visit ctx migrations) r).plans, p.2.Installable := by
    induction sites generalizing r with
    | nil => exact hr
    | cons s rest ih => exact ih _ (visit_installable hr)
  exact hfold _ {} (by simp)

end Run

/-! ### Sandboxes -/

namespace Run

variable {ctx : Context} {tree : Node} {declarations : List (Site × String)}

/-- The statements that declare a sandbox. -/
def sandboxStatements (declarations : List (Site × String)) (binding : String) : List Site :=
  (declarations.filter (·.2 == binding)).map (·.1)

theorem removeSandbox_edits_eq_nil_iff {r : Run} {binding : String}
    (hbinding : binding ∈ declarations.map (·.2)) :
    (r.removeSandbox ctx tree declarations binding).edits = [] ↔ r.edits = [] ∧
      isStillReferenced ctx.source tree binding
        ((sandboxStatements declarations binding).map (·.span)) [] = true := by
  obtain ⟨d, hd, hname⟩ := List.mem_map.mp hbinding
  have hstatements : sandboxStatements declarations binding ≠ [] := by
    refine List.ne_nil_of_mem (a := d.1) (List.mem_map.mpr ⟨d, List.mem_filter.mpr ⟨hd, ?_⟩, rfl⟩)
    simpa using hname
  unfold Run.removeSandbox
  dsimp only
  constructor
  · intro h
    split at h
    · rename_i hused
      have hnil : r.edits = [] := h
      rw [hnil] at hused
      exact ⟨hnil, hused⟩
    · obtain ⟨-, hnil⟩ := List.append_eq_nil_iff.mp h
      exact absurd (List.map_eq_nil_iff.mp hnil) hstatements
  · rintro ⟨hnil, hused⟩
    split
    · exact hnil
    · rename_i hunused
      rw [hnil] at hunused
      exact absurd hused hunused

theorem removeSandboxes_edits_eq_nil_iff {r : Run} : (r.removeSandboxes ctx tree).edits = [] ↔
    r.edits = [] ∧ ∀ d ∈ sandboxDeclarations ctx tree r, isStillReferenced ctx.source tree d.2
      ((sandboxStatements (sandboxDeclarations ctx tree r) d.2).map (·.span)) [] = true := by
  generalize hdeclarations : sandboxDeclarations ctx tree r = declarations
  have hfold (names : List String) (hnames : ∀ n ∈ names, n ∈ declarations.map (·.2)) (r' : Run) :
      (names.foldl (removeSandbox ctx tree declarations) r').edits = [] ↔
        r'.edits = [] ∧ ∀ n ∈ names, isStillReferenced ctx.source tree n
          ((sandboxStatements declarations n).map (·.span)) [] = true := by
    induction names generalizing r' with
    | nil => simp
    | cons n rest ih =>
      obtain ⟨hn, hrest⟩ := List.forall_mem_cons.mp hnames
      rw [List.foldl_cons, ih hrest, removeSandbox_edits_eq_nil_iff hn, List.forall_mem_cons, and_assoc]
  have hrun : r.removeSandboxes ctx tree =
      (orderNames (declarations.map (·.2))).foldl (removeSandbox ctx tree declarations) r := by
    rw [← hdeclarations]
    rfl
  rw [hrun, hfold _ (fun n hn => mem_orderNames.mp hn)]
  simp only [mem_orderNames, List.forall_mem_map]

theorem removeSandboxes_keeps (r : Run) : (r.removeSandboxes ctx tree).requires = r.requires ∧
    (r.removeSandboxes ctx tree).setup = r.setup := by
  have hfold (names : List String) (declarations : List (Site × String)) (r' : Run) :
      (names.foldl (removeSandbox ctx tree declarations) r').requires = r'.requires ∧
        (names.foldl (removeSandbox ctx tree declarations) r').setup = r'.setup := by
    induction names generalizing r' with
    | nil => exact ⟨rfl, rfl⟩
    | cons n rest ih =>
      obtain ⟨hrequires, hsetup⟩ := ih (r'.removeSandbox ctx tree declarations n)
      rw [List.foldl_cons, hrequires, hsetup]
      unfold Run.removeSandbox
      dsimp only
      split <;> exact ⟨rfl, rfl⟩
  exact hfold _ _ r

end Run

/-! ### Registrations and setup -/

namespace Run

variable {source : Text} {tree : Node} {scan : ImportScan} {settings : Settings} {r : Run}

theorem register_of_disabled (h : ¬ settings.migrations.contains .registration = true) :
    r.register source tree scan settings = (r, []) := if_neg h

theorem register_of_enabled (h : settings.migrations.contains .registration = true) :
    (r.register source tree scan settings).1.edits = (RegistrationPass.ofTree source tree r.edits).edits ∧
      ((RegistrationPass.ofTree source tree r.edits).usage.found = true →
        (r.register source tree scan settings).1.requires = r.requires ++ [.test] ∧
        ((scan.find? settings.targets.test).isSome = true → (r.register source tree scan settings).2 =
          (RegistrationPass.ofTree source tree r.edits).usage.names)) ∧
      (¬ (RegistrationPass.ofTree source tree r.edits).usage.found = true →
        (r.register source tree scan settings).1.requires = r.requires) := by
  unfold register
  rw [if_pos h]
  by_cases hfound : (RegistrationPass.ofTree source tree r.edits).usage.found = true
  · rw [if_pos hfound]
    refine ⟨rfl, fun _ => ⟨rfl, fun htest => if_pos htest⟩, fun hnot => absurd hfound hnot⟩
  · rw [if_neg hfound]
    exact ⟨rfl, fun hyes => absurd hyes hfound, fun _ => rfl⟩

theorem register_edits_eq_nil_iff : (r.register source tree scan settings).1.edits = [] ↔ r.edits = [] ∧
    (settings.migrations.contains .registration = true → RegistrationPass.Settled source tree) := by
  by_cases henabled : settings.migrations.contains .registration = true
  · rw [(register_of_enabled henabled).1, RegistrationPass.ofTree_edits_eq_nil_iff]
    exact and_congr_right fun _ => ⟨fun h _ => h, fun h => h henabled⟩
  · rw [register_of_disabled henabled]
    exact ⟨fun h => ⟨h, fun hyes => absurd hyes henabled⟩, fun h => h.1⟩

theorem register_setup : (r.register source tree scan settings).1.setup = r.setup := by
  by_cases henabled : settings.migrations.contains .registration = true
  · unfold register
    rw [if_pos henabled]
    by_cases hfound : (RegistrationPass.ofTree source tree r.edits).usage.found = true
    · rw [if_pos hfound]
    · rw [if_neg hfound]
  · rw [register_of_disabled henabled]

/-- Every name that a registration needs is imported from the test module. -/
def Imported (settings : Settings) (source : Text) (tree : Node) (scan : ImportScan) : Prop :=
  ∀ name, RegistrationPass.Uses source tree name →
    ∃ d, scan.find? settings.targets.test = some d ∧ (d.localFor? name).isSome = true

/-- A run without edits asks for nothing but the test module, whose names are then those in use. -/
theorem register_requires (h : (r.register source tree scan settings).1.edits = []) (hr : r.requires = []) :
    ((r.register source tree scan settings).1.requires = [] ∨
      (r.register source tree scan settings).1.requires = [.test]) ∧
    (((r.register source tree scan settings).1.requires = [.test] →
        ImportPlanner.Imports scan settings.targets.test (r.register source tree scan settings).2) ↔
      (settings.migrations.contains .registration = true → Imported settings source tree scan)) := by
  by_cases henabled : settings.migrations.contains .registration = true
  · obtain ⟨hedits, hyes, hno⟩ := @register_of_enabled source tree scan settings r henabled
    rw [hedits] at h
    have hfound := RegistrationPass.ofTree_found_iff h
    by_cases hany : (RegistrationPass.ofTree source tree r.edits).usage.found = true
    · obtain ⟨hrequires, hnames⟩ := hyes hany
      rw [hrequires, hr]
      refine ⟨Or.inr rfl, ?_⟩
      simp only [List.nil_append, true_implies, henabled]
      cases htest : scan.find? settings.targets.test with
      | none =>
        obtain ⟨name, hname⟩ := hfound.mp hany
        refine ⟨fun ⟨d, hd, _⟩ => ?_, fun himported => ?_⟩
        · rw [htest] at hd
          cases hd
        · obtain ⟨d, hd, -⟩ := himported name hname
          rw [htest] at hd
          cases hd
      | some d =>
        rw [hnames (by rw [htest]; rfl)]
        unfold ImportPlanner.Imports Imported
        simp only [htest, Option.some.injEq, exists_eq_left', RegistrationPass.mem_ofTree_names h]
    · rw [hno hany, hr]
      refine ⟨Or.inl rfl, fun _ _ name hname => ?_, fun _ hcontra => ?_⟩
      · exact absurd (hfound.mpr ⟨name, hname⟩) hany
      · cases hcontra
  · rw [register_of_disabled henabled]
    dsimp only
    rw [hr]
    exact ⟨Or.inl rfl, fun _ hyes => absurd hyes henabled, fun _ hcontra => by cases hcontra⟩

theorem removeSetup_edits_eq_nil_iff {pending : List Leftover} : (r.removeSetup source pending).edits = [] ↔
    r.edits = [] ∧ (r.setup = [] ∨ pending ≠ []) := by
  unfold removeSetup
  split
  · rename_i hsetup
    simp [hsetup]
  · rename_i first rest hsetup
    cases pending with
    | nil => simp [hsetup]
    | cons l ls => simp

theorem removeSetup_requires {pending : List Leftover} :
    (r.removeSetup source pending).requires = r.requires := by
  unfold removeSetup
  split
  · rfl
  · split <;> rfl

end Run

/-! ### Settled files -/

/-- The declarations of sandboxes in a file. -/
def Settings.sandboxes (settings : Settings) (source : Text) (tree : Node) : List (Site × String) :=
  Run.sandboxDeclarations (settings.context source tree) tree (settings.discovered source tree)

/-- Nothing in the file is left to do for a run. -/
structure Settings.Settled (settings : Settings) (source : Text) (tree : Node) : Prop where
  /-- No chain is replaced or deleted at once. -/
  chains : ∀ s ∈ tree.sites, s.isCandidate = true →
    Run.Waits (settings.context source tree) settings.migrations s
  /-- Every stub was given up. -/
  stubs : ∀ p ∈ (settings.discovered source tree).plans.withoutOverriding source, p.2.skipped.isSome = true
  /-- Every sandbox has a use apart from its declarations. -/
  sandboxes : ∀ d ∈ settings.sandboxes source tree, isStillReferenced source tree d.2
    ((Run.sandboxStatements (settings.sandboxes source tree) d.2).map (·.span)) [] = true
  registrations : settings.migrations.contains .registration = true → RegistrationPass.Settled source tree
  imports : settings.migrations.contains .registration = true →
    Run.Imported settings source tree (ImportScan.ofTree source tree)
  /-- The setup of assertion libraries is needed by the code that is left. -/
  setup : (settings.discovered source tree).setup = [] ∨ settings.pending source tree ≠ []
  /-- Every declaration that should go binds a name that is still used. -/
  legacy : ∀ d ∈ (ImportScan.ofTree source tree).declarations,
    (settings.request source tree).legacy.contains d.logical = true →
      ImportPlanner.stillUsed source tree (settings.request source tree).provided [] d ≠ []

namespace Settings

variable {settings : Settings} {source : Text} {tree : Node}

theorem unboxed_edits_eq_nil_iff : (settings.unboxed source tree).edits = [] ↔
    (∀ s ∈ tree.sites, s.isCandidate = true →
      Run.Waits (settings.context source tree) settings.migrations s) ∧
    (∀ p ∈ (settings.discovered source tree).plans.withoutOverriding source, p.2.skipped.isSome = true) ∧
    ∀ d ∈ settings.sandboxes source tree, isStillReferenced source tree d.2
      ((Run.sandboxStatements (settings.sandboxes source tree) d.2).map (·.span)) [] = true := by
  have hstubs := @Plans.outcome_edits_eq_nil_iff (settings.context source tree)
    (settings.discovered source tree).plans Run.discover_installable
  rw [unboxed, Run.removeSandboxes_edits_eq_nil_iff, ← and_assoc]
  refine and_congr ?_ Iff.rfl
  rw [Run.finishStubs, List.append_eq_nil_iff]
  exact and_congr Run.discover_edits_eq_nil_iff hstubs

theorem unboxed_requires (h : (settings.unboxed source tree).edits = []) :
    (settings.unboxed source tree).requires = [] := by
  obtain ⟨hchains, hstubs, -⟩ := unboxed_edits_eq_nil_iff.mp h
  rw [unboxed, (Run.removeSandboxes_keeps _).1, Run.finishStubs]
  have hdiscovered : (settings.discovered source tree).requires = [] := Run.discover_requires hchains
  have houtcome : ((settings.discovered source tree).plans.outcome (settings.context source tree)).requires =
      [] := Plans.outcome_requires hstubs
  simp [hdiscovered, houtcome]

theorem collected_edits_eq_nil_iff : (settings.collected source tree).edits = [] ↔
    (settings.unboxed source tree).edits = [] ∧
    (settings.migrations.contains .registration = true → RegistrationPass.Settled source tree) ∧
    ((settings.discovered source tree).setup = [] ∨ settings.pending source tree ≠ []) := by
  have hsetup : (settings.registered source tree).1.setup = (settings.discovered source tree).setup := by
    rw [registered, Run.register_setup, unboxed, (Run.removeSandboxes_keeps _).2]
    rfl
  rw [collected, Run.removeSetup_edits_eq_nil_iff, hsetup, registered, Run.register_edits_eq_nil_iff,
    and_assoc]

/-- A run plans no edit exactly on settled files. -/
theorem planned_eq_nil_iff (path : String) :
    settings.planned path source tree = [] ↔ settings.Settled source tree := by
  have hrequest : (settings.request source tree).modules = (settings.registered source tree).1.requires :=
    Run.removeSetup_requires
  -- what the run needs is known once nothing was edited before the imports
  have hplan (h : (settings.collected source tree).edits = []) := by
    obtain ⟨hunboxed, hregistrations, -⟩ := collected_edits_eq_nil_iff.mp h
    have hregistered : (settings.registered source tree).1.edits = [] :=
      Run.register_edits_eq_nil_iff.mpr ⟨hunboxed, hregistrations⟩
    obtain ⟨hmodules, himports⟩ := Run.register_requires hregistered (unboxed_requires hunboxed)
    rw [← registered, ← hrequest] at hmodules himports
    have hiff := @ImportPlanner.plan_edits_eq_nil_iff (settings.planner path source tree) source tree
      (settings.request source tree) (settings.collected source tree).edits hmodules
    rw [ImportPlanner.dropLegacy_edits_eq_nil_iff] at hiff
    exact hiff.trans (and_congr Iff.rfl himports)
  constructor
  · intro h
    obtain ⟨more, hmore⟩ := @ImportPlanner.plan_edits (settings.planner path source tree) source tree
      (settings.request source tree) (settings.collected source tree).edits
    have hcollected : (settings.collected source tree).edits = [] := by
      rw [planned, hmore, ImportPlanner.dropLegacy_eq] at h
      simp only [List.append_eq_nil_iff] at h
      exact h.1.1
    obtain ⟨⟨-, hlegacy⟩, himports⟩ := (hplan hcollected).mp h
    obtain ⟨hunboxed, hregistrations, hsetup⟩ := collected_edits_eq_nil_iff.mp hcollected
    obtain ⟨hchains, hstubs, hsandboxes⟩ := unboxed_edits_eq_nil_iff.mp hunboxed
    exact ⟨hchains, hstubs, hsandboxes, hregistrations, himports, hsetup, hlegacy⟩
  · intro h
    have hunboxed := unboxed_edits_eq_nil_iff.mpr ⟨h.chains, h.stubs, h.sandboxes⟩
    have hcollected := collected_edits_eq_nil_iff.mpr ⟨hunboxed, h.registrations, h.setup⟩
    exact (hplan hcollected).mpr ⟨⟨hcollected, h.legacy⟩, h.imports⟩

end Settings

end TestMigration
