import TestMigration.Proofs.Grammar.Parsed
import TestMigration.Proofs.Import.Placed
import TestMigration.Proofs.Registration.Placed
import TestMigration.Proofs.Rule.Targets
import TestMigration.Proofs.Stub.Plan
import TestMigration.Run.Outcome

/-!
# The edits that a run plans

A run goes through its passes and applies all edits at the end. Here the passes get names: `Settings.context`
is what the rules look up, `Settings.registered` the run up to the pass over registrations, `Settings.planned`
the list of all edits, in the order of their discovery. `migrateTree_eq` says that a run is these passes.

Main statement: `Settings.planned_inside`, every planned edit lies in the file.
-/

namespace TestMigration

namespace Settings

section
variable (settings : Settings) (path : String) (source : Text) (tree : Node)

/-- What the rules look up in a file. -/
def context : Context :=
  let names := (ImportScan.ofTree source tree).names settings.targets
  { source, names
    mocks := if settings.migrations.contains .mocks then MockBindings.ofTree source names tree else {} }

/-- The run after all chains were looked at. -/
def discovered : Run := Run.discover (settings.context source tree) settings.migrations tree

/-- The run with stubs installed and sandboxes removed. -/
def unboxed : Run :=
  ((settings.discovered source tree).finishStubs (settings.context source tree)).removeSandboxes
    (settings.context source tree) tree

/-- The run after the pass over registrations, with the names to be imported. -/
def registered : Run × List String :=
  (settings.unboxed source tree).register source tree (ImportScan.ofTree source tree) settings

/-- The legacy code that is left when the setup of assertion libraries is not counted. -/
def pending : List Leftover :=
  let run := (settings.registered source tree).1
  let scan := ImportScan.ofTree source tree
  leftovers source tree
    (legacyNames scan settings.migrations (settings.registered source tree).2)
    (run.setup.map (·.span) ++ scan.declarations.map (·.statement.span)) run.edits

/-- The run with the setup of assertion libraries deleted or kept. -/
def collected : Run :=
  (settings.registered source tree).1.removeSetup source (settings.pending source tree)

def request : ImportRequest :=
  (settings.collected source tree).importRequest (settings.registered source tree).2
    ((settings.pending source tree).any (·.accessesShould))

/-- How declarations are written in the file. -/
def planner : ImportPlanner :=
  let scan := ImportScan.ofTree source tree
  { scan, names := scan.names settings.targets, targets := settings.targets
    dialect := scan.dialect path, style := settings.style.apply (Style.detect source tree) }

/-- All edits of a run, in the order of their discovery. -/
def planned : List Edit :=
  ((settings.planner path source tree).plan source tree (settings.request source tree)
    (settings.collected source tree).edits).1

def applied : Applied :=
  applyEdits source (settings.style.apply (Style.detect source tree)) (settings.planned path source tree)

end

end Settings

theorem migrateTree_eq (settings : Settings) (path : String) (source : Text) (tree : Node) :
    (migrateTree settings path source tree).output = (settings.applied path source tree).output ∧
      (migrateTree settings path source tree).counts = (settings.applied path source tree).counts ∧
      (migrateTree settings path source tree).changed =
        ((settings.applied path source tree).output.toList != source) := by
  simp only [migrateTree, Settings.applied, Settings.planned, Settings.planner, Settings.request,
    Settings.collected, Settings.pending, Settings.registered, Settings.unboxed, Settings.discovered,
    Settings.context]
  refine ⟨?_, ?_, ?_⟩ <;> rfl

/-! ### Discovery -/

/-- All edits found so far lie in the file, and the sites noted down are placed in it. -/
structure Run.Placed (source : Text) (r : Run) : Prop where
  edits : ∀ e ∈ r.edits, e.Inside source.size
  plans : ∀ p ∈ r.plans, (∀ s ∈ p.2.install, s.Placed source) ∧
    ∀ s ∈ p.2.contributions, s.Placed source
  declarations : ∀ d ∈ r.declarations, d.1.Placed source
  setup : ∀ s ∈ r.setup, s.Placed source

namespace Run

variable {source : Text} {ctx : Context} {migrations : List Migration} {r : Run}

theorem Placed.add {root : Site} {m : Migration} {rule : Rule} {s : Synthesis} (h : r.Placed ctx.source)
    (hs : s.Placed ctx.source) : (r.add ctx root m rule s).Placed ctx.source := by
  cases s with
  | replace target e =>
    refine ⟨List.forall_mem_append.mpr ⟨h.edits, ?_⟩, h.plans, h.declarations, h.setup⟩
    exact List.forall_mem_singleton.mpr (Site.Placed.inside hs _ _)
  | removeStatement statement =>
    refine ⟨List.forall_mem_append.mpr ⟨h.edits, ?_⟩, h.plans, h.declarations, h.setup⟩
    exact List.forall_mem_singleton.mpr (Site.Placed.deleteStatement_inside hs _)
  | removeSetup statement =>
    refine ⟨h.edits, h.plans, h.declarations, List.forall_mem_append.mpr ⟨h.setup, ?_⟩⟩
    exact List.forall_mem_singleton.mpr hs
  | removeDeclaration statement binding =>
    refine ⟨h.edits, h.plans, List.forall_mem_append.mpr ⟨h.declarations, ?_⟩, h.setup⟩
    exact List.forall_mem_singleton.mpr hs
  | configure config => exact ⟨h.edits, Plans.addAt_placed h.plans hs, h.declarations, h.setup⟩
  | skip reason => exact ⟨h.edits, h.plans, h.declarations, h.setup⟩

/-- What the enabled migrations ask for a chain: the first rule that recognises it decides. -/
def found? (ctx : Context) (migrations : List Migration) (root : Site) :
    Option (Migration × Rule × Synthesis) :=
  migrations.findSome? fun m => (m.findRule? ctx (Chain.walk ctx.source root)).map fun f => (m, f)

theorem visit_eq (r : Run) (root : Site) : r.visit ctx migrations root =
    match found? ctx migrations root with
    | some (m, rule, synthesis) => r.add ctx root m rule synthesis
    | none => r := rfl

theorem aims_of_found? {m : Migration} {rule : Rule} {synthesis : Synthesis} {root : Site}
    (h : found? ctx migrations root = some (m, rule, synthesis)) :
    synthesis.Aims ctx (Chain.walk ctx.source root) := by
  obtain ⟨m', -, hm'⟩ := List.exists_of_findSome?_eq_some h
  obtain ⟨f, hf, heq⟩ := Option.map_eq_some_iff.mp hm'
  cases heq
  exact Migration.findRule?_aims hf

theorem Placed.visit {root : Site} (h : r.Placed ctx.source) (hroot : root.Placed ctx.source) :
    (r.visit ctx migrations root).Placed ctx.source := by
  rw [visit_eq]
  cases hfound : found? ctx migrations root with
  | none => exact h
  | some f => exact h.add ((aims_of_found? hfound).placed (Chain.walk_placed hroot))

theorem discover_placed {tree : Node} (h : tree.Placed ctx.source) :
    (discover ctx migrations tree).Placed ctx.source := by
  have hfold (sites : List Site) (hsites : ∀ s ∈ sites, s.Placed ctx.source) (r : Run)
      (hr : r.Placed ctx.source) : (sites.foldl (visit ctx migrations) r).Placed ctx.source := by
    induction sites generalizing r with
    | nil => exact hr
    | cons s rest ih =>
      obtain ⟨hs, hrest⟩ := List.forall_mem_cons.mp hsites
      exact ih hrest _ (hr.visit hs)
  refine hfold _ ?_ {} ⟨by simp, by simp, by simp, by simp⟩
  intro s hs
  exact Site.Placed.of_sites h (List.mem_filter.mp hs).1

theorem Placed.finishStubs (h : r.Placed ctx.source) : (r.finishStubs ctx).Placed ctx.source := by
  refine ⟨?_, h.plans, h.declarations, h.setup⟩
  refine List.forall_mem_append.mpr ⟨h.edits, ?_⟩
  rw [Plans.outcome_edits]
  intro e he
  obtain ⟨p, hp, he⟩ := List.mem_flatMap.mp he
  exact Plan.outcome_inside rfl (Plans.withoutOverriding_placed h.plans p hp) e he

/-! ### Sandboxes -/

theorem emptiedHook?_placed {s hook : Site} {t : Text} (hs : s.Placed source)
    (h : s.emptiedHook? t = some hook) : hook.Placed source := by
  simp only [Site.emptiedHook?, Option.bind_eq_bind, Option.bind_eq_some_iff] at h
  obtain ⟨f, ⟨body, hbody, hf⟩, -, -, -, -, call, ⟨args, hargs, hcall⟩, callee, -, -, -, hhook⟩ := h
  exact ((((hs.parent? hbody).parent? hf).parent? hargs).parent? hcall).parentOf? hhook

theorem Placed.removeSandbox {tree : Node} {declarations : List (Site × String)} {binding : String}
    (h : r.Placed ctx.source) (hdeclarations : ∀ d ∈ declarations, d.1.Placed ctx.source) :
    (r.removeSandbox ctx tree declarations binding).Placed ctx.source := by
  unfold Run.removeSandbox
  dsimp only
  split
  · exact ⟨h.edits, h.plans, h.declarations, h.setup⟩
  · refine ⟨List.forall_mem_append.mpr ⟨h.edits, ?_⟩, h.plans, h.declarations, h.setup⟩
    intro e he
    obtain ⟨s, hs, rfl⟩ := List.mem_map.mp he
    obtain ⟨d, hd, rfl⟩ := List.mem_map.mp hs
    have hplaced := hdeclarations d (List.mem_filter.mp hd).1
    cases hhook : d.1.emptiedHook? ctx.source with
    | none => exact hplaced.deleteStatement_inside _
    | some hook => exact (emptiedHook?_placed hplaced hhook).deleteStatement_inside _

/-- The declarations that may go with their sandboxes: those noted down, and those without a value. -/
def sandboxDeclarations (ctx : Context) (tree : Node) (r : Run) : List (Site × String) :=
  r.declarations ++ (tree.sites.filterMap (·.uninitialized? ctx.source)).filter fun (_, name) =>
    ctx.mocks.sandboxes.contains name

theorem sandboxDeclarations_placed {tree : Node} (h : r.Placed ctx.source)
    (htree : tree.Placed ctx.source) : ∀ d ∈ sandboxDeclarations ctx tree r, d.1.Placed ctx.source := by
  refine List.forall_mem_append.mpr ⟨h.declarations, ?_⟩
  intro d hd
  obtain ⟨s, hs, hd⟩ := List.mem_filterMap.mp (List.mem_filter.mp hd).1
  simp only [Site.uninitialized?, Option.bind_eq_bind, Option.bind_eq_some_iff] at hd
  obtain ⟨-, -, hd⟩ := hd
  split at hd
  · simp only [Option.bind_eq_some_iff] at hd
    obtain ⟨name, -, -, -, heq⟩ := hd
    cases heq
    exact Site.Placed.of_sites htree hs
  · cases hd

theorem Placed.removeSandboxes {tree : Node} (h : r.Placed ctx.source) (htree : tree.Placed ctx.source) :
    (r.removeSandboxes ctx tree).Placed ctx.source := by
  have hdeclarations := sandboxDeclarations_placed h htree
  have hfold (names : List String) (r' : Run) (hr' : r'.Placed ctx.source) :
      (names.foldl (Run.removeSandbox ctx tree (sandboxDeclarations ctx tree r)) r').Placed ctx.source := by
    induction names generalizing r' with
    | nil => exact hr'
    | cons name rest ih => exact ih _ (hr'.removeSandbox hdeclarations)
  exact hfold _ r h

end Run

/-! ### Registrations and setup -/

namespace Run

variable {source : Text} {r : Run}

theorem Placed.register {tree : Node} {scan : ImportScan} {settings : Settings} (h : r.Placed source)
    (htree : tree.Placed source) : (r.register source tree scan settings).1.Placed source := by
  unfold Run.register
  split
  · have hpass := RegistrationPass.ofTree_inside htree h.edits
    dsimp only
    split <;> exact ⟨hpass, h.plans, h.declarations, h.setup⟩
  · exact h

theorem Placed.removeSetup {pending : List Leftover} (h : r.Placed source) :
    (r.removeSetup source pending).Placed source := by
  unfold Run.removeSetup
  split
  · exact h
  · rename_i first rest hsetup
    split
    · refine ⟨List.forall_mem_append.mpr ⟨h.edits, ?_⟩, h.plans, h.declarations, h.setup⟩
      intro e he
      obtain ⟨s, hs, rfl⟩ := List.mem_map.mp he
      exact (h.setup s (by rw [hsetup]; exact hs)).deleteStatement_inside _
    · exact ⟨h.edits, h.plans, h.declarations, h.setup⟩

end Run

/-! ### The whole run -/

/-- Every edit that a run plans lies in the file. -/
theorem Settings.planned_inside (settings : Settings) (path : String) {source : Text} {tree : Node}
    (htree : tree.Placed source) : ∀ e ∈ settings.planned path source tree, e.Inside source.size := by
  have hdiscovered := @Run.discover_placed (settings.context source tree) settings.migrations tree htree
  have hunboxed : (settings.unboxed source tree).Placed source :=
    hdiscovered.finishStubs.removeSandboxes htree
  have hcollected : (settings.collected source tree).Placed source :=
    (hunboxed.register htree).removeSetup
  exact ImportPlanner.plan_inside (ImportScan.ofTree_placed htree) hcollected.edits

end TestMigration
