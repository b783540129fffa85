import TestMigration.Proofs.Import.Dropped

/-!
# When imports need no edit

Planning imports finds nothing to edit exactly when every legacy declaration is still used and every name
that generated code needs is imported. Only the test module is ever needed by a run without edits.

Main statement: `ImportPlanner.plan_edits_eq_nil_iff`.
-/

namespace TestMigration

namespace ImportPlanner

variable {p : ImportPlanner} {source : Text} {tree : Node} {request : ImportRequest}

/-! ### Legacy declarations -/

theorem dropLegacy_edits_eq_nil_iff {edits : List Edit} :
    (p.dropLegacy source tree request edits).1 = [] ↔ edits = [] ∧ ∀ d ∈ p.scan.declarations,
      request.legacy.contains d.logical = true → stillUsed source tree request.provided [] d ≠ [] := by
  rw [dropLegacy_eq, List.append_eq_nil_iff, List.map_eq_nil_iff]
  refine and_congr_right fun hnil => ?_
  rw [hnil, deleted, deletedFrom_eq_nil_iff]
  simp only [List.mem_filter, and_imp]

/-! ### Needs -/

theorem addNamed_eq_nil_iff {d : Declaration} {missing : List String} :
    addNamed d missing = ([], []) ↔ missing = [] := by
  unfold addNamed
  dsimp only
  cases missing with
  | nil => simp
  | cons name rest =>
    rw [if_neg (by simp)]
    split
    · split <;> simp
    · split <;> simp
    · simp

theorem extend_eq_nil_iff {d : Declaration} {names : List String} :
    p.extend d { named := names } = ([], none) ↔ ∀ name ∈ names, (d.localFor? name).isSome = true := by
  have hmissing : names.filter (fun name => (d.localFor? name).isNone) = [] ↔
      ∀ name ∈ names, (d.localFor? name).isSome = true := by
    simp [List.filter_eq_nil_iff, Option.isSome_iff_ne_none]
  rw [← hmissing, ← addNamed_eq_nil_iff (d := d)]
  unfold extend
  dsimp only
  generalize addNamed d (names.filter fun name => (d.localFor? name).isNone) = added
  obtain ⟨edits, named⟩ := added
  simp only [Option.filter_none, addDefault, List.nil_append, Need.isEmpty, Option.isNone_none,
    Bool.true_and, Prod.mk.injEq]
  refine and_congr_right fun _ => ?_
  cases named <;> simp

/-- The file imports all of the names from the module. -/
def Imports (scan : ImportScan) (specifier : String) (names : List String) : Prop :=
  ∃ d, scan.find? specifier = some d ∧ ∀ name ∈ names, (d.localFor? name).isSome = true

theorem plan_edits_eq_nil_iff {edits : List Edit}
    (hmodules : request.modules = [] ∨ request.modules = [.test]) :
    (p.plan source tree request edits).1 = [] ↔ (p.dropLegacy source tree request edits).1 = [] ∧
      (request.modules = [.test] → Imports p.scan p.targets.test request.testNames) := by
  unfold plan
  dsimp only
  rcases hmodules with hmodules | hmodules
  · have hneeds : p.needs request = [] := by
      unfold needs
      rw [hmodules]
      rfl
    simp [hneeds, hmodules]
  · have hneeds : p.needs request = [(p.targets.test, { named := request.testNames })] := by
      unfold needs
      rw [hmodules]
      rfl
    simp only [hneeds, List.map_cons, List.map_nil, hmodules, true_implies]
    unfold Imports
    cases hfind : p.scan.find? p.targets.test with
    | none => simp
    | some d =>
      simp only [Option.some.injEq, exists_eq_left', ← extend_eq_nil_iff (p := p)]
      generalize p.extend d { named := request.testNames } = extended
      obtain ⟨first, declared⟩ := extended
      cases declared <;> simp

end ImportPlanner

end TestMigration
