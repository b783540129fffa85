import TestMigration.Proofs.Tree.Placed
import TestMigration.Rule.Catalog

/-!
# What rules aim at

A rule asks for something about its chain: it replaces the chain itself or its callee, removes the
statement around it, or notes it down. `Synthesis.Aims` lists these answers, `Migration.findRule?_aims`
says that no rule of any catalog gives another, and by `Synthesis.Aims.placed` none of them leads out of
the tree.
-/

namespace TestMigration

namespace Synthesis

/-- What can be asked for a chain: all that a rule of some catalog answers with. -/
inductive Aims (ctx : Context) (c : Chain) : Synthesis → Prop where
  | chain (e : Expr) : Aims ctx c (.replace c.root e)
  | callee {step : Step} {callee : Site} (e : Expr) (hstep : step ∈ c.steps)
    (hcallee : step.site.child? .callee = some callee) : Aims ctx c (.replace callee e)
  | statement {s : Site} (hs : c.statement? = some s) : Aims ctx c (.removeStatement s)
  | setup {s : Site} (hs : c.statement? = some s) : Aims ctx c (.removeSetup s)
  | declaration {s : Site} {binding : String} (hs : Mock.soleDeclaration? ctx c.root = some (s, binding)) :
    Aims ctx c (.removeDeclaration s binding)
  /-- A chain that only configures a stub knows the stub's variable. -/
  | configure {config : StubConfig} (hroot : config.root = c.root)
    (hbinding : config.isCreation = false → config.binding.isSome = true) : Aims ctx c (.configure config)
  | skip (reason : String) : Aims ctx c (.skip reason)

end Synthesis

variable {ctx : Context} {c : Chain} {s : Synthesis}

/-! ### Rules for mocks -/

namespace Mock

theorem sandboxCreation_aims (h : sandboxCreation ctx c = some s) : s.Aims ctx c := by
  simp only [sandboxCreation, Option.bind_eq_bind, Option.bind_eq_some_iff] at h
  obtain ⟨-, -, ⟨statement, binding⟩, hsole, heq⟩ := h
  cases heq
  exact .declaration hsole

theorem restoreAll_aims (h : restoreAll ctx c = some s) : s.Aims ctx c := by
  simp only [restoreAll, Option.bind_eq_bind, Option.bind_eq_some_iff] at h
  obtain ⟨-, -, h⟩ := h
  split at h
  · obtain ⟨-, -, heq⟩ := Option.bind_eq_some_iff.mp h
    cases heq
    exact .chain _
  · cases h

theorem mockAssert_aims (h : mockAssert ctx c = some s) : s.Aims ctx c := by
  simp only [mockAssert, Option.bind_eq_bind, Option.bind_eq_some_iff] at h
  obtain ⟨⟨check, function, rest⟩, -, h⟩ := h
  dsimp only at h
  split at h
  · cases h
    exact .chain _
  · cases h
    exact .chain _
  · obtain ⟨expected, -, heq⟩ := Option.bind_eq_some_iff.mp h
    cases heq
    exact .chain _
  · cases h

theorem mockAssertArguments_aims (h : mockAssertArguments ctx c = some s) : s.Aims ctx c := by
  simp only [mockAssertArguments, Option.bind_eq_bind, Option.bind_eq_some_iff] at h
  obtain ⟨⟨check, function, expected⟩, -, exactly', -, heq⟩ := h
  cases heq
  exact .chain _

theorem methodCreation_aims (h : methodCreation ctx c = some s) : s.Aims ctx c := by
  simp only [methodCreation, Option.bind_eq_bind, Option.bind_eq_some_iff] at h
  obtain ⟨-, -, h⟩ := h
  split at h
  · obtain ⟨-, -, h⟩ := Option.bind_eq_some_iff.mp h
    split at h
    · cases h
      exact .skip _
    · cases h
      exact .configure rfl (by simp)
  · cases h

theorem anonymousCreation_aims (h : anonymousCreation ctx c = some s) : s.Aims ctx c := by
  simp only [anonymousCreation, Option.bind_eq_bind, Option.bind_eq_some_iff] at h
  obtain ⟨-, -, h⟩ := h
  split at h
  · obtain ⟨-, -, h⟩ := Option.bind_eq_some_iff.mp h
    obtain ⟨variableName, -, heq⟩ := Option.bind_eq_some_iff.mp h
    cases heq
    exact .configure rfl (by simp)
  · cases h

theorem variableConfiguration_aims (h : variableConfiguration ctx c = some s) : s.Aims ctx c := by
  simp only [variableConfiguration, Option.bind_eq_bind, Option.bind_eq_some_iff] at h
  obtain ⟨-, -, binding, -, first, -, -, -, h⟩ := h
  cases binding <;> cases h <;> exact .configure rfl (by simp)

theorem stubConfiguration_aims (h : stubConfiguration ctx c = some s) : s.Aims ctx c := by
  unfold stubConfiguration at h
  cases hmethod : methodCreation ctx c with
  | some s' =>
    obtain rfl : s' = s := by simpa [hmethod] using h
    exact methodCreation_aims hmethod
  | none =>
    cases hanonymous : anonymousCreation ctx c with
    | some s' =>
      obtain rfl : s' = s := by simpa [hmethod, hanonymous] using h
      exact anonymousCreation_aims hanonymous
    | none => exact variableConfiguration_aims (by simpa [hmethod, hanonymous] using h)

theorem methodSpy_aims (h : methodSpy ctx c = some s) : s.Aims ctx c := by
  simp only [methodSpy, Option.bind_eq_bind, Option.bind_eq_some_iff] at h
  obtain ⟨-, -, h⟩ := h
  split at h
  · obtain ⟨-, -, heq⟩ := Option.bind_eq_some_iff.mp h
    cases heq
    exact .chain _
  · cases h

theorem anonymousFake_aims (h : anonymousFake ctx c = some s) : s.Aims ctx c := by
  simp only [anonymousFake, Option.bind_eq_bind, Option.bind_eq_some_iff] at h
  obtain ⟨-, -, args, -, heq⟩ := h
  cases heq
  exact .chain _

theorem callArguments_aims (h : callArguments ctx c = some s) : s.Aims ctx c := by
  simp only [callArguments, Option.bind_eq_bind, Option.bind_eq_some_iff] at h
  obtain ⟨⟨function, steps⟩, -, h⟩ := h
  dsimp only at h
  split at h
  · obtain ⟨exactly', -, h⟩ := Option.bind_eq_some_iff.mp h
    obtain ⟨-, -, heq⟩ := Option.bind_eq_some_iff.mp h
    cases heq
    exact .chain _
  · cases h

theorem stubInspection_aims (h : stubInspection ctx c = some s) : s.Aims ctx c := by
  simp only [stubInspection, Option.bind_eq_bind, Option.bind_eq_some_iff] at h
  obtain ⟨⟨function, steps⟩, -, h⟩ := h
  dsimp only at h
  split at h
  · obtain ⟨e, -, rfl⟩ := Option.map_eq_some_iff.mp h
    exact .chain e
  · obtain ⟨-, -, h⟩ := Option.bind_eq_some_iff.mp h
    obtain ⟨e, -, rfl⟩ := Option.map_eq_some_iff.mp h
    exact .chain e
  · cases h

end Mock

theorem MockRule.synthesis?_aims {r : MockRule} (h : r.synthesis? ctx c = some s) : s.Aims ctx c := by
  cases r with
  | sandboxCreation => exact Mock.sandboxCreation_aims h
  | restoreAll => exact Mock.restoreAll_aims h
  | mockAssert => exact Mock.mockAssert_aims h
  | mockAssertArguments => exact Mock.mockAssertArguments_aims h
  | stubConfiguration => exact Mock.stubConfiguration_aims h
  | methodSpy => exact Mock.methodSpy_aims h
  | anonymousFake => exact Mock.anonymousFake_aims h
  | callArguments => exact Mock.callArguments_aims h
  | stubInspection => exact Mock.stubInspection_aims h

/-! ### Rules for assertions and registrations -/

theorem Assertion.setup?_aims (h : Assertion.setup? ctx c = some s) : s.Aims ctx c := by
  unfold Assertion.setup? at h
  split at h
  · obtain ⟨-, -, h⟩ := Option.bind_eq_some_iff.mp h
    obtain ⟨statement, hstatement, heq⟩ := Option.bind_eq_some_iff.mp h
    cases heq
    exact .setup hstatement
  · cases h

theorem Assertion.Family.synthesis?_aims {f : Assertion.Family} (h : f.synthesis? ctx c = some s) :
    s.Aims ctx c := by
  simp only [Assertion.Family.synthesis?, Option.bind_eq_bind, Option.bind_eq_some_iff] at h
  obtain ⟨v, -, h⟩ := h
  split at h
  · cases h
    exact .chain _
  · obtain ⟨-, -, heq⟩ := Option.bind_eq_some_iff.mp h
    cases heq
    exact .skip _

theorem RegistrationRule.synthesis?_aims {r : RegistrationRule} (h : r.synthesis? ctx c = some s) :
    s.Aims ctx c := by
  unfold RegistrationRule.synthesis? at h
  split at h
  · rename_i step hsteps
    split at h
    · simp only [Option.bind_eq_bind, Option.bind_eq_some_iff] at h
      obtain ⟨-, -, target, -, -, -, callee, hcallee, heq⟩ := h
      cases heq
      exact .callee _ (by simp [hsteps]) hcallee
    · simp only [Option.bind_eq_bind, Option.bind_eq_some_iff] at h
      obtain ⟨-, -, statement, hstatement, heq⟩ := h
      cases heq
      exact .statement hstatement
  · cases h

theorem Rule.synthesis?_aims {r : Rule} (h : r.synthesis? ctx c = some s) : s.Aims ctx c := by
  unfold Rule.synthesis? at h
  split at h
  · cases h
  · cases r with
    | assertionSetup => exact Assertion.setup?_aims h
    | assertion family => exact Assertion.Family.synthesis?_aims h
    | mock rule => exact MockRule.synthesis?_aims h
    | registration rule => exact RegistrationRule.synthesis?_aims h

theorem Migration.findRule?_aims {m : Migration} {r : Rule} (h : m.findRule? ctx c = some (r, s)) :
    s.Aims ctx c := by
  obtain ⟨r', -, hr'⟩ := List.exists_of_findSome?_eq_some h
  obtain ⟨s', hs', heq⟩ := Option.map_eq_some_iff.mp hr'
  cases heq
  exact Rule.synthesis?_aims hs'

/-! ### Nothing outside of the tree -/

namespace Synthesis

/-- The sites that the synthesis names are placed. -/
def Placed (source : Text) : Synthesis → Prop
  | .replace target _ => target.Placed source
  | .removeStatement statement | .removeSetup statement | .removeDeclaration statement _ =>
    statement.Placed source
  | .configure config => config.root.Placed source
  | .skip _ => True

theorem soleDeclaration?_placed {source : Text} {value statement : Site} {binding : String}
    (hvalue : value.Placed source) (h : Mock.soleDeclaration? ctx value = some (statement, binding)) :
    statement.Placed source := by
  simp only [Mock.soleDeclaration?, Option.bind_eq_bind, Option.bind_eq_some_iff] at h
  obtain ⟨parent, hparent, statement', hstatement, h⟩ := h
  have hplaced := (hvalue.parent? hparent).parent? hstatement
  split at h
  · simp only [Option.bind_eq_some_iff] at h
    obtain ⟨name, -, -, -, heq⟩ := h
    cases heq
    exact hplaced
  · simp only [Option.bind_eq_some_iff] at h
    obtain ⟨left, -, -, -, heq⟩ := h
    cases heq
    exact hplaced
  · cases h

theorem Aims.placed {source : Text} (hc : c.Placed source) (h : s.Aims ctx c) : s.Placed source := by
  cases h with
  | chain e => exact hc.root
  | callee e hstep hcallee => exact (hc.steps _ hstep).child? hcallee
  | statement hs => exact hc.root.parentOf? hs
  | setup hs => exact hc.root.parentOf? hs
  | declaration hs => exact soleDeclaration?_placed hc.root hs
  | @configure config hroot _ =>
    show config.root.Placed source
    rw [hroot]
    exact hc.root
  | skip reason => trivial

end Synthesis

end TestMigration
