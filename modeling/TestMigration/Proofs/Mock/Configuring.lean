import Mathlib.Data.Option.Basic
import TestMigration.Mock.Rules

/-!
# Chains that make or configure stubs

A stub is made for a member of an object or as a function of its own, and configured later through its variable.
`Mock.stubConfiguration_cases` says what each of these three chains notes down.
-/

namespace TestMigration

/-- Subject and member under which a stub is configured through its variable. -/
def MockBinding.target (variableName : String) : MockBinding → String × String
  | .method object member => (object, member)
  | .anonymous => (variableName, "")

namespace Mock

variable {ctx : Context} {c : Chain} {config : StubConfig}

/-- What a chain that makes or configures a stub looks like, and what it notes down. -/
inductive Configures (ctx : Context) (c : Chain) : StubConfig → Prop where
  | method {creation : Step} {tail : List Step} {object : Site} {member : String}
    (hfactory : onFactory ctx c = true) (hsteps : c.steps = creation :: tail) (hname : creation.name = "stub")
    (htarget : creation.methodTarget? ctx.source = some (object, member)) :
    Configures ctx c
      { subject := ctx.text object, member, object := some object, binding := boundVariable? ctx c.root
        isCreation := true, tail, root := c.root }
  | anonymous {creation next : Step} {more : List Step} {variableName : String}
    (hfactory : onFactory ctx c = true) (hsteps : c.steps = creation :: next :: more)
    (hname : creation.name = "stub") (hcall : creation.isCall = true) (hargs : creation.args = [])
    (hbound : boundVariable? ctx c.root = some variableName) :
    Configures ctx c
      { subject := variableName, member := "", object := none, binding := some variableName
        isCreation := true, tail := next :: more, root := c.root }
  | later {binding : MockBinding} (hsubject : c.subject.kind = .identifier)
    (hstub : ctx.mocks.stub? (ctx.text c.subject) = some binding) (hsteps : c.steps ≠ []) :
    Configures ctx c
      { subject := (binding.target (ctx.text c.subject)).1, member := (binding.target (ctx.text c.subject)).2
        object := none, binding := some (ctx.text c.subject), isCreation := false, tail := c.steps, root := c.root }

theorem methodCreation_cases (h : methodCreation ctx c = some (.configure config)) : Configures ctx c config := by
  simp only [methodCreation, Option.bind_eq_bind, Option.bind_eq_some_iff] at h
  obtain ⟨_, hfactory, h⟩ := h
  split at h
  · rename_i creation tail hsteps
    obtain ⟨_, hshape, h⟩ := Option.bind_eq_some_iff.mp h
    split at h
    · cases h
    · rename_i object member htarget
      cases h
      have hshape : creation.name = "stub" ∧ creation.args.length = 2 := by simpa using hshape
      exact .method ((Option.guard_eq_some' _).mp hfactory) hsteps hshape.1 htarget
  · cases h

theorem anonymousCreation_cases (h : anonymousCreation ctx c = some (.configure config)) :
    Configures ctx c config := by
  simp only [anonymousCreation, Option.bind_eq_bind, Option.bind_eq_some_iff] at h
  obtain ⟨_, hfactory, h⟩ := h
  split at h
  · rename_i creation next more hsteps
    obtain ⟨_, hshape, h⟩ := Option.bind_eq_some_iff.mp h
    obtain ⟨variableName, hbound, heq⟩ := Option.bind_eq_some_iff.mp h
    cases heq
    have hshape : (creation.name = "stub" ∧ creation.isCall = true) ∧ creation.args = [] := by
      simpa using hshape
    exact .anonymous ((Option.guard_eq_some' _).mp hfactory) hsteps hshape.1.1 hshape.1.2 hshape.2 hbound
  · cases h

theorem variableConfiguration_cases (h : variableConfiguration ctx c = some (.configure config)) :
    Configures ctx c config := by
  simp only [variableConfiguration, Option.bind_eq_bind, Option.bind_eq_some_iff] at h
  obtain ⟨_, hsubject, binding, hstub, first, hfirst, -, -, heq⟩ := h
  have hsteps : c.steps ≠ [] := fun hnil => by simp [hnil] at hfirst
  have hconfigures := Configures.later (by simpa using hsubject) hstub hsteps
  cases binding <;> cases heq <;> exact hconfigures

/-- Chains that make or configure a stub have one of the three shapes. -/
theorem stubConfiguration_cases (h : stubConfiguration ctx c = some (.configure config)) :
    Configures ctx c config := by
  unfold stubConfiguration at h
  cases hmethod : methodCreation ctx c with
  | some s =>
    obtain rfl : s = .configure config := by simpa [hmethod] using h
    exact methodCreation_cases hmethod
  | none =>
    cases hanonymous : anonymousCreation ctx c with
    | some s =>
      obtain rfl : s = .configure config := by simpa [hmethod, hanonymous] using h
      exact anonymousCreation_cases hanonymous
    | none => exact variableConfiguration_cases (by simpa [hmethod, hanonymous] using h)

end Mock

end TestMigration
