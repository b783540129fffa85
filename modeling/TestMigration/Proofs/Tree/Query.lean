import TestMigration.Tree.Query

/-!
# What a query finds

One statement for each query that looks for nodes below a site: where the arguments of a call, the statements of a
function and the name of a parameter come from, and which nodes stand above them.
-/

namespace TestMigration.Site

variable {source : Text} {s t : Site} {name : String}

theorem mem_children_of_child? {r : Role} (h : s.child? r = some t) : t ∈ s.children ∧ t.role = r := by
  obtain ⟨n, hn, rfl⟩ := Option.map_eq_some_iff.mp h
  refine ⟨List.mem_map_of_mem (List.mem_of_find?_eq_some hn), ?_⟩
  have hrole : (n.role == r) = true := List.find?_some (p := fun c : Node => c.role == r) hn
  exact beq_iff_eq.mp hrole

theorem mem_callArguments_iff : t ∈ s.callArguments ↔
    ∃ args, s.child? .arguments = some args ∧ args.kind = .arguments ∧ t ∈ args.parts := by
  unfold callArguments
  cases s.child? .arguments with
  | none => simp
  | some args => by_cases hkind : args.kind = .arguments <;> simp [hkind]

theorem mem_bodyStatements_iff : t ∈ s.bodyStatements ↔
    ∃ block, s.child? .body = some block ∧ block.kind = .block ∧ t ∈ block.parts := by
  unfold bodyStatements
  cases s.child? .body with
  | none => simp
  | some block => by_cases hkind : block.kind = .block <;> simp [hkind]

/-- A parameter is a simple name itself, or its pattern is one. -/
theorem parameterName?_eq_some_iff : s.parameterName? source = some name ↔
    (s.kind = .identifier ∧ s.text source = name) ∨
      (s.kind = .requiredParameter ∨ s.kind = .optionalParameter) ∧
        ∃ p, s.child? .pattern = some p ∧ p.kind = .identifier ∧ p.text source = name := by
  unfold parameterName?
  cases hp : s.child? .pattern with
  | none => split <;> simp_all
  | some p => by_cases hname : p.kind = .identifier <;> split <;> simp_all

/-! ### The nodes above what is found -/

theorem above_of_child? {r : Role} (h : s.child? r = some t) : t.above = s.node :: s.above := by
  obtain ⟨n, -, rfl⟩ := Option.map_eq_some_iff.mp h
  rfl

theorem above_of_parts (h : t ∈ s.parts) : t.above = s.node :: s.above := by
  obtain ⟨n, -, rfl⟩ := List.mem_map.mp h
  rfl

theorem above_of_callArguments (h : t ∈ s.callArguments) :
    ∃ list : Node, list.kind = .arguments ∧ t.above = list :: s.node :: s.above := by
  obtain ⟨args, hargs, hkind, h⟩ := mem_callArguments_iff.mp h
  exact ⟨args.node, hkind, by rw [above_of_parts h, above_of_child? hargs]⟩

theorem above_of_bodyStatements (h : t ∈ s.bodyStatements) :
    ∃ block, s.child? .body = some block ∧ t.above = block.node :: s.node :: s.above := by
  obtain ⟨block, hblock, -, h⟩ := mem_bodyStatements_iff.mp h
  exact ⟨block, hblock, by rw [above_of_parts h, above_of_child? hblock]⟩

end TestMigration.Site
