import TestMigration.Proofs.Import.Written

/-!
# New declarations and the grammar

When new declarations come in front of everything else (`Settings.DeclaresInFront`), they do not decide whether the
output can be read: the grammar accepts it exactly when it accepts what the other edits make of the file by themselves.

Main statement: `Settings.output_accepted_iff`.
-/

namespace TestMigration

open Grammar

namespace Settings

section
variable (settings : Settings) (path : String) (source : Text) (tree : Node)

/-- The edits of a run without the new declarations. -/
def rewritten : List Edit :=
  let p := settings.planner path source tree
  let request := settings.request source tree
  (p.dropLegacy source tree request (settings.collected source tree).edits).1 ++
    (p.extensions request).map (Addition.edit p source)

/-- What the file becomes without the new declarations. -/
def undeclared : Text :=
  (applyEdits source (settings.style.apply (Style.detect source tree))
    (settings.rewritten path source tree)).output.toList

/-- Where a run adds new declarations. -/
def place : Nat := (settings.planner path source tree).place source

theorem planned_eq : settings.planned path source tree = settings.rewritten path source tree ++
    (ImportPlanner.additions.declared
      ((settings.planner path source tree).unmet (settings.request source tree))).map
        (Addition.edit (settings.planner path source tree) source) := by
  unfold planned rewritten
  rw [ImportPlanner.plan_eq, ImportPlanner.additions_eq, List.map_append, ← List.append_assoc]

end

variable {settings : Settings} {path : String} {source : Text} {tree : Node}

theorem planner_quote : (settings.planner path source tree).style.quote = '\'' ∨
    (settings.planner path source tree).style.quote = '"' := by
  unfold planner StyleChoice.apply Style.detect
  dsimp only
  split
  · split
    · exact .inr rfl
    · exact .inl rfl
  · exact .inl rfl
  · exact .inr rfl

/-- New declarations are imports with semicolons, and they come in front of everything else: only blanks and comments
stand before them, and the other edits lie behind. -/
structure DeclaresInFront (settings : Settings) (path : String) (source : Text) (tree : Node) : Prop where
  dialect : (settings.planner path source tree).dialect = .esm
  semicolons : (settings.planner path source tree).style.semicolons = true
  targets : settings.targets.Unescaped
  directive : (settings.planner path source tree).scan.directive = none
  front : Text.Vacant (source.takeBytes (settings.place path source tree))
  behind : ∀ e ∈ settings.rewritten path source tree, e.Behind (settings.place path source tree)
  plain : Text.startsWith (settings.undeclared path source tree) "#!" = false

theorem DeclaresInFront.declare_imports (h : settings.DeclaresInFront path source tree) {x : String × Need}
    (hx : x ∈ (settings.planner path source tree).unmet (settings.request source tree)) :
    Imports ((settings.planner path source tree).declare x.1 x.2).toList :=
  ImportPlanner.declare_imports ⟨h.dialect, h.semicolons, planner_quote⟩
    (ImportPlanner.isUnescaped_of_mem_unmet h.targets hx)
    (ImportPlanner.isImportName_of_mem_unmet rfl Run.register_names.imported hx)

/-- New declarations in front of everything else do not decide whether the output is accepted. -/
theorem output_accepted_iff {grammar : Grammar} (hparse : Grammar.parse grammar source = some tree)
    (h : settings.DeclaresInFront path source tree) :
    (Grammar.parse grammar (settings.applied path source tree).output.toList).isSome ↔
      (Grammar.parse grammar (settings.undeclared path source tree)).isSome := by
  have hplaced : tree.Placed source := Grammar.parse_placed hparse
  have hscan : (settings.planner path source tree).scan.Placed source := ImportScan.ofTree_placed hplaced
  have hinside := settings.planned_inside path hplaced
  have hplain := h.plain
  unfold applied
  rw [planned_eq] at hinside ⊢
  cases hunmet : (settings.planner path source tree).unmet (settings.request source tree) with
  | nil =>
    rw [show ImportPlanner.additions.declared [] = [] from rfl, List.map_nil, List.append_nil]
    exact Iff.rfl
  | cons first others =>
    obtain ⟨⟨hboundary, hline⟩, before, behind, hbefore, hafter, hinsertion⟩ :=
      ImportPlanner.insertion_eq hscan h.directive
    have hedits : (ImportPlanner.additions.declared (first :: others)).map
        (Addition.edit (settings.planner path source tree) source) =
        [(settings.planner path source tree).insertion source
          ((first :: others).map fun x => (settings.planner path source tree).declare x.1 x.2)] := rfl
    have himports : Imports (before ++ String.intercalate "\n"
        ((first :: others).map fun x => (settings.planner path source tree).declare x.1 x.2) ++ behind).toList := by
      rw [String.toList_append, String.toList_append]
      refine (Imports.blanks_append hbefore (Imports.lines fun s hs => ?_)).append (.blanks hafter)
      obtain ⟨x, hx, rfl⟩ := List.mem_map.mp hs
      exact h.declare_imports (by rwa [hunmet])
    rw [hedits, hinsertion]
    obtain ⟨rest, hwithout, hwith⟩ := applyEdits_insert_front _ hboundary hline
      (fun e he => hinside e (List.mem_append_left _ he)) h.behind
    have hundeclared : settings.undeclared path source tree =
        source.takeBytes (settings.place path source tree) ++ rest := hwithout
    rw [hundeclared] at hplain ⊢
    rw [hwith]
    have hhead := himports.head_ne
    obtain ⟨ts, gaps, htext, hgaps, hts⟩ := himports.exists_statements
    rw [htext] at hhead ⊢
    rw [List.append_assoc]
    exact Bool.eq_iff_iff.mp (Grammar.parse_isSome_inFront grammar h.front hts (.of_all hgaps) hhead hplain)

set_option maxRecDepth 100000 in
/-- An assertion behind a comment: the declaration comes at offset 5, and its rewriting lies behind. -/
example : (Grammar.parse .plain "// a\nexpect(x).to.equal(5);\n".toList).any (fun tree =>
    let source := "// a\nexpect(x).to.equal(5);\n".toList
    Settings.place {} "a.test.js" source tree == 5 &&
      (Settings.rewritten {} "a.test.js" source tree).all (fun e => decide (e.Behind 5)) &&
      (Grammar.parse .plain (Settings.applied {} "a.test.js" source tree).output.toList).isSome) = true := by
  decide +kernel

end Settings

end TestMigration
