import TestMigration.Import.Plan

/-!
# The legacy declarations that go

`ImportPlanner.deleted` lists the declarations that a run deletes. Whether one goes is decided behind the
edits found before it, and more edits only hide more references, so at the end of the run none of its
names is referenced outside of it and of all edits.

Main statements: `ImportPlanner.dropLegacy_eq` and `ImportPlanner.isStillReferenced_of_mem_deleted`.
-/

namespace TestMigration

/-! ### References -/

theorem Edit.covers_mono {edits later : List Edit} {s : Span} (hsub : ∀ e ∈ edits, e ∈ later)
    (h : Edit.covers edits s = true) : Edit.covers later s = true := by
  obtain ⟨e, he, hcovers⟩ := List.any_eq_true.mp h
  exact List.any_eq_true.mpr ⟨e, hsub e he, hcovers⟩

/-- More edits hide more references. -/
theorem isStillReferenced_anti {source : Text} {tree : Node} {name : String} {excluded : List Span}
    {edits later : List Edit} (hsub : ∀ e ∈ edits, e ∈ later)
    (h : isStillReferenced source tree name excluded edits = false) :
    isStillReferenced source tree name excluded later = false := by
  unfold isStillReferenced at h ⊢
  rw [List.any_eq_false] at h ⊢
  intro s hs
  have hgone := h s hs
  simp only [Bool.and_eq_true, Bool.not_eq_true', isGone, Bool.or_eq_false_iff, not_and,
    Bool.not_eq_false] at hgone ⊢
  exact fun hname hexcluded => Edit.covers_mono hsub (hgone hname hexcluded)

/-! ### Declarations -/

/-- The names that are imported anew from the test module. -/
def ImportRequest.provided (request : ImportRequest) : List String :=
  if request.modules.contains .test then request.testNames else []

namespace ImportPlanner

variable {p : ImportPlanner} {source : Text} {tree : Node} {request : ImportRequest}

def deletion (source : Text) (d : Declaration) : Edit :=
  .deleteStatement source d.statement.span "legacy-import"

/-- The declarations of a list that are deleted, one after the other. -/
def deletedFrom (source : Text) (tree : Node) (provided : List String) :
    List Edit → List Declaration → List Declaration
  | _, [] => []
  | edits, d :: rest =>
    if (stillUsed source tree provided edits d).isEmpty then
      d :: deletedFrom source tree provided (edits ++ [deletion source d]) rest
    else deletedFrom source tree provided edits rest

def deleted (p : ImportPlanner) (source : Text) (tree : Node) (request : ImportRequest)
    (edits : List Edit) : List Declaration :=
  deletedFrom source tree request.provided edits
    (p.scan.declarations.filter fun d => request.legacy.contains d.logical)

theorem dropLegacy_eq (edits : List Edit) : (p.dropLegacy source tree request edits).1 =
    edits ++ (p.deleted source tree request edits).map (deletion source) := by
  -- all that matters of a step is what it does to the edits
  have hfold (step : List Edit × List Diagnostic → Declaration → List Edit × List Diagnostic)
      (hstep : ∀ x d, (step x d).1 = if (stillUsed source tree request.provided x.1 d).isEmpty
        then x.1 ++ [deletion source d] else x.1) (l : List Declaration) (x : List Edit × List Diagnostic) :
      (l.foldl step x).1 =
        x.1 ++ (deletedFrom source tree request.provided x.1 l).map (deletion source) := by
    induction l generalizing x with
    | nil => simp [deletedFrom]
    | cons d rest ih =>
      rw [List.foldl_cons, ih, hstep, deletedFrom]
      split <;> simp
  refine hfold _ ?_ _ (edits, [])
  rintro ⟨edits, diagnostics⟩ d
  rw [← ImportRequest.provided]
  dsimp only
  split
  · rename_i hunused
    rw [hunused]
    rfl
  · rename_i hused
    rw [if_neg (by simpa using hused)]

theorem deletedFrom_sublist (provided : List String) (edits : List Edit) (l : List Declaration) :
    (deletedFrom source tree provided edits l).Sublist l := by
  induction l generalizing edits with
  | nil => exact List.Sublist.refl []
  | cons d rest ih =>
    rw [deletedFrom]
    split
    · exact (ih _).cons_cons d
    · exact (ih _).cons d

theorem mem_declarations_of_mem_deleted {edits : List Edit} {d : Declaration}
    (h : d ∈ p.deleted source tree request edits) : d ∈ p.scan.declarations :=
  (List.mem_filter.mp ((deletedFrom_sublist _ _ _).mem h)).1

theorem deletedFrom_eq_nil_iff {provided : List String} {edits : List Edit} {l : List Declaration} :
    deletedFrom source tree provided edits l = [] ↔
      ∀ d ∈ l, stillUsed source tree provided edits d ≠ [] := by
  induction l generalizing edits with
  | nil => simp [deletedFrom]
  | cons d rest ih =>
    rw [deletedFrom, List.forall_mem_cons]
    split
    · rename_i hunused
      simp [List.isEmpty_iff.mp hunused]
    · rename_i hused
      rw [ih]
      simp only [List.isEmpty_iff] at hused
      simp [hused]

/-- A name of a deleted declaration that is not imported anew is not referenced any more, whatever edits
follow. -/
theorem isStillReferenced_of_mem_deletedFrom {provided : List String} {edits later : List Edit}
    {l : List Declaration} {d : Declaration} (hd : d ∈ deletedFrom source tree provided edits l)
    (hlater : ∀ e ∈ edits ++ (deletedFrom source tree provided edits l).map (deletion source), e ∈ later) :
    ∀ name ∈ d.locals, name ∉ provided →
      isStillReferenced source tree name [d.statement.span] later = false := by
  induction l generalizing edits with
  | nil => cases hd
  | cons first rest ih =>
    rw [deletedFrom] at hd hlater
    split at hd
    · rename_i hunused
      rw [if_pos hunused] at hlater
      rcases List.mem_cons.mp hd with rfl | hd
      · intro name hname hfresh
        have hfilter := List.filter_eq_nil_iff.mp (List.isEmpty_iff.mp hunused) name hname
        have hgone : isStillReferenced source tree name [d.statement.span] edits = false := by
          simpa [hfresh] using hfilter
        exact isStillReferenced_anti (fun e he => hlater e (List.mem_append.mpr (Or.inl he))) hgone
      · refine ih hd fun e he => hlater e ?_
        simpa using he
    · rename_i hused
      rw [if_neg hused] at hlater
      exact ih hd hlater

theorem isStillReferenced_of_mem_deleted {edits later : List Edit} {d : Declaration}
    (hd : d ∈ p.deleted source tree request edits)
    (hlater : ∀ e ∈ (p.dropLegacy source tree request edits).1, e ∈ later) :
    ∀ name ∈ d.locals, name ∉ request.provided →
      isStillReferenced source tree name [d.statement.span] later = false := by
  refine isStillReferenced_of_mem_deletedFrom hd fun e he => hlater e ?_
  rw [dropLegacy_eq]
  exact he

theorem plan_edits (edits : List Edit) : ∃ more, (p.plan source tree request edits).1 =
    (p.dropLegacy source tree request edits).1 ++ more := by
  unfold plan
  dsimp only
  split
  · exact ⟨_, rfl⟩
  · exact ⟨_, List.append_assoc _ _ _⟩

end ImportPlanner

end TestMigration
