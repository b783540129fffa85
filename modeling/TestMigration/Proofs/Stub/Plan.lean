import TestMigration.Proofs.Edit.Deletion
import TestMigration.Stub.Plan

/-!
# Plans for stubs

A plan gathers the chains that configure one stub. The edits that carry it out lie in the file, and there are
some exactly when the plan was not given up.

Main statements: `Plan.outcome_inside` and `Plans.outcome_edits_eq_nil_iff`.
-/

namespace TestMigration

/-! ### Where stubs are edited -/

namespace Plan

variable {source : Text} {ctx : Context} {p : Plan} {config : StubConfig}

/-- The chains of the plan are placed. -/
def Placed (source : Text) (p : Plan) : Prop :=
  (∀ s ∈ p.install, s.Placed source) ∧ ∀ s ∈ p.contributions, s.Placed source

theorem skip_placed {reason : String} {at' : Site} {t : Text} (h : p.Placed source) :
    (p.skip reason at' t).Placed source := by
  unfold Plan.skip
  split <;> exact h

theorem add_placed (h : p.Placed source) (hroot : config.root.Placed source) :
    (p.add ctx config).Placed source := by
  unfold Plan.add
  split
  · exact h
  · split
    · exact skip_placed h
    · split
      · exact skip_placed h
      · unfold Plan.join
        dsimp only
        split
        · split
          · exact skip_placed h
          · refine ⟨?_, h.2⟩
            intro s hs
            cases hs
            exact hroot
        · split
          · exact skip_placed h
          · refine ⟨h.1, ?_⟩
            intro s hs
            rcases List.mem_append.mp hs with hs | hs
            · exact h.2 s hs
            · obtain rfl := List.mem_singleton.mp hs
              exact hroot

end Plan

theorem Plans.addAt_placed {source : Text} {ctx : Context} {key : ScopeKey} {scope : Span}
    {config : StubConfig} {plans : Plans} (h : ∀ p ∈ plans, p.2.Placed source)
    (hroot : config.root.Placed source) :
    ∀ p ∈ Plans.addAt ctx key scope config plans, p.2.Placed source := by
  induction plans with
  | nil =>
    intro p hp
    obtain rfl := List.mem_singleton.mp hp
    exact Plan.add_placed ⟨by simp, by simp⟩ hroot
  | cons q rest ih =>
    obtain ⟨hq, hrest⟩ := List.forall_mem_cons.mp h
    obtain ⟨k, plan⟩ := q
    unfold Plans.addAt
    split
    · exact List.forall_mem_cons.mpr ⟨Plan.add_placed hq hroot, hrest⟩
    · exact List.forall_mem_cons.mpr ⟨hq, ih hrest⟩

theorem Plan.outcome_inside {source : Text} {ctx : Context} (hctx : ctx.source = source) {key : ScopeKey}
    {p : Plan} (h : p.Placed source) : ∀ e ∈ (p.outcome ctx key).edits, e.Inside source.size := by
  have hmerged (sites : List Site) (hsites : ∀ s ∈ sites, s.Placed source) :
      ∀ e ∈ sites.filterMap fun root => root.parent?.map fun statement =>
        Edit.deleteStatement ctx.source statement.span "stub-configuration-merged",
      e.Inside source.size := by
    intro e he
    obtain ⟨root, hroot, heq⟩ := List.mem_filterMap.mp he
    obtain ⟨statement, hstatement, rfl⟩ := Option.map_eq_some_iff.mp heq
    rw [hctx]
    exact ((hsites root hroot).parent? hstatement).deleteStatement_inside _
  unfold Plan.outcome
  split
  · simp
  · split
    · simp
    · rename_i install rest requires hinstalled
      unfold Plan.installed? at hinstalled
      dsimp only at hinstalled
      split at hinstalled
      · rename_i install' object hinstall hobject
        cases hinstalled
        exact List.forall_mem_cons.mpr ⟨(h.1 install' (by simp [hinstall])).inside _ _, hmerged _ h.2⟩
      · rename_i install' hinstall hobject
        cases hinstalled
        exact List.forall_mem_cons.mpr ⟨(h.1 install' (by simp [hinstall])).inside _ _, hmerged _ h.2⟩
      · split at hinstalled
        · rename_i first rest' hbinding hcontributions
          cases hinstalled
          have hcontributed := h.2
          rw [hcontributions] at hcontributed
          obtain ⟨hfirst, hrest⟩ := List.forall_mem_cons.mp hcontributed
          exact List.forall_mem_cons.mpr ⟨hfirst.inside _ _, hmerged _ hrest⟩
        · cases hinstalled

theorem Plans.outcome_eq (ctx : Context) (plans : Plans) :
    plans.outcome ctx =
      { edits := (plans.withoutOverriding ctx.source).flatMap fun p => (p.2.outcome ctx p.1).edits
        diagnostics := (plans.withoutOverriding ctx.source).flatMap fun p => (p.2.outcome ctx p.1).diagnostics
        requires := (plans.withoutOverriding ctx.source).flatMap fun p => (p.2.outcome ctx p.1).requires } := by
  have hfold (l : Plans) (o : PlanOutcome) :
      l.foldl (fun o (p : ScopeKey × Plan) => o.append (p.2.outcome ctx p.1)) o =
        o.append
          { edits := l.flatMap fun p => (p.2.outcome ctx p.1).edits
            diagnostics := l.flatMap fun p => (p.2.outcome ctx p.1).diagnostics
            requires := l.flatMap fun p => (p.2.outcome ctx p.1).requires } := by
    induction l generalizing o with
    | nil => simp [PlanOutcome.append]
    | cons p rest ih =>
      rw [List.foldl_cons, ih]
      simp [PlanOutcome.append]
  exact hfold (plans.withoutOverriding ctx.source) {}

theorem Plans.outcome_edits (ctx : Context) (plans : Plans) :
    (plans.outcome ctx).edits =
      (plans.withoutOverriding ctx.source).flatMap fun p => (p.2.outcome ctx p.1).edits := by
  rw [Plans.outcome_eq]

theorem Plans.outcome_diagnostics (ctx : Context) (plans : Plans) :
    (plans.outcome ctx).diagnostics =
      (plans.withoutOverriding ctx.source).flatMap fun p => (p.2.outcome ctx p.1).diagnostics := by
  rw [Plans.outcome_eq]

theorem Plans.withoutOverriding_placed {source t : Text} {plans : Plans}
    (h : ∀ p ∈ plans, p.2.Placed source) : ∀ p ∈ plans.withoutOverriding t, p.2.Placed source := by
  intro p hp
  obtain ⟨⟨key, plan⟩, hplan, heq⟩ := List.mem_map.mp hp
  dsimp only at heq
  split at heq
  · cases heq
    exact Plan.skip_placed (h _ hplan)
  · cases heq
    exact h _ hplan

/-! ### Plans that are carried out -/

namespace Plan

variable {ctx : Context} {p : Plan} {config : StubConfig}

/-- Unless it was given up, the plan has a place for its function. -/
def Installable (p : Plan) : Prop :=
  p.skipped = none → p.install.isSome = true ∨ p.binding.isSome = true ∧ p.contributions ≠ []

theorem installable_skip {reason : String} {at' : Site} {t : Text} :
    (p.skip reason at' t).Installable := by
  intro h
  unfold Plan.skip at h
  split at h
  · rename_i hskipped
    rw [h] at hskipped
    cases hskipped
  · cases h

theorem installable_add (hbinding : config.isCreation = false → config.binding.isSome = true) :
    (p.add ctx config).Installable := by
  unfold Plan.add
  split
  · rename_i hskipped
    intro h
    rw [h] at hskipped
    cases hskipped
  · split
    · exact installable_skip
    · split
      · exact installable_skip
      · unfold Plan.join
        dsimp only
        split
        · split
          · exact installable_skip
          · exact fun _ => Or.inl rfl
        · rename_i hcreation
          split
          · exact installable_skip
          · refine fun _ => Or.inr ⟨?_, by simp⟩
            have hsome := hbinding (by simpa using hcreation)
            cases p.binding <;> simp [hsome]

theorem Installable.outcome_edits_eq_nil_iff {key : ScopeKey} (h : p.Installable) :
    (p.outcome ctx key).edits = [] ↔ p.skipped.isSome = true := by
  unfold Plan.outcome
  cases hskipped : p.skipped with
  | some reason => simp
  | none =>
    have hinstalled : (p.installed? ctx key).isSome = true := by
      unfold Plan.installed?
      dsimp only
      rcases h hskipped with hinstall | ⟨hbinding, hcontributions⟩
      · obtain ⟨install, hinstall⟩ := Option.isSome_iff_exists.mp hinstall
        cases hobject : p.object <;> simp [hinstall]
      · obtain ⟨binding, hbinding⟩ := Option.isSome_iff_exists.mp hbinding
        obtain ⟨first, rest, hcontributions⟩ := List.exists_cons_of_ne_nil hcontributions
        cases hinstall : p.install <;> cases hobject : p.object <;> simp [hbinding, hcontributions]
    obtain ⟨⟨install, rest, requires⟩, hinstalled⟩ := Option.isSome_iff_exists.mp hinstalled
    simp [hinstalled]

theorem outcome_requires {key : ScopeKey} (h : p.skipped.isSome = true) :
    (p.outcome ctx key).requires = [] := by
  obtain ⟨reason, hskipped⟩ := Option.isSome_iff_exists.mp h
  simp [Plan.outcome, hskipped]

end Plan

theorem Plans.installable_addAt {ctx : Context} {key : ScopeKey} {scope : Span} {config : StubConfig}
    {plans : Plans} (h : ∀ p ∈ plans, p.2.Installable)
    (hbinding : config.isCreation = false → config.binding.isSome = true) :
    ∀ p ∈ Plans.addAt ctx key scope config plans, p.2.Installable := by
  induction plans with
  | nil =>
    intro p hp
    obtain rfl := List.mem_singleton.mp hp
    exact Plan.installable_add hbinding
  | cons q rest ih =>
    obtain ⟨hq, hrest⟩ := List.forall_mem_cons.mp h
    obtain ⟨k, plan⟩ := q
    unfold Plans.addAt
    split
    · exact List.forall_mem_cons.mpr ⟨Plan.installable_add hbinding, hrest⟩
    · exact List.forall_mem_cons.mpr ⟨hq, ih hrest⟩

theorem Plans.installable_withoutOverriding {plans : Plans} {t : Text} (h : ∀ p ∈ plans, p.2.Installable) :
    ∀ p ∈ plans.withoutOverriding t, p.2.Installable := by
  intro p hp
  obtain ⟨⟨key, plan⟩, hplan, heq⟩ := List.mem_map.mp hp
  dsimp only at heq
  split at heq
  · cases heq
    exact Plan.installable_skip
  · cases heq
    exact h _ hplan

theorem Plans.outcome_edits_eq_nil_iff {ctx : Context} {plans : Plans} (h : ∀ p ∈ plans, p.2.Installable) :
    (plans.outcome ctx).edits = [] ↔
      ∀ p ∈ plans.withoutOverriding ctx.source, p.2.skipped.isSome = true := by
  have hinstallable := Plans.installable_withoutOverriding (t := ctx.source) h
  rw [Plans.outcome_edits, List.flatMap_eq_nil_iff]
  constructor
  · exact fun hnil p hp => (hinstallable p hp).outcome_edits_eq_nil_iff.mp (hnil p hp)
  · exact fun hskipped p hp => (hinstallable p hp).outcome_edits_eq_nil_iff.mpr (hskipped p hp)

theorem Plans.outcome_requires {ctx : Context} {plans : Plans}
    (h : ∀ p ∈ plans.withoutOverriding ctx.source, p.2.skipped.isSome = true) :
    (plans.outcome ctx).requires = [] := by
  rw [Plans.outcome_eq]
  exact List.flatMap_eq_nil_iff.mpr fun p hp => Plan.outcome_requires (h p hp)

end TestMigration
