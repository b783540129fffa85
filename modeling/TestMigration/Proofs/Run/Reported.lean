import Mathlib.Data.List.Sort
import TestMigration.Proofs.Run.Planned
import TestMigration.Proofs.Text.Location

/-!
# The order of diagnostics

Every diagnostic that a run reports is about a place in the source (`Settings.reported_located`), and ordering
diagnostics by location is ordering them by the offsets of these places (`Diagnostic.sortByLocation_map`).

Main statement: `locations_ordered`.
-/

namespace TestMigration

/-! ### Places of diagnostics -/

namespace Text

variable {t : Text}

/-- An offset inside of a character has the location of the character. -/
theorem exists_startsAt (t : Text) (offset : Nat) : ∃ a, (t.locationAt offset).StartsAt t a := by
  have hprefix := takeBytes_prefix offset t
  have hself := takeBytes_of_prefix hprefix
  refine ⟨size (t.takeBytes offset), Boundary.of_prefix hprefix, ?_, ?_⟩
  · rw [locationAt, locationAt, hself]
  · rw [locationAt, locationAt, hself]

theorem exists_startsAt_span (t : Text) (s : Span) : ∃ a, (t.locationOf s).StartsAt t a := by
  obtain ⟨a, h⟩ := exists_startsAt t s.start
  exact ⟨a, h.boundary, h.line, h.column⟩

end Text

namespace Diagnostic

variable {source : Text}

/-- The diagnostic is about a place in the source. -/
def Located (source : Text) (d : Diagnostic) : Prop := ∃ offset, d.location.StartsAt source offset

/-- Diagnostics about places in the source come from diagnostics with offsets. -/
theorem exists_found {ds : List Diagnostic} (h : ∀ d ∈ ds, d.Located source) :
    ∃ found : List (Nat × Diagnostic), (∀ f ∈ found, f.2.location.StartsAt source f.1) ∧ found.map (·.2) = ds := by
  induction ds with
  | nil => exact ⟨[], by simp, rfl⟩
  | cons d ds ih =>
    obtain ⟨⟨offset, hd⟩, hds⟩ := List.forall_mem_cons.mp h
    obtain ⟨found, hfound, rfl⟩ := ih hds
    exact ⟨(offset, d) :: found, List.forall_mem_cons.mpr ⟨hd, hfound⟩, rfl⟩

theorem insertByLocation_eq (d : Diagnostic) (ds : List Diagnostic) :
    insertByLocation d ds = ds.orderedInsert (fun d e => ¬ e.location.before d.location = true) d := by
  induction ds with
  | nil => rfl
  | cons e ds ih =>
    rw [insertByLocation, List.orderedInsert_cons, ih]
    by_cases hbefore : e.location.before d.location = true
    · rw [if_pos hbefore, if_neg (not_not.mpr hbefore)]
    · rw [if_neg hbefore, if_pos hbefore]

theorem sortByLocation_eq (ds : List Diagnostic) :
    sortByLocation ds = ds.insertionSort fun d e => ¬ e.location.before d.location = true := by
  induction ds with
  | nil => rfl
  | cons d ds ih =>
    rw [List.insertionSort_cons, ← ih, ← insertByLocation_eq]
    rfl

theorem sortByLocation_map {found : List (Nat × Diagnostic)} (h : ∀ f ∈ found, f.2.location.StartsAt source f.1) :
    sortByLocation (found.map (·.2)) = (found.insertionSort fun f g => f.1 ≤ g.1).map (·.2) := by
  rw [sortByLocation_eq]
  refine (List.map_insertionSort _ _ _ _ fun f hf g hg => ?_).symm
  rw [(h g hg).before_iff (h f hf), Nat.not_lt]

end Diagnostic

/-! ### Plans -/

/-- A plan that was given up says where in the source. -/
def Plan.Located (source : Text) (p : Plan) : Prop := ∀ s ∈ p.skipped, ∃ offset, s.2.StartsAt source offset

namespace Plan

variable {ctx : Context} {source : Text} {p : Plan} {config : StubConfig}

theorem skip_located {reason : String} {at' : Site} (h : p.Located source) : (p.skip reason at' source).Located source := by
  unfold Plan.skip
  split
  · exact h
  · intro s hs
    obtain rfl := Option.mem_some_iff.mp hs
    exact Text.exists_startsAt ..

theorem add_located (h : p.Located ctx.source) : (p.add ctx config).Located ctx.source := by
  unfold Plan.add
  split
  · exact h
  split
  · exact skip_located h
  split
  · exact skip_located h
  unfold Plan.join
  dsimp only
  split
  · split
    · exact skip_located h
    · exact h
  · split
    · exact skip_located h
    · exact h

theorem outcome_located {key : ScopeKey} (h : p.Located source) :
    ∀ d ∈ (p.outcome ctx key).diagnostics, d.Located source := by
  unfold Plan.outcome
  split
  · rename_i reason location hskipped
    exact List.forall_mem_singleton.mpr (h (reason, location) hskipped)
  · split
    · simp
    · simp

end Plan

namespace Plans

variable {ctx : Context} {source : Text} {plans : Plans}

theorem addAt_located {key : ScopeKey} {scope : Span} {config : StubConfig}
    (h : ∀ p ∈ plans, p.2.Located ctx.source) : ∀ p ∈ addAt ctx key scope config plans, p.2.Located ctx.source := by
  induction plans with
  | nil => exact List.forall_mem_singleton.mpr (Plan.add_located (by simp [Plan.Located]))
  | cons q rest ih =>
    obtain ⟨hq, hrest⟩ := List.forall_mem_cons.mp h
    obtain ⟨k, plan⟩ := q
    unfold addAt
    split
    · exact List.forall_mem_cons.mpr ⟨Plan.add_located hq, hrest⟩
    · exact List.forall_mem_cons.mpr ⟨hq, ih hrest⟩

theorem outcome_located (h : ∀ p ∈ plans, p.2.Located ctx.source) :
    ∀ d ∈ (plans.outcome ctx).diagnostics, d.Located ctx.source := by
  rw [outcome_diagnostics]
  intro d hd
  obtain ⟨p, hp, hd⟩ := List.mem_flatMap.mp hd
  refine Plan.outcome_located ?_ d hd
  obtain ⟨⟨key, plan⟩, hplan, heq⟩ := List.mem_map.mp hp
  dsimp only at heq
  split at heq
  · cases heq
    exact Plan.skip_located (h _ hplan)
  · cases heq
    exact h _ hplan

end Plans

/-! ### Passes -/

namespace Registration

variable {source : Text} {registers : Registration} {call callback : Site} {callee : Callee}

theorem rename_diagnostics : (rename call callee).diagnostics = [] := by
  unfold rename
  split
  · split <;> rfl
  · rfl

theorem contextParameter_diagnostics : (contextParameter source callback).diagnostics = [] := by
  unfold contextParameter
  split
  · dsimp only
    split <;> rfl
  · rfl

theorem runnerCalls_located {hasOptions applied : Bool} {statements : List Site} :
    ∀ d ∈ (runnerCalls source registers callback hasOptions applied statements).diagnostics, d.Located source := by
  induction statements generalizing applied with
  | nil => simp [runnerCalls]
  | cons statement rest ih =>
    unfold runnerCalls
    split
    · split
      · exact ih
      · exact List.forall_mem_append.mpr ⟨by simp [Change.one], ih⟩
    · exact List.forall_mem_append.mpr
        ⟨List.forall_mem_singleton.mpr (Text.exists_startsAt_span source statement.span), ih⟩
    · exact ih

theorem callbackChange_located {args : List Site} :
    ∀ d ∈ (callbackChange source registers args callback).diagnostics, d.Located source := by
  have hparameter : ∀ d ∈ (if registers == .suite then {} else contextParameter source callback).diagnostics,
      d.Located source := by
    split
    · simp
    · simp [contextParameter_diagnostics]
  unfold callbackChange
  dsimp only
  split
  · exact hparameter
  · exact List.forall_mem_append.mpr ⟨hparameter, runnerCalls_located⟩

theorem callChange_located : ∀ d ∈ (callChange source call callee).diagnostics, d.Located source := by
  unfold callChange
  dsimp only
  split
  · exact List.forall_mem_append.mpr ⟨by simp [rename_diagnostics], callbackChange_located⟩
  · simp [rename_diagnostics]

end Registration

theorem RegistrationPass.ofTree_located {source : Text} {tree : Node} {edits : List Edit} :
    ∀ d ∈ (ofTree source tree edits).diagnostics, d.Located source := by
  refine List.foldlRecOn (motive := fun p : RegistrationPass => ∀ d ∈ p.diagnostics, Diagnostic.Located source d) _ _
    (by simp) ?_
  intro p hp call _
  unfold addCall
  split
  · exact hp
  split
  · exact hp
  · exact List.forall_mem_append.mpr ⟨hp, Registration.callChange_located⟩

/-- All diagnostics so far are about places in the source, and so are those of the plans. -/
structure Run.Located (source : Text) (r : Run) : Prop where
  diagnostics : ∀ d ∈ r.diagnostics, d.Located source
  plans : ∀ p ∈ r.plans, p.2.Located source

namespace Run

variable {ctx : Context} {source : Text} {tree : Node} {migrations : List Migration} {r : Run}

theorem Located.report {d : Diagnostic} (h : r.Located source) (hd : d.Located source) :
    Run.Located source { r with diagnostics := r.diagnostics ++ [d] } :=
  ⟨List.forall_mem_append.mpr ⟨h.diagnostics, List.forall_mem_singleton.mpr hd⟩, h.plans⟩

theorem Located.visit {root : Site} (h : r.Located ctx.source) : (r.visit ctx migrations root).Located ctx.source := by
  rw [visit_eq]
  split
  · rename_i m rule synthesis hfound
    cases synthesis with
    | replace target e => exact ⟨h.diagnostics, h.plans⟩
    | removeStatement statement => exact ⟨h.diagnostics, h.plans⟩
    | removeSetup statement => exact ⟨h.diagnostics, h.plans⟩
    | removeDeclaration statement binding => exact ⟨h.diagnostics, h.plans⟩
    | configure config => exact ⟨h.diagnostics, Plans.addAt_located h.plans⟩
    | skip reason => exact h.report (Text.exists_startsAt_span ctx.source root.span)
  · exact h

theorem discover_located : (discover ctx migrations tree).Located ctx.source :=
  List.foldlRecOn (motive := Run.Located ctx.source) _ _ ⟨by simp, by simp⟩ fun _ h _ _ => h.visit

theorem Located.finishStubs (h : r.Located ctx.source) : (r.finishStubs ctx).Located ctx.source :=
  ⟨List.forall_mem_append.mpr ⟨h.diagnostics, Plans.outcome_located h.plans⟩, h.plans⟩

theorem Located.removeSandbox {declarations : List (Site × String)} {binding : String} (h : r.Located ctx.source) :
    (r.removeSandbox ctx tree declarations binding).Located ctx.source := by
  unfold Run.removeSandbox
  dsimp only
  split
  · refine ⟨List.forall_mem_append.mpr ⟨h.diagnostics, ?_⟩, h.plans⟩
    intro d hd
    obtain ⟨first, -, rfl⟩ := Option.map_eq_some_iff.mp (Option.mem_toList.mp hd)
    exact Text.exists_startsAt_span ctx.source first.span
  · exact ⟨h.diagnostics, h.plans⟩

theorem Located.removeSandboxes (h : r.Located ctx.source) : (r.removeSandboxes ctx tree).Located ctx.source :=
  List.foldlRecOn (motive := Run.Located ctx.source) _ _ h fun _ h _ _ => h.removeSandbox

theorem Located.register {scan : ImportScan} {settings : Settings} (h : r.Located source) :
    (r.register source tree scan settings).1.Located source := by
  have hpass := List.forall_mem_append.mpr ⟨h.diagnostics, @RegistrationPass.ofTree_located source tree r.edits⟩
  unfold Run.register
  split
  · dsimp only
    split <;> exact ⟨hpass, h.plans⟩
  · exact h

theorem Located.removeSetup {pending : List Leftover} (h : r.Located source) :
    (r.removeSetup source pending).Located source := by
  unfold Run.removeSetup
  split
  · exact h
  · rename_i first rest hsetup
    split
    · exact ⟨h.diagnostics, h.plans⟩
    · exact h.report (Text.exists_startsAt_span source first.span)

theorem Located.reportLeftovers {remaining : List Leftover} (h : r.Located source) :
    (r.reportLeftovers source remaining).Located source := by
  refine ⟨List.forall_mem_append.mpr ⟨h.diagnostics, ?_⟩, h.plans⟩
  intro d hd
  obtain ⟨l, -, rfl⟩ := List.mem_map.mp hd
  exact Text.exists_startsAt source l.span.start

end Run

theorem ImportPlanner.plan_located {p : ImportPlanner} {source : Text} {tree : Node} {request : ImportRequest}
    {edits : List Edit} : ∀ d ∈ (p.plan source tree request edits).2, d.Located source := by
  have hdropped : ∀ d ∈ (p.dropLegacy source tree request edits).2, d.Located source := by
    refine List.foldlRecOn (motive := fun x : List Edit × List Diagnostic => ∀ d ∈ x.2, Diagnostic.Located source d)
      _ _ (by simp) ?_
    rintro ⟨edits, diagnostics⟩ h declaration -
    dsimp only
    split
    · exact h
    · exact List.forall_mem_append.mpr
        ⟨h, List.forall_mem_singleton.mpr (Text.exists_startsAt_span source declaration.statement.span)⟩
  unfold plan
  dsimp only
  split
  · exact hdropped
  · exact hdropped

theorem applyEdits_located {source : Text} {style : Style} {edits : List Edit} :
    ∀ d ∈ (applyEdits source style edits).diagnostics, d.Located source := by
  intro d hd
  obtain ⟨x, -, rfl⟩ := List.mem_map.mp hd
  exact Text.exists_startsAt ..

/-! ### The whole run -/

namespace Settings

variable (settings : Settings) (path : String) (source : Text) (tree : Node)

/-- All diagnostics of a run, in the order of their discovery. -/
def reported : List Diagnostic :=
  let scan := ImportScan.ofTree source tree
  let run := settings.collected source tree
  let legacy := legacyNames scan settings.migrations (settings.registered source tree).2
  let remaining := leftovers source tree legacy (scan.declarations.map (·.statement.span)) run.edits
  let warnings := (settings.planner path source tree).plan source tree (settings.request source tree) run.edits
  (run.reportLeftovers source remaining).diagnostics ++ warnings.2 ++ (settings.applied path source tree).diagnostics

/-- All diagnostics of a run are about places in the source. -/
theorem reported_located : ∀ d ∈ settings.reported path source tree, d.Located source := by
  have hdiscovered := @Run.discover_located (settings.context source tree) tree settings.migrations
  have hunboxed : (settings.unboxed source tree).Located source := hdiscovered.finishStubs.removeSandboxes
  have hcollected : (settings.collected source tree).Located source := hunboxed.register.removeSetup
  exact List.forall_mem_append.mpr
    ⟨List.forall_mem_append.mpr ⟨hcollected.reportLeftovers.diagnostics, ImportPlanner.plan_located⟩,
      applyEdits_located⟩

/-- A run lists its diagnostics by location. -/
theorem migrateTree_diagnostics : (migrateTree settings path source tree).diagnostics =
    Diagnostic.sortByLocation (settings.reported path source tree) := rfl

end Settings

/-- Locations stand in the order of their offsets, and the offset can be read off the location. So to order diagnostics
by location is to order them by offset, which is what a run does with all diagnostics that it reports. -/
theorem locations_ordered (source : Text) :
    (∀ a b, source.Boundary a → source.Boundary b → a < b →
      (source.locationAt a).before (source.locationAt b) = true) ∧
    (∀ a, source.Boundary a →
      source.startOfLine (source.locationAt a).line + (source.locationAt a).column - 1 = a) ∧
    (∀ found : List (Nat × Diagnostic), (∀ f ∈ found, f.2.location.StartsAt source f.1) →
      Diagnostic.sortByLocation (found.map (·.2)) = (found.insertionSort fun f g => f.1 ≤ g.1).map (·.2)) ∧
    ∀ (settings : Settings) (path : String) (tree : Node), ∃ found : List (Nat × Diagnostic),
      (∀ f ∈ found, f.2.location.StartsAt source f.1) ∧ found.map (·.2) = settings.reported path source tree ∧
      (migrateTree settings path source tree).diagnostics = (found.insertionSort fun f g => f.1 ≤ g.1).map (·.2) := by
  refine ⟨fun a b => Text.locationAt_before, fun a => Text.startOfLine_column,
    fun found => Diagnostic.sortByLocation_map, fun settings path tree => ?_⟩
  obtain ⟨found, hfound, hreported⟩ := Diagnostic.exists_found (settings.reported_located path source tree)
  refine ⟨found, hfound, hreported, ?_⟩
  rw [settings.migrateTree_diagnostics, ← hreported, Diagnostic.sortByLocation_map hfound]

/-- A source with both kinds of line breaks, an empty line and a character of two bytes. -/
def mixedLines : Text := "a\r\né\n\nb".toList

theorem locations_ordered_mixedLines :
    mixedLines.Boundary 2 ∧ mixedLines.Boundary 5 ∧
      (mixedLines.locationAt 2).before (mixedLines.locationAt 5) = true ∧
      mixedLines.locationAt 5 = ⟨2, 3, none, none⟩ ∧ mixedLines.startOfLine 2 + 3 - 1 = 5 ∧
      (∀ k ∈ [7, 2, 5], (mixedLines.locationAt k).StartsAt mixedLines k) ∧
      Diagnostic.sortByLocation ([7, 2, 5].map fun k => .info "kept" (mixedLines.locationAt k)) =
        [2, 5, 7].map fun k => .info "kept" (mixedLines.locationAt k) := by
  obtain ⟨hbefore, hoffset, hsort, -⟩ := locations_ordered mixedLines
  have hboundary : ∀ k ∈ [7, 2, 5], mixedLines.Boundary k := by decide
  have hstarts (k : Nat) (hk : k ∈ [7, 2, 5]) : (mixedLines.locationAt k).StartsAt mixedLines k :=
    ⟨hboundary k hk, rfl, rfl⟩
  refine ⟨by decide, by decide, hbefore 2 5 (by decide) (by decide) (by decide), by decide,
    hoffset 5 (by decide), hstarts, ?_⟩
  refine hsort ([7, 2, 5].map fun k => (k, .info "kept" (mixedLines.locationAt k))) fun f hf => ?_
  obtain ⟨k, hk, rfl⟩ := List.mem_map.mp hf
  exact hstarts k hk

end TestMigration
