import TestMigration.Proofs.Run.Deleted

/-!
# Where edits come from

The edits that a run plans are those that each chain asks for by itself, the new names of registration calls, and
edits of other passes, which are recorded under names of their own (`laterRules`). Rules have different names, so most
edits that are recorded under the name of a rule come from a chain that the rule takes.

Main statements: `Settings.planned_origin` and `Settings.chain_of_planned`.
-/

namespace TestMigration

/-- The names under which passes record edits that neither a chain nor the name of a registration asks for. -/
def laterRules : List String :=
  ["stub-configuration", "stub-configuration-merged", "sandbox-creation", "context-parameter", "timeout-option",
    "assertion-setup", "legacy-import", "import"]

variable {source : Text} {x : Edit}

/-! ### Names of rules -/

namespace Rule

def all : List Rule := Migration.all.flatMap Migration.catalog

theorem mem_all (r : Rule) : r ∈ all := by
  cases r with
  | assertionSetup => decide
  | assertion family => cases family <;> decide
  | mock rule => cases rule <;> decide
  | registration rule => cases rule <;> decide

theorem name_inj {r r' : Rule} (h : r.name = r'.name) : r = r' :=
  List.inj_on_of_nodup_map (f := name) (by decide) (mem_all r) (mem_all r') h

theorem name_ne_of_forall {name : String} (h : ∀ r ∈ all, r.name ≠ name) (r : Rule) : r.name ≠ name := h r (mem_all r)

theorem name_ne_rename (r : Rule) : r.name ≠ "registration-rename" := name_ne_of_forall (by decide) r

end Rule

theorem Run.rule_of_chainEdits {ctx : Context} {migrations : List Migration} {s : Site}
    (hx : x ∈ chainEdits ctx migrations s) : ∃ r : Rule, x.rule = r.name := by
  unfold chainEdits at hx
  split at hx
  · obtain rfl := List.mem_singleton.mp hx
    exact ⟨_, rfl⟩
  · obtain rfl := List.mem_singleton.mp hx
    exact ⟨_, rfl⟩
  · cases hx

/-! ### Stubs and sandboxes -/

/-- The names under which the passes over stubs and sandboxes record edits. -/
def stubRules : List String := ["stub-configuration", "stub-configuration-merged", "sandbox-creation"]

theorem installEdits_rule {ctx : Context} {configs : List StubConfig} {key : ScopeKey}
    (h : x ∈ installEdits ctx configs key) : x.rule ∈ stubRules := by
  unfold installEdits Plan.outcome at h
  dsimp only at h
  split at h
  · cases h
  · split at h
    · cases h
    · rename_i install rest requires hinstalled
      rcases List.mem_cons.mp h with rfl | h
      · have hrule : x.rule = "stub-configuration" := by
          unfold Plan.installed? at hinstalled
          dsimp only at hinstalled
          split at hinstalled
          · cases hinstalled
            rfl
          · cases hinstalled
            rfl
          · split at hinstalled
            · cases hinstalled
              rfl
            · cases hinstalled
        rw [hrule]
        decide
      · obtain ⟨root, -, hx⟩ := List.mem_filterMap.mp h
        obtain ⟨statement, -, rfl⟩ := Option.map_eq_some_iff.mp hx
        show "stub-configuration-merged" ∈ stubRules
        decide

/-! ### Registrations -/

namespace Registration

variable {call callback : Site} {callee : Callee}

theorem mem_rename_iff : x ∈ (rename call callee).edits ↔ callee.modifier = none ∧ renamed callee.base ≠ callee.base ∧
    ∃ f, call.child? .callee = some f ∧ x = .replaceText f.span (renamed callee.base) "registration-rename" := by
  unfold rename
  split
  · rename_i f hmodifier hf
    split <;> simp_all [Change.one]
  · rename_i hother
    simp only [List.not_mem_nil, false_iff, not_and, not_exists]
    rintro hmodifier - f hf -
    exact hother f hmodifier hf

theorem contextParameter_rule (h : x ∈ (contextParameter source callback).edits) : x.rule = "context-parameter" := by
  unfold contextParameter at h
  split at h
  · dsimp only at h
    split_ifs at h
    all_goals
      obtain rfl := List.mem_singleton.mp h
      rfl
  · cases h

theorem timeoutEdits_rule {registers : Registration} {hasOptions : Bool} {statement : Site} {value : String}
    (h : x ∈ timeoutEdits source registers callback hasOptions statement value) : x.rule = "timeout-option" := by
  unfold timeoutEdits at h
  dsimp only at h
  split_ifs at h <;> simp only [List.mem_cons, List.not_mem_nil, or_false] at h
  · rw [h]
    rfl
  · rcases h with rfl | rfl <;> rfl
  · rcases h with rfl | rfl <;> rfl

theorem callChange_cases (h : x ∈ (callChange source call callee).edits) :
    x ∈ (rename call callee).edits ∨ x.rule = "context-parameter" ∨ x.rule = "timeout-option" := by
  rcases mem_callChange_iff.mp h with h | ⟨callback, -, ⟨-, h⟩ | ⟨-, statement, -, h⟩⟩
  · exact .inl h
  · exact .inr (.inl (contextParameter_rule h))
  · exact .inr (.inr (timeoutEdits_rule h))

end Registration

namespace RegistrationPass

variable {p : RegistrationPass} {call : Site} {callee : Registration.Callee}

/-- The callee of a call that registers something and that no edit covers. -/
def handles? (source : Text) (p : RegistrationPass) (call : Site) : Option Registration.Callee :=
  (call.registration? source).filter fun _ => !Edit.covers p.edits call.span

/-- The calls that the pass changes, with their callees. -/
def handled (source : Text) : RegistrationPass → List Site → List (Site × Registration.Callee)
  | _, [] => []
  | p, call :: rest => ((p.handles? source call).toList.map (call, ·)) ++ handled source (p.addCall source call) rest

theorem mem_handled {calls : List Site} (h : (call, callee) ∈ handled source p calls) :
    call ∈ calls ∧ call.registration? source = some callee := by
  induction calls generalizing p with
  | nil => cases h
  | cons first rest ih =>
    rcases List.mem_append.mp h with h | h
    · obtain ⟨callee', hcallee, heq⟩ := List.mem_map.mp h
      cases heq
      exact ⟨List.mem_cons_self, Option.eq_some_of_filter_eq_some (Option.mem_toList.mp hcallee)⟩
    · exact ⟨List.mem_cons_of_mem _ (ih h).1, (ih h).2⟩

theorem addCall_handled (source : Text) (p : RegistrationPass) (call : Site) :
    (p.addCall source call).edits = p.edits ++
      (p.handles? source call).toList.flatMap (fun callee => (Registration.callChange source call callee).edits) ∧
    ∀ name, name ∈ (p.addCall source call).usage.names ↔
      name ∈ p.usage.names ∨ ∃ callee ∈ p.handles? source call, Registration.importedName callee.base = name := by
  unfold addCall handles?
  cases call.registration? source with
  | none => simp
  | some callee =>
    cases Edit.covers p.edits call.span with
    | true => simp
    | false =>
      rw [show (some callee).filter (fun _ => !false) = some callee from rfl]
      simp [mem_insertName, or_comm, @eq_comm _ (Registration.importedName callee.base)]

/-- The pass adds the changes of the calls that it handles, and notes the names under which they are imported. -/
theorem foldl_addCall_handled (calls : List Site) (p : RegistrationPass) :
    (calls.foldl (addCall source) p).edits =
      p.edits ++ (handled source p calls).flatMap (fun c => (Registration.callChange source c.1 c.2).edits) ∧
    ∀ name, name ∈ (calls.foldl (addCall source) p).usage.names ↔
      name ∈ p.usage.names ∨ ∃ c ∈ handled source p calls, Registration.importedName c.2.base = name := by
  induction calls generalizing p with
  | nil => simp [handled]
  | cons call rest ih =>
    obtain ⟨hedits, hnames⟩ := addCall_handled source p call
    obtain ⟨hlater, hlaterNames⟩ := ih (p.addCall source call)
    rw [List.foldl_cons]
    refine ⟨?_, fun name => ?_⟩
    · rw [hlater, hedits, handled]
      simp [List.flatMap_map]
    · rw [hlaterNames, hnames, handled]
      simp only [List.mem_append, List.mem_map, Option.mem_toList]
      constructor
      · rintro ((h | ⟨callee, hcallee, hname⟩) | ⟨c, hc, hname⟩)
        · exact .inl h
        · exact .inr ⟨(call, callee), .inl ⟨callee, hcallee, rfl⟩, hname⟩
        · exact .inr ⟨c, .inr hc, hname⟩
      · rintro (h | ⟨c, ⟨callee, hcallee, rfl⟩ | hc, hname⟩)
        · exact .inl (.inl h)
        · exact .inl (.inr ⟨callee, hcallee, hname⟩)
        · exact .inr ⟨c, hc, hname⟩

end RegistrationPass

theorem Addition.edit_rule (p : ImportPlanner) (source : Text) (a : Addition) : (a.edit p source).rule = "import" := by
  cases a with
  | declarations needs =>
    simp only [Addition.edit, ImportPlanner.insertion]
    split
    · rfl
    · split <;> rfl
    · rfl
  | inFront | behindLast | inBraces | behindDefault => rfl

/-! ### All passes -/

namespace Settings

variable {settings : Settings} {path : String} {tree : Node}

/-- The registration calls that a run handles, with their callees. -/
def handled (settings : Settings) (source : Text) (tree : Node) : List (Site × Registration.Callee) :=
  RegistrationPass.handled source { edits := (settings.unboxed source tree).edits }
    (tree.sites.filter (·.kind == .call))

/-- What an edit of a run comes from. -/
inductive Origin (settings : Settings) (source : Text) (tree : Node) (x : Edit) : Prop
  /-- A chain asks for the edit by itself. -/
  | chain {s : Site} (hs : s ∈ tree.sites) (hcandidate : s.isCandidate = true)
    (hx : x ∈ Run.chainEdits (settings.context source tree) settings.migrations s)
  /-- The edit gives a registration call its new name. -/
  | rename {call : Site} {callee : Registration.Callee} (henabled : settings.migrations.contains .registration = true)
    (hcall : (call, callee) ∈ settings.handled source tree) (hx : x ∈ (Registration.rename call callee).edits)
  /-- The edit is recorded under the name of another pass. -/
  | later (hrule : x.rule ∈ laterRules)

theorem unboxed_cases (h : x ∈ (settings.unboxed source tree).edits) :
    (∃ s ∈ tree.sites, s.isCandidate = true ∧
      x ∈ Run.chainEdits (settings.context source tree) settings.migrations s) ∨ x.rule ∈ stubRules := by
  rw [unboxed, Run.removeSandboxes, Run.foldl_removeSandbox_edits, discovered, Run.finishStubs_edits] at h
  rcases List.mem_append.mp h with h | h
  · rcases List.mem_append.mp h with h | h
    · obtain ⟨s, hs, hx⟩ := List.mem_flatMap.mp h
      obtain ⟨hs, hcandidate⟩ := List.mem_filter.mp hs
      exact .inl ⟨s, hs, hcandidate, hx⟩
    · obtain ⟨key, -, hx⟩ := List.mem_flatMap.mp h
      exact .inr (installEdits_rule hx)
  · obtain ⟨binding, -, hx⟩ := List.mem_flatMap.mp h
    obtain ⟨s, -, rfl⟩ := List.mem_map.mp hx
    exact .inr (by decide : "sandbox-creation" ∈ stubRules)

theorem registered_cases (h : x ∈ (settings.registered source tree).1.edits) :
    x ∈ (settings.unboxed source tree).edits ∨ settings.migrations.contains .registration = true ∧
      ∃ c ∈ settings.handled source tree, x ∈ (Registration.callChange source c.1 c.2).edits := by
  by_cases henabled : settings.migrations.contains .registration = true
  · rw [registered, (Run.register_of_enabled henabled).1, RegistrationPass.ofTree,
      (RegistrationPass.foldl_addCall_handled _ _).1] at h
    exact (List.mem_append.mp h).imp_right fun h => ⟨henabled, List.mem_flatMap.mp h⟩
  · rw [registered, Run.register_of_disabled henabled] at h
    exact .inl h

theorem planned_cases (h : x ∈ settings.planned path source tree) :
    x ∈ (settings.registered source tree).1.edits ∨ x.rule ∈ ["assertion-setup", "legacy-import", "import"] := by
  rw [planned, ImportPlanner.plan_eq, ImportPlanner.dropLegacy_eq] at h
  rcases List.mem_append.mp h with h | h
  · rcases List.mem_append.mp h with h | h
    · unfold collected Run.removeSetup at h
      split at h
      · exact .inl h
      · split at h
        · refine (List.mem_append.mp h).imp_right fun h => ?_
          obtain ⟨s, -, rfl⟩ := List.mem_map.mp h
          exact (by decide : "assertion-setup" ∈ ["assertion-setup", "legacy-import", "import"])
        · exact .inl h
    · obtain ⟨d, -, rfl⟩ := List.mem_map.mp h
      exact .inr (by decide : "legacy-import" ∈ ["assertion-setup", "legacy-import", "import"])
  · obtain ⟨a, -, rfl⟩ := List.mem_map.mp h
    rw [Addition.edit_rule]
    exact .inr (by decide)

/-- A planned edit is one that a chain asks for by itself, the new name of a registration call that the run handles,
or recorded under the name of another pass. -/
theorem planned_origin (h : x ∈ settings.planned path source tree) : settings.Origin source tree x := by
  rcases planned_cases h with h | hrule
  · rcases registered_cases h with h | ⟨henabled, ⟨call, callee⟩, hcall, hx⟩
    · rcases unboxed_cases h with ⟨s, hs, hcandidate, hx⟩ | hrule
      · exact .chain hs hcandidate hx
      · exact .later ((by decide : stubRules ⊆ laterRules) hrule)
    · rcases Registration.callChange_cases hx with hx | hrule | hrule
      · exact .rename henabled hcall hx
      · exact .later (hrule ▸ by decide)
      · exact .later (hrule ▸ by decide)
  · exact .later ((by decide : ["assertion-setup", "legacy-import", "import"] ⊆ laterRules) hrule)

/-- What a chain of the file asks for by itself is planned. -/
theorem mem_planned_of_chainEdits {s : Site} (hs : s ∈ tree.sites) (hcandidate : s.isCandidate = true)
    (hx : x ∈ Run.chainEdits (settings.context source tree) settings.migrations s) :
    x ∈ settings.planned path source tree := by
  refine (settings.finishStubs_prefix_planned path source tree).subset ?_
  rw [discovered, Run.finishStubs_edits]
  exact List.mem_append_left _ (List.mem_flatMap.mpr ⟨s, List.mem_filter.mpr ⟨hs, hcandidate⟩, hx⟩)

theorem registered_prefix_planned :
    (settings.registered source tree).1.edits <+: settings.planned path source tree := by
  have hcollected : (settings.registered source tree).1.edits <+: (settings.collected source tree).edits := by
    unfold collected Run.removeSetup
    split
    · exact List.prefix_refl _
    · split
      · exact List.prefix_append _ _
      · exact List.prefix_refl _
  refine hcollected.trans (List.IsPrefix.trans ?_ dropLegacy_prefix_planned)
  rw [ImportPlanner.dropLegacy_eq]
  exact List.prefix_append _ _

/-- The changes of the registration calls that a run handles are planned. -/
theorem mem_planned_of_callChange {call : Site} {callee : Registration.Callee}
    (henabled : settings.migrations.contains .registration = true)
    (hcall : (call, callee) ∈ settings.handled source tree)
    (hx : x ∈ (Registration.callChange source call callee).edits) : x ∈ settings.planned path source tree := by
  refine registered_prefix_planned.subset ?_
  rw [registered, (Run.register_of_enabled henabled).1, RegistrationPass.ofTree,
    (RegistrationPass.foldl_addCall_handled _ _).1]
  exact List.mem_append_right _ (List.mem_flatMap.mpr ⟨_, hcall, hx⟩)

/-- No other pass records edits under the names for the callbacks of registration calls. -/
theorem mem_planned_iff_callChange (henabled : settings.migrations.contains .registration = true)
    (hrule : x.rule = "context-parameter" ∨ x.rule = "timeout-option") : x ∈ settings.planned path source tree ↔
      ∃ c ∈ settings.handled source tree, x ∈ (Registration.callChange source c.1 c.2).edits := by
  refine ⟨fun h => ?_, fun ⟨c, hcall, hx⟩ => mem_planned_of_callChange henabled hcall hx⟩
  rcases planned_cases h with h | hother
  · rcases registered_cases h with h | ⟨-, h⟩
    · rcases unboxed_cases h with ⟨s, -, -, hx⟩ | hother
      · obtain ⟨r, hr⟩ := Run.rule_of_chainEdits hx
        rcases hrule with hrule | hrule
        · exact absurd (hr.symm.trans hrule) (Rule.name_ne_of_forall (by decide) r)
        · exact absurd (hr.symm.trans hrule) (Rule.name_ne_of_forall (by decide) r)
      · rcases hrule with hrule | hrule <;> rw [hrule] at hother <;> exact absurd hother (by decide)
    · exact h
  · rcases hrule with hrule | hrule <;> rw [hrule] at hother <;> exact absurd hother (by decide)

/-- An edit under the name of a rule replaces a part of a chain that the rule takes, unless other passes use the name
too or the rule deletes statements. -/
theorem chain_of_planned {r : Rule} (h : x ∈ settings.planned path source tree) (hrule : x.rule = r.name)
    (hlater : r.name ∉ laterRules) (hslow : r ≠ .registration .slowThreshold) :
    ∃ s ∈ tree.sites, s.isCandidate = true ∧ ∃ m target e,
      Run.found? (settings.context source tree) settings.migrations s = some (m, r, .replace target e) ∧
      x = .replace target.span e r.name := by
  cases planned_origin h with
  | @chain s hs hcandidate hx =>
    refine ⟨s, hs, hcandidate, ?_⟩
    unfold Run.chainEdits at hx
    split at hx
    · rename_i m r' target e hfound
      obtain rfl := List.mem_singleton.mp hx
      obtain rfl : r' = r := Rule.name_inj hrule
      exact ⟨m, target, e, hfound, rfl⟩
    · rename_i m r' statement hfound
      obtain rfl := List.mem_singleton.mp hx
      obtain rfl : r' = r := Rule.name_inj hrule
      exact absurd (Rule.eq_slowThreshold (Run.synthesis?_of_found? hfound)) hslow
    · cases hx
  | rename henabled hcall hx =>
    obtain ⟨-, -, f, -, rfl⟩ := Registration.mem_rename_iff.mp hx
    exact absurd hrule.symm r.name_ne_rename
  | later hname => exact absurd (hrule ▸ hname) hlater

end Settings

end TestMigration
