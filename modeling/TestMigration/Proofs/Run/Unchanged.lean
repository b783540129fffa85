import TestMigration.Proofs.Run.Settled

/-!
# Files that come back unchanged

A run returns a file unchanged and reports no rewrite exactly when the file is settled. So a second run leaves
the output of the first one alone exactly when that output is settled, and a file that is on the test module
already is left alone exactly when its registrations are settled too.

Main statements: `migrate_unchanged_iff`, `migrate_twice_iff` and `migrate_onTestModule_iff`.
-/

namespace TestMigration

/-- The run returns `text` as it is and reports no rewrite. -/
def Outcome.Unchanged (o : Outcome) (text : String) : Prop :=
  o.output = text ∧ o.changed = false ∧ o.counts = []

instance (o : Outcome) (text : String) : Decidable (o.Unchanged text) :=
  inferInstanceAs (Decidable (_ ∧ _ ∧ _))

theorem migrateTree_unchanged_iff (settings : Settings) (path : String) {text : String} {tree : Node}
    (htree : tree.Placed text.toList) :
    (migrateTree settings path text.toList tree).Unchanged text ↔ settings.Settled text.toList tree := by
  obtain ⟨houtput, hcounts, hchanged⟩ := migrateTree_eq settings path text.toList tree
  rw [Outcome.Unchanged, houtput, hcounts, hchanged, ← Settings.planned_eq_nil_iff path]
  unfold Settings.applied
  constructor
  · rintro ⟨-, -, hnone⟩
    exact eq_nil_of_counts_eq_nil (settings.planned_inside path htree) hnone
  · intro hnil
    rw [hnil]
    have happlied := applyEdits_nil text.toList (settings.style.apply (Style.detect text.toList tree))
    rw [happlied]
    simp

/-- Exactly settled files come back unchanged. -/
theorem migrate_unchanged_iff (settings : Settings) (path text : String) :
    (∃ o, migrate settings path text = some o ∧ o.Unchanged text) ↔
      ∃ tree, Grammar.parse (Grammar.ofPath path) text.toList = some tree ∧
        settings.Settled text.toList tree := by
  unfold migrate
  cases hparse : Grammar.parse (Grammar.ofPath path) text.toList with
  | none => simp
  | some tree =>
    simp [migrateTree_unchanged_iff settings path (Grammar.parse_placed hparse)]

/-- A second run finds nothing to do in the output of the first one exactly when that output is settled. -/
theorem migrate_twice_iff (settings : Settings) (path source : String) :
    (∀ o, migrate settings path source = some o →
      ∃ o', migrate settings path o.output = some o' ∧ o'.Unchanged o.output) ↔
    ∀ o, migrate settings path source = some o →
      ∃ tree, Grammar.parse (Grammar.ofPath path) o.output.toList = some tree ∧
        settings.Settled o.output.toList tree := by
  simp only [migrate_unchanged_iff]

set_option maxRecDepth 100000 in
/-- Only the first of two timeouts goes, and the next run takes the second one for the first. -/
theorem migrate_not_idempotent : ¬ ∀ (settings : Settings) (path source : String) (o : Outcome),
    migrate settings path source = some o →
      ∃ o', migrate settings path o.output = some o' ∧ o'.output = o.output := by
  intro h
  have hchanges : ((migrate {} "a.test.js"
      "it('a', function () \x7b\n  this.timeout(1);\n  this.timeout(2);\n\x7d);\n").any fun o =>
        (migrate {} "a.test.js" o.output).all fun o' => o'.output != o.output) = true := by
    decide +kernel
  obtain ⟨o, ho, hall⟩ := (Option.any_eq_true _ _).mp hchanges
  obtain ⟨o', ho', hsame⟩ := h _ _ _ o ho
  rw [ho'] at hall
  simp [hsame] at hall

set_option maxRecDepth 100000 in
/-- A number is taken as the object of a member access as it stands, so the output need not be accepted. -/
theorem migrate_output_rejected : ¬ ∀ (settings : Settings) (path source : String) (o : Outcome),
    migrate settings path source = some o →
      (Grammar.parse (Grammar.ofPath path) o.output.toList).isSome = true := by
  intro h
  have hrejected : ((migrate {} "a.test.js" "expect(5).to.have.length(3);\n").any fun o =>
      (Grammar.parse (Grammar.ofPath "a.test.js") o.output.toList).isNone) = true := by
    decide +kernel
  obtain ⟨o, ho, hnone⟩ := (Option.any_eq_true _ _).mp hrejected
  have hsome := h _ _ _ o ho
  rw [Option.isNone_iff_eq_none] at hnone
  rw [hnone] at hsome
  cases hsome

/-! ### Files on the test module -/

namespace Run

variable {ctx : Context} {source : Text} {tree : Node} {scan : ImportScan} {settings : Settings} {r : Run}

theorem discover_eq_empty {migrations : List Migration}
    (h : ∀ s ∈ tree.sites, s.isCandidate = true → found? ctx migrations s = none) :
    discover ctx migrations tree = {} := by
  have hfold (sites : List Site) (hsites : ∀ s ∈ sites, found? ctx migrations s = none) (r : Run) :
      sites.foldl (visit ctx migrations) r = r := by
    induction sites generalizing r with
    | nil => rfl
    | cons s rest ih =>
      obtain ⟨hs, hrest⟩ := List.forall_mem_cons.mp hsites
      rw [List.foldl_cons, ih hrest, visit_eq, hs]
  exact hfold _ (fun s hs => h s (List.mem_filter.mp hs).1 (List.mem_filter.mp hs).2) {}

theorem removeSandboxes_touched {m : Migration} (h : m ∈ (r.removeSandboxes ctx tree).touched) :
    m ∈ r.touched ∨ m = .mocks ∧ sandboxDeclarations ctx tree r ≠ [] := by
  have hfold (names : List String) (declarations : List (Site × String)) (r' : Run)
      (hm : m ∈ (names.foldl (removeSandbox ctx tree declarations) r').touched) :
      m ∈ r'.touched ∨ m = .mocks ∧ names ≠ [] := by
    induction names generalizing r' with
    | nil => exact Or.inl hm
    | cons n rest ih =>
      rcases ih _ hm with hm | ⟨hm, -⟩
      · unfold Run.removeSandbox at hm
        dsimp only at hm
        split at hm
        · exact Or.inl hm
        · rcases List.mem_append.mp hm with hm | hm
          · exact Or.inl hm
          · exact Or.inr ⟨List.mem_singleton.mp hm, by simp⟩
      · exact Or.inr ⟨hm, by simp⟩
  rcases hfold _ _ r h with h | ⟨h, hnames⟩
  · exact Or.inl h
  · refine Or.inr ⟨h, fun hnil => hnames ?_⟩
    have hempty : orderNames ((sandboxDeclarations ctx tree r).map (·.2)) = [] := by
      rw [hnil]
      rfl
    exact hempty

theorem register_touched {m : Migration} (h : m ∈ (r.register source tree scan settings).1.touched) :
    m ∈ r.touched ∨ m = .registration ∧ settings.migrations.contains .registration = true := by
  by_cases henabled : settings.migrations.contains .registration = true
  · unfold register at h
    rw [if_pos henabled] at h
    by_cases hfound : (RegistrationPass.ofTree source tree r.edits).usage.found = true
    · rw [if_pos hfound] at h
      rcases List.mem_append.mp h with h | h
      · exact Or.inl h
      · exact Or.inr ⟨List.mem_singleton.mp h, henabled⟩
    · rw [if_neg hfound] at h
      exact Or.inl h
  · rw [register_of_disabled henabled] at h
    exact Or.inl h

theorem removeSetup_touched {pending : List Leftover} :
    (r.removeSetup source pending).touched = r.touched := by
  unfold removeSetup
  split
  · rfl
  · split <;> rfl

end Run

/-- The file is on the test module: no rule recognises a chain, no legacy module is declared, and what
registers something is a name that the declaration of the test module binds. -/
structure Settings.OnTestModule (settings : Settings) (source : Text) (tree : Node) : Prop where
  rules : ∀ s ∈ tree.sites, s.isCandidate = true → ∀ m ∈ settings.migrations,
    m.findRule? (settings.context source tree) (Chain.walk source s) = none
  legacy : ∀ d ∈ (ImportScan.ofTree source tree).declarations, ∀ m ∈ settings.migrations,
    d.logical ∉ m.legacyModules
  bases : ∀ s ∈ tree.sites, ∀ callee ∈ s.registration? source,
    ∃ d ∈ (ImportScan.ofTree source tree).find? settings.targets.test, callee.base ∈ d.locals

instance (settings : Settings) (source : Text) (tree : Node) :
    Decidable (settings.OnTestModule source tree) :=
  decidable_of_iff
    ((∀ s ∈ tree.sites, s.isCandidate = true → ∀ m ∈ settings.migrations,
        m.findRule? (settings.context source tree) (Chain.walk source s) = none) ∧
      (∀ d ∈ (ImportScan.ofTree source tree).declarations, ∀ m ∈ settings.migrations,
        d.logical ∉ m.legacyModules) ∧
      ∀ s ∈ tree.sites, ∀ callee ∈ s.registration? source,
        ∃ d ∈ (ImportScan.ofTree source tree).find? settings.targets.test, callee.base ∈ d.locals)
    ⟨fun h => ⟨h.1, h.2.1, h.2.2⟩, fun h => ⟨h.rules, h.legacy, h.bases⟩⟩

namespace Settings.OnTestModule

variable {settings : Settings} {source : Text} {tree : Node}

theorem discovered_eq (h : settings.OnTestModule source tree) : settings.discovered source tree = {} := by
  refine Run.discover_eq_empty fun s hs hcandidate => ?_
  refine List.findSome?_eq_none_iff.mpr fun m hm => ?_
  exact Option.map_eq_none_iff.mpr (h.rules s hs hcandidate m hm)

theorem touched (h : settings.OnTestModule source tree) {m : Migration}
    (hm : m ∈ (settings.collected source tree).touched) : m ∈ settings.migrations := by
  rw [Settings.collected, Run.removeSetup_touched] at hm
  rcases Run.register_touched hm with hm | ⟨rfl, henabled⟩
  · rcases Run.removeSandboxes_touched hm with hm | ⟨rfl, hsandboxes⟩
    · rw [h.discovered_eq] at hm
      cases hm
    · -- a sandbox without a declaration of its value is one of the mocks that were looked for
      obtain ⟨d, hd⟩ := List.exists_mem_of_ne_nil _ hsandboxes
      rw [h.discovered_eq] at hd
      rcases List.mem_append.mp hd with hd | hd
      · cases hd
      · have hbinding := (List.mem_filter.mp hd).2
        by_cases henabled : settings.migrations.contains .mocks = true
        · simpa using henabled
        · rw [Settings.context, if_neg henabled] at hbinding
          cases hbinding
  · simpa using henabled

theorem legacy_settled (h : settings.OnTestModule source tree) {d : Declaration}
    (hd : d ∈ (ImportScan.ofTree source tree).declarations) :
    (settings.request source tree).legacy.contains d.logical = false := by
  rw [Bool.eq_false_iff]
  intro hlegacy
  have hmem := (List.mem_filter.mp (List.contains_iff_mem.mp hlegacy)).1
  obtain ⟨m, hm, hmodule⟩ := List.mem_flatMap.mp hmem
  have htouched := List.contains_iff_mem.mp (List.mem_filter.mp hm).2
  exact h.legacy d hd m (h.touched htouched) hmodule

/-- There is a declaration of the test module as soon as something is registered. -/
theorem imported_iff (h : settings.OnTestModule source tree) :
    Run.Imported settings source tree (ImportScan.ofTree source tree) ↔
      ∀ d ∈ (ImportScan.ofTree source tree).find? settings.targets.test, ∀ name,
        RegistrationPass.Uses source tree name → (d.localFor? name).isSome = true := by
  constructor
  · intro himported d hd name huses
    obtain ⟨d', hd', hlocal⟩ := himported name huses
    obtain rfl : d = d' := Option.some.inj (hd.symm.trans hd')
    exact hlocal
  · intro hlocals name huses
    have hdeclared : ∃ d, (ImportScan.ofTree source tree).find? settings.targets.test = some d := by
      obtain ⟨s, hs, callee, hcallee, -⟩ := huses
      obtain ⟨d, hd, -⟩ := h.bases s hs callee hcallee
      exact ⟨d, hd⟩
    obtain ⟨d, hd⟩ := hdeclared
    exact ⟨d, hd, hlocals d hd name huses⟩

end Settings.OnTestModule

/-- A file on the test module is left alone exactly when every open sandbox is still used, every registration
is settled and the declaration of the test module imports every name that a registration needs. -/
theorem migrate_onTestModule_iff (settings : Settings) (path text : String) {tree : Node}
    (hparse : Grammar.parse (Grammar.ofPath path) text.toList = some tree)
    (h : settings.OnTestModule text.toList tree) :
    (∃ o, migrate settings path text = some o ∧ o.Unchanged text) ↔
      (∀ d ∈ settings.sandboxes text.toList tree, isStillReferenced text.toList tree d.2
        ((Run.sandboxStatements (settings.sandboxes text.toList tree) d.2).map (·.span)) [] = true) ∧
      (settings.migrations.contains .registration = true → RegistrationPass.Settled text.toList tree ∧
        ∀ d ∈ (ImportScan.ofTree text.toList tree).find? settings.targets.test, ∀ name,
          RegistrationPass.Uses text.toList tree name → (d.localFor? name).isSome = true) := by
  have hsettled : (∃ o, migrate settings path text = some o ∧ o.Unchanged text) ↔
      settings.Settled text.toList tree := by
    rw [migrate_unchanged_iff, hparse]
    simp
  rw [hsettled, ← h.imported_iff]
  constructor
  · exact fun hs => ⟨hs.sandboxes, fun henabled => ⟨hs.registrations henabled, hs.imports henabled⟩⟩
  · rintro ⟨hsandboxes, hregistration⟩
    refine ⟨?_, ?_, hsandboxes, fun he => (hregistration he).1, fun he => (hregistration he).2, ?_, ?_⟩
    · intro s hs hcandidate m rule synthesis hfound
      obtain ⟨m', hm', hrule⟩ := List.exists_of_findSome?_eq_some hfound
      have hnone := h.rules s hs hcandidate m' hm'
      obtain ⟨f, hf, -⟩ := Option.map_eq_some_iff.mp hrule
      exact absurd (hf.symm.trans hnone) (by simp)
    · rw [h.discovered_eq]
      simp [Plans.withoutOverriding]
    · rw [h.discovered_eq]
      exact Or.inl rfl
    · intro d hd hlegacy
      rw [h.legacy_settled hd] at hlegacy
      cases hlegacy

set_option maxRecDepth 100000 in
theorem migrate_onTestModule_settled : ∃ text tree,
    text = "import \x7b test \x7d from 'node:test';\n\ntest('a', () => \x7b\x7d);\n" ∧
    Grammar.parse (Grammar.ofPath "a.test.js") text.toList = some tree ∧
    Settings.OnTestModule {} text.toList tree ∧ RegistrationPass.Settled text.toList tree ∧
    ∀ d ∈ (ImportScan.ofTree text.toList tree).find? "node:test", ∀ name,
      RegistrationPass.Uses text.toList tree name → (d.localFor? name).isSome = true := by
  obtain ⟨text, htext⟩ : ∃ text, text =
      "import \x7b test \x7d from 'node:test';\n\ntest('a', () => \x7b\x7d);\n" := ⟨_, rfl⟩
  have hfile : (Grammar.parse (Grammar.ofPath "a.test.js") text.toList).any (fun tree =>
      Settings.OnTestModule {} text.toList tree) = true := by
    rw [htext]
    decide +kernel
  have hunchanged : (migrate {} "a.test.js" text).any (·.Unchanged text) = true := by
    rw [htext]
    decide +kernel
  obtain ⟨tree, hparse, hfile⟩ := (Option.any_eq_true _ _).mp hfile
  obtain ⟨o, ho, hsame⟩ := (Option.any_eq_true _ _).mp hunchanged
  have hsettled := (migrate_onTestModule_iff {} "a.test.js" text hparse (of_decide_eq_true hfile)).mp
    ⟨o, ho, of_decide_eq_true hsame⟩
  exact ⟨text, tree, htext, hparse, of_decide_eq_true hfile, hsettled.2 rfl⟩

set_option maxRecDepth 100000 in
/-- A callback with the context as its only parameter is taken for one that reports its end. -/
theorem migrate_onTestModule_changed : ¬ ∀ (settings : Settings) (path text : String) (tree : Node),
    Grammar.parse (Grammar.ofPath path) text.toList = some tree →
    settings.OnTestModule text.toList tree →
      ∃ o, migrate settings path text = some o ∧ o.output = text ∧ o.changed = false := by
  intro h
  obtain ⟨text, htext⟩ : ∃ text, text =
      "import \x7b test \x7d from 'node:test';\n\ntest('a', (t) => \x7b\n  t.plan(1);\n\x7d);\n" := ⟨_, rfl⟩
  have hfile : (Grammar.parse (Grammar.ofPath "a.test.js") text.toList).any (fun tree =>
      Settings.OnTestModule {} text.toList tree) = true := by
    rw [htext]
    decide +kernel
  have hchanged : (migrate {} "a.test.js" text).all (·.changed) = true := by
    rw [htext]
    decide +kernel
  obtain ⟨tree, hparse, hfile⟩ := (Option.any_eq_true _ _).mp hfile
  obtain ⟨o, ho, -, hsame⟩ := h {} "a.test.js" text tree hparse (of_decide_eq_true hfile)
  rw [ho] at hchanged
  simp [hsame] at hchanged

end TestMigration
