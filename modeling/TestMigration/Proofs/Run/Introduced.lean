import TestMigration.Proofs.Edit.Copied
import TestMigration.Proofs.Run.Requested

/-!
# Names that are bound twice

Of the names that import edits introduce, only `assert` is looked up among the names of the file. All others are
introduced whenever the declaration of their module lacks them, whatever else binds them at the top level.

Main statement: `Settings.bindsTwice_iff`. `Settings.mock_bound_twice` shows a name that is bound twice.
-/

namespace TestMigration

/-! ### What is introduced -/

namespace ImportPlanner

/-- What is requested and not known to the file, under the name that is introduced for it. -/
inductive Lacks (p : ImportPlanner) (request : ImportRequest) : String → Prop
  | assert (hrequest : .assert ∈ request.modules)
    (hunknown : (p.scan.find? p.targets.assert).bind ImportScan.assertName? = none)
    (hfree : "assert" ∉ p.scan.bound) : Lacks p request "assert"
  | nodeAssert (hrequest : .assert ∈ request.modules)
    (hunknown : (p.scan.find? p.targets.assert).bind ImportScan.assertName? = none)
    (htaken : "assert" ∈ p.scan.bound) : Lacks p request "nodeAssert"
  | registration {name : String} (hrequest : .test ∈ request.modules) (hname : name ∈ request.testNames)
    (hunknown : (p.scan.find? p.targets.test).bind (·.localFor? name) = none) : Lacks p request name
  | mock (hrequest : .mock ∈ request.modules)
    (hunknown : (p.scan.find? p.targets.test).bind (·.localFor? "mock") = none) : Lacks p request "mock"
  | util (hrequest : .util ∈ request.modules)
    (hunknown : (p.scan.find? p.targets.util).bind (·.localFor? "isDeepStrictEqual") = none) :
    Lacks p request "isDeepStrictEqual"

variable {p : ImportPlanner} {request : ImportRequest}

theorem mem_missing_assert (hnames : p.names = p.scan.names p.targets) {x : String} :
    x ∈ p.missing request .assert ↔
      (p.scan.find? p.targets.assert).bind ImportScan.assertName? = none ∧
        x = if "assert" ∈ p.scan.bound then "nodeAssert" else "assert" := by
  cases hknown : (p.scan.find? p.targets.assert).bind ImportScan.assertName? with
  | some known => simp [missing, demand, Need.missing, Need.locals, Targets.specifier, hknown]
  | none => simp [assert_missing_of_unknown hknown, hnames, ImportScan.names, hknown]

theorem mem_introduced_iff_lacks (hnames : p.names = p.scan.names p.targets) {x : String} :
    x ∈ p.introduced request ↔ p.Lacks request x := by
  have hnamed {kind : ModuleKind} {named : List String} (hdemand : p.demand request kind = { named }) :
      x ∈ p.missing request kind ↔
        x ∈ named ∧ (p.scan.find? (p.targets.specifier kind)).bind (·.localFor? x) = none := by
    simp [missing, hdemand, Need.missing, Need.locals, List.mem_filter]
  rw [mem_introduced]
  constructor
  · rintro ⟨kind, hkind, hx⟩
    cases kind with
    | assert =>
      obtain ⟨hunknown, rfl⟩ := (mem_missing_assert hnames).mp hx
      split
      · exact .nodeAssert hkind hunknown ‹_›
      · exact .assert hkind hunknown ‹_›
    | test =>
      obtain ⟨hname, hunknown⟩ := (hnamed rfl).mp hx
      exact .registration hkind hname hunknown
    | mock =>
      obtain ⟨hname, hunknown⟩ := (hnamed rfl).mp hx
      obtain rfl := List.mem_singleton.mp hname
      exact .mock hkind hunknown
    | util =>
      obtain ⟨hname, hunknown⟩ := (hnamed rfl).mp hx
      obtain rfl := List.mem_singleton.mp hname
      exact .util hkind hunknown
  · intro hlacks
    cases hlacks with
    | assert hrequest hunknown hfree =>
      exact ⟨.assert, hrequest, (mem_missing_assert hnames).mpr ⟨hunknown, by simp [hfree]⟩⟩
    | nodeAssert hrequest hunknown htaken =>
      exact ⟨.assert, hrequest, (mem_missing_assert hnames).mpr ⟨hunknown, by simp [htaken]⟩⟩
    | registration hrequest hname hunknown => exact ⟨.test, hrequest, (hnamed rfl).mpr ⟨hname, hunknown⟩⟩
    | mock hrequest hunknown => exact ⟨.mock, hrequest, (hnamed rfl).mpr ⟨List.mem_singleton_self _, hunknown⟩⟩
    | util hrequest hunknown => exact ⟨.util, hrequest, (hnamed rfl).mpr ⟨List.mem_singleton_self _, hunknown⟩⟩

end ImportPlanner

/-! ### What is bound twice -/

namespace Settings

section
variable (settings : Settings) (path : String) (source : Text) (tree : Node)

/-- The names that the import edits of a run introduce, as often as they do so. -/
def introduced : List String := (settings.planner path source tree).introduced (settings.request source tree)

/-- The run copies the node to the output in one piece. -/
def Keeps (s : Site) : Prop := Whole (copied source (settings.planned path source tree)) s.span

instance (s : Site) : Decidable (settings.Keeps path source tree s) := inferInstanceAs (Decidable (Whole _ _))

/-- An import edit introduces a name that a kept declaration at the top level binds. -/
def BindsTwice (x : String) : Prop :=
  x ∈ settings.introduced path source tree ∧
    ∃ b ∈ tree.topBindings, settings.Keeps path source tree b ∧ b.text source = x

end

/-- No import edit introduces a name that another one introduces. A name is bound twice just if the file lacks
something of that name and a kept declaration has taken it; where it is `assert`, a declaration that the scan
overlooks. -/
theorem bindsTwice_iff (settings : Settings) (path : String) (source : Text) (tree : Node) :
    (settings.introduced path source tree).Nodup ∧
    ∀ x, settings.BindsTwice path source tree x ↔
      (settings.planner path source tree).Lacks (settings.request source tree) x ∧
      ∃ statement ∈ Site.children ⟨tree, []⟩, ∃ b ∈ statement.topBindings,
        settings.Keeps path source tree b ∧ b.text source = x ∧ (x = "assert" → b ∈ statement.overlooked source) := by
  have hnames : (settings.planner path source tree).names =
      (settings.planner path source tree).scan.names (settings.planner path source tree).targets := rfl
  refine ⟨ImportPlanner.introduced_nodup hnames (settings.request_regular source tree), fun x => ?_⟩
  unfold BindsTwice introduced
  rw [ImportPlanner.mem_introduced_iff_lacks hnames]
  refine and_congr_right fun hlacks => ⟨?_, ?_⟩
  · rintro ⟨b, hb, hkept, hname⟩
    obtain ⟨statement, hstatement, hb⟩ := List.mem_flatMap.mp hb
    refine ⟨statement, hstatement, b, hb, hkept, hname, ?_⟩
    intro hassert
    refine Classical.byContradiction fun hknown => ?_
    have hbound := ImportScan.mem_bound_of_topBindings hstatement hb hknown
    rw [hname] at hbound
    cases hlacks with
    | assert _ _ hfree => exact hfree hbound
    | registration _ htest _ =>
      exact (settings.request_regular source tree).apart x htest (by rw [hassert]; decide)
    | nodeAssert | mock | util => exact absurd hassert (by decide)
  · rintro ⟨statement, hstatement, b, hb, hkept, hname, -⟩
    exact ⟨b, List.mem_flatMap.mpr ⟨statement, hstatement, hb⟩, hkept, hname⟩

set_option maxRecDepth 100000 in
/-- The mock tracker is imported beside a variable of its name. -/
theorem mock_bound_twice : ¬ ∀ (settings : Settings) (path text : String) (tree : Node),
    Grammar.parse (Grammar.ofPath path) text.toList = some tree →
    (tree.topBindings.map (·.text text.toList)).Nodup →
      (∀ x, ¬ settings.BindsTwice path text.toList tree x) ∧ (settings.introduced path text.toList tree).Nodup := by
  intro h
  obtain ⟨text, htext⟩ : ∃ text, text = "const mock = 1;\nconst s = sinon.stub();\n" := ⟨_, rfl⟩
  have hfile : (Grammar.parse (Grammar.ofPath "a.test.js") text.toList).any (fun tree =>
      decide (tree.topBindings.map (·.text text.toList)).Nodup &&
      (Settings.introduced {} "a.test.js" text.toList tree).contains "mock" &&
      tree.topBindings.any fun b =>
        decide (Settings.Keeps {} "a.test.js" text.toList tree b) && b.text text.toList == "mock") = true := by
    rw [htext]
    decide +kernel
  obtain ⟨tree, hparse, hfile⟩ := (Option.any_eq_true _ _).mp hfile
  simp only [Bool.and_eq_true, decide_eq_true_eq, List.contains_iff_mem, List.any_eq_true, beq_iff_eq] at hfile
  obtain ⟨⟨hnodup, hintroduced⟩, hkept⟩ := hfile
  exact (h {} "a.test.js" text tree hparse hnodup).1 "mock" ⟨hintroduced, hkept⟩

end Settings

end TestMigration
