import Mathlib.Data.List.Basic
import TestMigration.Proofs.Mock.Configuring
import TestMigration.Proofs.Run.Dangling
import TestMigration.Proofs.Stub.Gathering

/-!
# Stubs that are given up

The edits that chains ask for are those of each chain by itself and those of each stub that is not given up
(`Run.finishStubs_edits`). A stub that is given up asks for none, and neither do the chains that were noted down
for it; all other chains are edited as if the stub were converted.

Main statement: `Settings.Skips.whole_iff`, when a chain of such a stub comes back in one piece.
-/

namespace TestMigration

/-! ### Edits that chains ask for -/

namespace Run

variable {ctx : Context} {migrations : List Migration} {tree : Node}

/-- The edits that the chain at a site asks for at once. -/
def chainEdits (ctx : Context) (migrations : List Migration) (s : Site) : List Edit :=
  match found? ctx migrations s with
  | some (_, rule, .replace target e) => [.replace target.span e rule.name]
  | some (_, rule, .removeStatement statement) => [.deleteStatement ctx.source statement.span rule.name]
  | _ => []

/-- What is noted down at a site, if its chain makes or configures a stub. -/
def noted? (ctx : Context) (migrations : List Migration) (s : Site) : Option StubConfig :=
  match found? ctx migrations s with
  | some (_, _, .configure c) => some c
  | _ => none

theorem chainEdits_of_noted {s : Site} {c : StubConfig} (h : noted? ctx migrations s = some c) :
    chainEdits ctx migrations s = [] := by
  unfold noted? at h
  split at h
  · rename_i hfound
    simp [chainEdits, hfound]
  · cases h

/-- The chains that are noted down in a file. -/
def noted (ctx : Context) (migrations : List Migration) (tree : Node) : List StubConfig :=
  (tree.sites.filter (·.isCandidate)).filterMap (noted? ctx migrations)

theorem visit_adds (r : Run) (s : Site) :
    (r.visit ctx migrations s).edits = r.edits ++ chainEdits ctx migrations s ∧
    (r.visit ctx migrations s).plans = (noted? ctx migrations s).toList.foldl (Plans.add ctx) r.plans := by
  rw [visit_eq]
  unfold chainEdits noted?
  cases found? ctx migrations s with
  | none => simp
  | some f =>
    obtain ⟨m, rule, synthesis⟩ := f
    cases synthesis <;> simp [Run.add]

theorem foldl_visit_adds (sites : List Site) (r : Run) :
    (sites.foldl (visit ctx migrations) r).edits = r.edits ++ sites.flatMap (chainEdits ctx migrations) ∧
    (sites.foldl (visit ctx migrations) r).plans =
      (sites.filterMap (noted? ctx migrations)).foldl (Plans.add ctx) r.plans := by
  induction sites generalizing r with
  | nil => simp
  | cons s rest ih =>
    rw [List.foldl_cons, (ih _).1, (ih _).2, (visit_adds r s).1, (visit_adds r s).2]
    refine ⟨by simp, ?_⟩
    cases h : noted? ctx migrations s <;> simp [h]

theorem discover_plans : (discover ctx migrations tree).plans =
    (noted ctx migrations tree).foldl (Plans.add ctx) [] :=
  (foldl_visit_adds _ {}).2

end Run

/-- The keys of stubs that are not given up. -/
def keptKeys (ctx : Context) (configs : List StubConfig) : List ScopeKey :=
  (stubKeys ctx configs).filter fun key => (givenUp? ctx configs key).isNone

/-- The edits that install the function of a stub in place of its chains. -/
def installEdits (ctx : Context) (configs : List StubConfig) (key : ScopeKey) : List Edit :=
  let chains := chainsOf ctx configs key
  ((Plan.joined ctx (scopeOf ctx chains) chains).outcome ctx key).edits

theorem Plans.outcome_edits_gathered {ctx : Context} (configs : List StubConfig) :
    (Plans.outcome ctx (configs.foldl (Plans.add ctx) [])).edits =
      (keptKeys ctx configs).flatMap (installEdits ctx configs) := by
  have hfilter (keys : List ScopeKey) (p : ScopeKey → Bool) :
      (keys.filter p).flatMap (installEdits ctx configs) =
        keys.flatMap fun key => if p key then installEdits ctx configs key else [] := by
    induction keys with
    | nil => rfl
    | cons key rest ih => cases h : p key <;> simp [h, ih]
  rw [Plans.outcome_edits, Plans.withoutOverriding_gathered, List.flatMap_map, keptKeys, hfilter]
  refine List.flatMap_congr fun key hkey => ?_
  rw [Plans.settled_outcome hkey]
  cases givenUp? ctx configs key <;> rfl

theorem Run.finishStubs_edits {ctx : Context} {migrations : List Migration} {tree : Node} :
    ((Run.discover ctx migrations tree).finishStubs ctx).edits =
      (tree.sites.filter (·.isCandidate)).flatMap (Run.chainEdits ctx migrations) ++
      (keptKeys ctx (Run.noted ctx migrations tree)).flatMap
        (installEdits ctx (Run.noted ctx migrations tree)) := by
  have hedits : (Run.discover ctx migrations tree).edits = _ := (Run.foldl_visit_adds _ {}).1
  rw [Run.finishStubs, Run.discover_plans]
  dsimp only
  rw [Plans.outcome_edits_gathered, hedits, List.nil_append]

/-! ### Chains of a stub that is given up -/

namespace Settings

variable {settings : Settings} {path text : String} {source : Text} {tree : Node} {key : ScopeKey}

/-- The stub is given up. -/
def Skips (settings : Settings) (source : Text) (tree : Node) (key : ScopeKey) : Prop :=
  ∃ p ∈ (settings.discovered source tree).plans.withoutOverriding source, p.1 = key ∧ p.2.skipped.isSome = true

instance : Decidable (settings.Skips source tree key) := inferInstanceAs (Decidable (∃ p ∈ _, _))

/-- The chains that are noted down in a file. -/
def noted (settings : Settings) (source : Text) (tree : Node) : List StubConfig :=
  Run.noted (settings.context source tree) settings.migrations tree

theorem skips_iff : settings.Skips source tree key ↔
    key ∈ stubKeys (settings.context source tree) (settings.noted source tree) ∧
      key ∉ keptKeys (settings.context source tree) (settings.noted source tree) := by
  have hplans : (settings.discovered source tree).plans.withoutOverriding source =
      (stubKeys (settings.context source tree) (settings.noted source tree)).map fun k =>
        (k, Plans.settled (settings.context source tree) (settings.noted source tree) k) := by
    rw [discovered, Run.discover_plans]
    exact Plans.withoutOverriding_gathered
  unfold Skips
  rw [hplans]
  constructor
  · rintro ⟨p, hp, rfl, hskipped⟩
    obtain ⟨k, hk, rfl⟩ := List.mem_map.mp hp
    rw [Plans.settled_skipped hk] at hskipped
    refine ⟨hk, fun hkept => ?_⟩
    have hnone := (List.mem_filter.mp hkept).2
    simp only [Option.isNone_iff_eq_none] at hnone
    simp [hnone] at hskipped
  · rintro ⟨hk, hkept⟩
    refine ⟨_, List.mem_map.mpr ⟨key, hk, rfl⟩, rfl, ?_⟩
    rw [Plans.settled_skipped hk]
    by_contra hnone
    exact hkept (List.mem_filter.mpr ⟨hk, by simpa using hnone⟩)

theorem finishStubs_prefix_planned (settings : Settings) (path : String) (source : Text) (tree : Node) :
    ((settings.discovered source tree).finishStubs (settings.context source tree)).edits <+:
      settings.planned path source tree := by
  refine List.IsPrefix.trans ?_ unboxed_prefix_planned
  rw [unboxed, Run.removeSandboxes, Run.foldl_removeSandbox_edits]
  exact List.prefix_append _ _

/-- A chain of a stub that is given up comes back in one piece exactly when no tree of edits reaches into it or
some tree keeps it. The edits begin with those that each chain asks for by itself, of which the chains that were
noted down ask for none, and those of the stubs that are not given up. -/
theorem Skips.whole_iff (hparse : Grammar.parse (Grammar.ofPath path) text.toList = some tree)
    (h : settings.Skips text.toList tree key) :
    (∃ later, settings.planned path text.toList tree =
      (tree.sites.filter (·.isCandidate)).flatMap
        (Run.chainEdits (settings.context text.toList tree) settings.migrations) ++
      (keptKeys (settings.context text.toList tree) (settings.noted text.toList tree)).flatMap
        (installEdits (settings.context text.toList tree) (settings.noted text.toList tree)) ++ later) ∧
    key ∉ keptKeys (settings.context text.toList tree) (settings.noted text.toList tree) ∧
    ∀ s ∈ tree.sites,
      ((Run.noted? (settings.context text.toList tree) settings.migrations s).isSome = true →
        Run.chainEdits (settings.context text.toList tree) settings.migrations s = []) ∧
      (Whole (copied text.toList (settings.planned path text.toList tree)) s.span ↔
        (∀ t ∈ forest text.toList (settings.planned path text.toList tree), t.span.Apart s.span) ∨
        ∃ t ∈ forest text.toList (settings.planned path text.toList tree), t.Keeps s.span) ∧
      (Whole (copied text.toList (settings.planned path text.toList tree)) s.span →
        (s.text text.toList).toList <:+: (migrateTree settings path text.toList tree).output.toList) := by
  have htree := Grammar.parse_placed hparse
  have hinside := settings.planned_inside path htree
  -- later passes only add edits, so those of chains and stubs stand first
  obtain ⟨later, hlater⟩ := finishStubs_prefix_planned settings path text.toList tree
  rw [discovered, Run.finishStubs_edits] at hlater
  refine ⟨⟨later, hlater.symm⟩, (skips_iff.mp h).2, fun s hs => ⟨?_, ?_, ?_⟩⟩
  · intro hnoted
    obtain ⟨c, hc⟩ := Option.isSome_iff_exists.mp hnoted
    exact Run.chainEdits_of_noted hc
  · have hstop := (Site.Placed.of_sites htree hs).stop.le_size
    rw [whole_copied_iff hinside]
    simp [hstop]
  · intro hwhole
    rw [(migrateTree_eq settings path text.toList tree).1]
    exact hwhole.cut_infix_output (Site.Placed.of_sites htree hs).start _

set_option maxRecDepth 100000 in
theorem Skips.configuration_whole : ∃ (text : String) (tree : Node) (key : ScopeKey) (s : Site),
    text = "const get = sinon.stub(api, 'get');\nget.onFirstCall().returns(1);\nconsole.log(get.callCount);\n" ∧
    Grammar.parse (Grammar.ofPath "a.test.js") text.toList = some tree ∧
    Settings.Skips {} text.toList tree key ∧ s ∈ tree.sites ∧
    (s.text text.toList).toList <:+: (migrateTree {} "a.test.js" text.toList tree).output.toList := by
  obtain ⟨text, htext⟩ : ∃ text, text =
      "const get = sinon.stub(api, 'get');\nget.onFirstCall().returns(1);\nconsole.log(get.callCount);\n" :=
    ⟨_, rfl⟩
  have hfile : (Grammar.parse (Grammar.ofPath "a.test.js") text.toList).any (fun tree =>
      Settings.Skips {} text.toList tree ⟨"api", "get", "", 0⟩ && tree.sites.any fun s =>
        s.text text.toList == "get.onFirstCall().returns(1)" &&
        Whole (copied text.toList (Settings.planned {} "a.test.js" text.toList tree)) s.span) = true := by
    rw [htext]
    decide +kernel
  obtain ⟨tree, hparse, hfile⟩ := (Option.any_eq_true _ _).mp hfile
  obtain ⟨hskips, hfile⟩ := Bool.and_eq_true_iff.mp hfile
  have hskips := of_decide_eq_true hskips
  obtain ⟨s, hs, hfile⟩ := List.any_eq_true.mp hfile
  have hwhole := of_decide_eq_true (Bool.and_eq_true_iff.mp hfile).2
  obtain ⟨-, -, hsites⟩ := Skips.whole_iff hparse hskips
  exact ⟨text, tree, _, s, htext, hparse, hskips, hs, (hsites s hs).2.2 hwhole⟩

/-- The chain at a site makes, configures or inspects the stub of a key, in the scope of the key: it was noted
down for the stub, or it makes the stub's function, or it goes through the stub's variable or its member. -/
def concerns (settings : Settings) (source : Text) (tree : Node) (key : ScopeKey) (s : Site) : Bool :=
  let ctx := settings.context source tree
  let c := Chain.walk source s
  let makes := Mock.onFactory ctx c && c.names.head? == some "stub" && key.member.isEmpty
    && Mock.boundVariable? ctx s == some key.subject
  let throughVariable := c.subject.kind == .identifier &&
    (ctx.mocks.stub? (ctx.text c.subject)).map (·.target (ctx.text c.subject)) == some (key.subject, key.member)
  let throughMember := ctx.text c.subject == key.subject && c.names.head? == some key.member
  s.isCandidate && s.scopeKey key.subject key.member source == key &&
    ((Run.noted? ctx settings.migrations s).any (·.key ctx == key) || makes || throughVariable || throughMember)

set_option maxRecDepth 100000 in
/-- A stub is given up, and the call that makes its function is converted all the same. -/
theorem Skips.creation_converted : ¬ ∀ (settings : Settings) (path text : String) (tree : Node) (key : ScopeKey)
    (s : Site), Grammar.parse (Grammar.ofPath path) text.toList = some tree →
    settings.migrations.contains .mocks = true → settings.Skips text.toList tree key →
    s ∈ tree.sites → settings.concerns text.toList tree key s = true →
      (s.text text.toList).toList <:+: (migrateTree settings path text.toList tree).output.toList := by
  intro h
  obtain ⟨text, htext⟩ : ∃ text, text = "const s = sinon.stub();\ns.onFirstCall().returns(1);\n" := ⟨_, rfl⟩
  have hfile : (Grammar.parse (Grammar.ofPath "a.test.js") text.toList).any (fun tree =>
      Settings.Skips {} text.toList tree ⟨"s", "", "", 0⟩ && tree.sites.any fun s =>
        Settings.concerns {} text.toList tree ⟨"s", "", "", 0⟩ s &&
        !decide ((s.text text.toList).toList <:+: (migrateTree {} "a.test.js" text.toList tree).output.toList)) =
      true := by
    rw [htext]
    decide +kernel
  obtain ⟨tree, hparse, hfile⟩ := (Option.any_eq_true _ _).mp hfile
  obtain ⟨hskips, hfile⟩ := Bool.and_eq_true_iff.mp hfile
  obtain ⟨s, hs, hfile⟩ := List.any_eq_true.mp hfile
  obtain ⟨hconcerns, hgone⟩ := Bool.and_eq_true_iff.mp hfile
  have hkept := h {} "a.test.js" text tree _ s hparse (by decide) (of_decide_eq_true hskips) hs hconcerns
  simp [hkept] at hgone

end Settings

end TestMigration
