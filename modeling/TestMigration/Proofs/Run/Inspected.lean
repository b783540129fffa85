import TestMigration.Proofs.Assertion.Forms
import TestMigration.Proofs.Rule.Evaluated
import TestMigration.Proofs.Run.Origins

/-!
# Inspections inside of assertions

A chain that looks at the calls of a stub may be the value of an assertion. It is rewritten there if it is a chain of
its own, as in parentheses or as an argument of `expect`. In front of `should` it is the beginning of the assertion's
chain, no chain of its own, and comes out as it was.

Main statement: `Settings.inspection_rewritten_iff`.
-/

namespace TestMigration

/-! ### Sites with the same span -/

variable {source : Text} {tree : Node} {s t inner : Site} {step : Step}

theorem Step.last?_children (h : Step.last? source s = some (step, inner)) :
    ∃ a ∈ s.node.children, ∃ b ∈ s.node.children, a ≠ b := by
  have hdifferent {r r' : Role} {f g : Site} (hf : s.child? r = some f) (hg : s.child? r' = some g) (hr : r ≠ r') :
      ∃ a ∈ s.node.children, ∃ b ∈ s.node.children, a ≠ b := by
    obtain ⟨n, hn, rfl⟩ := Option.map_eq_some_iff.mp hf
    obtain ⟨m, hm, rfl⟩ := Option.map_eq_some_iff.mp hg
    refine ⟨n, List.mem_of_find?_eq_some hn, m, List.mem_of_find?_eq_some hm, ?_⟩
    rintro rfl
    exact hr ((Site.mem_children_of_child? hf).2.symm.trans (Site.mem_children_of_child? hg).2)
  obtain ⟨-, p, hp, hobject, -⟩ | ⟨-, f, _, args, hf, -, -, -, hargs, -⟩ := Step.last?_eq_some_iff.mp h
  · exact hdifferent hobject hp (by decide)
  · exact hdifferent hf hargs (by decide)

/-- No site below a chain's end has the same span. -/
theorem Site.eq_of_span_below (h : s.node.Orderly) (hs : (Step.last? source s).isSome = true) (ht : t ∈ s.sites)
    (hspan : t.span = s.span) : t = s := by
  obtain ⟨⟨step, inner⟩, hlast⟩ := Option.isSome_iff_exists.mp hs
  obtain ⟨a, ha, b, hb, hab⟩ := Step.last?_children hlast
  rcases Node.sites_cases ht with rfl | ⟨c, hc, ht⟩
  · rfl
  · -- the child around the site would be the only child
    have hstart : t.node.start = s.node.start := congrArg Span.start hspan
    have hstop : t.node.stop = s.node.stop := congrArg Span.stop hspan
    obtain ⟨hct, htc⟩ := (h.child_orderly hc).site_within ht
    have honly : ∀ d ∈ s.node.children, d = c := by
      intro d hd
      obtain ⟨hd1, hd2, hd3⟩ := h.child hd
      exact h.child_unique hd hc (by omega) (by omega)
    exact absurd ((honly a ha).trans (honly b hb).symm) hab

/-- Ends of chains with the same span are the same. -/
theorem Site.eq_of_span (h : tree.Orderly) (hs : s ∈ tree.sites) (ht : t ∈ tree.sites)
    (hslast : (Step.last? source s).isSome = true) (htlast : (Step.last? source t).isSome = true)
    (hspan : s.span = t.span) : s = t := by
  have hlt : s.node.start < s.node.stop := by
    obtain ⟨⟨step, inner⟩, hlast⟩ := Option.isSome_iff_exists.mp hslast
    obtain ⟨a, ha, -⟩ := Step.last?_children hlast
    obtain ⟨h1, h2, h3⟩ := (h.site_orderly hs).child ha
    omega
  have hstart : s.node.start = t.node.start := congrArg Span.start hspan
  have hstop : s.node.stop = t.node.stop := congrArg Span.stop hspan
  rcases h.nested hs ht (by omega) (by omega) with ht' | hs'
  · exact (Site.eq_of_span_below (h.site_orderly hs) hslast ht' hspan.symm).symm
  · exact Site.eq_of_span_below (h.site_orderly ht) htlast hs' hspan

/-! ### Ends of chains -/

mutual

theorem Node.within_of_sitesBelow {above : List Node} : ∀ n : Node, Site.Within tree ⟨n, above⟩ →
    t ∈ n.sitesBelow above → t.Within tree
  | .mk r k sp cs, h, ht => by
    rcases List.mem_cons.mp ht with rfl | ht
    · exact h
    · exact Node.within_of_sitesOfAll cs (fun c hc => h.children (List.mem_map_of_mem hc)) ht

theorem Node.within_of_sitesOfAll {above : List Node} : ∀ cs : List Node, (∀ c ∈ cs, Site.Within tree ⟨c, above⟩) →
    t ∈ Node.sitesOfAll above cs → t.Within tree
  | c :: rest, h, ht => by
    rcases List.mem_append.mp ht with ht | ht
    · exact Node.within_of_sitesBelow c (h c List.mem_cons_self) ht
    · exact Node.within_of_sitesOfAll rest (fun d hd => h d (List.mem_cons_of_mem _ hd)) ht

end

theorem Site.Within.core (hs : s.Within tree) : s.core.Within tree :=
  Node.within_of_sitesBelow s.node hs (Node.coreBelow_mem s.node)

mutual

theorem Node.coreBelow_cases {above : List Node} : ∀ n : Node,
    n.coreBelow above = ⟨n, above⟩ ∨ (n.coreBelow above).isChainRoot = true
  | .mk r k sp cs => by
    unfold Node.coreBelow
    split
    · cases hcore : Node.coreAmong (.mk r .parenthesized sp cs :: above) cs with
      | none => exact .inl rfl
      | some t => exact .inr (Node.coreAmong_isChainRoot rfl cs hcore)
    · exact .inl rfl

theorem Node.coreAmong_isChainRoot {p : Node} {above : List Node} {t : Site} (hp : p.kind = .parenthesized) :
    ∀ cs : List Node, Node.coreAmong (p :: above) cs = some t → t.isChainRoot = true
  | [], ht => by cases ht
  | c :: rest, ht => by
    unfold Node.coreAmong at ht
    split at ht
    · exact Node.coreAmong_isChainRoot hp rest ht
    · cases ht
      rcases @Node.coreBelow_cases (p :: above) c with hcore | hroot
      · rw [hcore]
        simp [Site.isChainRoot, Node.extendsChain, hp]
      · exact hroot

end

/-- What stands in parentheses is a chain of its own. -/
theorem Site.core_cases (s : Site) : s.core = s ∨ s.core.isChainRoot = true := Node.coreBelow_cases s.node

theorem Site.isChainRoot_of_parts (hkind : s.kind = .arguments) (ht : t ∈ s.parts) : t.isChainRoot = true := by
  obtain ⟨n, -, rfl⟩ := List.mem_map.mp ht
  have hkind : s.node.kind = .arguments := hkind
  simp [Site.isChainRoot, Site.down, Node.extendsChain, hkind]

theorem Site.isChainRoot_of_callArguments (ht : t ∈ s.callArguments) : t.isChainRoot = true := by
  obtain ⟨args, -, hkind, ht⟩ := Site.mem_callArguments_iff.mp ht
  exact Site.isChainRoot_of_parts hkind ht

/-! ### Steps -/

namespace Step

theorem last?_arguments (h : last? source s = some (step, inner)) : ∀ x ∈ step.args, x ∈ s.callArguments := by
  obtain ⟨-, p, -, -, rfl⟩ | ⟨-, f, p, args, -, -, -, -, hargs, harguments, rfl⟩ := last?_eq_some_iff.mp h
  · simp [args]
  · intro x hx
    exact Site.mem_callArguments_iff.mpr ⟨args, hargs, harguments, by simpa [Step.args] using hx⟩

theorem last?_member (h : last? source s = some (step, inner)) (hstep : step.isCall = false) : s.kind = .member := by
  obtain ⟨hkind, -⟩ | ⟨-, f, p, args, -, -, -, -, -, -, rfl⟩ := last?_eq_some_iff.mp h
  · exact hkind
  · exact absurd hstep (by simp [isCall])

end Step

namespace Chain

/-- The step is the last one of the part of the tree that it ends. -/
def Taken (source : Text) (tree : Node) (step : Step) : Prop :=
  step.site.Within tree ∧ ∃ inner, Step.last? source step.site = some (step, inner)

theorem walk_taken (source : Text) {root : Site} (hroot : root.Within tree) :
    (∀ t ∈ (walk source root).steps, Taken source tree t) ∧ (walk source root).subject.Within tree :=
  walk_steps (P := (·.Within tree)) hroot fun hs hlast => by
    obtain hobject | ⟨f, hf, hobject⟩ := Step.last?_inner hlast
    · exact hs.child? hobject
    · exact (hs.child? hf).child? hobject

namespace Taken

variable {t : Site}

theorem argument (h : Taken source tree step) (ht : t ∈ step.args) : t.Within tree ∧ t.isChainRoot = true := by
  obtain ⟨hwithin, inner, hlast⟩ := h
  have hargument := Step.last?_arguments hlast t ht
  exact ⟨hwithin.callArguments hargument, Site.isChainRoot_of_callArguments hargument⟩

/-- What a property is taken from is no chain of its own. -/
theorem not_isChainRoot (h : Taken source tree step) (hshould : step.isShould = true)
    (ht : step.site.child? .object = some t) : t.isChainRoot = false := by
  obtain ⟨-, inner, hlast⟩ := h
  have hmember : step.site.kind = .member := by
    refine Step.last?_member hlast ?_
    simp only [Step.isShould, Bool.and_eq_true, Bool.not_eq_true'] at hshould
    exact hshould.2
  have hrole := (Site.mem_children_of_child? ht).2
  obtain ⟨n, -, rfl⟩ := Option.map_eq_some_iff.mp ht
  have hmember : step.site.node.kind = .member := hmember
  have hrole : n.role = .object := hrole
  simp [Site.isChainRoot, Site.down, Node.extendsChain, hmember, hrole]

end Taken

/-- The site stands in front of `should` without parentheses, so that the chain begins with it. -/
def BeginsWith (c : Chain) (s : Site) : Prop :=
  ∃ step ∈ c.steps, step.isShould = true ∧ step.site.child? .object = some s

end Chain

/-- The value of an assertion is a chain of its own unless the assertion's chain begins with it. -/
theorem View.value_cases {ctx : Context} {root value : Site} {steps : List Step} (hroot : root.Within tree)
    (h : View.split? ctx (Chain.walk source root) = some (value, steps)) : value.Within tree ∧
      (value.core.isChainRoot = true ∨ (Chain.walk source root).BeginsWith value.core) := by
  obtain ⟨htaken, hsubject⟩ := Chain.walk_taken source hroot
  have hown (hvalue : value.isChainRoot = true) : value.core.isChainRoot = true := by
    rcases value.core_cases with hcore | hcore
    · rw [hcore]
      exact hvalue
    · exact hcore
  cases View.split?_divides h with
  | @should _ _ step object hsteps hshould hobject hvalue =>
    have hstep : step ∈ (Chain.walk source root).steps := by simp [hsteps]
    have hobjectWithin : object.Within tree := (htaken step hstep).1.child? hobject
    subst hvalue
    refine ⟨hobjectWithin.core, ?_⟩
    rcases object.core_cases with hcore | hcore
    · rw [hcore, hcore]
      exact .inr ⟨step, hstep, hshould, hobject⟩
    · exact .inl (hown hcore)
  | subject hvalue => exact ⟨hsubject.callArguments hvalue, .inl (hown (Site.isChainRoot_of_callArguments hvalue))⟩
  | @first first _ hsteps hvalue => exact ((htaken first (by simp [hsteps])).argument hvalue).imp_right (.inl <| hown ·)
  | last htake =>
    obtain ⟨step, hstep, hvalue⟩ := List.mem_flatMap.mp ((View.takeValue_perm htake).mem_iff.mp List.mem_cons_self)
    exact ((htaken step hstep).argument hvalue).imp_right (.inl <| hown ·)

/-- A rule takes no chain that ends in something else than a call or a member. -/
theorem Rule.last?_of_synthesis? {ctx : Context} {root : Site} {r : Rule} {a : Synthesis}
    (h : r.synthesis? ctx (Chain.walk source root) = some a) : (Step.last? source root).isSome = true := by
  rw [Option.isSome_iff_ne_none, ne_eq, ← Chain.steps_eq_nil_iff]
  intro hsteps
  simp [synthesis?, hsteps] at h

theorem Assertion.Family.value_mem_sources (ctx : Context) {grammar : Grammar} {f : Family} {root target value : Site}
    {e : Expr} {steps : List Step} (hparse : Grammar.parse grammar ctx.source = some tree) (hroot : root ∈ tree.sites)
    (h : (Rule.assertion f).synthesis? ctx (Chain.walk ctx.source root) = some (.replace target e))
    (hvalue : View.split? ctx (Chain.walk ctx.source root) = some (value, steps)) : value.span ∈ e.sources := by
  obtain ⟨hsubject, hrow⟩ := Chain.walk_row ctx.source (Rule.sound_of_synthesis? hparse hroot h)
  unfold Rule.synthesis? at h
  split at h
  · cases h
  · obtain ⟨v, -, args, hseparate, huses⟩ := evaluated hsubject hrow h
    rw [hvalue] at hseparate huses
    have hcount : e.sources.count value.span = v.evaluations := (huses.sources_of_separate hseparate).1 value rfl
    have hpositive : 0 < v.evaluations := by
      unfold View.evaluations
      split <;> decide
    exact List.count_pos_iff.mp (hcount ▸ hpositive)

/-! ### Inspections -/

/-- Rules for mocks replace nothing but whole chains. -/
theorem MockRule.target_eq_root {ctx : Context} {c : Chain} {r : MockRule} {target : Site} {e : Expr}
    (h : r.synthesis? ctx c = some (.replace target e)) : target = c.root := by
  cases r with
  | sandboxCreation => exact absurd h Mock.sandboxCreation_ne_replace
  | stubConfiguration => rcases Mock.stubConfiguration_answers h with ⟨config, heq⟩ | ⟨reason, heq⟩ <;> cases heq
  | mockAssertArguments | anonymousFake =>
    simp only [synthesis?, Mock.mockAssertArguments, Mock.anonymousFake, Option.bind_eq_bind,
      Option.bind_eq_some_iff] at h
    grind [Chain.replaceBy]
  | restoreAll | mockAssert | methodSpy | callArguments | stubInspection =>
    simp only [synthesis?, Mock.restoreAll, Mock.mockAssert, Mock.methodSpy, Mock.callArguments, Mock.stubInspection,
      Option.bind_eq_bind, Option.bind_eq_some_iff] at h
    obtain ⟨_, -, h⟩ := h
    split at h <;> simp [Option.bind_eq_some_iff, Chain.replaceBy] at h
    all_goals grind

theorem Assertion.Family.target_eq_root {ctx : Context} {c : Chain} {f : Family} {target : Site} {e : Expr}
    (h : f.synthesis? ctx c = some (.replace target e)) : target = c.root := by
  simp only [synthesis?, Option.bind_eq_bind, Option.bind_eq_some_iff] at h
  obtain ⟨v, -, h⟩ := h
  split at h
  · cases h
    rfl
  · simp [Option.bind_eq_some_iff] at h

/-- Only an alias with a modifier is replaced in front of its arguments. -/
theorem Rule.target_eq_root {ctx : Context} {c : Chain} {r : Rule} {target : Site} {e : Expr}
    (hr : r ≠ .registration .aliasModifier) (h : r.synthesis? ctx c = some (.replace target e)) : target = c.root := by
  unfold synthesis? at h
  split at h
  · cases h
  · cases r with
    | assertionSetup =>
      dsimp only [Assertion.setup?] at h
      split at h
      · simp [Option.bind_eq_some_iff] at h
      · cases h
    | assertion f => exact Assertion.Family.target_eq_root h
    | mock rule => exact MockRule.target_eq_root h
    | registration rule =>
      cases rule with
      | aliasModifier => exact absurd rfl hr
      | slowThreshold =>
        dsimp only [RegistrationRule.synthesis?] at h
        split at h
        · simp [Option.bind_eq_some_iff] at h
        · cases h

namespace Settings

variable {settings : Settings} {path text : String} {root value : Site} {f : Assertion.Family} {rule : MockRule}
  {e e' : Expr}

/-- The chain at a site becomes an assertion about a chain that looks at calls, which would be rewritten if it stood
by itself. -/
structure AssertsInspection (settings : Settings) (source : Text) (tree : Node) (root value : Site)
    (f : Assertion.Family) (rule : MockRule) (e e' : Expr) : Prop where
  candidate : root ∈ tree.sites ∧ root.isCandidate = true
  assertion : Run.found? (settings.context source tree) settings.migrations root =
    some (.assertions, .assertion f, .replace root e)
  about : (View.split? (settings.context source tree) (Chain.walk source root)).map Prod.fst = some value
  inspection : Run.found? (settings.context source tree) settings.migrations value.core =
    some (.mocks, .mock rule, .replace value.core e')
  looks : rule = .callArguments ∨ rule = .stubInspection

/-- An assertion about an inspection copies it into the assertion that it becomes. The inspection is rewritten there
exactly when the chain of the assertion does not begin with it. -/
theorem inspection_rewritten_iff (hparse : Grammar.parse (Grammar.ofPath path) text.toList = some tree)
    (h : settings.AssertsInspection text.toList tree root value f rule e e') :
    .replace root.span e f.name ∈ settings.planned path text.toList tree ∧ value.span ∈ e.sources ∧
    (.replace value.core.span e' rule.name ∈ settings.planned path text.toList tree ↔
      ¬ (Chain.walk text.toList root).BeginsWith value.core) := by
  obtain ⟨⟨hroot, hcandidate⟩, hassertion, habout, hinspection, hlooks⟩ := h
  obtain ⟨⟨value, steps⟩, hsplit, rfl⟩ := Option.map_eq_some_iff.mp habout
  dsimp only at hinspection ⊢
  have horderly := Grammar.parse_orderly hparse
  have hcorelast := Rule.last?_of_synthesis? (Run.synthesis?_of_found? hinspection)
  obtain ⟨hwithin, hplace⟩ := View.value_cases hroot hsplit
  refine ⟨?_, ?_, fun hplanned hbegins => ?_, fun hbegins => ?_⟩
  · exact mem_planned_of_chainEdits hroot hcandidate (by simp [Run.chainEdits, hassertion, Rule.name])
  · exact Assertion.Family.value_mem_sources (settings.context text.toList tree) hparse hroot
      (Run.synthesis?_of_found? hassertion) hsplit
  · -- the edit would come from a chain of its own with the same span
    obtain ⟨s, hs, hscandidate, m, target, e'', hfound, heq⟩ := chain_of_planned (r := .mock rule) hplanned rfl
      (by rcases hlooks with rfl | rfl <;> decide) (by simp)
    have hfound := Run.synthesis?_of_found? hfound
    obtain rfl : target = s := Rule.target_eq_root (by simp) hfound
    have hspan := congrArg Edit.span heq
    obtain rfl := Site.eq_of_span horderly hwithin.core hs hcorelast (Rule.last?_of_synthesis? hfound) hspan
    obtain ⟨step, hstep, hshould, hobject⟩ := hbegins
    have hnot := ((Chain.walk_taken _ hroot).1 step hstep).not_isChainRoot hshould hobject
    simp [Site.isCandidate, hnot] at hscandidate
  · have hcandidate : value.core.isCandidate = true := by
      rw [Site.isCandidate, hplace.resolve_right hbegins, Bool.and_true]
      exact Step.last?_kind hcorelast
    exact mem_planned_of_chainEdits hwithin.core hcandidate (by simp [Run.chainEdits, hinspection, Rule.name])

/-- Some rule for assertions takes the chain at a site, and some rule for inspections would take the value. -/
def assertsInspection (settings : Settings) (source : Text) (tree : Node) (root : Site) : Bool :=
  let ctx := settings.context source tree
  root.isCandidate &&
    match Run.found? ctx settings.migrations root, View.split? ctx (Chain.walk source root) with
    | some (.assertions, .assertion _, .replace _ _), some (value, _) =>
      match Run.found? ctx settings.migrations value.core with
      | some (.mocks, .mock rule, .replace _ _) => rule == .callArguments || rule == .stubInspection
      | _ => false
    | _, _ => false

theorem exists_assertsInspection (hroot : root ∈ tree.sites)
    (h : settings.assertsInspection source tree root = true) :
    ∃ value f rule e e', settings.AssertsInspection source tree root value f rule e e' := by
  unfold assertsInspection at h
  obtain ⟨hcandidate, hfound⟩ := Bool.and_eq_true_iff.mp h
  split at hfound
  · rename_i f target e value steps hassertion hsplit
    split at hfound
    · rename_i rule target' e' hinspection
      obtain rfl : target = root := Rule.target_eq_root (by simp) (Run.synthesis?_of_found? hassertion)
      obtain rfl : target' = value.core := Rule.target_eq_root (by simp) (Run.synthesis?_of_found? hinspection)
      refine ⟨value, f, rule, e, e', ⟨hroot, hcandidate⟩, hassertion, by rw [hsplit]; rfl, hinspection, ?_⟩
      simpa using hfound
    · cases hfound
  · cases hfound

set_option maxRecDepth 100000 in
theorem inspection_rewritten_in_expect : ∃ (text : String) (tree : Node) (root value : Site) (f : Assertion.Family)
    (rule : MockRule) (e e' : Expr), text = "const spy = sinon.spy();\nexpect(spy.callCount).to.equal(1);\n" ∧
    Grammar.parse (Grammar.ofPath "a.test.js") text.toList = some tree ∧
    Settings.AssertsInspection {} text.toList tree root value f rule e e' ∧ value.span ∈ e.sources ∧
    .replace value.core.span e' rule.name ∈ Settings.planned {} "a.test.js" text.toList tree := by
  obtain ⟨text, htext⟩ : ∃ text, text = "const spy = sinon.spy();\nexpect(spy.callCount).to.equal(1);\n" := ⟨_, rfl⟩
  have hfile : (Grammar.parse (Grammar.ofPath "a.test.js") text.toList).any (fun tree => tree.sites.any fun root =>
      assertsInspection {} text.toList tree root &&
        (Chain.walk text.toList root).steps.all (!·.isShould)) = true := by
    rw [htext]
    decide +kernel
  obtain ⟨tree, hparse, hfile⟩ := (Option.any_eq_true _ _).mp hfile
  obtain ⟨root, hroot, hfile⟩ := List.any_eq_true.mp hfile
  obtain ⟨hasserts, hnone⟩ := Bool.and_eq_true_iff.mp hfile
  obtain ⟨value, f, rule, e, e', hasserts⟩ := exists_assertsInspection hroot hasserts
  have hbegins : ¬ (Chain.walk text.toList root).BeginsWith value.core := by
    rintro ⟨step, hstep, hshould, -⟩
    simpa [hshould] using List.all_eq_true.mp hnone step hstep
  obtain ⟨-, hcopied, hrewritten⟩ := inspection_rewritten_iff hparse hasserts
  exact ⟨text, tree, root, value, f, rule, e, e', htext, hparse, hasserts, hcopied, hrewritten.mpr hbegins⟩

set_option maxRecDepth 100000 in
/-- The inspection is copied into the assertion as it was. -/
theorem inspection_kept_in_front : ¬ ∀ (settings : Settings) (path text : String) (tree : Node) (root value : Site)
    (f : Assertion.Family) (rule : MockRule) (e e' : Expr),
    Grammar.parse (Grammar.ofPath path) text.toList = some tree →
    settings.AssertsInspection text.toList tree root value f rule e e' →
      .replace value.core.span e' rule.name ∈ settings.planned path text.toList tree := by
  intro h
  obtain ⟨text, htext⟩ : ∃ text, text = "const spy = sinon.spy();\nspy.callCount.should.equal(1);\n" := ⟨_, rfl⟩
  have hfile : (Grammar.parse (Grammar.ofPath "a.test.js") text.toList).any (fun tree =>
      (Settings.planned {} "a.test.js" text.toList tree).all
        (fun x => x.rule != "call-arguments" && x.rule != "stub-inspection") &&
      tree.sites.any (assertsInspection {} text.toList tree)) = true := by
    rw [htext]
    decide +kernel
  obtain ⟨tree, hparse, hfile⟩ := (Option.any_eq_true _ _).mp hfile
  obtain ⟨hnone, hfile⟩ := Bool.and_eq_true_iff.mp hfile
  obtain ⟨root, hroot, hasserts⟩ := List.any_eq_true.mp hfile
  obtain ⟨value, f, rule, e, e', hasserts⟩ := exists_assertsInspection hroot hasserts
  have hkept := List.all_eq_true.mp hnone _ (h {} "a.test.js" text tree root value f rule e e' hparse hasserts)
  rcases hasserts.looks with rfl | rfl <;> simp [Edit.replace, MockRule.name] at hkept

end Settings

end TestMigration
