import TestMigration.Proofs.Run.Planned
import TestMigration.Proofs.Stub.Accounting

/-!
# Variables of stubs

What a variable stands for is collected over the whole file: `MockBindings.stub?_ofTree` says that the last value
given to it counts, wherever that is. A chain that configures a stub through its variable therefore belongs to the
creation beside it exactly when the last creation of the file for that variable has the same target.

Main statement: `Settings.Beside.same_key_iff`.
-/

namespace TestMigration

variable {source : Text} {names : Names} {tree : Node}

/-! ### What a variable stands for -/

/-- The mock that a value makes, with the sandboxes of the file. -/
def MockBinding.made? (source : Text) (names : Names) (sandboxes : List String) (value : Site) :
    Option MockBinding :=
  let chain := Chain.walk source value
  match chain.steps with
  | [] => none
  | first :: _ =>
    if chain.subject.kind == .identifier
        && MockBindings.isFactory { sandboxes } names (chain.subject.text source)
        && creationSteps.contains first.name then
      match first.methodTarget? source with
      | some (object, member) => some (.method (object.text source) member)
      | none => some .anonymous
    else none

/-- The mocks among some values that are given to the variable `v`. -/
def boundAmong (source : Text) (names : Names) (sandboxes : List String) (v : String)
    (values : List (Option Site × Site)) : List MockBinding :=
  values.filterMap fun (name, value) => do
    let name ← name
    guard (name.text source == v)
    MockBinding.made? source names sandboxes value

/-- The mocks that a file gives to the variable `v`, in the order of the file. -/
def bindingsOf (source : Text) (names : Names) (tree : Node) (v : String) : List MockBinding :=
  boundAmong source names (sandboxNames source names (mockValues tree)) v (mockValues tree)

namespace MockBindings

variable {b : MockBindings} {v : String}

theorem lookup_cons_eq {name : String} {binding : MockBinding} {stubs : List (String × MockBinding)} :
    ((name, binding) :: stubs).lookup v = if v = name then some binding else stubs.lookup v := by
  rw [List.lookup_cons]
  by_cases h : v = name
  · simp [h]
  · simp [h, beq_eq_false_iff_ne.mpr h]

theorem lookup_setStub {name : String} {binding : MockBinding} {stubs : List (String × MockBinding)} :
    (setStub name binding stubs).lookup v = if v = name then some binding else stubs.lookup v := by
  induction stubs with
  | nil => exact lookup_cons_eq
  | cons entry rest ih =>
    obtain ⟨other, old⟩ := entry
    unfold setStub
    split
    · rename_i hother
      obtain rfl : other = name := by simpa using hother
      rw [lookup_cons_eq, lookup_cons_eq]
      by_cases hv : v = other <;> simp [hv]
    · rename_i hother
      rw [lookup_cons_eq, lookup_cons_eq, ih]
      by_cases hv : v = other
      · subst hv
        simp [show v ≠ name by simpa using hother]
      · simp [hv]

theorem addValue_sandboxes {value : Option Site × Site} :
    (addValue source names b value).sandboxes = b.sandboxes := by
  unfold addValue
  dsimp only
  split
  · rfl
  · split <;> rfl

theorem addValue_eq (b : MockBindings) (name : Option Site) (value : Site) :
    (addValue source names b (name, value)).stubs =
      match name, MockBinding.made? source names b.sandboxes value with
      | some n, some binding => setStub (n.text source) binding b.stubs
      | _, _ => b.stubs := by
  have hfactory (t : String) : isFactory { sandboxes := b.sandboxes } names t = b.isFactory names t := rfl
  unfold addValue MockBinding.made?
  simp only [hfactory]
  cases (Chain.walk source value).steps with
  | nil => cases name <;> rfl
  | cons first rest =>
    -- both sides ask the same questions about the value, in another order
    dsimp only
    generalize ((Chain.walk source value).subject.kind == .identifier
      && b.isFactory names ((Chain.walk source value).subject.text source)) = factory
    generalize creationSteps.contains first.name = creates
    generalize first.methodTarget? source = target
    cases factory <;> cases creates <;> cases target <;> cases name <;> rfl

theorem addValue_stub? {value : Option Site × Site} : (addValue source names b value).stub? v =
    ((boundAmong source names b.sandboxes v [value]).getLast? <|> b.stub? v) := by
  obtain ⟨name, value⟩ := value
  rw [stub?, addValue_eq]
  cases name with
  | none => simp [boundAmong, stub?]
  | some n =>
    cases hmade : MockBinding.made? source names b.sandboxes value with
    | none => simp [boundAmong, stub?, hmade]
    | some binding =>
      dsimp only
      rw [lookup_setStub]
      by_cases hn : n.text source = v
      · simp [boundAmong, hmade, hn]
      · simp [boundAmong, hn, Ne.symm hn, stub?]

theorem foldl_addValue_sandboxes (values : List (Option Site × Site)) (b : MockBindings) :
    (values.foldl (addValue source names) b).sandboxes = b.sandboxes := by
  induction values generalizing b with
  | nil => rfl
  | cons value rest ih => rw [List.foldl_cons, ih, addValue_sandboxes]

theorem foldl_addValue_stub? (values : List (Option Site × Site)) (b : MockBindings) :
    (values.foldl (addValue source names) b).stub? v =
      ((boundAmong source names b.sandboxes v values).getLast? <|> b.stub? v) := by
  induction values generalizing b with
  | nil => rfl
  | cons value rest ih =>
    have happend : boundAmong source names b.sandboxes v (value :: rest) =
        boundAmong source names b.sandboxes v [value] ++ boundAmong source names b.sandboxes v rest :=
      List.filterMap_append (l := [value])
    rw [List.foldl_cons, ih, addValue_sandboxes, addValue_stub?, happend, List.getLast?_append]
    cases (boundAmong source names b.sandboxes v rest).getLast? <;> simp

/-- The last value that a file gives to a variable counts. -/
theorem stub?_ofTree (source : Text) (names : Names) (tree : Node) (v : String) :
    (ofTree source names tree).stub? v = (bindingsOf source names tree v).getLast? := by
  rw [ofTree, foldl_addValue_stub?]
  show ((bindingsOf source names tree v).getLast? <|> none) = _
  simp

theorem sandboxes_ofTree (source : Text) (names : Names) (tree : Node) :
    (ofTree source names tree).sandboxes = sandboxNames source names (mockValues tree) :=
  foldl_addValue_sandboxes _ _

end MockBindings

/-! ### Configurations and creations -/

/-- Span and title of the nearest named test or suite around a site. -/
def Site.scope? (s : Site) (source : Text) : Option (Span × String) :=
  (s.enclosing? source).map fun (call, title) => (call.span, title)

theorem Site.scopeKey_eq (s : Site) (subject member : String) (source : Text) :
    s.scopeKey subject member source =
      match s.scope? source with
      | some (span, title) => ⟨subject, member, title, span.start⟩
      | none => ⟨subject, member, "", 0⟩ := by
  unfold Site.scopeKey Site.scope?
  cases s.enclosing? source <;> rfl

theorem StubConfig.key_eq_iff {ctx : Context} {c d : StubConfig}
    (h : c.root.scope? ctx.source = d.root.scope? ctx.source) :
    c.key ctx = d.key ctx ↔ (c.subject, c.member) = (d.subject, d.member) := by
  rw [StubConfig.key, StubConfig.key, Site.scopeKey_eq, Site.scopeKey_eq, h]
  cases d.root.scope? ctx.source <;> simp

theorem MockBinding.made?_eq {ctx : Context} {site : Site} {creation : Step} {tail : List Step}
    (hfactory : Mock.onFactory ctx (Chain.walk ctx.source site) = true)
    (hsteps : (Chain.walk ctx.source site).steps = creation :: tail) (hname : creation.name = "stub") :
    MockBinding.made? ctx.source ctx.names ctx.mocks.sandboxes site =
      match creation.methodTarget? ctx.source with
      | some (object, member) => some (.method (object.text ctx.source) member)
      | none => some .anonymous := by
  have hstub : creationSteps.contains creation.name = true := by rw [hname]; decide
  rw [MockBinding.made?, hsteps]
  dsimp only
  rw [if_pos (by rw [hstub, Bool.and_true]; exact hfactory)]

namespace StubConfig.Found

variable {ctx : Context} {c : StubConfig} {v : String}

theorem made? (h : c.Found ctx) (hcreation : c.isCreation = true) (hbinding : c.binding = some v) :
    (MockBinding.made? ctx.source ctx.names ctx.mocks.sandboxes c.root).map (·.target v) =
      some (c.subject, c.member) := by
  obtain ⟨site, hsite⟩ := h
  cases Mock.stubConfiguration_cases hsite with
  | method hfactory hsteps hname htarget =>
    have hmade := MockBinding.made?_eq hfactory hsteps hname
    rw [htarget] at hmade
    exact congrArg (Option.map _) hmade
  | anonymous hfactory hsteps hname hcall hargs hbound =>
    cases hbinding
    have hmade := MockBinding.made?_eq hfactory hsteps hname
    rw [Step.methodTarget?, hargs] at hmade
    exact congrArg (Option.map _) hmade
  | later => cases hcreation

theorem target (h : c.Found ctx) (hlater : c.isCreation = false) (hbinding : c.binding = some v) :
    (ctx.mocks.stub? v).map (·.target v) = some (c.subject, c.member) := by
  obtain ⟨site, hsite⟩ := h
  cases Mock.stubConfiguration_cases hsite with
  | method => cases hlater
  | anonymous => cases hlater
  | later hsubject hstub hsteps =>
    cases hbinding
    rw [hstub]
    rfl

end StubConfig.Found

theorem Mock.root_of_configure {ctx : Context} {site : Site} {c : StubConfig}
    (h : Mock.stubConfiguration ctx (Chain.walk ctx.source site) = some (.configure c)) : c.root = site := by
  cases Mock.stubConfiguration_cases h <;> rfl

namespace Settings

variable {settings : Settings} {made config : StubConfig} {v : String}

theorem context_mocks (hmocks : settings.migrations.contains .mocks = true) :
    (settings.context source tree).mocks =
      MockBindings.ofTree source (settings.context source tree).names tree := by
  unfold context
  simp only [hmocks, if_true]

/-- In one test or suite, `made` makes a stub that is given to the variable `v`, and `config` configures a stub
through `v`. -/
structure Beside (settings : Settings) (source : Text) (tree : Node) (v : String) (made config : StubConfig) :
    Prop where
  foundMade : made.Found (settings.context source tree)
  creation : made.isCreation = true
  bound : made.binding = some v
  value : ∃ name, (some name, made.root) ∈ mockValues tree ∧ name.text source = v
  foundConfig : config.Found (settings.context source tree)
  later : config.isCreation = false
  rooted : config.binding = some v
  scope : config.root.scope? source = made.root.scope? source

theorem Beside.target_mem (h : settings.Beside source tree v made config)
    (hmocks : settings.migrations.contains .mocks = true) : (made.subject, made.member) ∈
      (bindingsOf source (settings.context source tree).names tree v).map (·.target v) := by
  obtain ⟨name, hvalue, hname⟩ := h.value
  have htarget := h.foundMade.made? h.creation h.bound
  rw [context_mocks hmocks, MockBindings.sandboxes_ofTree] at htarget
  obtain ⟨binding, hmakes, htarget⟩ := Option.map_eq_some_iff.mp htarget
  refine List.mem_map.mpr ⟨binding, List.mem_filterMap.mpr ⟨(some name, made.root), hvalue, ?_⟩, htarget⟩
  have hown : (guard (name.text source == v) : Option Unit) = some () := by simp [hname]
  simp only [Option.bind_eq_bind, Option.bind_some, hown]
  exact hmakes

/-- A chain that configures a stub through its variable has the key of the creation beside it exactly when the
last mock that the file gives to the variable has the creation's target. The creation is one of these mocks. -/
theorem Beside.same_key_iff (hmocks : settings.migrations.contains .mocks = true)
    (h : settings.Beside source tree v made config) :
    let targets := (bindingsOf source (settings.context source tree).names tree v).map (·.target v)
    (made.subject, made.member) ∈ targets ∧
      (config.key (settings.context source tree) = made.key (settings.context source tree) ↔
        targets.getLast? = some (made.subject, made.member)) := by
  refine ⟨h.target_mem hmocks, ?_⟩
  -- the chain takes its target from the table of the whole file, not from the creation beside it
  have htarget := h.foundConfig.target h.later h.rooted
  rw [context_mocks hmocks, MockBindings.stub?_ofTree] at htarget
  rw [StubConfig.key_eq_iff h.scope, List.getLast?_map, htarget, Option.some_inj]

/-- The creations given to `v` and the chains that configure a stub through it, as far as they pass a check. -/
def anyBeside (settings : Settings) (source : Text) (tree : Node) (v : String)
    (check : StubConfig → StubConfig → Bool) : Bool :=
  let ctx := settings.context source tree
  (mockValues tree).any fun (name, value) =>
    name.any (·.text source == v) && (StubConfig.foundAt ctx [value]).any fun made =>
      made.isCreation && made.binding == some v &&
      (StubConfig.foundAt ctx (tree.sites.filter (·.isCandidate))).any fun config =>
        !config.isCreation && config.binding == some v && config.root.scope? source == made.root.scope? source
          && check made config

theorem exists_beside {check : StubConfig → StubConfig → Bool}
    (h : settings.anyBeside source tree v check = true) :
    ∃ made config, settings.Beside source tree v made config ∧ check made config = true := by
  obtain ⟨⟨name, value⟩, hvalue, h⟩ := List.any_eq_true.mp h
  obtain ⟨hname, h⟩ := Bool.and_eq_true_iff.mp h
  obtain ⟨made, hmade, h⟩ := List.any_eq_true.mp h
  simp only [Bool.and_eq_true, beq_iff_eq] at h
  obtain ⟨⟨hcreation, hbound⟩, h⟩ := h
  obtain ⟨config, hconfig, h⟩ := List.any_eq_true.mp h
  simp only [Bool.and_eq_true, beq_iff_eq, Bool.not_eq_true'] at h
  obtain ⟨⟨⟨hlater, hrooted⟩, hscope⟩, hcheck⟩ := h
  obtain ⟨n, rfl, hn⟩ := (Option.any_eq_true _ _).mp hname
  obtain rfl : made.root = value := by
    obtain ⟨site, hsite, hmakes⟩ := StubConfig.mem_foundAt.mp hmade
    rw [Mock.root_of_configure hmakes, List.mem_singleton.mp hsite]
  exact ⟨made, config,
    ⟨StubConfig.found_of_mem_foundAt hmade, hcreation, hbound, ⟨n, hvalue, by simpa using hn⟩,
      StubConfig.found_of_mem_foundAt hconfig, hlater, hrooted, hscope⟩, hcheck⟩

set_option maxRecDepth 100000 in
theorem Beside.same_key_in_file : ∃ (text : String) (tree : Node) (made config : StubConfig),
    text = "it('a', () => \x7b\n  const s = sinon.stub(api, 'get').returns(0);\n  s.withArgs(1).returns(1);\n\x7d);\n" ∧
    Grammar.parse .plain text.toList = some tree ∧ Settings.Beside {} text.toList tree "s" made config ∧
    (bindingsOf text.toList (Settings.context {} text.toList tree).names tree "s").map (·.target "s") =
      [("api", "get")] ∧
    config.key (Settings.context {} text.toList tree) = made.key (Settings.context {} text.toList tree) := by
  obtain ⟨text, htext⟩ : ∃ text, text =
      "it('a', () => \x7b\n  const s = sinon.stub(api, 'get').returns(0);\n  s.withArgs(1).returns(1);\n\x7d);\n" :=
    ⟨_, rfl⟩
  have hfile : (Grammar.parse .plain text.toList).any (fun tree =>
      Settings.anyBeside {} text.toList tree "s" fun made _ =>
        (made.subject, made.member) == ("api", "get") &&
        (bindingsOf text.toList (Settings.context {} text.toList tree).names tree "s").map (·.target "s") ==
          [("api", "get")]) = true := by
    rw [htext]
    decide +kernel
  obtain ⟨tree, hparse, hfile⟩ := (Option.any_eq_true _ _).mp hfile
  obtain ⟨made, config, hbeside, hcheck⟩ := exists_beside hfile
  simp only [Bool.and_eq_true, beq_iff_eq] at hcheck
  obtain ⟨hmade, htargets⟩ := hcheck
  have hlast := (Beside.same_key_iff (by decide) hbeside).2.mpr (by rw [htargets, hmade]; rfl)
  exact ⟨text, tree, made, config, htext, hparse, hbeside, htargets, hlast⟩

/-- In the named test or suite around it, `made` is the only value given to `v` and the only chain that makes a
stub for its target. -/
def SoleIn (settings : Settings) (source : Text) (tree : Node) (v : String) (made : StubConfig) : Prop :=
  let inScope (s : Site) : Bool := (made.root.scope? source).any fun (span, _) => span.contains s.span
  ((mockValues tree).filter fun (name, value) => name.any (·.text source == v) && inScope value).map
    (·.2.span) = [made.root.span] ∧
  ((StubConfig.foundAt (settings.context source tree) (tree.sites.filter (·.isCandidate))).filter fun c =>
    c.isCreation && c.subject == made.subject && c.member == made.member && inScope c.root).map
    (·.root.span) = [made.root.span]

instance : Decidable (settings.SoleIn source tree v made) := inferInstanceAs (Decidable (_ ∧ _))

set_option maxRecDepth 100000 in
/-- A creation in another test takes the variable over, and the configuration loses the creation beside it. -/
theorem Beside.other_scope_counts : ¬ ∀ (settings : Settings) (path text : String) (tree : Node) (v : String)
    (made config : StubConfig), Grammar.parse (Grammar.ofPath path) text.toList = some tree →
    settings.migrations.contains .mocks = true → settings.Beside text.toList tree v made config →
    settings.SoleIn text.toList tree v made →
      config.key (settings.context text.toList tree) = made.key (settings.context text.toList tree) := by
  intro h
  obtain ⟨text, htext⟩ : ∃ text, text =
      "it('a', () => \x7b\n  const s = sinon.stub(api, 'get').returns(0);\n  s.withArgs(1).returns(1);\n\x7d);\n" ++
      "it('b', () => \x7b\n  const s = sinon.stub(api, 'post');\n\x7d);\n" := ⟨_, rfl⟩
  have hfile : (Grammar.parse (Grammar.ofPath "a.test.js") text.toList).any (fun tree =>
      Settings.anyBeside {} text.toList tree "s" fun made config =>
        Settings.SoleIn {} text.toList tree "s" made &&
        config.key (Settings.context {} text.toList tree) != made.key (Settings.context {} text.toList tree)) =
      true := by
    rw [htext]
    decide +kernel
  obtain ⟨tree, hparse, hfile⟩ := (Option.any_eq_true _ _).mp hfile
  obtain ⟨made, config, hbeside, hcheck⟩ := exists_beside hfile
  simp only [Bool.and_eq_true, decide_eq_true_eq, bne_iff_ne] at hcheck
  exact hcheck.2 (h {} "a.test.js" text tree "s" made config hparse (by decide) hbeside hcheck.1)

end Settings

end TestMigration
