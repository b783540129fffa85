import TestMigration.Proofs.Assertion.Negation
import TestMigration.Proofs.Run.Inspected
import TestMigration.Proofs.Stub.Key

/-!
# Names that registration calls begin with

The pass over registrations notes the name that each call it handles is imported under. After the run the call begins
with that name, unless it has a modifier that no rule for aliases takes: then the old name stays.

Main statement: `Settings.newBase_imported_iff`.
-/

namespace TestMigration

variable {ctx : Context} {c : Chain} {source : Text} {tree : Node}

/-! ### Words of assertions -/

/-- The words that some family of assertions knows. -/
def Assertion.knownWords : List String :=
  ["fulfilled", "resolved", "rejected", "rejectedWith", "fulfilledWith", "become", "throw", "throws", "throwError",
    "Throw", "eql", "eqls", "deepEqual", "equal", "equals", "eq", "exactly", "strictEqual", "exist", "exists", "null",
    "undefined", "empty", "NaN", "true", "false", "ok", "property", "propertyByPath", "ownProperty", "haveOwnProperty",
    "length", "lengthOf", "within", "above", "greaterThan", "gt", "below", "lessThan", "lt", "least", "gte",
    "aboveOrEqual", "most", "lte", "belowOrEqual", "startWith", "startsWith", "endWith", "endsWith", "include",
    "includes", "contain", "contains", "match", "matches", "instanceof", "instanceOf", "a", "an", "type", "Array",
    "Object", "String", "Number", "Boolean", "Function", "Promise"]

/-- No family builds anything of a single word that none of them knows. -/
theorem Assertion.Family.build_eq_none {f : Family} {v : View} {w : Step} (hwords : v.words = [w])
    (hunknown : w.name ∉ knownWords) : f.build ctx v = none := by
  have hcalled {names : List String} {least most : Nat} (h : w.name ∉ names) : v.called? names least most = none :=
    called?_eq_none hwords h
  have hbare {names : List String} (h : w.name ∉ names) : v.bare? names = none := bare?_eq_none hwords h
  have hsingle : v.single? = some w := by simp [View.single?, hwords]
  simp only [knownWords, List.mem_cons, List.not_mem_nil, or_false, not_or] at hunknown
  cases f with
  | promise => simp [build, Assertion.promise, settledWord?, hcalled, hbare, hunknown]
  | throws => simp [build, Assertion.throws, hsingle, hunknown]
  | deepEquality => simp [build, Assertion.deepEquality, hcalled, hunknown]
  | strictEquality => simp [build, Assertion.strictEquality, hcalled, hunknown]
  | existence => simp [build, Assertion.existence, hbare, hunknown]
  | boolean => simp [build, Assertion.boolean, hbare, hunknown]
  | membership =>
    have hnested : nestedPath? ctx v = none := by simp [nestedPath?, hcalled, hsingle, hunknown]
    have hwithin : v.called? ["within"] 2 2 = none := hcalled (by simp [hunknown])
    have hoperators : comparisonOperators? w.name = none := by simp [comparisonOperators?, hunknown]
    have hrange : range ctx v = none := by
      simp only [range, hwithin, hsingle, Option.map_none, Option.bind_eq_bind, Option.bind_some]
      split
      · simp [hoperators]
      · rfl
    simp [build, Assertion.membership, membershipWith, nestedProperty, hnested, ownProperty, property, length, hrange,
      affix, contained, matching, instance', typeCheck, typeName?, hcalled, hbare, hwords, hunknown]

/-! ### Chains that call a modifier -/

/-- The chain calls a name with a modifier that aliases are renamed in front of. -/
structure Chain.Modified (c : Chain) (step : Step) : Prop where
  subject : c.subject.kind = .identifier
  steps : c.steps = [step]
  call : step.isCall = true
  name : step.name = "only" ∨ step.name = "skip"

namespace Chain.Modified

variable {step : Step}

theorem ofChain?_words (h : c.Modified step) {v : View} (hview : View.ofChain? ctx c = some v) :
    ∃ w : Step, v.words = [w] ∧ w.name = step.name ∧ v.negated = false := by
  have hnot : View.afterShould [step] = none := by
    rcases h.name with hname | hname <;> simp [View.afterShould, hname]
  -- only a name of `should` is left to stand in front of the step, which keeps its name
  have hsplit {value : Site} {steps : List Step} (hsplit : View.split? ctx c = some (value, steps)) :
      ∃ args, steps = [{ step with arguments? := some args }] := by
    rw [View.split?, h.steps, hnot] at hsplit
    dsimp only at hsplit
    split at hsplit
    · rename_i hcall
      rw [h.subject] at hcall
      exact absurd hcall (by decide)
    · split at hsplit
      · rcases h.name with hname | hname <;> simp [hname] at hsplit
      · split at hsplit
        · simp only [View.takeValue, Option.bind_eq_bind, Option.bind_eq_some_iff] at hsplit
          obtain ⟨last, hlast, args, -, value', -, heq⟩ := hsplit
          cases hlast
          cases heq
          exact ⟨args.drop 1, rfl⟩
        · cases hsplit
  simp only [View.ofChain?, Option.bind_eq_bind, Option.bind_eq_some_iff] at hview
  obtain ⟨⟨value, steps⟩, hvalue, -, -, heq⟩ := hview
  obtain ⟨args, rfl⟩ := hsplit hvalue
  cases heq
  exact ⟨_, rfl, rfl, rfl⟩

theorem assertion_eq_none (h : c.Modified step) (f : Assertion.Family) : f.synthesis? ctx c = none := by
  rw [Option.eq_none_iff_forall_ne_some]
  intro a ha
  simp only [Assertion.Family.synthesis?, Option.bind_eq_bind, Option.bind_eq_some_iff] at ha
  obtain ⟨v, hview, ha⟩ := ha
  obtain ⟨w, hwords, hname, hpositive⟩ := h.ofChain?_words (Option.eq_some_of_filter_eq_some hview)
  have hunknown : w.name ∉ Assertion.knownWords := by
    rw [hname]
    rcases h.name with hname | hname <;> rw [hname] <;> decide
  rw [Assertion.Family.build_eq_none hwords hunknown] at ha
  simp [hpositive] at ha

theorem setup_eq_none (h : c.Modified step) : Assertion.setup? ctx c = none := by
  unfold Assertion.setup?
  rw [h.steps]
  rcases h.name with hname | hname <;> simp [hname]

theorem mock_eq_none (h : c.Modified step) (r : MockRule) : r.synthesis? ctx c = none := by
  obtain ⟨hsubject, hsteps, hcall, hname⟩ := h
  have hinspected {function : Expr} {steps : List Step} (h : Mock.inspected? ctx c = some (function, steps)) :
      steps = [step] := by
    simp only [Mock.inspected?, Option.bind_eq_bind, Option.bind_eq_some_iff, hsteps, hcall] at h
    obtain ⟨-, -, h⟩ := h
    split at h
    · cases h
      rfl
    · simp at h
  cases r with
  | sandboxCreation =>
    rcases hname with hname | hname <;>
      simp [MockRule.synthesis?, Mock.sandboxCreation, Chain.isSandboxCreation, hsteps, hname]
  | restoreAll =>
    rcases hname with hname | hname <;> simp [MockRule.synthesis?, Mock.restoreAll, hsteps, hname]
  | mockAssert => simp [MockRule.synthesis?, Mock.mockAssert, Mock.assertedCheck?, hsteps]
  | mockAssertArguments => simp [MockRule.synthesis?, Mock.mockAssertArguments, Mock.assertedCheck?, hsteps]
  | stubConfiguration =>
    rcases hname with hname | hname <;>
      simp [MockRule.synthesis?, Mock.stubConfiguration, Mock.methodCreation, Mock.anonymousCreation,
        Mock.variableConfiguration, applySteps, Mock.unsupportedSteps, hsteps, hname]
  | methodSpy =>
    rcases hname with hname | hname <;> simp [MockRule.synthesis?, Mock.methodSpy, hsteps, hname]
  | anonymousFake =>
    rcases hname with hname | hname <;>
      simp [MockRule.synthesis?, Mock.anonymousFake, Mock.fakeArguments?, creationSteps, hsteps, hname]
  | callArguments =>
    rw [Option.eq_none_iff_forall_ne_some]
    intro a ha
    simp only [MockRule.synthesis?, Mock.callArguments, Option.bind_eq_bind, Option.bind_eq_some_iff] at ha
    obtain ⟨⟨function, steps⟩, hfunction, ha⟩ := ha
    obtain rfl := hinspected hfunction
    rcases hname with hname | hname <;> simp [Mock.wantsExactly?, hname] at ha
  | stubInspection =>
    rw [Option.eq_none_iff_forall_ne_some]
    intro a ha
    simp only [MockRule.synthesis?, Mock.stubInspection, Option.bind_eq_bind, Option.bind_eq_some_iff] at ha
    obtain ⟨⟨function, steps⟩, hfunction, ha⟩ := ha
    obtain rfl := hinspected hfunction
    rcases hname with hname | hname <;> simp [Mock.inspectedBy?, hcall, hname] at ha

theorem eq_aliasModifier (h : c.Modified step) {r : Rule} {a : Synthesis} (ha : r.synthesis? ctx c = some a) :
    r = .registration .aliasModifier := by
  unfold Rule.synthesis? at ha
  split at ha
  · cases ha
  · cases r with
    | assertionSetup => simp [h.setup_eq_none] at ha
    | assertion f => simp [h.assertion_eq_none] at ha
    | mock rule => simp [h.mock_eq_none] at ha
    | registration rule =>
      cases rule with
      | aliasModifier => rfl
      | slowThreshold =>
        simp only [RegistrationRule.synthesis?, h.steps] at ha
        rcases h.name with hname | hname <;> simp [hname] at ha

end Chain.Modified

/-! ### Chains with a single step -/

namespace Chain

variable {root inner : Site} {step : Step}

theorem last?_of_single (h : (walk source root).steps = [step]) :
    Step.last? source root = some (step, (walk source root).subject) := by
  cases hlast : Step.last? source root with
  | none => simp [walk_of_none hlast] at h
  | some last =>
    obtain ⟨last, inner⟩ := last
    have hwalk := walk_of_last? hlast
    have hsteps : (walk source inner).steps ++ [last] = [] ++ [step] := by simpa [hwalk] using h
    obtain ⟨hinner, hsame⟩ := List.append_inj' hsteps rfl
    rw [hwalk, walk_of_none (steps_eq_nil_iff.mp hinner), List.head_eq_of_cons_eq hsame]

theorem walk_of_identifier (hlast : Step.last? source root = some (step, inner)) (hinner : inner.kind = .identifier) :
    walk source root = { steps := [step], subject := inner, root } := by
  have hend : Step.last? source inner = none := by simp [Step.last?, hinner]
  rw [walk_of_last? hlast, walk_of_none hend, List.nil_append]

end Chain

/-! ### Registration calls -/

section
variable {s t f g target : Site} {callee callee' : Registration.Callee} {e : Expr}

theorem Site.registration?_cases (h : s.registration? source = some callee) :
    s.kind = .call ∧ ∃ f, s.child? .callee = some f ∧ (callee.modifier = none ∧ f.kind = .identifier ∨
      ∃ o p m, callee.modifier = some m ∧ f.kind = .member ∧ f.child? .object = some o ∧ f.child? .property = some p ∧
        o.kind = .identifier ∧ callee.base = o.text source ∧ m = p.text source) := by
  simp only [registration?, Option.bind_eq_bind, Option.bind_eq_some_iff] at h
  obtain ⟨_, hcall, f, hf, h⟩ := h
  have hcall : s.kind = .call := by simpa using hcall
  refine ⟨hcall, f, hf, ?_⟩
  split at h
  · rename_i hkind
    obtain ⟨registers, -, rfl⟩ := Option.map_eq_some_iff.mp h
    exact .inl ⟨rfl, hkind⟩
  · rename_i hkind
    simp only [Option.bind_eq_some_iff] at h
    obtain ⟨o, ho, p, hp, _, hokind, _, -, h⟩ := h
    obtain ⟨registers, -, rfl⟩ := Option.map_eq_some_iff.mp h
    exact .inr ⟨o, p, _, rfl, hkind, ho, hp, by simpa using hokind, rfl, rfl⟩
  · cases h

theorem Site.callee_start (h : s.node.Orderly) (hcallee : s.registration? source = some callee)
    (hf : s.child? .callee = some f) : f.node.start = s.node.start := by
  obtain ⟨hkind, f', hf', hcases⟩ := registration?_cases hcallee
  obtain rfl : f' = f := Option.some.inj (hf'.symm.trans hf)
  obtain ⟨n, hn, rfl⟩ := Option.map_eq_some_iff.mp hf
  have hpart : n.isComment = false := by
    have hkind : n.kind = .identifier ∨ n.kind = .member := by
      rcases hcases with ⟨-, hkind⟩ | ⟨_, _, _, -, hkind, -⟩
      · exact .inl hkind
      · exact .inr hkind
    rcases hkind with hkind | hkind <;> simp [Node.isComment, hkind]
  have hhead : Role.callee ∈ s.node.kind.head? := by rw [show s.node.kind = .call from hkind]; rfl
  obtain ⟨first, hfirst, -, hstart⟩ := h.parts_shaped.head _ hhead
  have hmem : first ∈ s.node.children := (List.mem_filter.mp (List.mem_of_mem_head? hfirst)).1
  obtain rfl : first = n := h.head_child hhead hn hpart hmem hstart
  exact hstart

/-- Registration calls whose callees have the same span are the same. -/
theorem Site.eq_of_callee_span (h : tree.Orderly) (hs : s ∈ tree.sites) (ht : t ∈ tree.sites)
    (hscallee : s.registration? source = some callee) (htcallee : t.registration? source = some callee')
    (hf : s.child? .callee = some f) (hg : t.child? .callee = some g) (hspan : f.span = g.span) : s = t := by
  refine Site.registration?_inj h hs ht hscallee htcallee ?_
  rw [← callee_start (h.site_orderly hs) hscallee hf, ← callee_start (h.site_orderly ht) htcallee hg]
  exact congrArg Span.start hspan

/-- The registration call is an alias with a modifier that a rule takes: it has arguments, and nothing goes on from
it. -/
structure Registration.RenamesModifier (source : Text) (call : Site) (callee : Callee) : Prop where
  aliased : (RegistrationRule.aliased? callee.base).isSome = true
  modifier : callee.modifier = some "only" ∨ callee.modifier = some "skip"
  arguments : (Step.last? source call).isSome = true
  root : call.isChainRoot = true

theorem RegistrationRule.aliased?_cases {base name : String} (h : aliased? base = some name) :
    base = "context" ∧ name = "describe" ∨ base = "specify" ∧ name = "it" := by
  unfold aliased? at h
  split at h
  · cases h
    exact .inl ⟨rfl, rfl⟩
  · cases h
    exact .inr ⟨rfl, rfl⟩
  · cases h

/-- What the rule for aliases replaces is the callee of a registration call. -/
theorem RegistrationRule.aliasModifier_spec (ctx : Context)
    (h : aliasModifier.synthesis? ctx (Chain.walk ctx.source s) = some (.replace target e)) :
    ∃ callee name modifier, s.registration? ctx.source = some callee ∧ s.child? .callee = some target ∧
      aliased? callee.base = some name ∧ callee.modifier = some modifier ∧
      (modifier = "only" ∨ modifier = "skip") ∧ e = .ident (name ++ "." ++ modifier) := by
  unfold synthesis? at h
  split at h
  · rename_i step hsteps
    have hlast := Chain.last?_of_single hsteps
    simp only [Option.bind_eq_bind, Option.bind_eq_some_iff] at h
    obtain ⟨_, hsubject, name, hname, _, hmodifier, callee, hcallee, heq⟩ := h
    cases heq
    have hsubject : (Chain.walk ctx.source s).subject.kind = .identifier ∧ step.isCall = true := by
      simpa using hsubject
    have hmodifier : step.name = "only" ∨ step.name = "skip" := by
      simpa [or_iff_not_imp_left] using hmodifier
    obtain ⟨registers, hregisters⟩ : ∃ registers, Registration.ofName? (ctx.text (Chain.walk ctx.source s).subject) =
        some registers := by
      rcases aliased?_cases hname with ⟨hbase, -⟩ | ⟨hbase, -⟩ <;> rw [hbase]
      · exact ⟨.suite, by decide⟩
      · exact ⟨.testCase, by decide⟩
    obtain ⟨-, _, -, -, rfl⟩ | ⟨hkind, f, property, args, hf, hmember, hproperty, hobject, -, -, rfl⟩ :=
      Step.last?_eq_some_iff.mp hlast
    · exact absurd hsubject.2 (by simp [Step.isCall])
    · obtain rfl : f = target := Option.some.inj (hf.symm.trans hcallee)
      have hmodifier : property.text ctx.source = "only" ∨ property.text ctx.source = "skip" := hmodifier
      have hregisters : Registration.ofName? ((Chain.walk ctx.source s).subject.text ctx.source) = some registers :=
        hregisters
      refine ⟨⟨(Chain.walk ctx.source s).subject.text ctx.source, some (property.text ctx.source), registers⟩, name, _,
        ?_, hf, hname, rfl, hmodifier, rfl⟩
      rcases hmodifier with hmodifier | hmodifier <;>
        simp [Site.registration?, Registration.callee?, hkind, hf, hmember, hobject, hproperty, hsubject.1, hregisters,
          hmodifier]
  · cases h

namespace Registration.RenamesModifier

variable {call : Site}

theorem exists_synthesis (h : RenamesModifier ctx.source call callee)
    (hcallee : call.registration? ctx.source = some callee) :
    ∃ step f e, (Chain.walk ctx.source call).Modified step ∧ call.child? .callee = some f ∧
      (Rule.registration .aliasModifier).synthesis? ctx (Chain.walk ctx.source call) = some (.replace f e) := by
  obtain ⟨haliased, hmodifier, hlast, -⟩ := h
  obtain ⟨hkind, f, hf, ⟨hnone, -⟩ | ⟨o, p, m, hm, hmember, ho, hp, hokind, hbase, rfl⟩⟩ :=
    Site.registration?_cases hcallee
  · simp [hnone] at hmodifier
  obtain ⟨⟨step, inner⟩, hlast⟩ := Option.isSome_iff_exists.mp hlast
  obtain ⟨name, hname⟩ := Option.isSome_iff_exists.mp haliased
  obtain ⟨args, rfl, rfl⟩ : ∃ args, step = { name := p.text ctx.source, arguments? := some args, site := call } ∧
      inner = o := by
    obtain ⟨hmember', -⟩ | ⟨-, f', p', args, hf', -, hp', ho', -, -, rfl⟩ := Step.last?_eq_some_iff.mp hlast
    · rw [hkind] at hmember'
      cases hmember'
    · obtain rfl : f' = f := Option.some.inj (hf'.symm.trans hf)
      obtain rfl : p' = p := Option.some.inj (hp'.symm.trans hp)
      exact ⟨_, rfl, Option.some.inj (ho'.symm.trans ho)⟩
  have hmodifier : p.text ctx.source = "only" ∨ p.text ctx.source = "skip" := by simpa [hm] using hmodifier
  have hwalk := Chain.walk_of_identifier hlast hokind
  refine ⟨_, f, .ident (name ++ "." ++ p.text ctx.source), ⟨?_, by rw [hwalk], rfl, hmodifier⟩, hf, ?_⟩
  · rw [hwalk]
    exact hokind
  · have hname : RegistrationRule.aliased? (ctx.text inner) = some name := by rw [← hname, hbase]; rfl
    rcases hmodifier with hmodifier | hmodifier <;>
      simp [Rule.synthesis?, RegistrationRule.synthesis?, hwalk, hokind, Step.isCall, hname, hmodifier, hf]

/-- The call is renamed by the rule for aliases, whatever other migrations are enabled. -/
theorem exists_found (ctx : Context) {migrations : List Migration} (h : RenamesModifier ctx.source call callee)
    (hcallee : call.registration? ctx.source = some callee) (henabled : migrations.contains .registration = true) :
    ∃ m f e, Run.found? ctx migrations call = some (m, .registration .aliasModifier, .replace f e) ∧
      call.child? .callee = some f := by
  obtain ⟨step, f, e, hmodified, hf, halias⟩ := h.exists_synthesis hcallee
  cases hfound : Run.found? ctx migrations call with
  | none =>
    have hnone := List.findSome?_eq_none_iff.mp hfound .registration (by simpa using henabled)
    have hnone := List.findSome?_eq_none_iff.mp (Option.map_eq_none_iff.mp hnone) (.registration .aliasModifier)
      (by decide)
    simp [halias] at hnone
  | some found =>
    obtain ⟨m, r, a⟩ := found
    have hr := Run.synthesis?_of_found? hfound
    obtain rfl := hmodified.eq_aliasModifier hr
    obtain rfl := Option.some.inj (hr.symm.trans halias)
    exact ⟨m, f, e, rfl, hf⟩

end Registration.RenamesModifier

/-! ### New names -/

def firstName (name : String) : String := String.ofList (name.toList.takeWhile (· != '.'))

namespace Registration

theorem firstName_aliased {base name modifier : String} (h : RegistrationRule.aliased? base = some name)
    (hmodifier : modifier = "only" ∨ modifier = "skip") : firstName (name ++ "." ++ modifier) = importedName base := by
  rcases RegistrationRule.aliased?_cases h with ⟨rfl, rfl⟩ | ⟨rfl, rfl⟩ <;>
    rcases hmodifier with rfl | rfl <;> decide

/-- A name that registers something is imported as itself unless it gets a new name. -/
theorem mem_importedNames_iff {base : String} {registers : Registration} (h : ofName? base = some registers) :
    base ∈ importedNames ↔ renamed base = base :=
  (by decide : ∀ b ∈ testCaseNames ++ suiteNames ++ hookNames, b ∈ importedNames ↔ renamed b = b) base (ofName?_mem h)

theorem importedName_of_mem {base : String} (h : base ∈ importedNames) : importedName base = base :=
  (by decide : ∀ name ∈ importedNames, importedName name = name) base h

end Registration

namespace Edit

/-- The edit gives the callee of a call a new name. -/
def renames (x : Edit) (call : Site) : Bool :=
  ["registration-rename", "registration-alias"].contains x.rule && (call.child? .callee).any (·.span == x.span)

/-- The name that the edit puts into the file. -/
def newName? (x : Edit) : Option String :=
  match x.replacement with
  | .expr (.ident name) | .text name => some name
  | _ => none

end Edit

end

namespace Settings

variable {settings : Settings} {path text : String} {call : Site} {callee : Registration.Callee} {x : Edit}

/-- The name that the callee of a registration call begins with once the planned edits are made. -/
def newBase (settings : Settings) (path : String) (source : Text) (tree : Node) (call : Site)
    (callee : Registration.Callee) : String :=
  (((settings.planned path source tree).find? (·.renames call)).bind Edit.newName?).elim callee.base firstName

/-- An edit for the callee of a call that is handled puts the imported name there. -/
theorem newName_of_renames (hparse : Grammar.parse (Grammar.ofPath path) text.toList = some tree)
    (hcall : (call, callee) ∈ settings.handled text.toList tree) (hx : x ∈ settings.planned path text.toList tree)
    (hrenames : x.renames call = true) :
    (∃ name, x.newName? = some name ∧ firstName name = Registration.importedName callee.base) ∧
      (callee.modifier = none ∨ Registration.RenamesModifier text.toList call callee) := by
  have horderly := Grammar.parse_orderly hparse
  obtain ⟨hmem, hcallee⟩ := RegistrationPass.mem_handled hcall
  have hmem : call ∈ tree.sites := (List.mem_filter.mp hmem).1
  obtain ⟨hrule, hspan⟩ := Bool.and_eq_true_iff.mp hrenames
  obtain ⟨f, hf, hspan⟩ := (Option.any_eq_true _ _).mp hspan
  have hspan : f.span = x.span := eq_of_beq hspan
  have hrule : x.rule = "registration-rename" ∨ x.rule = "registration-alias" := by simpa using hrule
  -- the edit is for the callee of this call and of no other one
  have hsame {s g : Site} {callee' : Registration.Callee} (hs : s ∈ tree.sites)
      (hcallee' : s.registration? text.toList = some callee') (hg : s.child? .callee = some g) (hgx : g.span = x.span) :
      s = call ∧ callee' = callee := by
    obtain rfl := Site.eq_of_callee_span horderly hs hmem hcallee' hcallee hg hf (hgx.trans hspan.symm)
    exact ⟨rfl, Option.some.inj (hcallee'.symm.trans hcallee)⟩
  rcases hrule with hrule | hrule
  · cases planned_origin hx with
    | chain hs hcandidate hx =>
      obtain ⟨r, hr⟩ := Run.rule_of_chainEdits hx
      exact absurd (hr.symm.trans hrule) r.name_ne_rename
    | @rename call' callee' henabled hcall' hx =>
      obtain ⟨hs, hcallee'⟩ := RegistrationPass.mem_handled hcall'
      obtain ⟨hnone, -, g, hg, rfl⟩ := Registration.mem_rename_iff.mp hx
      obtain ⟨rfl, rfl⟩ := hsame (List.mem_filter.mp hs).1 hcallee' hg rfl
      exact ⟨⟨_, rfl, rfl⟩, .inl hnone⟩
    | later hlater => exact absurd (hrule ▸ hlater) (by decide)
  · obtain ⟨s, hs, hcandidate, m, target, e, hfound, rfl⟩ := chain_of_planned
      (r := .registration .aliasModifier) hx hrule (by decide) (by simp)
    have hsynthesis := Run.synthesis?_of_found? hfound
    have hlast := Rule.last?_of_synthesis? hsynthesis
    have halias : RegistrationRule.aliasModifier.synthesis? (settings.context text.toList tree)
        (Chain.walk text.toList s) = some (.replace target e) := by
      unfold Rule.synthesis? at hsynthesis
      split at hsynthesis
      · cases hsynthesis
      · exact hsynthesis
    obtain ⟨callee', name, modifier, hcallee', htarget, hname, hmodifier, hcases, rfl⟩ :=
      RegistrationRule.aliasModifier_spec (settings.context text.toList tree) halias
    obtain ⟨rfl, rfl⟩ := hsame hs hcallee' htarget rfl
    refine ⟨⟨_, rfl, Registration.firstName_aliased hname hcases⟩, .inr ⟨?_, ?_, hlast, ?_⟩⟩
    · simp [hname]
    · rcases hcases with rfl | rfl
      · exact .inl hmodifier
      · exact .inr hmodifier
    · exact (Bool.and_eq_true_iff.mp hcandidate).2

/-- A callee without modifier or of an alias that a rule takes gets a new name, if there is one. -/
theorem exists_renames (path : String) (henabled : settings.migrations.contains .registration = true)
    (hcall : (call, callee) ∈ settings.handled source tree)
    (h : callee.modifier = none ∧ Registration.renamed callee.base ≠ callee.base ∨
      Registration.RenamesModifier source call callee) :
    ∃ x ∈ settings.planned path source tree, x.renames call = true := by
  obtain ⟨hmem, hcallee⟩ := RegistrationPass.mem_handled hcall
  obtain ⟨hmem, -⟩ := List.mem_filter.mp hmem
  rcases h with ⟨hnone, hname⟩ | hmodifier
  · obtain ⟨-, f, hf, -⟩ := Site.registration?_cases hcallee
    refine ⟨_, mem_planned_of_callChange henabled hcall (Registration.mem_callChange_iff.mpr
      (.inl (Registration.mem_rename_iff.mpr ⟨hnone, hname, f, hf, rfl⟩))), ?_⟩
    simp [Edit.renames, Edit.replaceText, hf]
  · obtain ⟨m, f, e, hfound, hf⟩ := hmodifier.exists_found (settings.context source tree) hcallee henabled
    have hcandidate : call.isCandidate = true := by
      rw [Site.isCandidate, hmodifier.root, Bool.and_true]
      exact Step.last?_kind hmodifier.arguments
    refine ⟨.replace f.span e "registration-alias", mem_planned_of_chainEdits hmem hcandidate ?_, ?_⟩
    · simp [Run.chainEdits, hfound, Rule.name, RegistrationRule.name]
    · simp [Edit.renames, Edit.replace, hf]

/-- The name that a registration call begins with after the run is imported exactly when it needs no new name or a
new name was given: to names without modifier, and to aliases in front of `only` and `skip` where nothing follows. -/
theorem newBase_imported_iff (hparse : Grammar.parse (Grammar.ofPath path) text.toList = some tree)
    (henabled : settings.migrations.contains .registration = true)
    (hcall : (call, callee) ∈ settings.handled text.toList tree) :
    settings.newBase path text.toList tree call callee ∈
        (RegistrationPass.ofTree text.toList tree (settings.unboxed text.toList tree).edits).usage.names ↔
      Registration.renamed callee.base = callee.base ∨ callee.modifier = none ∨
        Registration.RenamesModifier text.toList call callee := by
  have hnames (name : String) : name ∈
      (RegistrationPass.ofTree text.toList tree (settings.unboxed text.toList tree).edits).usage.names ↔
        ∃ c ∈ settings.handled text.toList tree, Registration.importedName c.2.base = name := by
    rw [RegistrationPass.ofTree, (RegistrationPass.foldl_addCall_handled _ _).2]
    simp [handled]
  obtain ⟨registers, hregisters⟩ := Registration.ofName?_of_registration? (RegistrationPass.mem_handled hcall).2
  cases hfind : (settings.planned path text.toList tree).find? (·.renames call) with
  | some x =>
    obtain ⟨⟨name, hname, hfirst⟩, hcases⟩ := newName_of_renames hparse hcall (List.mem_of_find?_eq_some hfind)
      (List.find?_some (p := fun x : Edit => x.renames call) hfind)
    have hnew : settings.newBase path text.toList tree call callee = Registration.importedName callee.base := by
      simp [newBase, hfind, hname, hfirst]
    rw [hnew, hnames]
    exact iff_of_true ⟨_, hcall, rfl⟩ (.inr hcases)
  | none =>
    have hnew : settings.newBase path text.toList tree call callee = callee.base := by simp [newBase, hfind]
    have hnot : ¬ (callee.modifier = none ∧ Registration.renamed callee.base ≠ callee.base ∨
        Registration.RenamesModifier text.toList call callee) := by
      intro h
      obtain ⟨x, hx, hrenames⟩ := exists_renames path henabled hcall h
      exact List.find?_eq_none.mp hfind x hx hrenames
    rw [hnew, hnames]
    constructor
    · rintro ⟨c, hc, hbase⟩
      obtain ⟨registers', hother⟩ := Registration.ofName?_of_registration? (RegistrationPass.mem_handled hc).2
      exact .inl ((Registration.mem_importedNames_iff hregisters).mp (hbase ▸ Registration.importedName_mem hother))
    · intro h
      have hname : Registration.renamed callee.base = callee.base := by
        by_contra hname
        rcases h with h | hnone | hmodifier
        · exact hname h
        · exact hnot (.inl ⟨hnone, hname⟩)
        · exact hnot (.inr hmodifier)
      exact ⟨_, hcall, Registration.importedName_of_mem ((Registration.mem_importedNames_iff hregisters).mpr hname)⟩

set_option maxRecDepth 100000 in
theorem newBase_imported_of_only : ∃ (text : String) (tree : Node) (call : Site) (callee : Registration.Callee),
    text = "context.only('a', () => \x7b\x7d);\n" ∧
    Grammar.parse (Grammar.ofPath "a.test.js") text.toList = some tree ∧
    (call, callee) ∈ Settings.handled {} text.toList tree ∧ callee.base = "context" ∧
    Settings.newBase {} "a.test.js" text.toList tree call callee ∈
      (RegistrationPass.ofTree text.toList tree (Settings.unboxed {} text.toList tree).edits).usage.names := by
  obtain ⟨text, htext⟩ : ∃ text, text = "context.only('a', () => \x7b\x7d);\n" := ⟨_, rfl⟩
  have hfile : (Grammar.parse (Grammar.ofPath "a.test.js") text.toList).any (fun tree =>
      (Settings.handled {} text.toList tree).any fun c =>
        c.2.base == "context" && c.2.modifier == some "only" && (RegistrationRule.aliased? c.2.base).isSome &&
        (Step.last? text.toList c.1).isSome && c.1.isChainRoot) = true := by
    rw [htext]
    decide +kernel
  obtain ⟨tree, hparse, hfile⟩ := (Option.any_eq_true _ _).mp hfile
  obtain ⟨⟨call, callee⟩, hcall, hfile⟩ := List.any_eq_true.mp hfile
  simp only [Bool.and_eq_true, beq_iff_eq] at hfile
  obtain ⟨⟨⟨⟨hbase, honly⟩, haliased⟩, hlast⟩, hroot⟩ := hfile
  have hmodifier : Registration.RenamesModifier text.toList call callee := ⟨haliased, .inl honly, hlast, hroot⟩
  exact ⟨text, tree, call, callee, htext, hparse, hcall, hbase,
    (newBase_imported_iff hparse (by decide) hcall).mpr (.inr (.inr hmodifier))⟩

set_option maxRecDepth 100000 in
/-- An alias keeps its name in front of `todo`. -/
theorem newBase_not_imported : ¬ ∀ (settings : Settings) (path text : String) (tree : Node) (call : Site)
    (callee : Registration.Callee), Grammar.parse (Grammar.ofPath path) text.toList = some tree →
    settings.migrations.contains .registration = true → (call, callee) ∈ settings.handled text.toList tree →
      settings.newBase path text.toList tree call callee ∈
        (RegistrationPass.ofTree text.toList tree (settings.unboxed text.toList tree).edits).usage.names := by
  intro h
  obtain ⟨text, htext⟩ : ∃ text, text = "context.todo('later');\n" := ⟨_, rfl⟩
  have hfile : (Grammar.parse (Grammar.ofPath "a.test.js") text.toList).any (fun tree =>
      (Settings.handled {} text.toList tree).any fun c =>
        !(RegistrationPass.ofTree text.toList tree (Settings.unboxed {} text.toList tree).edits).usage.names.contains
          (Settings.newBase {} "a.test.js" text.toList tree c.1 c.2)) = true := by
    rw [htext]
    decide +kernel
  obtain ⟨tree, hparse, hfile⟩ := (Option.any_eq_true _ _).mp hfile
  obtain ⟨⟨call, callee⟩, hcall, hfile⟩ := List.any_eq_true.mp hfile
  have himported := h {} "a.test.js" text tree call callee hparse (by decide) hcall
  simp [himported] at hfile

end Settings

end TestMigration
