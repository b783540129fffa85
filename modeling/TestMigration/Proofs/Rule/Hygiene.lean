import TestMigration.Proofs.Mock.Composed
import TestMigration.Proofs.Run.Planned

/-!
# Captured names

Rules put arguments of a chain into functions that they write, with fixed names for the parameters: what a promise
should give below `actual`, two expectations about an error below `err`, expected arguments of calls below
`call`, and the configuration of a stub below `...args`. `Rule.enclosed` lists these arguments.

Main statement: `captures_iff`. A name of the file is captured just when it occurs free in such an argument and is
the parameter there; nothing else that rules write encloses code of the file. `expected_value_captured` shows
that this happens.
-/

namespace TestMigration

/-- The arguments of a chain that the code of a rule encloses, with the parameter of the function around them. -/
def Rule.enclosed (r : Rule) (ctx : Context) (c : Chain) : List (String × Site) :=
  match r with
  | assertion family => (family.view? ctx c).toList.flatMap family.enclosed
  | mock rule => rule.enclosed ctx c
  | assertionSetup | registration _ => []

section
variable {ctx : Context} {c : Chain} {target : Site} {e : Expr}

theorem RegistrationRule.synthesis?_simple {r : RegistrationRule}
    (h : r.synthesis? ctx c = some (.replace target e)) : e.Simple (Spelled ctx.names []) := by
  unfold RegistrationRule.synthesis? at h
  split at h
  · rename_i step hsteps
    split at h
    · simp only [Option.bind_eq_bind, Option.bind_eq_some_iff] at h
      obtain ⟨-, -, alias', halias, ⟨⟩, hname, callee, -, heq⟩ := h
      obtain ⟨-, rfl⟩ := Synthesis.replace.inj (Option.some.inj heq)
      have hname : step.name = "only" ∨ step.name = "skip" := by
        by_contra hneither
        obtain ⟨honly, hskip⟩ := not_or.mp hneither
        simp [guard, failure, honly, hskip] at hname
      have halias : alias' = "describe" ∨ alias' = "it" := by
        unfold aliased? at halias
        split at halias
        · exact .inl (Option.some.inj halias).symm
        · exact .inr (Option.some.inj halias).symm
        · cases halias
      refine .inr ?_
      rcases halias with rfl | rfl <;> rcases hname with hname | hname <;> rw [hname] <;> decide
    · simp only [Option.bind_eq_bind, Option.bind_eq_some_iff] at h
      obtain ⟨-, -, statement, -, heq⟩ := h
      cases heq
  · cases h

theorem Rule.synthesis?_composed {r : Rule} (h : r.synthesis? ctx c = some (.replace target e)) :
    Composed (Spelled ctx.names r.requires) (r.enclosed ctx c) e := by
  have hsteps : c.steps.isEmpty = false := by
    by_contra hempty
    rw [Bool.not_eq_false] at hempty
    simp [Rule.synthesis?, hempty] at h
  simp only [Rule.synthesis?, hsteps, Bool.false_eq_true, if_false] at h
  cases r with
  | assertionSetup =>
    simp only [Assertion.setup?] at h
    split at h
    · simp only [Option.bind_eq_bind, Option.bind_eq_some_iff] at h
      obtain ⟨-, -, statement, -, heq⟩ := h
      cases heq
    · cases h
  | assertion family =>
    obtain ⟨v, hview, hcomposed⟩ := Assertion.Family.synthesis?_composed h
    have henclosed : Rule.enclosed (.assertion family) ctx c = family.enclosed v := by
      simp [Rule.enclosed, hview]
    rw [henclosed]
    exact hcomposed
  | mock rule => exact MockRule.synthesis?_composed h
  | registration rule => exact (RegistrationRule.synthesis?_simple h).composed rfl

end

/-- A name of the file is captured just if it occurs free in an argument below the parameter of that name. The first
part is about the chains that a rule replaces, the second about the functions of merged stubs. -/
theorem captures_iff (free : Span → List String) :
    (∀ (r : Rule) (ctx : Context) (c : Chain) (target : Site) (e : Expr),
      r.synthesis? ctx c = some (.replace target e) →
        (Captures free e ↔ ∃ p ∈ r.enclosed ctx c, p.1 ∈ free p.2.span))
    ∧ ∀ (util : String) (entries : List Entry),
      Captures free (implementation util entries) ↔ ∃ s ∈ enclosedEntries entries, "args" ∈ free s.span := by
  constructor
  · intro r ctx c target e h
    exact (Rule.synthesis?_composed h).captures free
  · intro util entries
    rw [← exists_mem_below]
    exact (@implementation_composed { util } entries).captures free

/-- The replacement of some chain of the tree by a rule for assertions satisfies the test. -/
def Settings.anyReplacement (settings : Settings) (source : Text) (tree : Node) (r : Rule)
    (test : Site → Expr → Bool) : Bool :=
  tree.sites.any fun root =>
    match Migration.assertions.findRule? (settings.context source tree) (Chain.walk source root) with
    | some (r', .replace _ e) => r' == r && test root e
    | _ => false

theorem exists_replacement {settings : Settings} {source : Text} {tree : Node} {r : Rule} {test : Site → Expr → Bool}
    (h : settings.anyReplacement source tree r test = true) : ∃ root ∈ tree.sites, ∃ target e,
      Migration.assertions.findRule? (settings.context source tree) (Chain.walk source root)
        = some (r, .replace target e) ∧ test root e = true := by
  obtain ⟨root, hroot, htest⟩ := List.any_eq_true.mp h
  split at htest
  · rename_i r' target e hfound
    simp only [Bool.and_eq_true, beq_iff_eq] at htest
    obtain ⟨rfl, htest⟩ := htest
    exact ⟨root, hroot, target, e, hfound, htest⟩
  · cases htest

theorem synthesis?_of_findRule? {m : Migration} {ctx : Context} {c : Chain} {r : Rule} {s : Synthesis}
    (h : m.findRule? ctx c = some (r, s)) : r.synthesis? ctx c = some s := by
  obtain ⟨r', -, h⟩ := List.exists_of_findSome?_eq_some h
  obtain ⟨s', hs, heq⟩ := Option.map_eq_some_iff.mp h
  obtain ⟨rfl, rfl⟩ := Prod.mk.inj heq
  exact hs

/-- The texts of the identifiers in a span. -/
def identifiersIn (source : Text) (tree : Node) (span : Span) : List String :=
  (tree.sites.filter fun s => s.kind == .identifier && span.contains s.span).map (·.text source)

set_option maxRecDepth 100000 in
/-- Another name for the expected value stays what it was. -/
theorem expected_value_kept : ∃ (text : String) (tree : Node) (root target : Site) (e : Expr),
    text = "expect(p).to.eventually.equal(x);\n" ∧ Grammar.parse .plain text.toList = some tree ∧
    Migration.assertions.findRule? (Settings.context {} text.toList tree) (Chain.walk text.toList root)
      = some (.assertion .promise, .replace target e) ∧
    e.placed [] ≠ [] ∧ ¬ Captures (identifiersIn text.toList tree) e := by
  obtain ⟨text, htext⟩ : ∃ text, text = "expect(p).to.eventually.equal(x);\n" := ⟨_, rfl⟩
  have hfile : (Grammar.parse .plain text.toList).any (fun tree =>
      Settings.anyReplacement {} text.toList tree (.assertion .promise) fun root e =>
        !(e.placed []).isEmpty &&
        (Rule.enclosed (.assertion .promise) (Settings.context {} text.toList tree) (Chain.walk text.toList root)).all
          fun p => !(identifiersIn text.toList tree p.2.span).contains p.1) = true := by
    rw [htext]
    decide +kernel
  obtain ⟨tree, hparse, hfile⟩ := (Option.any_eq_true _ _).mp hfile
  obtain ⟨root, -, target, e, hfound, hcheck⟩ := exists_replacement hfile
  simp only [Bool.and_eq_true, Bool.not_eq_true', List.all_eq_true, List.isEmpty_eq_false_iff] at hcheck
  obtain ⟨hplaced, hnone⟩ := hcheck
  refine ⟨text, tree, root, target, e, htext, hparse, hfound, hplaced, fun hcaptures => ?_⟩
  obtain ⟨p, hp, hfree⟩ := ((captures_iff _).1 _ _ _ target e (synthesis?_of_findRule? hfound)).mp hcaptures
  have hnot := hnone p hp
  rw [List.contains_iff_mem.mpr hfree] at hnot
  cases hnot

set_option maxRecDepth 100000 in
/-- The parameter takes over an expected value of its name: the value is compared with itself. -/
theorem expected_value_captured : ∃ (text : String) (tree : Node) (root target : Site) (e : Expr),
    text = "expect(p).to.eventually.equal(actual);\n" ∧ Grammar.parse .plain text.toList = some tree ∧
    root ∈ tree.sites ∧
    Migration.assertions.findRule? (Settings.context {} text.toList tree) (Chain.walk text.toList root)
      = some (.assertion .promise, .replace target e) ∧
    ∀ free : Span → List String,
      (∀ s ∈ tree.sites, s.kind = .identifier → s.text text.toList ∈ free s.span) → Captures free e := by
  obtain ⟨text, htext⟩ : ∃ text, text = "expect(p).to.eventually.equal(actual);\n" := ⟨_, rfl⟩
  have hfile : (Grammar.parse .plain text.toList).any (fun tree =>
      Settings.anyReplacement {} text.toList tree (.assertion .promise) fun _ e =>
        tree.sites.any fun s => s.kind == .identifier &&
          (e.placed []).any fun p => p.2 == s.span && p.1.contains (s.text text.toList)) = true := by
    rw [htext]
    decide +kernel
  obtain ⟨tree, hparse, hfile⟩ := (Option.any_eq_true _ _).mp hfile
  obtain ⟨root, hroot, target, e, hfound, hcheck⟩ := exists_replacement hfile
  simp only [List.any_eq_true, Bool.and_eq_true, beq_iff_eq, List.contains_iff_mem] at hcheck
  obtain ⟨s, hs, hkind, p, hp, hspan, hbound⟩ := hcheck
  refine ⟨text, tree, root, target, e, htext, hparse, hroot, hfound, fun free hfree => ?_⟩
  exact ⟨p, hp, s.text text.toList, hbound, by rw [hspan]; exact hfree s hs hkind⟩

end TestMigration
