import TestMigration.Mock.Rules
import TestMigration.Proofs.Assertion.Composed

/-!
# What rules for mocks write

The expected arguments of a call stand below the parameter `call`, and whatever a stub with conditions is configured
with stands below `...args`. All else is written without functions around it. What is named is the mock
tracker, the deep comparison and the assert module, each only by rules and plans that say they need it.
-/

namespace TestMigration

/-! ### Stubs -/

namespace StubResult

/-- The nodes that a result embeds. -/
def sites : StubResult → List Site
  | returns v | resolves v | rejects v | throws v => v.toList
  | callsFake f => [f]
  | returnsArg n => [n]

/-- The nodes that stand below the parameter when the result is all that the stub does. -/
def enclosed : StubResult → List Site
  | returnsArg n => [n]
  | _ => []

end StubResult

def Matcher.sites : Matcher → List Site
  | any => []
  | strict s | deep s => [s]

/-- The nodes that the branch of an entry embeds. -/
def Entry.sites (e : Entry) : List Site := (e.matchers.getD []).flatMap Matcher.sites ++ e.result.sites

/-- The nodes that stand below the parameter of a merged function: all that its branches and the entry for
all other calls embed, and without branches the index of an argument that is returned. -/
def enclosedEntries (entries : List Entry) : List Site :=
  let fallback := entries.find? (·.matchers.isNone)
  let branches := entries.filter (·.matchers.isSome)
  if branches.isEmpty then fallback.toList.flatMap (·.result.enclosed)
  else branches.flatMap Entry.sites ++ fallback.toList.flatMap (·.result.sites)

namespace StubResult

variable {bound : List String} {names : Names} {kinds : List ModuleKind}

theorem placed_valueExpr (v : Option Site) :
    (valueExpr v).placed bound = v.toList.map fun s => (bound, s.span) := by
  cases v <;> rfl

theorem placed_errorExpr (e : Option Site) :
    (errorExpr e).placed bound = e.toList.map fun s => (bound, s.span) := by
  cases e with
  | none => rfl
  | some e =>
    unfold errorExpr
    dsimp only
    split <;> rfl

theorem idents_valueExpr (v : Option Site) : (valueExpr v).idents = [] := by
  cases v <;> rfl

theorem idents_errorExpr (e : Option Site) : ∀ x ∈ (errorExpr e).idents, x ∈ ownNames := by
  cases e with
  | none => decide
  | some e =>
    unfold errorExpr
    dsimp only
    split
    · simp [Expr.callPath, Expr.idents, Expr.identsAll, Property.identsAll, Property.idents, ownNames]
    · simp

theorem placed_statement (r : StubResult) :
    r.statement.placed bound = r.sites.map fun s => (bound, s.span) := by
  cases r <;> simp [statement, returned?, Stmt.placed, Expr.callPath, Expr.placed, Expr.placedAll, sites,
    placed_valueExpr, placed_errorExpr]

theorem idents_statement (r : StubResult) : ∀ x ∈ r.statement.idents, x ∈ ownNames := by
  cases r with
  | returns v => simp [statement, returned?, Stmt.idents, idents_valueExpr]
  | resolves v =>
    simp [statement, returned?, Stmt.idents, Expr.callPath, Expr.idents, Expr.identsAll, idents_valueExpr, ownNames]
  | rejects e =>
    intro x hx
    simp only [statement, returned?, Stmt.idents, Expr.callPath, Expr.idents, Expr.identsAll, List.append_nil,
      List.mem_append, List.mem_singleton] at hx
    rcases hx with rfl | hx
    · decide
    · exact idents_errorExpr e x hx
  | throws e => exact idents_errorExpr e
  | callsFake f => simp [statement, returned?, Stmt.idents, Expr.idents, Expr.identsAll, ownNames]
  | returnsArg n => simp [statement, returned?, Stmt.idents, Expr.idents, ownNames]

theorem composed_without_params (r : StubResult) {e : Expr} (hidents : e.idents = r.statement.idents)
    (hplaced : e.placed [] = r.statement.placed []) : Composed (Spelled names []) (below "args" []) e := by
  constructor
  · intro x hx
    rw [hidents] at hx
    exact .inr (r.idents_statement x hx)
  · intro free
    rw [exists_mem_below]
    simp [Captures, hplaced, placed_statement]

theorem function_composed (r : StubResult) : Composed (Spelled names []) (below "args" r.enclosed) r.function := by
  cases r with
  | callsFake f => exact (simple_embed f).composed rfl
  | returnsArg n =>
    have hargs : paramName "...args" = "args" := by decide
    constructor
    · intro x hx
      exact .inr ((returnsArg n).idents_statement x hx)
    · intro free
      rw [exists_mem_below]
      simp [function, returned?, Captures, Expr.placed, hargs, enclosed]
  | returns v => exact (returns v).composed_without_params rfl rfl
  | resolves v => exact (resolves v).composed_without_params rfl rfl
  | rejects e => exact (rejects e).composed_without_params rfl rfl
  | throws e => exact (throws e).composed_without_params (List.append_nil _) (List.append_nil _)

end StubResult

def Matcher.isDeep : Matcher → Bool
  | deep _ => true
  | _ => false

/-- Some argument of the entries is compared deeply. -/
def compareDeeply (entries : List Entry) : Bool := entries.any fun e => (e.matchers.getD []).any Matcher.isDeep

theorem Plan.comparesDeeply_eq (p : Plan) : p.comparesDeeply = compareDeeply p.entries := rfl

namespace Entry

variable {bound : List String} {util : String}

theorem placed_conditionGo (i : Nat) (condition : Expr) (ms : List Matcher) :
    (conditionGo util i condition ms).placed bound
      = condition.placed bound ++ (ms.flatMap Matcher.sites).map fun s => (bound, s.span) := by
  induction ms generalizing i condition with
  | nil => simp [conditionGo]
  | cons m ms ih =>
    cases m with
    | any => exact ih (i + 1) condition
    | strict s =>
      rw [conditionGo, ih]
      simp [Expr.placed, Matcher.sites]
    | deep s =>
      rw [conditionGo, ih]
      simp [Expr.placed, Expr.placedAll, Expr.callPath, Matcher.sites]

theorem placed_condition (ms : List Matcher) :
    (condition util ms).placed bound = (ms.flatMap Matcher.sites).map fun s => (bound, s.span) := by
  simp [condition, placed_conditionGo, Expr.placed]

theorem idents_conditionGo (i : Nat) (condition : Expr) (ms : List Matcher) :
    ∀ x ∈ (conditionGo util i condition ms).idents,
      x ∈ condition.idents ∨ x = "args" ∨ (x = util ∧ ms.any Matcher.isDeep = true) := by
  induction ms generalizing i condition with
  | nil => exact fun x hx => .inl hx
  | cons m ms ih =>
    intro x hx
    have hlater (h : x = "args" ∨ (x = util ∧ ms.any Matcher.isDeep = true)) :
        x = "args" ∨ (x = util ∧ (m :: ms).any Matcher.isDeep = true) := by
      rcases h with h | ⟨h, hdeep⟩
      · exact .inl h
      · exact .inr ⟨h, by rw [List.any_cons, hdeep, Bool.or_true]⟩
    cases m with
    | any => exact (ih _ _ x hx).imp_right hlater
    | strict s =>
      rcases ih _ _ x hx with hx | hx
      · simp only [Expr.idents, idents_embed, List.append_nil, List.mem_append, List.mem_singleton] at hx
        rcases hx with hx | hx
        · exact .inl hx
        · exact .inr (.inl hx)
      · exact .inr (hlater hx)
    | deep s =>
      rcases ih _ _ x hx with hx | hx
      · simp only [Expr.callPath, Expr.idents, Expr.identsAll, idents_embed, List.append_nil, List.mem_append,
          List.mem_singleton] at hx
        rcases hx with hx | hx | hx
        · exact .inl hx
        · exact .inr (.inr ⟨hx, rfl⟩)
        · exact .inr (.inl hx)
      · exact .inr (hlater hx)

theorem idents_condition (ms : List Matcher) :
    ∀ x ∈ (condition util ms).idents, x ∈ ownNames ∨ (x = util ∧ ms.any Matcher.isDeep = true) := by
  intro x hx
  have hlength : Expr.idents (.binary (.member (.ident "args") "length") ">=" (.lit (toString ms.length)))
      = ["args"] := rfl
  rcases idents_conditionGo 0 _ ms x hx with hx | rfl | hx
  · rw [hlength, List.mem_singleton] at hx
    subst hx
    exact .inl (by decide)
  · exact .inl (by decide)
  · exact .inr hx

end Entry

theorem placedAll_branches {util : String} {bound : List String} (entries : List Entry) :
    Stmt.placedAll bound (entries.filterMap (Entry.branch? util))
      = ((entries.filter (·.matchers.isSome)).flatMap Entry.sites).map fun s => (bound, s.span) := by
  induction entries with
  | nil => rfl
  | cons e entries ih =>
    cases hms : e.matchers with
    | none => simp [Entry.branch?, hms, ih]
    | some ms =>
      simp [Entry.branch?, hms, Stmt.placedAll, Stmt.placed, Entry.placed_condition, StubResult.placed_statement,
        Entry.sites, ih]

theorem idents_branches {util : String} (entries : List Entry) :
    ∀ x ∈ Stmt.identsAll (entries.filterMap (Entry.branch? util)),
      x ∈ ownNames ∨ (x = util ∧ compareDeeply entries = true) := by
  induction entries with
  | nil => simp [Stmt.identsAll]
  | cons e entries ih =>
    intro x hx
    have hrest (h : x ∈ Stmt.identsAll (entries.filterMap (Entry.branch? util))) :
        x ∈ ownNames ∨ (x = util ∧ compareDeeply (e :: entries) = true) := by
      rcases ih x h with h | ⟨h, hdeep⟩
      · exact .inl h
      · exact .inr ⟨h, by rw [compareDeeply, List.any_cons, ← compareDeeply, hdeep, Bool.or_true]⟩
    cases hms : e.matchers with
    | none => exact hrest (by simpa [Entry.branch?, hms] using hx)
    | some ms =>
      simp only [Entry.branch?, hms, List.filterMap_cons, Option.map_some, Stmt.identsAll, Stmt.idents,
        List.append_nil, List.mem_append] at hx
      rcases hx with (hx | hx) | hx
      · rcases Entry.idents_condition ms x hx with hx | ⟨hx, hdeep⟩
        · exact .inl hx
        · exact .inr ⟨hx, by simp [compareDeeply, hms, hdeep]⟩
      · exact .inl (e.result.idents_statement x hx)
      · exact hrest hx

theorem Stmt.placedAll_append (bound : List String) (body body' : List Stmt) :
    Stmt.placedAll bound (body ++ body') = Stmt.placedAll bound body ++ Stmt.placedAll bound body' := by
  induction body with
  | nil => rfl
  | cons s body ih => simp only [List.cons_append, Stmt.placedAll, ih, List.append_assoc]

theorem Stmt.identsAll_append (body body' : List Stmt) :
    Stmt.identsAll (body ++ body') = Stmt.identsAll body ++ Stmt.identsAll body' := by
  induction body with
  | nil => rfl
  | cons s body ih => simp only [List.cons_append, Stmt.identsAll, ih, List.append_assoc]

theorem branches_isEmpty (util : String) (entries : List Entry) :
    (entries.filterMap (Entry.branch? util)).isEmpty = (entries.filter (·.matchers.isSome)).isEmpty := by
  induction entries with
  | nil => rfl
  | cons e entries ih => cases hms : e.matchers <;> simp [Entry.branch?, hms, ih]

theorem Spelled.mono {names : Names} {kinds kinds' : List ModuleKind} {path : String} (h : Spelled names kinds path)
    (hsub : kinds ⊆ kinds') : Spelled names kinds' path := by
  rcases h with ⟨kind, hkind, hleads⟩ | h
  · exact .inl ⟨kind, hsub hkind, hleads⟩
  · exact .inr h

theorem Composed.mono {P Q : String → Prop} {enclosed : List (String × Site)} {e : Expr} (h : Composed P enclosed e)
    (hPQ : ∀ x, P x → Q x) : Composed Q enclosed e :=
  ⟨fun x hx => hPQ x (h.idents x hx), h.captures⟩

/-- The statement for all calls that no branch takes. -/
def lastStatement (fallback : Option Entry) : Stmt :=
  match fallback with
  | some e => e.result.statement
  | none => .return (.lit "undefined")

theorem placed_lastStatement (bound : List String) (fallback : Option Entry) :
    (lastStatement fallback).placed bound
      = (fallback.toList.flatMap (·.result.sites)).map fun s => (bound, s.span) := by
  cases fallback with
  | none => rfl
  | some e => simp [lastStatement, StubResult.placed_statement]

theorem idents_lastStatement (fallback : Option Entry) : ∀ x ∈ (lastStatement fallback).idents, x ∈ ownNames := by
  cases fallback with
  | none => simp [lastStatement, Stmt.idents, Expr.idents]
  | some e => exact e.result.idents_statement

theorem implementation_of_branches {util : String} {entries : List Entry}
    (h : (entries.filter (·.matchers.isSome)).isEmpty = false) :
    implementation util entries = .arrowBlock ["...args"]
      (entries.filterMap (Entry.branch? util) ++ [lastStatement (entries.find? (·.matchers.isNone))]) := by
  simp only [implementation, branches_isEmpty, h, Bool.false_eq_true, if_false]
  rfl

/-- The merged function of the entries. -/
theorem implementation_composed {names : Names} (entries : List Entry) :
    Composed (Spelled names (if compareDeeply entries then [.util] else [])) (below "args" (enclosedEntries entries))
      (implementation names.util entries) := by
  cases hbranches : (entries.filter (·.matchers.isSome)).isEmpty with
  | true =>
    simp only [implementation, enclosedEntries, branches_isEmpty, hbranches, if_true]
    cases entries.find? (·.matchers.isNone) with
    | none => exact ⟨by simp [Expr.idents], by simp [Captures, Expr.placed, below]⟩
    | some e =>
      rw [Option.toList_some, List.flatMap_singleton]
      exact e.result.function_composed.mono fun x hx => hx.mono (List.nil_subset _)
  | false =>
    have hargs : paramName "...args" = "args" := by decide
    have henclosed : enclosedEntries entries = (entries.filter (·.matchers.isSome)).flatMap Entry.sites
        ++ (entries.find? (·.matchers.isNone)).toList.flatMap (·.result.sites) := by
      simp only [enclosedEntries, hbranches, Bool.false_eq_true, if_false]
    rw [implementation_of_branches hbranches]
    constructor
    · intro x hx
      rw [Expr.idents, Stmt.identsAll_append] at hx
      rcases List.mem_append.mp hx with hx | hx
      · rcases idents_branches entries x hx with hx | ⟨rfl, hdeep⟩
        · exact .inr hx
        · exact .inl ⟨.util, by simp [hdeep], rfl⟩
      · exact .inr (idents_lastStatement _ x (by simpa [Stmt.identsAll] using hx))
    · intro free
      rw [exists_mem_below, henclosed]
      simp [Captures, Expr.placed, Stmt.placedAll_append, Stmt.placedAll, placedAll_branches, placed_lastStatement,
        hargs, or_and_right, exists_or]

/-! ### Rules -/

namespace Mock

variable {ctx : Context} {c : Chain}

theorem function_of_inspected? {function : Expr} {steps : List Step} (h : inspected? ctx c = some (function, steps)) :
    ∃ site : Site, function = site.embed := by
  simp only [inspected?, Option.bind_eq_bind, Option.bind_eq_some_iff] at h
  obtain ⟨-, -, h⟩ := h
  split at h
  · cases h
    exact ⟨_, rfl⟩
  · split at h
    · simp only [Option.bind_eq_some_iff] at h
      obtain ⟨-, -, h⟩ := h
      cases h
      exact ⟨_, rfl⟩
    · cases h

theorem calledWith_composed (function : Site) (args : List Site) (exactly : Bool) :
    Composed (Spelled ctx.names [.util]) (below "call" args) (calledWith ctx function.embed args exactly) := by
  have hcall : paramName "call" = "call" := by decide
  constructor
  · intro x hx
    have hx : x = "call" ∨ x = ctx.names.util := by
      cases exactly <;> simpa [calledWith, Expr.method, Expr.callPath, Expr.idents, Expr.identsAll, or_comm] using hx
    rcases hx with rfl | rfl
    · exact .inr (by decide)
    · exact .inl ⟨.util, by simp, rfl⟩
  · intro free
    rw [exists_mem_below]
    cases exactly <;>
      simp [calledWith, Captures, Expr.method, Expr.callPath, Expr.placed, Expr.placedAll, hcall]

theorem leads_mock {path : String} (method : String) (h : path = "." ++ method) :
    Spelled ctx.names [.mock] (ctx.names.mock ++ path) :=
  .inl ⟨.mock, by simp, method, by rw [h, String.append_assoc]⟩

variable {target : Site} {e : Expr}

theorem restoreAll_simple (h : restoreAll ctx c = some (.replace target e)) :
    e.Simple (Spelled ctx.names [.mock]) := by
  simp only [restoreAll, Option.bind_eq_bind, Option.bind_eq_some_iff] at h
  obtain ⟨-, -, h⟩ := h
  split at h
  · simp only [Option.bind_eq_some_iff] at h
    obtain ⟨-, -, heq⟩ := h
    obtain ⟨-, rfl⟩ := Synthesis.replace.inj (Option.some.inj heq)
    exact ⟨leads_mock "restoreAll" rfl, trivial⟩
  · cases h

theorem mockAssert_simple (h : mockAssert ctx c = some (.replace target e)) :
    e.Simple (Spelled ctx.names [.assert]) := by
  simp only [mockAssert, Option.bind_eq_bind, Option.bind_eq_some_iff] at h
  obtain ⟨⟨check, function, rest⟩, -, h⟩ := h
  have hcount : (callCount function.embed).Simple (Spelled ctx.names [.assert]) := ⟨trivial, trivial⟩
  dsimp only at h
  split at h
  · obtain ⟨-, rfl⟩ := Synthesis.replace.inj (Option.some.inj h)
    exact Assertion.simple_predicate ⟨hcount, trivial⟩
  · obtain ⟨-, rfl⟩ := Synthesis.replace.inj (Option.some.inj h)
    exact Assertion.simple_assertCall ⟨hcount, simple_embed _, trivial⟩
  · simp only [Option.bind_eq_some_iff] at h
    obtain ⟨expected, -, heq⟩ := h
    obtain ⟨-, rfl⟩ := Synthesis.replace.inj (Option.some.inj heq)
    exact Assertion.simple_assertCall ⟨hcount, trivial, trivial⟩
  · cases h

theorem methodSpy_simple (h : methodSpy ctx c = some (.replace target e)) : e.Simple (Spelled ctx.names [.mock]) := by
  simp only [methodSpy, Option.bind_eq_bind, Option.bind_eq_some_iff] at h
  obtain ⟨-, -, h⟩ := h
  split at h
  · simp only [Option.bind_eq_some_iff] at h
    obtain ⟨-, -, heq⟩ := h
    obtain ⟨-, rfl⟩ := Synthesis.replace.inj (Option.some.inj heq)
    exact ⟨leads_mock "method" rfl, simpleAll_embed _⟩
  · cases h

end Mock

/-- The arguments of a chain that stand in a function, with the parameter of that function. -/
def MockRule.enclosed (r : MockRule) (ctx : Context) (c : Chain) : List (String × Site) :=
  match r with
  | .mockAssertArguments => below "call" ((Mock.assertedCheck? ctx c).toList.flatMap (·.2.2))
  | .callArguments => below "call" ((Mock.inspected? ctx c).toList.flatMap fun (_, steps) => steps.flatMap Step.args)
  | .anonymousFake =>
    match c.steps with
    | [_, apply] => below "args" ((StubResult.parse apply).toList.flatMap StubResult.enclosed)
    | _ => []
  | _ => []

namespace Mock

variable {ctx : Context} {c : Chain} {target : Site} {e : Expr}

theorem mockAssertArguments_composed (h : mockAssertArguments ctx c = some (.replace target e)) :
    Composed (Spelled ctx.names [.assert, .util]) (MockRule.mockAssertArguments.enclosed ctx c) e := by
  simp only [mockAssertArguments, Option.bind_eq_bind, Option.bind_eq_some_iff] at h
  obtain ⟨⟨check, function, expected⟩, hcheck, exactly', -, heq⟩ := h
  obtain ⟨-, rfl⟩ := Synthesis.replace.inj (Option.some.inj heq)
  have henclosed : MockRule.mockAssertArguments.enclosed ctx c = below "call" expected := by
    simp [MockRule.enclosed, hcheck]
  have hcalled : Composed (Spelled ctx.names [.util]) _ _ := calledWith_composed function expected exactly'
  rw [henclosed]
  constructor
  · intro x hx
    simp only [predicate, assertCall, Expr.callPath, Bool.false_eq_true, if_false, Expr.idents, Expr.identsAll,
      List.append_nil, List.mem_append, List.mem_singleton] at hx
    rcases hx with rfl | hx
    · exact .inl ⟨.assert, by simp, "ok", rfl⟩
    · exact (hcalled.idents x hx).mono (by simp)
  · intro free
    rw [← hcalled.captures free]
    simp [Captures, predicate, assertCall, Expr.callPath, Expr.placed, Expr.placedAll]

theorem callArguments_composed (h : callArguments ctx c = some (.replace target e)) :
    Composed (Spelled ctx.names [.util]) (MockRule.callArguments.enclosed ctx c) e := by
  simp only [callArguments, Option.bind_eq_bind, Option.bind_eq_some_iff] at h
  obtain ⟨⟨function, steps⟩, hinspected, h⟩ := h
  obtain ⟨site, rfl⟩ := function_of_inspected? hinspected
  dsimp only at h
  split at h
  · rename_i check
    simp only [Option.bind_eq_some_iff] at h
    obtain ⟨exactly', -, -, -, heq⟩ := h
    obtain ⟨-, rfl⟩ := Synthesis.replace.inj (Option.some.inj heq)
    have henclosed : MockRule.callArguments.enclosed ctx c = below "call" check.args := by
      simp [MockRule.enclosed, hinspected]
    rw [henclosed]
    exact calledWith_composed site check.args exactly'
  · cases h

theorem anonymousFake_composed (h : anonymousFake ctx c = some (.replace target e)) :
    Composed (Spelled ctx.names [.mock]) (MockRule.anonymousFake.enclosed ctx c) e := by
  simp only [anonymousFake, Option.bind_eq_bind, Option.bind_eq_some_iff] at h
  obtain ⟨-, -, args, hargs, heq⟩ := h
  obtain ⟨-, rfl⟩ := Synthesis.replace.inj (Option.some.inj heq)
  have hfn : Spelled ctx.names [.mock] (ctx.names.mock ++ ".fn") := leads_mock "fn" rfl
  unfold fakeArguments? at hargs
  split at hargs
  · rename_i create hsteps
    have henclosed : MockRule.anonymousFake.enclosed ctx c = [] := by simp [MockRule.enclosed, hsteps]
    rw [henclosed]
    split at hargs
    · split at hargs
      · obtain rfl := Option.some.inj hargs
        exact Expr.Simple.composed ⟨hfn, trivial⟩ rfl
      · split at hargs
        · cases hargs
        · obtain rfl := Option.some.inj hargs
          exact Expr.Simple.composed ⟨hfn, simple_embed _, trivial⟩ rfl
      · cases hargs
    · cases hargs
  · rename_i create apply hsteps
    split at hargs
    · obtain ⟨result, hresult, rfl⟩ := Option.map_eq_some_iff.mp hargs
      have henclosed : MockRule.anonymousFake.enclosed ctx c = below "args" result.enclosed := by
        simp [MockRule.enclosed, hsteps, hresult]
      have hfunction : Composed (Spelled ctx.names []) _ _ := result.function_composed
      rw [henclosed]
      constructor
      · intro x hx
        simp only [Expr.callPath, Expr.idents, Expr.identsAll, List.append_nil, List.mem_append,
          List.mem_singleton] at hx
        rcases hx with rfl | hx
        · exact hfn
        · exact (hfunction.idents x hx).mono (by simp)
      · intro free
        rw [← hfunction.captures free]
        simp [Captures, Expr.callPath, Expr.placed, Expr.placedAll]
    · cases hargs
  · cases hargs

theorem nthCall?_simple {P : String → Prop} {calls call : Expr} {word : String} (hcalls : calls.Simple P)
    (h : nthCall? calls word = some call) : call.Simple P := by
  unfold nthCall? at h
  split at h
  · obtain rfl := Option.some.inj h
    exact ⟨hcalls, trivial⟩
  · obtain rfl := Option.some.inj h
    exact ⟨hcalls, trivial⟩
  · obtain rfl := Option.some.inj h
    exact ⟨hcalls, trivial⟩
  · obtain rfl := Option.some.inj h
    exact ⟨hcalls, trivial, trivial⟩
  · cases h

theorem argumentsOf?_simple {P : String → Prop} {site : Site} {step : Step}
    (h : argumentsOf? site.embed step = some e) : e.Simple P := by
  have hcalls : (Expr.member (.member site.embed "mock") "calls").Simple P := trivial
  simp only [argumentsOf?, Option.bind_eq_bind] at h
  split at h
  · simp only [Option.bind_eq_some_iff] at h
    obtain ⟨call, hcall, heq⟩ := h
    obtain rfl := Option.some.inj heq
    have hsimple : call.Simple P := nthCall?_simple hcalls hcall
    exact hsimple
  · split at h
    · obtain rfl := Option.some.inj h
      exact ⟨hcalls, trivial⟩
    · cases h
  · cases h

theorem inspectedBy?_composed {site : Site} {step : Step} (h : inspectedBy? site.embed step = some e) :
    Composed (Spelled ctx.names []) [] e := by
  have hcount : (callCount site.embed).Simple (Spelled ctx.names []) := ⟨trivial, trivial⟩
  unfold inspectedBy? at h
  dsimp only at h
  split at h
  · split at h
    · obtain rfl := Option.some.inj h
      exact Expr.Simple.composed ⟨trivial, trivial⟩ rfl
    · obtain rfl := Option.some.inj h
      exact Expr.Simple.composed ⟨trivial, trivial⟩ rfl
    · obtain rfl := Option.some.inj h
      exact Expr.Simple.composed ⟨trivial, trivial⟩ rfl
    · cases h
  · split at h
    · obtain rfl := Option.some.inj h
      exact hcount.composed rfl
    · obtain rfl := Option.some.inj h
      exact Expr.Simple.composed ⟨hcount, trivial⟩ rfl
    · -- the function that collects the arguments embeds nothing
      obtain rfl := Option.some.inj h
      constructor
      · simp [Expr.method, Expr.idents, Expr.identsAll, Spelled, ownNames]
      · simp [Captures, Expr.method, Expr.placed, Expr.placedAll]
    · obtain ⟨n, -, rfl⟩ := Option.map_eq_some_iff.mp h
      exact Expr.Simple.composed ⟨hcount, trivial⟩ rfl

theorem stubInspection_composed (h : stubInspection ctx c = some (.replace target e)) :
    Composed (Spelled ctx.names []) [] e := by
  simp only [stubInspection, Option.bind_eq_bind, Option.bind_eq_some_iff] at h
  obtain ⟨⟨function, steps⟩, hinspected, h⟩ := h
  obtain ⟨site, rfl⟩ := function_of_inspected? hinspected
  dsimp only at h
  split at h
  · obtain ⟨e', he', heq⟩ := Option.map_eq_some_iff.mp h
    obtain ⟨-, rfl⟩ := Synthesis.replace.inj heq
    exact inspectedBy?_composed he'
  · simp only [Option.bind_eq_some_iff] at h
    obtain ⟨-, -, h⟩ := h
    obtain ⟨e', he', heq⟩ := Option.map_eq_some_iff.mp h
    obtain ⟨-, rfl⟩ := Synthesis.replace.inj heq
    exact (argumentsOf?_simple he').composed rfl
  · cases h

theorem sandboxCreation_ne_replace : sandboxCreation ctx c ≠ some (.replace target e) := by
  intro h
  simp only [sandboxCreation, Option.bind_eq_bind, Option.bind_eq_some_iff] at h
  obtain ⟨-, -, ⟨statement, binding⟩, -, heq⟩ := h
  cases heq

/-- A chain that makes or configures a stub is noted down or skipped. -/
theorem stubConfiguration_answers {s : Synthesis} (h : stubConfiguration ctx c = some s) :
    (∃ config, s = .configure config) ∨ ∃ reason, s = .skip reason := by
  simp only [stubConfiguration, Option.orElse_eq_orElse, Option.orElse_eq_or, Option.or_eq_some_iff] at h
  rcases h with h | ⟨-, h | ⟨-, h⟩⟩
  · simp only [methodCreation, Option.bind_eq_bind, Option.bind_eq_some_iff] at h
    obtain ⟨-, -, h⟩ := h
    split at h
    · obtain ⟨-, -, h⟩ := Option.bind_eq_some_iff.mp h
      split at h <;> cases h
      · exact .inr ⟨_, rfl⟩
      · exact .inl ⟨_, rfl⟩
    · cases h
  · simp only [anonymousCreation, Option.bind_eq_bind, Option.bind_eq_some_iff] at h
    obtain ⟨-, -, h⟩ := h
    split at h
    · simp only [Option.bind_eq_some_iff] at h
      obtain ⟨-, -, variableName, -, heq⟩ := h
      cases heq
      exact .inl ⟨_, rfl⟩
    · cases h
  · simp only [variableConfiguration, Option.bind_eq_bind, Option.bind_eq_some_iff] at h
    obtain ⟨-, -, binding, -, first, -, -, -, heq⟩ := h
    cases heq
    exact .inl ⟨_, rfl⟩

end Mock

theorem MockRule.synthesis?_composed {r : MockRule} {ctx : Context} {c : Chain} {target : Site} {e : Expr}
    (h : r.synthesis? ctx c = some (.replace target e)) :
    Composed (Spelled ctx.names r.requires) (r.enclosed ctx c) e := by
  cases r with
  | sandboxCreation => exact absurd h Mock.sandboxCreation_ne_replace
  | restoreAll => exact (Mock.restoreAll_simple h).composed rfl
  | mockAssert => exact (Mock.mockAssert_simple h).composed rfl
  | mockAssertArguments => exact Mock.mockAssertArguments_composed h
  | stubConfiguration => rcases Mock.stubConfiguration_answers h with ⟨config, heq⟩ | ⟨reason, heq⟩ <;> cases heq
  | methodSpy => exact (Mock.methodSpy_simple h).composed rfl
  | anonymousFake => exact Mock.anonymousFake_composed h
  | callArguments => exact Mock.callArguments_composed h
  | stubInspection => exact Mock.stubInspection_composed h

end TestMigration
