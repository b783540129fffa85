import Mathlib.Data.Option.Basic
import TestMigration.Assertion.Family
import TestMigration.Proofs.Expr.Scoped

/-!
# What assertions write

The families that check a value at once write code without functions, and all that they name is the assert module
and a few global functions. What a promise gives and a thrown error with two expectations are checked by
functions; `throws_composed` and `promise_composed` say which arguments of the chain stand in these, and below
which parameter.

Main statement: `Family.synthesis?_composed`.
-/

namespace TestMigration

namespace Assertion

/-- The path leads to the assert module, or is one of the other names that rules write. -/
abbrev Named (ctx : Context) : String → Prop := Spelled ctx.names [.assert]

/-- Where there is an answer, it is simple. -/
def SimpleAnswer (ctx : Context) (answer : Option Expr) : Prop := ∀ e ∈ answer, e.Simple (Named ctx)

variable {ctx : Context} {v : View}

namespace SimpleAnswer

theorem none : SimpleAnswer ctx none := by
  intro e he
  cases he

theorem some {e : Expr} (h : e.Simple (Named ctx)) : SimpleAnswer ctx (some e) := by
  intro e' he'
  obtain rfl := Option.some.inj he'
  exact h

theorem bind {γ : Type} {o : Option γ} {f : γ → Option Expr} (h : ∀ x, SimpleAnswer ctx (f x)) :
    SimpleAnswer ctx (o.bind f) := by
  cases o with
  | none => exact none
  | some x => exact h x

theorem orElse {a b : Option Expr} (ha : SimpleAnswer ctx a) (hb : SimpleAnswer ctx b) :
    SimpleAnswer ctx (a <|> b) := by
  cases a with
  | none => exact hb
  | some e => exact ha

end SimpleAnswer

theorem simple_assertCall {method : String} {args : List Expr} (h : Expr.SimpleAll (Named ctx) args) :
    (assertCall ctx method args).Simple (Named ctx) :=
  ⟨.inl ⟨.assert, by simp, method, rfl⟩, h⟩

theorem simple_predicate {e : Expr} {negated : Bool} (h : e.Simple (Named ctx)) :
    (predicate ctx e negated).Simple (Named ctx) := by
  unfold predicate
  split
  · exact simple_assertCall ⟨h, trivial, trivial⟩
  · exact simple_assertCall ⟨h, trivial⟩

theorem simple_callPath {path : String} {args : List Expr} (hpath : path ∈ ownNames)
    (h : Expr.SimpleAll (Named ctx) args) : (Expr.callPath path args).Simple (Named ctx) :=
  ⟨.inr hpath, h⟩

theorem expected_of_nestedPath? {segments : List String} {expected : Expr}
    (h : nestedPath? ctx v = some (segments, some expected)) : ∃ site : Site, expected = site.embed := by
  unfold nestedPath? at h
  split at h
  · rename_i word _
    simp only [Option.bind_eq_bind, Option.bind_eq_some_iff] at h
    obtain ⟨path, -, heq⟩ := h
    obtain ⟨-, hexpected⟩ := Prod.mk.inj (Option.some.inj heq)
    obtain ⟨site, -, hsite⟩ := Option.map_eq_some_iff.mp hexpected
    exact ⟨site, hsite.symm⟩
  · split at h
    · split at h
      · obtain ⟨texts, -, heq⟩ := Option.map_eq_some_iff.mp h
        cases heq
      · cases h
    · cases h

/-! ### Families that check a value at once -/

section
variable (hv : v.value.Simple (Named ctx))
include hv

theorem deepEquality_simple : SimpleAnswer ctx (deepEquality ctx v) :=
  .bind fun _ => .some (simple_assertCall ⟨hv, simpleAll_embed _⟩)

theorem strictEquality_simple : SimpleAnswer ctx (strictEquality ctx v) :=
  .bind fun _ => .bind fun _ => .some (simple_assertCall ⟨hv, simpleAll_embed _⟩)

theorem existence_simple : SimpleAnswer ctx (existence ctx v) := by
  have hexists : (exists' ctx v).Simple (Named ctx) := by
    unfold exists'
    split
    · exact simple_predicate ⟨hv, trivial⟩
    · exact simple_assertCall ⟨hv, trivial, trivial⟩
  refine .bind fun word => ?_
  split
  · exact .some hexists
  · exact .some hexists
  · exact .some (simple_assertCall ⟨hv, trivial, trivial⟩)
  · exact .some (simple_predicate (simple_callPath (by decide) ⟨hv, trivial⟩))
  · exact .some (simple_assertCall ⟨hv, trivial, trivial⟩)

theorem boolean_simple : SimpleAnswer ctx (boolean ctx v) := by
  refine .bind fun word => ?_
  split
  · split
    · exact .none
    · exact .some (simple_assertCall ⟨hv, trivial⟩)
  · exact .some (simple_assertCall ⟨hv, trivial, trivial⟩)

theorem ownProperty_simple : SimpleAnswer ctx (ownProperty ctx v) :=
  .bind fun _ => .bind fun _ => .some (simple_predicate (simple_callPath (by decide) ⟨hv, simple_embed _, trivial⟩))

theorem foldl_optionalProperty_simple (segments : List String) :
    (segments.foldl Expr.optionalProperty v.value).Simple (Named ctx) := by
  suffices ∀ e : Expr, e.Simple (Named ctx) → (segments.foldl Expr.optionalProperty e).Simple (Named ctx) from
    this v.value hv
  induction segments with
  | nil => exact fun e he => he
  | cons name segments ih =>
    refine fun e he => ih _ ?_
    unfold Expr.optionalProperty
    split
    · exact he
    · exact ⟨he, trivial⟩

theorem nestedProperty_simple : SimpleAnswer ctx (nestedProperty ctx v) := by
  intro e he
  simp only [nestedProperty, Option.bind_eq_bind, Option.mem_def, Option.bind_eq_some_iff] at he
  obtain ⟨⟨segments, expected⟩, hpath, -, -, he⟩ := he
  have haccess := foldl_optionalProperty_simple hv segments
  cases expected with
  | none =>
    obtain rfl := Option.some.inj he
    exact simple_assertCall ⟨haccess, trivial, trivial⟩
  | some expected =>
    obtain rfl := Option.some.inj he
    refine simple_assertCall ⟨haccess, ?_, trivial⟩
    obtain ⟨site, rfl⟩ := expected_of_nestedPath? hpath
    exact simple_embed site

theorem range_simple : SimpleAnswer ctx (range ctx v) := by
  unfold range
  split
  · refine .some (simple_assertCall ⟨?_, trivial⟩)
    unfold within
    split
    · exact ⟨⟨hv, simple_embed _⟩, hv, simple_embed _⟩
    · exact ⟨⟨hv, simple_embed _⟩, hv, simple_embed _⟩
  · refine .bind fun word => ?_
    split
    · exact .bind fun _ => .some (simple_assertCall ⟨⟨hv, simple_embed _⟩, trivial⟩)
    · exact .none

theorem affix_simple : SimpleAnswer ctx (affix ctx v) :=
  .bind fun _ => .some (simple_predicate ⟨hv, simpleAll_embed _⟩)

theorem contained_simple : SimpleAnswer ctx (contained ctx v) :=
  .bind fun _ => .bind fun _ => .some (simple_predicate ⟨hv, simpleAll_embed _⟩)

theorem matching_simple : SimpleAnswer ctx (matching ctx v) :=
  .bind fun _ => .some (simple_assertCall ⟨hv, simpleAll_embed _⟩)

theorem instance'_simple : SimpleAnswer ctx (instance' ctx v) :=
  .bind fun _ => .bind fun _ => .some (simple_predicate ⟨hv, simple_embed _⟩)

theorem typeCheck_simple : SimpleAnswer ctx (typeCheck ctx v) := by
  refine .bind fun name => .some (simple_predicate ?_)
  split
  · exact simple_callPath (by decide) ⟨hv, trivial⟩
  · split
    · exact ⟨hv, .inr (by decide)⟩
    · split
      · exact ⟨hv, trivial⟩
      · exact ⟨hv, trivial⟩

section
variable {onward : Expr → Option Expr}
  (honward : ∀ e, e.Simple (Named ctx) → SimpleAnswer ctx (onward e))
include honward

theorem property_simple : SimpleAnswer ctx (property ctx v onward) := by
  refine .bind fun word => .bind fun _ => .bind fun name => ?_
  have haccess : (v.value.property name).Simple (Named ctx) := by
    unfold Expr.property
    split
    · exact hv
    · exact ⟨hv, trivial⟩
  dsimp only
  split
  · exact .some (simple_predicate ⟨simple_embed _, hv⟩)
  · exact .some (simple_assertCall ⟨haccess, simple_embed _, trivial⟩)
  · exact honward _ haccess
  · exact .none

theorem length_simple : SimpleAnswer ctx (length ctx v onward) := by
  refine .bind fun word => .bind fun _ => ?_
  dsimp only
  split
  · exact honward _ hv
  · split
    · exact .some (simple_assertCall ⟨hv, simple_embed _, trivial⟩)
    · exact .none
  · exact .none

theorem membershipWith_simple : SimpleAnswer ctx (membershipWith ctx v onward) :=
  (nestedProperty_simple hv).orElse <| (ownProperty_simple hv).orElse <| (property_simple hv honward).orElse <|
    (length_simple hv honward).orElse <| (range_simple hv).orElse <| (affix_simple hv).orElse <|
    (contained_simple hv).orElse <| (matching_simple hv).orElse <| (instance'_simple hv).orElse <|
    typeCheck_simple hv

end

end

theorem buildSyncFrom_simple (flags : View) (words : List Step) (value : Expr) (hvalue : value.Simple (Named ctx)) :
    SimpleAnswer ctx (buildSyncFrom ctx flags words value) := by
  induction words generalizing value with
  | nil => exact .none
  | cons word rest ih =>
    unfold buildSyncFrom
    have hv : View.value { flags with words := word :: rest, value } |>.Simple (Named ctx) := hvalue
    exact (deepEquality_simple hv).orElse <| (strictEquality_simple hv).orElse <| (existence_simple hv).orElse <|
      (boolean_simple hv).orElse <| membershipWith_simple hv fun e he => ih e he

theorem membership_simple (hv : v.value.Simple (Named ctx)) : SimpleAnswer ctx (membership ctx v) :=
  membershipWith_simple hv fun e he => buildSyncFrom_simple v v.words.tail e he

/-! ### Families that write functions -/

/-- The two expectations about an error that are checked by a function. -/
def errorPair : List Site → List Site
  | [cls, message] => [cls, message]
  | _ => []

theorem errorMatcher?_composed {args : List Site} {matcher : List Expr} (h : errorMatcher? args = some matcher) :
    (∀ x ∈ Expr.identsAll matcher, x = "err")
      ∧ ∀ free, CapturesAmong free (Expr.placedAll [] matcher) ↔ ∃ s ∈ errorPair args, "err" ∈ free s.span := by
  have herr : paramName "err" = "err" := rfl
  unfold errorMatcher? at h
  split at h
  · obtain rfl := Option.some.inj h
    simp [Expr.identsAll, Expr.placedAll, errorPair]
  · split at h
    all_goals
      obtain rfl := Option.some.inj h
      simp [Expr.identsAll, Expr.placedAll, Expr.placed, Expr.idents, Property.placedAll, Property.placed,
        Property.identsAll, Property.idents, errorPair]
  · simp only [Option.bind_eq_bind] at h
    split at h
    · obtain rfl := Option.some.inj h
      simp [Expr.identsAll, Expr.placedAll, Expr.placed, Expr.idents, errorPair, herr]
    · obtain rfl := Option.some.inj h
      simp [Expr.identsAll, Expr.placedAll, Expr.placed, Expr.idents, errorPair, herr]
    · obtain rfl := Option.some.inj h
      simp [Expr.method, Expr.identsAll, Expr.placedAll, Expr.placed, Expr.idents, errorPair, herr]
    · cases h
  · cases h

/-- The arguments of an assertion that stand in a function, with the parameter of that function. -/
def Family.enclosed (f : Family) (v : View) : List (String × Site) :=
  match f with
  | .promise =>
    match v.called? ["rejectedWith"] 1 2 with
    | some word => below "err" (errorPair word.args)
    | none => below "actual" ((settledWord? v).toList.map (·.1))
  | .throws => below "err" (v.single?.toList.flatMap fun word => errorPair word.args)
  | _ => []

theorem composed_matcher {method : String} {args : List Site} {matcher : List Expr}
    (hv : v.value.Simple (Named ctx)) (h : errorMatcher? args = some matcher) :
    Composed (Named ctx) (below "err" (errorPair args)) (assertCall ctx method (v.value :: matcher)) := by
  obtain ⟨hidents, hcaptures⟩ := errorMatcher?_composed h
  constructor
  · intro x hx
    simp only [assertCall, Expr.callPath, Expr.idents, Expr.identsAll, List.mem_append, List.mem_singleton] at hx
    rcases hx with rfl | hx | hx
    · exact .inl ⟨.assert, by simp, method, rfl⟩
    · exact hv.idents x hx
    · exact .inr (by rw [hidents x hx]; decide)
  · intro free
    rw [exists_mem_below]
    simp [Captures, assertCall, Expr.callPath, Expr.placed, Expr.placedAll, hv.not_captures free, hcaptures]

theorem throws_composed {e : Expr} (hv : v.value.Simple (Named ctx)) (h : throws ctx v = some e) :
    Composed (Named ctx) (Family.enclosed .throws v) e := by
  simp only [throws, Option.bind_eq_bind, Option.bind_eq_some_iff] at h
  obtain ⟨word, hword, -, -, h⟩ := h
  have henclosed : Family.enclosed .throws v = below "err" (errorPair word.args) := by
    simp [Family.enclosed, hword]
  rw [henclosed]
  split at h
  · simp only [Option.bind_eq_some_iff] at h
    obtain ⟨⟨⟩, hargs, heq⟩ := h
    obtain rfl := Option.some.inj heq
    have hargs : word.args = [] := by simpa [guard, failure] using hargs
    exact Expr.Simple.composed (simple_assertCall ⟨hv, trivial⟩) (by simp [hargs, errorPair, below])
  · simp only [Option.bind_eq_some_iff] at h
    obtain ⟨matcher, hmatcher, heq⟩ := h
    obtain rfl := Option.some.inj heq
    exact composed_matcher hv hmatcher

/-- A word without arguments is not called with one. -/
theorem called?_of_bare? {names names' : List String} {least most : Nat} (h : (v.bare? names).isSome)
    (hleast : 1 ≤ least) : v.called? names' least most = none := by
  obtain ⟨word, hword⟩ := Option.isSome_iff_exists.mp h
  obtain ⟨hsingle, hbare⟩ := Option.filter_eq_some_iff.mp hword
  have hargs : word.args = [] := by
    have hbare : word.name ∈ names ∧ word.args = [] := by simpa using hbare
    exact hbare.2
  have hlength : ¬ least ≤ word.args.length := by
    rw [hargs, List.length_nil]
    omega
  simp [View.called?, hsingle, hlength]

theorem enclosed_promise_of_bare? {names : List String} (h : (v.bare? names).isSome) :
    Family.enclosed .promise v = [] := by
  simp [Family.enclosed, settledWord?, called?_of_bare? h, below]

theorem promise_composed {e : Expr} (hv : v.value.Simple (Named ctx)) (h : promise ctx v = some e) :
    Composed (Named ctx) (Family.enclosed .promise v) e := by
  unfold promise at h
  split at h
  · rename_i hbare
    obtain rfl := Option.some.inj h
    exact Expr.Simple.composed (simple_assertCall ⟨hv, trivial⟩) (enclosed_promise_of_bare? hbare)
  · split at h
    · rename_i hbare
      obtain rfl := Option.some.inj h
      exact Expr.Simple.composed (simple_assertCall ⟨hv, trivial⟩) (enclosed_promise_of_bare? hbare)
    · split at h
      · rename_i word hword
        split at h
        · cases h
        · obtain ⟨matcher, hmatcher, rfl⟩ := Option.map_eq_some_iff.mp h
          have henclosed : Family.enclosed .promise v = below "err" (errorPair word.args) := by
            simp [Family.enclosed, hword]
          rw [henclosed]
          exact composed_matcher hv hmatcher
      · rename_i hword
        obtain ⟨⟨expected, deep⟩, hsettled, rfl⟩ := Option.map_eq_some_iff.mp h
        have henclosed : Family.enclosed .promise v = below "actual" [expected] := by
          simp [Family.enclosed, hword, hsettled]
        rw [henclosed]
        constructor
        · intro x hx
          simp only [Expr.method, assertCall, Expr.callPath, Expr.idents, Expr.identsAll, idents_embed,
            List.append_nil, List.mem_append, List.mem_singleton] at hx
          rcases hx with hx | rfl | rfl
          · exact hv.idents x hx
          · exact .inl ⟨.assert, by simp, _, rfl⟩
          · exact .inr (by decide)
        · intro free
          have hactual : paramName "actual" = "actual" := rfl
          rw [exists_mem_below]
          simp [Captures, Expr.method, assertCall, Expr.callPath, Expr.placed, Expr.placedAll, hv.not_captures free,
            hactual]

theorem Family.build_composed {f : Family} {e : Expr} (hv : v.value.Simple (Named ctx))
    (h : f.build ctx v = some e) : Composed (Named ctx) (f.enclosed v) e := by
  cases f with
  | promise => exact promise_composed hv h
  | throws => exact throws_composed hv h
  | deepEquality => exact (deepEquality_simple hv e h).composed rfl
  | strictEquality => exact (strictEquality_simple hv e h).composed rfl
  | existence => exact (existence_simple hv e h).composed rfl
  | boolean => exact (boolean_simple hv e h).composed rfl
  | membership => exact (membership_simple hv e h).composed rfl

/-! ### Chains -/

theorem foldl_addStep_value (steps : List Step) (v : View) : (steps.foldl View.addStep v).value = v.value := by
  induction steps generalizing v with
  | nil => rfl
  | cons s steps ih =>
    rw [List.foldl_cons, ih]
    unfold View.addStep
    repeat' split
    all_goals rfl

theorem value_of_ofChain? {c : Chain} (h : View.ofChain? ctx c = some v) : ∃ site : Site, v.value = site.embed := by
  simp only [View.ofChain?, Option.bind_eq_bind, Option.bind_eq_some_iff] at h
  obtain ⟨⟨value, steps⟩, -, -, -, heq⟩ := h
  obtain rfl := Option.some.inj heq
  exact ⟨value, foldl_addStep_value steps _⟩

theorem Family.synthesis?_composed {f : Family} {c : Chain} {target : Site} {e : Expr}
    (h : f.synthesis? ctx c = some (.replace target e)) :
    ∃ v, f.view? ctx c = some v ∧ Composed (Named ctx) (f.enclosed v) e := by
  simp only [Family.synthesis?, Option.bind_eq_bind, Option.bind_eq_some_iff] at h
  obtain ⟨v, hview, h⟩ := h
  refine ⟨v, hview, ?_⟩
  obtain ⟨hchain, -⟩ := Option.filter_eq_some_iff.mp hview
  obtain ⟨site, hvalue⟩ := value_of_ofChain? hchain
  have hv : v.value.Simple (Named ctx) := by
    rw [hvalue]
    exact simple_embed site
  split at h
  · rename_i e' hbuild
    obtain ⟨-, rfl⟩ := Synthesis.replace.inj (Option.some.inj h)
    exact build_composed hv hbuild
  · simp only [Option.bind_eq_some_iff] at h
    obtain ⟨-, -, heq⟩ := h
    cases heq

end Assertion

end TestMigration
