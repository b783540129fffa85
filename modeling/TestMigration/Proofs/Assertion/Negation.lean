import Mathlib.Data.Nat.Basic
import Mathlib.Data.Option.Basic
import TestMigration.Assertion.Family
import TestMigration.Proofs.Assertion.Meaning

/-!
# Negated assertions

Each family negates in its own way: it takes the twin of a function of the assert module, turns to the complement
of a comparison, swaps a conjunction for a disjunction, or compares a truth value with `false`. Each of these
makes an assertion that is opposite to the positive one. Words that lead to another value hand the negation on,
whatever the words behind them say, so an induction over the words carries it to the end.

Main statement: `Assertion.negated_passes_iff`.
-/

namespace TestMigration

def View.negative (v : View) : View := { v with negated := true }

namespace Assertion

variable {α β : Type} [LinearOrder β] {I : Interpretation α β} {ctx : Context} {v : View}

/-! ### Opposite assertions -/

/-- The second assertion passes when the first one fails. -/
def Opposite (I : Interpretation α β) (ctx : Context) (p n : Expr) : Prop :=
  n.Passes I ctx.names.assert ↔ ¬ p.Passes I ctx.names.assert

theorem opposite_pick {positive negative : String} {args : List Expr}
    (h : (positive, negative) ∈ assertTwins ∨ (negative, positive) ∈ assertTwins) :
    Opposite I ctx (assertCall ctx (pick false positive negative) args)
      (assertCall ctx (pick true positive negative) args) := by
  show Opposite I ctx (assertCall ctx positive args) (assertCall ctx negative args)
  rw [Opposite, passes_assertCall, passes_assertCall]
  rcases h with h | h
  · exact I.twins positive negative h _
  · rw [I.twins negative positive h, Classical.not_not]

theorem opposite_comparison {deep : Bool} {args : List Expr} :
    Opposite I ctx (assertCall ctx (comparison deep false) args) (assertCall ctx (comparison deep true) args) := by
  cases deep with
  | false => exact opposite_pick (by decide)
  | true => exact opposite_pick (by decide)

theorem opposite_predicate {e : Expr} (h : e.IsBoolean I) :
    Opposite I ctx (predicate ctx e false) (predicate ctx e true) := by
  obtain ⟨b, hb⟩ := h
  have hfalse : Expr.values I [] [e, .lit "false"] = [.boolean b, .boolean false] := by
    simp only [Expr.values, hb, value_false]
  have hok : Expr.values I [] [e] = [.boolean b] := by simp only [Expr.values, hb]
  rw [Opposite, predicate, predicate, if_pos rfl, if_neg (by simp), passes_assertCall, passes_assertCall,
    hfalse, hok, I.strictEqual_boolean, I.ok_boolean]
  simp

theorem opposite_ok {p n : Expr} {b : Bool} (hp : p.value I [] = .boolean b) (hn : n.value I [] = .boolean !b) :
    Opposite I ctx (assertCall ctx "ok" [p]) (assertCall ctx "ok" [n]) := by
  have hvalues {e : Expr} {b : Bool} (h : e.value I [] = .boolean b) : Expr.values I [] [e] = [.boolean b] := by
    simp only [Expr.values, h]
  rw [Opposite, passes_assertCall, passes_assertCall, hvalues hp, hvalues hn, I.ok_boolean, I.ok_boolean]
  simp

/-! ### Mirrored answers -/

/-- Both answers are none, or both are assertions and opposite. -/
inductive Mirrored (I : Interpretation α β) (ctx : Context) : Option Expr → Option Expr → Prop
  | none : Mirrored I ctx none none
  | some {p n : Expr} (h : Opposite I ctx p n) : Mirrored I ctx (some p) (some n)

/-- Where both answers are assertions, they are opposite. -/
def Opposed (I : Interpretation α β) (ctx : Context) (a b : Option Expr) : Prop :=
  ∀ p ∈ a, ∀ n ∈ b, Opposite I ctx p n

theorem Opposed.none_left {b : Option Expr} : Opposed I ctx none b := by
  intro p hp
  cases hp

theorem Opposed.none_right {a : Option Expr} : Opposed I ctx a none := by
  intro p _ n hn
  cases hn

namespace Mirrored

theorem opposed {a b : Option Expr} (h : Mirrored I ctx a b) : Opposed I ctx a b := by
  cases h with
  | none => exact Opposed.none_left
  | some h =>
    rintro p hp n hn
    cases hp
    cases hn
    exact h

theorem bind {γ : Type} {o : Option γ} {f g : γ → Option Expr} (h : ∀ x, Mirrored I ctx (f x) (g x)) :
    Mirrored I ctx (o.bind f) (o.bind g) := by
  cases o with
  | none => exact .none
  | some x => exact h x

theorem orElse {a b c d : Option Expr} (h : Mirrored I ctx a b) (h' : Mirrored I ctx c d) :
    Mirrored I ctx (a <|> c) (b <|> d) := by
  cases h with
  | none => exact h'
  | some h => exact .some h

end Mirrored

/-! ### Families that look at one word -/

theorem deepEquality_mirrored : Mirrored I ctx (deepEquality ctx v.positive) (deepEquality ctx v.negative) :=
  Mirrored.bind fun _ => .some opposite_comparison

theorem strictEquality_mirrored :
    Mirrored I ctx (strictEquality ctx v.positive) (strictEquality ctx v.negative) :=
  Mirrored.bind fun _ => Mirrored.bind fun _ => .some opposite_comparison

theorem exists'_opposite : Opposite I ctx (exists' ctx v.positive) (exists' ctx v.negative) := by
  unfold exists'
  split
  · exact opposite_predicate (isBoolean_binary (by simp))
  · exact opposite_pick (by decide)

theorem existence_mirrored : Mirrored I ctx (existence ctx v.positive) (existence ctx v.negative) := by
  refine Mirrored.bind fun word => ?_
  split
  · exact .some exists'_opposite
  · exact .some exists'_opposite
  · exact .some (opposite_pick (by decide))
  · exact .some (opposite_predicate (isBoolean_callPath (by decide)))
  · exact .some opposite_comparison

/-! ### Words that look into a value -/

theorem nestedProperty_mirrored :
    Mirrored I ctx (nestedProperty ctx v.positive) (nestedProperty ctx v.negative) := by
  refine Mirrored.bind fun path => Mirrored.bind fun _ => ?_
  obtain ⟨segments, expected⟩ := path
  cases expected with
  | some e => exact .some opposite_comparison
  | none => exact .some (opposite_pick (by decide))

theorem ownProperty_mirrored : Mirrored I ctx (ownProperty ctx v.positive) (ownProperty ctx v.negative) :=
  Mirrored.bind fun _ => Mirrored.bind fun _ =>
    .some (opposite_predicate (isBoolean_callPath (by decide)))

theorem affix_mirrored : Mirrored I ctx (affix ctx v.positive) (affix ctx v.negative) := by
  refine Mirrored.bind fun word => .some (opposite_predicate (isBoolean_method ?_))
  split <;> decide

theorem contained_mirrored : Mirrored I ctx (contained ctx v.positive) (contained ctx v.negative) :=
  Mirrored.bind fun _ => Mirrored.bind fun _ => .some (opposite_predicate (isBoolean_method (by decide)))

theorem matching_mirrored : Mirrored I ctx (matching ctx v.positive) (matching ctx v.negative) :=
  Mirrored.bind fun _ => .some (opposite_pick (by decide))

theorem instance'_mirrored : Mirrored I ctx (instance' ctx v.positive) (instance' ctx v.negative) :=
  Mirrored.bind fun _ => Mirrored.bind fun _ => .some (opposite_predicate (isBoolean_binary (by simp)))

theorem typeCheck_mirrored : Mirrored I ctx (typeCheck ctx v.positive) (typeCheck ctx v.negative) := by
  refine Mirrored.bind fun name => .some (opposite_predicate ?_)
  split
  · exact isBoolean_callPath (by decide)
  · split
    · exact isBoolean_binary (by simp)
    · split
      · exact isBoolean_binary (by simp)
      · exact isBoolean_binary (by simp)

/-- A comparison and its complement are opposite, since the order is total. -/
theorem operators_opposite {word op complement : String} {left right : Expr}
    (h : comparisonOperators? word = some (op, complement)) :
    Opposite I ctx (assertCall ctx "ok" [.binary left op right])
      (assertCall ctx "ok" [.binary left complement right]) := by
  unfold comparisonOperators? at h
  split_ifs at h
  · cases h
    exact opposite_ok value_gt (by rw [value_le, ← decide_not]; simp only [not_lt])
  · cases h
    exact opposite_ok value_lt (by rw [value_ge, ← decide_not]; simp only [not_lt])
  · cases h
    exact opposite_ok value_ge (by rw [value_lt, ← decide_not]; simp only [not_le])
  · cases h
    exact opposite_ok value_le (by rw [value_gt, ← decide_not]; simp only [not_le])

theorem within_opposite {low high : Expr} : Opposite I ctx (assertCall ctx "ok" [within v.positive low high])
    (assertCall ctx "ok" [within v.negative low high]) := by
  -- between bounds is a conjunction, outside of them is the disjunction of the complements
  refine opposite_ok (value_and value_ge value_le) ((value_or value_lt value_gt).trans ?_)
  simp only [Bool.not_and, ← decide_not, not_le]
  rfl

theorem range_mirrored : Mirrored I ctx (range ctx v.positive) (range ctx v.negative) := by
  unfold range
  rw [show v.positive.called? ["within"] 2 2 = v.called? ["within"] 2 2 from rfl,
    show v.negative.called? ["within"] 2 2 = v.called? ["within"] 2 2 from rfl]
  split
  · exact .some within_opposite
  · refine Mirrored.bind fun word => ?_
    split
    · cases hoperators : comparisonOperators? word.name with
      | none => exact .none
      | some operators => exact .some (operators_opposite hoperators)
    · exact .none

section
variable {w : Step} {onward onward' : Expr → Option Expr}

theorem property_mirrored (h : v.words = [w]) :
    Mirrored I ctx (property ctx v.positive onward) (property ctx v.negative onward') := by
  unfold property
  simp only [View.positive, View.negative, h]
  refine Mirrored.bind fun word => Mirrored.bind fun _ => Mirrored.bind fun name => ?_
  rcases word.args with _ | ⟨key, _ | ⟨expected, _ | _⟩⟩
  · exact .none
  · exact .some (opposite_predicate (isBoolean_binary (by simp)))
  · exact .some opposite_comparison
  · exact .none

theorem length_mirrored (h : v.words = [w]) :
    Mirrored I ctx (length ctx v.positive onward) (length ctx v.negative onward') := by
  unfold length
  simp only [View.positive, View.negative, h]
  refine Mirrored.bind fun word => Mirrored.bind fun _ => ?_
  rcases word.arguments? with _ | _ | ⟨n, more⟩
  · exact .none
  · exact .none
  · dsimp only
    split
    · exact .some opposite_comparison
    · exact .none

theorem membershipWith_mirrored (h : v.words = [w]) :
    Mirrored I ctx (membershipWith ctx v.positive onward) (membershipWith ctx v.negative onward') :=
  nestedProperty_mirrored.orElse <| ownProperty_mirrored.orElse <| (property_mirrored h).orElse <|
    (length_mirrored h).orElse <| range_mirrored.orElse <| affix_mirrored.orElse <|
    contained_mirrored.orElse <| matching_mirrored.orElse <| instance'_mirrored.orElse typeCheck_mirrored

end

/-! ### Truth -/

theorem words_of_bare? {names : List String} {w : Step} (h : v.bare? names = some w) :
    v.words = [w] ∧ w.args = [] := by
  obtain ⟨hsingle, hbare⟩ := Option.filter_eq_some_iff.mp h
  have hwords : v.words = [w] := by
    unfold View.single? at hsingle
    split at hsingle
    · rename_i w' hwords
      cases hsingle
      exact hwords
    · cases hsingle
  have hargs : w.name ∈ names ∧ w.args = [] := by simpa using hbare
  exact ⟨hwords, hargs.2⟩

theorem called?_eq_none {names : List String} {least most : Nat} {w : Step} (h : v.words = [w])
    (hname : w.name ∉ names) : v.called? names least most = none := by
  simp [View.called?, View.single?, h, hname]

theorem bare?_eq_none {names : List String} {w : Step} (h : v.words = [w]) (hname : w.name ∉ names) :
    v.bare? names = none := by
  simp [View.bare?, View.single?, h, hname]

theorem boolean_mirrored_or_ok (I : Interpretation α β) (ctx : Context) (v : View) :
    Mirrored I ctx (boolean ctx v.positive) (boolean ctx v.negative) ∨
      boolean ctx v.negative = none ∧ ∃ w, v.words = [w] ∧ w.name = "ok" ∧ w.args = [] := by
  have hpositive : v.positive.bare? ["true", "false", "ok"] = v.bare? ["true", "false", "ok"] := rfl
  have hnegative : v.negative.bare? ["true", "false", "ok"] = v.bare? ["true", "false", "ok"] := rfl
  unfold boolean
  rw [hpositive, hnegative]
  cases hword : v.bare? ["true", "false", "ok"] with
  | none => exact Or.inl .none
  | some w =>
    by_cases hok : w.name = "ok"
    · refine Or.inr ⟨by simp [hok, View.negative], w, (words_of_bare? hword).1, hok, (words_of_bare? hword).2⟩
    · refine Or.inl ?_
      simp only [Option.bind_eq_bind, Option.bind_some]
      exact .some opposite_comparison

theorem membershipWith_ok {w : Step} (h : v.words = [w]) (hname : w.name = "ok") (hargs : w.args = [])
    (onward : Expr → Option Expr) : membershipWith ctx v onward = none := by
  have hcalled {names : List String} (hnames : "ok" ∉ names) (least most : Nat) :
      v.called? names least most = none := called?_eq_none h (by rwa [hname])
  have hbare {names : List String} (hnames : "ok" ∉ names) : v.bare? names = none :=
    bare?_eq_none h (by rwa [hname])
  have hsingle : v.single? = some w := by simp [View.single?, h]
  have hnested : nestedProperty ctx v = none := by
    simp [nestedProperty, nestedPath?, hcalled, hsingle, hname]
  have hown : ownProperty ctx v = none := by simp [ownProperty, hcalled]
  have hproperty : property ctx v onward = none := by simp [property, h, hname]
  have hlength : length ctx v onward = none := by simp [length, h, hname]
  have hrange : range ctx v = none := by simp [range, hcalled, hsingle, hargs]
  have htype : typeCheck ctx v = none := by simp [typeCheck, typeName?, hcalled, hbare]
  simp [membershipWith, hnested, hown, hproperty, hlength, hrange, htype, affix, contained, matching, instance',
    hcalled]

theorem boolean_opposed : Opposed I ctx (boolean ctx v.positive) (boolean ctx v.negative) := by
  rcases boolean_mirrored_or_ok I ctx v with hmirrored | ⟨hnone, -⟩
  · exact hmirrored.opposed
  · rw [hnone]
    exact Opposed.none_right

/-! ### All words -/

theorem Mirrored.orElse_opposed {a b c d : Option Expr} (h : Mirrored I ctx a b) (h' : Opposed I ctx c d) :
    Opposed I ctx (a <|> c) (b <|> d) := by
  cases h with
  | none => exact h'
  | some h => exact (Mirrored.some h).opposed

theorem oneWord_opposed {w : Step} (h : v.words = [w]) (onward onward' : Expr → Option Expr) :
    Opposed I ctx
      (deepEquality ctx v.positive <|> strictEquality ctx v.positive <|> existence ctx v.positive
        <|> boolean ctx v.positive <|> membershipWith ctx v.positive onward)
      (deepEquality ctx v.negative <|> strictEquality ctx v.negative <|> existence ctx v.negative
        <|> boolean ctx v.negative <|> membershipWith ctx v.negative onward') := by
  refine deepEquality_mirrored.orElse_opposed <| strictEquality_mirrored.orElse_opposed <|
    existence_mirrored.orElse_opposed ?_
  rcases boolean_mirrored_or_ok I ctx v with hmirrored | ⟨hnone, w', hword, hname, hargs⟩
  · exact (hmirrored.orElse (membershipWith_mirrored h)).opposed
  · -- `not.ok` is no assertion of the family, and no later family takes it over
    rw [hnone, membershipWith_ok (v := v.negative) hword hname hargs]
    exact Opposed.none_right

/-- The value that the first of several words leads to. -/
def leadsTo? (ctx : Context) (v : View) : Option Expr := do
  let word ← v.words.head?
  if word.name == "property" then
    guard (word.isCall && !v.own && !v.nested)
    let name ← literalArgument? ctx word 0
    guard (word.args.length == 1)
    return v.value.property name
  else
    guard ((word.name == "length" || word.name == "lengthOf") && !word.isCall)
    return .member v.value "length"

theorem membershipWith_of_not_single (h : v.single? = none) (onward : Expr → Option Expr) :
    membershipWith ctx v onward = (property ctx v onward <|> length ctx v onward) := by
  have hcalled (names : List String) (least most : Nat) : v.called? names least most = none := by
    simp [View.called?, h]
  have hbare (names : List String) : v.bare? names = none := by simp [View.bare?, h]
  have hnested : nestedProperty ctx v = none := by simp [nestedProperty, nestedPath?, hcalled, h]
  have hown : ownProperty ctx v = none := by simp [ownProperty, hcalled]
  have hrange : range ctx v = none := by simp [range, hcalled, h]
  have htype : typeCheck ctx v = none := by simp [typeCheck, typeName?, hcalled, hbare]
  simp [membershipWith, hnested, hown, hrange, htype, affix, contained, matching, instance', hcalled]

section
variable {first second : Step} {rest : List Step}

theorem single?_eq_none (h : v.words = first :: second :: rest) : v.single? = none := by
  simp [View.single?, h]

theorem property_many (h : v.words = first :: second :: rest) (onward : Expr → Option Expr) :
    property ctx v onward =
      if first.name == "property" then (leadsTo? ctx v).bind onward else none := by
  unfold property leadsTo?
  rw [h, List.head?_cons, Option.bind_eq_bind, Option.bind_some, Option.bind_eq_bind, Option.bind_some]
  cases hname : first.name == "property" with
  | false => simp
  | true =>
    simp only [Bool.true_and, if_true]
    cases first.isCall && !v.own && !v.nested with
    | false => rfl
    | true =>
      cases literalArgument? ctx first 0 with
      | none => rfl
      | some name =>
        rcases first.args with _ | ⟨_, _ | ⟨_, _ | _⟩⟩ <;> rfl

theorem length_many (h : v.words = first :: second :: rest) (hname : first.name ≠ "property")
    (onward : Expr → Option Expr) : length ctx v onward = (leadsTo? ctx v).bind onward := by
  unfold length leadsTo?
  rw [h, List.head?_cons, Option.bind_eq_bind, Option.bind_some, Option.bind_eq_bind, Option.bind_some]
  rw [if_neg (by simpa using hname)]
  cases first.name == "length" || first.name == "lengthOf" with
  | false => rfl
  | true =>
    unfold Step.isCall
    rcases first.arguments? with _ | _ | _ <;> rfl

theorem membershipWith_many (h : v.words = first :: second :: rest) (onward : Expr → Option Expr) :
    membershipWith ctx v onward = (leadsTo? ctx v).bind onward := by
  rw [membershipWith_of_not_single (single?_eq_none h), property_many h]
  by_cases hname : first.name = "property"
  · have hlength : length ctx v onward = none := by simp [length, h, hname]
    simp [hname, hlength]
  · simp [hname, length_many h hname]

/-- Several words give an answer only through the value that the first one leads to. -/
theorem buildSyncFrom_many {flags : View} {value : Expr} :
    buildSyncFrom ctx flags (first :: second :: rest) value =
      (leadsTo? ctx { flags with words := first :: second :: rest, value }).bind
        (buildSyncFrom ctx flags (second :: rest)) := by
  have hsingle : View.single? { flags with words := first :: second :: rest, value } = none :=
    single?_eq_none rfl
  rw [buildSyncFrom, membershipWith_many rfl]
  simp [deepEquality, strictEquality, existence, boolean, View.called?, View.bare?, hsingle]

end

theorem Opposed.bind {γ : Type} {o : Option γ} {f g : γ → Option Expr} (h : ∀ x, Opposed I ctx (f x) (g x)) :
    Opposed I ctx (o.bind f) (o.bind g) := by
  cases o with
  | none => exact Opposed.none_left
  | some x => exact h x

theorem buildSyncFrom_opposed (words : List Step) (value : Expr) :
    Opposed I ctx (buildSyncFrom ctx v.positive words value) (buildSyncFrom ctx v.negative words value) := by
  induction words generalizing value with
  | nil => exact Opposed.none_left
  | cons first rest ih =>
    cases rest with
    | nil => exact oneWord_opposed (v := { v with words := [first], value }) rfl _ _
    | cons second rest =>
      -- the first word leads both to the same value, of which the words behind it speak
      rw [buildSyncFrom_many, buildSyncFrom_many]
      exact Opposed.bind fun _ => ih _

theorem membership_opposed : Opposed I ctx (membership ctx v.positive) (membership ctx v.negative) := by
  unfold membership
  rcases hwords : v.words with _ | ⟨first, _ | ⟨second, rest⟩⟩
  · rw [membershipWith_of_not_single (v := v.positive) (by simp [View.single?, View.positive, hwords])]
    simp only [property, length, View.positive, hwords]
    exact Opposed.none_left
  · exact (membershipWith_mirrored hwords).opposed
  · rw [membershipWith_many (v := v.positive) hwords, membershipWith_many (v := v.negative) hwords]
    exact Opposed.bind fun _ => buildSyncFrom_opposed _ _

/-! ### Errors and promises -/

theorem throws_opposed : Opposed I ctx (throws ctx v.positive) (throws ctx v.negative) := by
  unfold throws
  refine Opposed.bind fun word => Opposed.bind fun _ => ?_
  cases hargs : word.args with
  | nil => exact (Mirrored.some (opposite_pick (by decide))).opposed
  | cons a rest =>
    -- a negated assertion about one error has no counterpart
    exact Opposed.none_right

/-- What is checked behind `then` is checked of the value that the promise was fulfilled with. -/
theorem opposite_then {promised : Expr} {u : Value α} (h : promised.value I [] = .fulfilled u)
    {p n : Expr} (hopposite : n.Asserts I [("actual", u)] ctx.names.assert ↔
      ¬ p.Asserts I [("actual", u)] ctx.names.assert) :
    Opposite I ctx (promised.method "then" [.arrow ["actual"] p]) (promised.method "then" [.arrow ["actual"] n]) := by
  rw [Opposite, passes_then, passes_then]
  simpa [h] using hopposite

theorem comparison_asserts {deep : Bool} {vars : List (String × Value α)} {args : List Expr} :
    (assertCall ctx (comparison deep true) args).Asserts I vars ctx.names.assert ↔
      ¬ (assertCall ctx (comparison deep false) args).Asserts I vars ctx.names.assert := by
  rw [asserts_assertCall, asserts_assertCall]
  cases deep with
  | false => exact I.twins "strictEqual" "notStrictEqual" (by decide) _
  | true => exact I.twins "deepStrictEqual" "notDeepStrictEqual" (by decide) _

theorem promise_opposed
    (hsettled : (settledWord? v).isSome = true → ∃ u, v.value.value I [] = .fulfilled u) :
    Opposed I ctx (promise ctx v.positive) (promise ctx v.negative) := by
  have hbare (names : List String) : v.positive.bare? names = v.bare? names ∧
      v.negative.bare? names = v.bare? names := ⟨rfl, rfl⟩
  have hcalled (names : List String) (least most : Nat) :
      v.positive.called? names least most = v.called? names least most ∧
      v.negative.called? names least most = v.called? names least most := ⟨rfl, rfl⟩
  have hword : settledWord? v.positive = settledWord? v ∧ settledWord? v.negative = settledWord? v := ⟨rfl, rfl⟩
  unfold promise
  simp only [(hbare _).1, (hbare _).2, (hcalled _ _ _).1, (hcalled _ _ _).2, hword.1, hword.2]
  split
  · exact (Mirrored.some (opposite_pick (by decide))).opposed
  · split
    · exact (Mirrored.some (opposite_pick (by decide))).opposed
    · cases v.called? ["rejectedWith"] 1 2 with
      | some word => exact Opposed.none_right
      | none =>
        cases hsome : settledWord? v with
        | none => exact Opposed.none_left
        | some settled =>
          obtain ⟨u, hu⟩ := hsettled (by rw [hsome]; rfl)
          exact (Mirrored.some (opposite_then hu comparison_asserts)).opposed

/-! ### All families -/

/-- For every family, the assertions of a view and of its negation are opposite; what a promise gives is only
asked of promises that are fulfilled. -/
theorem Family.build_opposed (f : Family)
    (hsettled : f = .promise → (settledWord? v).isSome = true → ∃ u, v.value.value I [] = .fulfilled u) :
    Opposed I ctx (f.build ctx v.positive) (f.build ctx v.negative) := by
  cases f with
  | promise => exact promise_opposed (hsettled rfl)
  | throws => exact throws_opposed
  | deepEquality => exact deepEquality_mirrored.opposed
  | strictEquality => exact strictEquality_mirrored.opposed
  | existence => exact existence_mirrored.opposed
  | boolean => exact boolean_opposed
  | membership => exact membership_opposed

end Assertion

def Step.isNegation (s : Step) : Bool := !s.isCall && s.name == "not"

namespace View

theorem addStep_negated (v : View) (s : Step) : (v.addStep s).negated = (v.negated ^^ s.isNegation) := by
  unfold addStep Step.isNegation
  cases s.isCall with
  | true => simp
  | false =>
    cases s.name == "not" with
    | true => simp
    | false =>
      simp only [Bool.false_eq_true, if_false, Bool.not_false, Bool.true_and, Bool.xor_false]
      split_ifs <;> rfl

/-- Each `not` turns the assertion around. -/
theorem foldl_addStep_negated (steps : List Step) (v : View) :
    (steps.foldl addStep v).negated = (v.negated ^^ (steps.countP Step.isNegation % 2 == 1)) := by
  induction steps generalizing v with
  | nil => simp
  | cons s rest ih =>
    rw [List.foldl_cons, ih, addStep_negated, List.countP_cons]
    cases s.isNegation with
    | false => simp
    | true =>
      have hturn : ((rest.countP Step.isNegation + 1) % 2 == 1) = !(rest.countP Step.isNegation % 2 == 1) := by
        rcases Nat.mod_two_eq_zero_or_one (rest.countP Step.isNegation) with h | h <;> simp [Nat.add_mod, h]
      rw [if_pos rfl, hturn]
      cases v.negated <;> simp

theorem negated_eq {ctx : Context} {c : Chain} {v : View} (h : ofChain? ctx c = some v) :
    ∃ value steps, split? ctx c = some (value, steps) ∧
      v.negated = (steps.countP Step.isNegation % 2 == 1) := by
  simp only [ofChain?, Option.bind_eq_bind, Option.bind_eq_some_iff] at h
  obtain ⟨⟨value, steps⟩, hsplit, _, -, heq⟩ := h
  cases heq
  exact ⟨value, steps, hsplit, by rw [foldl_addStep_negated]; simp⟩

end View

namespace Assertion

variable {α β : Type} [LinearOrder β]

/-- The assertion of a negated view passes when that of the positive view fails, and a view is negated when an odd
number of its steps are `not`. -/
theorem negated_passes_iff (I : Interpretation α β) (ctx : Context) :
    (∀ (f : Family) (v : View) (p n : Expr), f.build ctx v.positive = some p → f.build ctx v.negative = some n →
      (f = .promise → (settledWord? v).isSome = true → ∃ u, v.value.value I [] = .fulfilled u) →
      (n.Passes I ctx.names.assert ↔ ¬ p.Passes I ctx.names.assert)) ∧
    ∀ (c : Chain) (v : View), View.ofChain? ctx c = some v → ∃ value steps,
      View.split? ctx c = some (value, steps) ∧ v.negated = (steps.countP Step.isNegation % 2 == 1) := by
  refine ⟨fun f v p n hp hn hsettled => ?_, fun c v h => View.negated_eq h⟩
  exact Family.build_opposed f hsettled p hp n hn

def firstTwoSame (args : List (Value Unit)) : Prop := args.head? = (args.drop 1).head?

/-- An interpretation in which the piece at the given span is a promise of one and all other pieces are one; the
assert module compares its first two arguments. -/
def promising (span : Span) : Interpretation Unit Nat where
  piece s := if s = span then .fulfilled (.number 1) else .number 1
  name _ := .undefined
  text _ := .undefined
  token _ := .undefined
  test _ _ := false
  operation _ _ := .undefined
  rank _ := 0
  code _ _ := .undefined
  passes method args :=
    if method = "ok" then args = [.boolean true]
    else if assertTwins.any (·.2 == method) then ¬ firstTwoSame args else firstTwoSame args
  twins method twin h args := by
    have hmethod : method ≠ "ok" ∧ twin ≠ "ok" ∧ assertTwins.any (·.2 == method) = false ∧
        assertTwins.any (·.2 == twin) = true := by
      revert h
      unfold assertTwins
      simp only [List.mem_cons, Prod.mk.injEq, List.not_mem_nil, or_false]
      rintro (⟨rfl, rfl⟩ | ⟨rfl, rfl⟩ | ⟨rfl, rfl⟩ | ⟨rfl, rfl⟩ | ⟨rfl, rfl⟩ | ⟨rfl, rfl⟩) <;> decide
    simp [hmethod]
  ok_boolean b := by simp
  strictEqual_boolean a b := by
    have hplain : assertTwins.any (·.2 == "strictEqual") = false := by decide
    simp [hplain, firstTwoSame]

theorem negated_passes_iff_fulfilled : ∃ (I : Interpretation Unit Nat) (ctx : Context) (v : View) (p n : Expr),
    Family.promise.build ctx v.positive = some p ∧ Family.promise.build ctx v.negative = some n ∧
    (settledWord? v).isSome = true ∧ (∃ u, v.value.value I [] = .fulfilled u) ∧
    p.Passes I ctx.names.assert ∧ ¬ n.Passes I ctx.names.assert := by
  let one : Site := ⟨.mk .argument .number ⟨17, 18⟩ [], []⟩
  let v : View :=
    { value := .source ⟨7, 8⟩ 20, words := [{ name := "fulfilledWith", arguments? := some [one], site := one }] }
  let I := promising ⟨7, 8⟩
  have hfulfilled : v.value.value I [] = .fulfilled (.number 1) := by
    rw [Expr.value]
    rfl
  have hpasses : Expr.Passes I "assert" (v.value.method "then" [.arrow ["actual"]
      (assertCall default "strictEqual" [.ident "actual", one.embed])]) := by
    refine ⟨_, hfulfilled, asserts_assertCall.mpr ?_⟩
    have hvalues : Expr.values I [("actual", .number 1)] [.ident "actual", one.embed] =
        [.number 1, .number 1] := by
      simp only [Expr.values, Site.embed, Expr.value]
      rfl
    rw [hvalues]
    simp [I, promising, assertTwins, firstTwoSame]
  refine ⟨I, default, v, _, _, rfl, rfl, rfl, ⟨_, hfulfilled⟩, hpasses, ?_⟩
  rw [(negated_passes_iff I default).1 .promise v _ _ rfl rfl fun _ _ => ⟨_, hfulfilled⟩]
  exact not_not_intro hpasses

end Assertion

end TestMigration
