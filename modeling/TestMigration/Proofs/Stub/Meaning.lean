import TestMigration.Proofs.Expr.Meaning
import TestMigration.Stub.Entry

/-!
# What a merged stub does

`stubOutcome` says what a stub with a list of entries does when it is called: what the first entry says whose
matchers accept the arguments, otherwise what the entry for all calls says, and nothing without such an entry.
`implementation_invoke`: the function that is written for the entries does just that, whether it is a cascade
of branches or the function of a single entry.
-/

namespace TestMigration

variable {α : Type}

/-! ### What entries say -/

namespace World

variable (w : World α)

def valueOf : Option Site → Value α
  | some v => w.piece v.span
  | none => .undefined

/-- The error for a node: a string gives its name to a new one. -/
def errorOf : Option Site → Value α
  | some e => if e.kind == .string then .error (some (w.piece e.span)) else w.piece e.span
  | none => .error none

end World

/-- What a stub does that is called with the arguments. -/
def StubResult.outcome (w : World α) (args : List (Value α)) : StubResult → Completion α
  | returns v => .returned (w.valueOf v)
  | resolves v => .returned (.fulfilled (w.valueOf v))
  | rejects e => .returned (.rejected (w.errorOf e))
  | throws e => .thrown (w.errorOf e)
  | callsFake f => w.apply (w.piece f.span) args
  | returnsArg n => .returned (w.item args (w.piece n.span))

/-- The matcher accepts the argument. -/
def Matcher.accepts (w : World α) : Matcher → Value α → Bool
  | any, _ => true
  | strict s, v => w.same v (w.piece s.span)
  | deep s, v => w.alike v (w.piece s.span)

/-- There are as many arguments as matchers, and each matcher accepts the argument at its position. -/
def Matcher.acceptAll (w : World α) (ms : List Matcher) (args : List (Value α)) : Bool :=
  ms.length ≤ args.length && (ms.zip args).all fun p => p.1.accepts w p.2

/-- The entry has matchers, and they accept the arguments. -/
def Entry.accepts (w : World α) (args : List (Value α)) (e : Entry) : Bool :=
  (e.matchers.map fun ms => Matcher.acceptAll w ms args).getD false

/-- What a stub does when it is called: the first entry that accepts the arguments counts, and otherwise the
one for all calls. -/
def stubOutcome (w : World α) (entries : List Entry) (args : List (Value α)) : Completion α :=
  match entries.find? (·.accepts w args), entries.find? (·.matchers.isNone) with
  | some e, _ => e.result.outcome w args
  | none, some e => e.result.outcome w args
  | none, none => .returned .undefined

/-! ### Results -/

theorem Value.ofToken_toString (n : Nat) : Value.ofToken (α := α) (toString n) = .ok (.number n) := by
  have hdigits : (toString n).toList = Nat.toDigits 10 n := by rw [Nat.toString_eq_repr, Nat.toList_repr]
  have hall : (Nat.toDigits 10 n).all Char.isDigit = true :=
    List.all_eq_true.mpr fun c hc => Nat.isDigit_of_mem_toDigits (by omega) (by omega) hc
  rw [ofToken, hdigits, if_pos ⟨Nat.toDigits_ne_nil, hall⟩, Nat.ofDigitChars_toDigits (by omega) (by omega)]

/-- Names that the code of a stub uses besides the one for deep comparison. -/
def stubNames : List String := ["args", "Object.assign", "Promise.resolve", "Promise.reject"]

section
variable {w : World α} {util : String} {vars : List (String × Value α)} {args : List (Value α)}

theorem ne_of_mem_stubNames (h : util ∉ stubNames) {name : String} (hname : name ∈ stubNames) : name ≠ util :=
  fun heq => h (heq ▸ hname)

namespace World

theorem callNamed_util (a b : Value α) : w.callNamed util util [a, b] = .ok (.boolean (w.alike a b)) := by
  unfold callNamed
  exact if_pos rfl

theorem callNamed_resolve (h : util ∉ stubNames) (v : Value α) :
    w.callNamed util "Promise.resolve" [v] = .ok (.fulfilled v) := by
  unfold callNamed
  exact if_neg (ne_of_mem_stubNames h (by decide))

theorem callNamed_reject (h : util ∉ stubNames) (v : Value α) :
    w.callNamed util "Promise.reject" [v] = .ok (.rejected v) := by
  unfold callNamed
  exact if_neg (ne_of_mem_stubNames h (by decide))

theorem callNamed_assign (h : util ∉ stubNames) (name : Option (Value α)) (v : Value α) :
    w.callNamed util "Object.assign" [.error name, .record [("name", v)]] = .ok (.error (some v)) := by
  unfold callNamed
  exact if_neg (ne_of_mem_stubNames h (by decide))

end World

/-- The only variable is `args`, if there is one. -/
def OnlyArgs (vars : List (String × Value α)) : Prop := ∀ name, name ≠ "args" → vars.lookup name = none

theorem OnlyArgs.nil : OnlyArgs ([] : List (String × Value α)) := fun _ _ => rfl

theorem OnlyArgs.list : OnlyArgs [("args", .list args)] := by
  intro name hname
  have hne : (name == "args") = false := by simpa using hname
  simp [List.lookup_cons, hne]

theorem OnlyArgs.globalName? (h : OnlyArgs vars) {name : String} (hname : name ≠ "args") :
    (Expr.ident name).globalName? vars = some name := by
  simp [Expr.globalName?, h name hname]

theorem Site.eval_embed (s : Site) : s.embed.eval w util vars = .ok (w.piece s.span) := Expr.eval_source _ _

theorem eval_undefined : (Expr.lit "undefined").eval w util vars = .ok .undefined := Expr.eval_lit _

theorem eval_args : (Expr.ident "args").eval w util [("args", .list args)] = .ok (.list args) :=
  Expr.eval_variable rfl

theorem eval_callPath (hvars : OnlyArgs vars) {path : String} (hpath : path ≠ "args") {es : List Expr}
    {vs : List (Value α)} (hes : Expr.evalArgs w util vars es = .ok vs) :
    (Expr.callPath path es).eval w util vars = w.callNamed util path vs :=
  Expr.eval_callNamed (hvars.globalName? hpath) hes

namespace StubResult

theorem eval_valueExpr (v : Option Site) : (valueExpr v).eval w util vars = .ok (w.valueOf v) := by
  cases v with
  | some v => exact Site.eval_embed v
  | none => exact eval_undefined

theorem eval_errorExpr (hutil : util ∉ stubNames) (hvars : OnlyArgs vars) (e : Option Site) :
    (errorExpr e).eval w util vars = .ok (w.errorOf e) := by
  have hnew : (Expr.new (.ident "Error") []).eval w util vars = .ok (.error none) :=
    Expr.eval_newError (hvars.globalName? (by decide))
  cases e with
  | none => exact hnew
  | some e =>
    rw [errorExpr, World.errorOf]
    split
    · have hname : (Expr.object [.mk "name" e.embed]).eval w util vars
          = .ok (.record [("name", w.piece e.span)]) :=
        Expr.eval_object (Property.evalAll_singleton (Site.eval_embed e))
      rw [eval_callPath hvars (by decide)
        (Expr.evalArgs_cons rfl hnew (Expr.evalArgs_cons rfl hname Expr.evalArgs_nil))]
      exact World.callNamed_assign hutil _ _
    · exact Site.eval_embed e

theorem isSpread_valueExpr (v : Option Site) : (valueExpr v).isSpread = false := by
  cases v <;> rfl

theorem isSpread_errorExpr (e : Option Site) : (errorExpr e).isSpread = false := by
  cases e with
  | none => rfl
  | some e =>
    rw [errorExpr]
    split <;> rfl

theorem eval_resolve (hutil : util ∉ stubNames) (hvars : OnlyArgs vars) (v : Option Site) :
    (Expr.callPath "Promise.resolve" [valueExpr v]).eval w util vars = .ok (.fulfilled (w.valueOf v)) := by
  rw [eval_callPath hvars (by decide)
    (Expr.evalArgs_cons (isSpread_valueExpr v) (eval_valueExpr v) Expr.evalArgs_nil)]
  exact World.callNamed_resolve hutil _

theorem eval_reject (hutil : util ∉ stubNames) (hvars : OnlyArgs vars) (e : Option Site) :
    (Expr.callPath "Promise.reject" [errorExpr e]).eval w util vars = .ok (.rejected (w.errorOf e)) := by
  rw [eval_callPath hvars (by decide)
    (Expr.evalArgs_cons (isSpread_errorExpr e) (eval_errorExpr hutil hvars e) Expr.evalArgs_nil)]
  exact World.callNamed_reject hutil _

theorem eval_argument (n : Site) : (Expr.index (.ident "args") n.embed).eval w util [("args", .list args)] =
    .ok (w.item args (w.piece n.span)) :=
  Expr.eval_item eval_args (Site.eval_embed n)

theorem eval_fake (f : Site) : (Expr.call f.embed [.unary "..." (.ident "args")]).eval w util
    [("args", .list args)] = (w.apply (w.piece f.span) args).evaluation :=
  Expr.eval_call rfl (Site.eval_embed f) (Expr.evalArgs_spread eval_args)

theorem exec_statement (hutil : util ∉ stubNames) (r : StubResult) :
    r.statement.exec w util [("args", .list args)] = some <$> (r.outcome w args).evaluation := by
  have hvars : OnlyArgs [("args", Value.list args)] := OnlyArgs.list
  have hreturn {e : Expr} {c : Completion α} (he : e.eval w util [("args", .list args)] = c.evaluation) :
      (Stmt.return e).exec w util [("args", .list args)] = some <$> c.evaluation := by
    rw [Stmt.exec_return, he]
  cases r with
  | returns v => exact hreturn (eval_valueExpr v)
  | resolves v => exact hreturn (eval_resolve hutil hvars v)
  | rejects e => exact hreturn (eval_reject hutil hvars e)
  | throws e => exact Stmt.exec_throw (eval_errorExpr hutil hvars e)
  | callsFake f => exact hreturn (eval_fake f)
  | returnsArg n => exact hreturn (eval_argument n)

/-- The function for a single result does what the result says. -/
theorem invoke_function (hutil : util ∉ stubNames) (r : StubResult) :
    r.function.invoke w util args = (r.outcome w args).evaluation := by
  have hvars : OnlyArgs ([] : List (String × Value α)) := OnlyArgs.nil
  cases r with
  | returns v => exact eval_valueExpr v
  | resolves v => exact eval_resolve hutil hvars v
  | rejects e => exact eval_reject hutil hvars e
  | throws e =>
    have hthrow : (Stmt.throw (errorExpr e)).exec w util [] =
        some <$> (Completion.thrown (w.errorOf e)).evaluation :=
      Stmt.exec_throw (eval_errorExpr hutil hvars e)
    exact Expr.invoke_arrowBlock (Stmt.execAll_cons_ends hthrow)
  | callsFake f => rfl
  | returnsArg n => exact eval_argument n

end StubResult

/-! ### Conditions -/

theorem eval_position (i : Nat) : (Expr.index (.ident "args") (.lit (toString i))).eval w util
    [("args", .list args)] = .ok (args[i]?.getD .undefined) :=
  Expr.eval_item eval_args ((Expr.eval_lit _).trans (Value.ofToken_toString i))

theorem eval_enough (n : Nat) : (Expr.binary (.member (.ident "args") "length") ">=" (.lit (toString n))).eval
    w util [("args", .list args)] = .ok (.boolean (n ≤ args.length)) :=
  Expr.eval_operation (by decide) (Expr.eval_length eval_args)
    ((Expr.eval_lit _).trans (Value.ofToken_toString n))

namespace Entry

/-- A condition, and that the matcher accepts the argument at position `i`. -/
theorem eval_conditionStep (hutil : util ∉ stubNames) (m : Matcher) (i : Nat) {condition : Expr} {b : Bool}
    (hcondition : condition.eval w util [("args", .list args)] = .ok (.boolean b)) :
    ∃ next, (∀ rest, conditionGo util i condition (m :: rest) = conditionGo util (i + 1) next rest) ∧
      next.eval w util [("args", .list args)] =
        .ok (.boolean (b && m.accepts w (args[i]?.getD .undefined))) := by
  have hactual : (Expr.index (.ident "args") (.lit (toString i))).eval w util [("args", .list args)] =
      .ok (args[i]?.getD .undefined) := eval_position i
  cases m with
  | any => exact ⟨condition, fun _ => rfl, by simpa [Matcher.accepts] using hcondition⟩
  | strict s =>
    refine ⟨_, fun _ => rfl, Expr.eval_and hcondition fun _ => ?_⟩
    exact Expr.eval_operation (by decide) hactual (Site.eval_embed s)
  | deep s =>
    refine ⟨_, fun _ => rfl, Expr.eval_and hcondition fun _ => ?_⟩
    rw [eval_callPath OnlyArgs.list (ne_of_mem_stubNames hutil (by decide)).symm
      (Expr.evalArgs_cons rfl hactual (Expr.evalArgs_cons rfl (Site.eval_embed s) Expr.evalArgs_nil))]
    exact World.callNamed_util _ _

/-- The checks of the matchers from position `i` on, behind a condition that holds only if there are enough
arguments for them. -/
theorem eval_conditionGo (hutil : util ∉ stubNames) (ms : List Matcher) {i : Nat} {condition : Expr} {b : Bool}
    (hcondition : condition.eval w util [("args", .list args)] = .ok (.boolean b))
    (henough : b = true → i + ms.length ≤ args.length) :
    (conditionGo util i condition ms).eval w util [("args", .list args)] =
      .ok (.boolean (b && (ms.zip (args.drop i)).all fun p => p.1.accepts w p.2)) := by
  induction ms generalizing i condition b with
  | nil => simpa [conditionGo] using hcondition
  | cons m rest ih =>
    simp only [List.length_cons] at henough
    obtain ⟨next, hgo, hnext⟩ := eval_conditionStep hutil m i hcondition
    rw [hgo, ih hnext fun hb => by
      have := henough (Bool.and_eq_true_iff.mp hb).1
      omega]
    cases b with
    | false => rfl
    | true =>
      have hi : i < args.length := by
        have := henough rfl
        omega
      simp only [List.drop_eq_getElem_cons hi, List.zip_cons_cons, List.all_cons, Bool.true_and,
        List.getElem?_eq_getElem hi, Option.getD_some]

theorem eval_condition (hutil : util ∉ stubNames) (ms : List Matcher) :
    (condition util ms).eval w util [("args", .list args)] = .ok (.boolean (Matcher.acceptAll w ms args)) := by
  rw [condition, eval_conditionGo hutil ms (eval_enough ms.length) (by simp)]
  rfl

end Entry

/-! ### The merged function -/

theorem exec_branch (hutil : util ∉ stubNames) (ms : List Matcher) (r : StubResult) :
    (Stmt.ifThen (Entry.condition util ms) [r.statement]).exec w util [("args", .list args)] =
      if Matcher.acceptAll w ms args then some <$> (r.outcome w args).evaluation else .ok none := by
  rw [Stmt.exec_ifThen (Entry.eval_condition hutil ms), Stmt.execAll_cons_ends (r.exec_statement hutil)]

/-- Of the branches, the first one ends the call whose entry accepts the arguments; without one the last
statement does. -/
theorem execAll_branches (hutil : util ∉ stubNames) (entries : List Entry) {last : Stmt} {c : Completion α}
    (hlast : last.exec w util [("args", .list args)] = some <$> c.evaluation) :
    Stmt.execAll w util [("args", .list args)] (entries.filterMap (Entry.branch? util) ++ [last]) =
      some <$> Completion.evaluation (match entries.find? (·.accepts w args) with
        | some e => e.result.outcome w args
        | none => c) := by
  induction entries with
  | nil => exact Stmt.execAll_cons_ends hlast
  | cons e rest ih =>
    cases hmatchers : e.matchers with
    | none =>
      have hbranch : Entry.branch? util e = none := by simp [Entry.branch?, hmatchers]
      have haccepts : e.accepts w args = false := by simp [Entry.accepts, hmatchers]
      rw [List.filterMap_cons_none hbranch, List.find?_cons_of_neg (by simp [haccepts])]
      exact ih
    | some ms =>
      have hbranch : Entry.branch? util e = some (.ifThen (Entry.condition util ms) [e.result.statement]) := by
        simp [Entry.branch?, hmatchers]
      have haccepts : e.accepts w args = Matcher.acceptAll w ms args := by simp [Entry.accepts, hmatchers]
      have hexec : Stmt.exec w util [("args", .list args)] _ = _ := exec_branch hutil ms e.result
      rw [List.filterMap_cons_some hbranch, List.cons_append]
      cases hall : Matcher.acceptAll w ms args with
      | false =>
        rw [List.find?_cons_of_neg (by simp [haccepts, hall])]
        rw [hall] at hexec
        rw [Stmt.execAll_cons_none hexec]
        exact ih
      | true =>
        rw [List.find?_cons_of_pos (by simp [haccepts, hall])]
        rw [hall] at hexec
        exact Stmt.execAll_cons_ends hexec

theorem find_accepts_eq_none {entries : List Entry}
    (h : (entries.filterMap (Entry.branch? util)).isEmpty = true) :
    entries.find? (·.accepts w args) = none := by
  rw [List.isEmpty_iff, List.filterMap_eq_nil_iff] at h
  rw [List.find?_eq_none]
  intro e he
  have hmatchers : e.matchers = none := by simpa [Entry.branch?] using h e he
  simp [Entry.accepts, hmatchers]

/-- The function that is written for entries does what they say. The file's name for deep comparison must not
be one that the code uses itself: the parameter would hide a function of the name `args`. Of several entries for
all calls, the first one counts. -/
theorem implementation_invoke (w : World α) (hutil : util ∉ stubNames) (entries : List Entry)
    (args : List (Value α)) :
    (implementation util entries).invoke w util args = (stubOutcome w entries args).evaluation := by
  unfold implementation stubOutcome
  dsimp only
  split
  next hbranches =>
    rw [find_accepts_eq_none hbranches]
    cases entries.find? (·.matchers.isNone) with
    | some e => exact e.result.invoke_function hutil
    | none => exact Expr.invoke_arrow _ _
  next =>
    cases entries.find? (·.matchers.isNone) with
    | some e =>
      have hlast : e.result.statement.exec w util [("args", .list args)] =
          some <$> (e.result.outcome w args).evaluation := e.result.exec_statement hutil
      rw [Expr.invoke_arrowBlock (execAll_branches hutil entries hlast)]
      cases entries.find? (·.accepts w args) <;> rfl
    | none =>
      have hlast : (Stmt.return (.lit "undefined")).exec w util [("args", .list args)] =
          some <$> (Completion.returned .undefined).evaluation := Stmt.exec_return _
      rw [Expr.invoke_arrowBlock (execAll_branches hutil entries hlast)]
      cases entries.find? (·.accepts w args) <;> rfl

end

/-- For `f.withArgs(1, x).throws(); f.resolves(2);` the function throws when it is called with `1` and a value
like `x`, and a call with `1` alone gives a promise of `2`. -/
theorem implementation_invoke_throws :
    let site (kind : Kind) (start : Nat) : Site := { node := .mk .argument kind ⟨start, start + 1⟩ [] }
    let entries : List Entry := [
      { matchers := some [.strict (site .number 11), .deep (site .identifier 14)], result := .throws none },
      { matchers := none, result := .resolves (some (site .number 38)) }]
    let w : World String := {
      piece := fun span => if span.start = 14 then .given "x" else .number (if span.start = 11 then 1 else 2)
      same := fun
        | .number a, .number b => a == b
        | _, _ => false
      alike := fun
        | .given a, .given b => a == b
        | _, _ => false
      apply := fun _ _ => .returned .undefined
      property := fun _ _ => .undefined }
    let function := implementation "isDeepStrictEqual" entries
    "isDeepStrictEqual" ∉ stubNames ∧
      function.invoke w "isDeepStrictEqual" [.number 1, .given "x"] = .error (.thrown (.error none)) ∧
      function.invoke w "isDeepStrictEqual" [.number 1] = .ok (.fulfilled (.number 2)) := by
  intro site entries w function
  have hutil : "isDeepStrictEqual" ∉ stubNames := by decide
  exact ⟨hutil, implementation_invoke w hutil entries _, implementation_invoke w hutil entries _⟩

end TestMigration
