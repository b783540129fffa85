import Mathlib.Data.List.Forall2
import Mathlib.Data.Option.Basic
import TestMigration.Assertion.Family

/-!
# Assertions of views that are read alike

The families of assertions look at the words of a view, at the kinds of their arguments and at the texts of those that
are strings. The pieces of the file in what they build are the value and the arguments, and nothing about the value
decides. So two views, of two files even, that have the same words with like arguments get the same answer, whatever is
put in place of their pieces.

Main statement: `Family.build_alike`.
-/

namespace Option.Rel

variable {α β γ δ : Type} {R : α → β → Prop} {Q : γ → δ → Prop}

theorem bind {x : Option α} {y : Option β} {f : α → Option γ} {g : β → Option δ} (h : Option.Rel R x y)
    (hfg : ∀ a b, R a b → Option.Rel Q (f a) (g b)) : Option.Rel Q (x.bind f) (y.bind g) := by
  cases h with
  | none => exact .none
  | some h => exact hfg _ _ h

theorem map {x : Option α} {y : Option β} {f : α → γ} {g : β → δ} (h : Option.Rel R x y)
    (hfg : ∀ a b, R a b → Q (f a) (g b)) : Option.Rel Q (x.map f) (y.map g) := by
  cases h with
  | none => exact .none
  | some h => exact .some (hfg _ _ h)

theorem orElse {x x' : Option α} {y y' : Option β} (h : Option.Rel R x y) (h' : Option.Rel R x' y') :
    Option.Rel R (x <|> x') (y <|> y') := by
  cases h with
  | none => exact h'
  | some h => exact .some h

theorem filter {x : Option α} {y : Option β} {p : α → Bool} {q : β → Bool} (h : Option.Rel R x y)
    (hpq : ∀ a b, R a b → p a = q b) : Option.Rel R (x.filter p) (y.filter q) := by
  cases h with
  | none => exact .none
  | @some a b h =>
    simp only [Option.filter_some, hpq a b h]
    split
    · exact .some h
    · exact .none

theorem filter_const {x : Option α} {y : Option β} (h : Option.Rel R x y) (c : Bool) :
    Option.Rel R (x.filter fun _ => c) (y.filter fun _ => c) :=
  h.filter fun _ _ _ => rfl

theorem isSome_eq {x : Option α} {y : Option β} (h : Option.Rel R x y) : x.isSome = y.isSome := by
  cases h with
  | none => rfl
  | some h => rfl

theorem of_eq {x y : Option α} (h : x = y) : Option.Rel (· = ·) x y := by
  subst h
  cases x with
  | none => exact .none
  | some a => exact .some rfl

end Option.Rel

namespace List.Forall₂

variable {α β : Type} {R : α → β → Prop} {l : List α} {l' : List β}

theorem isEmpty_eq (h : List.Forall₂ R l l') : l.isEmpty = l'.isEmpty := by
  cases h with
  | nil => rfl
  | cons _ _ => rfl

theorem head? (h : List.Forall₂ R l l') : Option.Rel R l.head? l'.head? := by
  cases h with
  | nil => exact .none
  | cons h _ => exact .some h

theorem getElem? (h : List.Forall₂ R l l') (i : Nat) : Option.Rel R l[i]? l'[i]? := by
  induction h generalizing i with
  | nil => exact .none
  | cons h _ ih =>
    cases i with
    | zero => exact .some h
    | succ i => exact ih i

end List.Forall₂

namespace TestMigration

/-! ### Readings -/

mutual

/-- The expression with something else in place of each piece of the file. -/
def Expr.fill (piece : Span → Nat → Expr) : Expr → Expr
  | .source span prec => piece span prec
  | .ident name => .ident name
  | .str content => .str content
  | .lit token => .lit token
  | .member e name => .member (e.fill piece) name
  | .optionalMember e name => .optionalMember (e.fill piece) name
  | .index e i => .index (e.fill piece) (i.fill piece)
  | .optionalIndex e i => .optionalIndex (e.fill piece) (i.fill piece)
  | .call e args => .call (e.fill piece) (Expr.fillAll piece args)
  | .new e args => .new (e.fill piece) (Expr.fillAll piece args)
  | .unary op e => .unary op (e.fill piece)
  | .binary l op r => .binary (l.fill piece) op (r.fill piece)
  | .arrow params e => .arrow params (e.fill piece)
  | .arrowBlock params body => .arrowBlock params (Stmt.fillAll piece body)
  | .object fields => .object (Property.fillAll piece fields)
  | .array items => .array (Expr.fillAll piece items)

def Expr.fillAll (piece : Span → Nat → Expr) : List Expr → List Expr
  | [] => []
  | e :: rest => e.fill piece :: Expr.fillAll piece rest

def Stmt.fill (piece : Span → Nat → Expr) : Stmt → Stmt
  | .ifThen condition body => .ifThen (condition.fill piece) (Stmt.fillAll piece body)
  | .returnNothing => .returnNothing
  | .return value => .return (value.fill piece)
  | .throw value => .throw (value.fill piece)
  | .expr value => .expr (value.fill piece)

def Stmt.fillAll (piece : Span → Nat → Expr) : List Stmt → List Stmt
  | [] => []
  | s :: rest => s.fill piece :: Stmt.fillAll piece rest

def Property.fill (piece : Span → Nat → Expr) : Property → Property
  | .mk key value => .mk key (value.fill piece)

def Property.fillAll (piece : Span → Nat → Expr) : List Property → List Property
  | [] => []
  | p :: rest => p.fill piece :: Property.fillAll piece rest

end

attribute [simp] Expr.fill Expr.fillAll Stmt.fill Stmt.fillAll Property.fill Property.fillAll

/-- A file, with what each of its pieces is read as. -/
structure Reading where
  ctx : Context
  piece : Span → Nat → Expr

variable {a b : Reading} {v w : View}

/-- The expressions are the same when their pieces are read. -/
def Expr.Alike (a b : Reading) (e e' : Expr) : Prop := e.fill a.piece = e'.fill b.piece

theorem Expr.Alike.eq {e e' : Expr} (h : Expr.Alike a b e e') : e.fill a.piece = e'.fill b.piece := h

/-- The sites cannot be told apart by a family, and are read as the same. -/
structure Site.Alike (a b : Reading) (s t : Site) : Prop where
  kind : s.kind = t.kind
  stringValue : s.stringValue? a.ctx.source = t.stringValue? b.ctx.source
  embed : Expr.Alike a b s.embed t.embed

/-- The steps have the same name and like arguments. -/
structure Step.Alike (a b : Reading) (s t : Step) : Prop where
  name : s.name = t.name
  arguments : Option.Rel (List.Forall₂ (Site.Alike a b)) s.arguments? t.arguments?

namespace Step.Alike

variable {s t : Step}

theorem isCall (h : Step.Alike a b s t) : s.isCall = t.isCall := h.arguments.isSome_eq

theorem args (h : Step.Alike a b s t) : List.Forall₂ (Site.Alike a b) s.args t.args := by
  have harguments := h.arguments
  unfold Step.args
  generalize s.arguments? = x at harguments ⊢
  generalize t.arguments? = y at harguments ⊢
  cases harguments with
  | none => exact .nil
  | some h => exact h

end Step.Alike

/-- The views have the same flags, like words, and values that are read as the same. -/
structure View.Alike (a b : Reading) (v w : View) : Prop where
  value : Expr.Alike a b v.value w.value
  words : List.Forall₂ (Step.Alike a b) v.words w.words
  negated : v.negated = w.negated
  deep : v.deep = w.deep
  eventually : v.eventually = w.eventually
  nested : v.nested = w.nested
  own : v.own = w.own

namespace View.Alike

theorem single? (h : View.Alike a b v w) : Option.Rel (Step.Alike a b) v.single? w.single? := by
  have hwords := h.words
  unfold View.single?
  generalize v.words = l at hwords ⊢
  generalize w.words = l' at hwords ⊢
  cases hwords with
  | nil => exact .none
  | cons hword hrest =>
    cases hrest with
    | nil => exact .some hword
    | cons _ _ => exact .none

theorem called? (h : View.Alike a b v w) (names : List String) (least most : Nat) :
    Option.Rel (Step.Alike a b) (v.called? names least most) (w.called? names least most) :=
  h.single?.filter fun s t hst => by rw [hst.isCall, hst.name, hst.args.length_eq]

theorem bare? (h : View.Alike a b v w) (names : List String) :
    Option.Rel (Step.Alike a b) (v.bare? names) (w.bare? names) :=
  h.single?.filter fun s t hst => by rw [hst.name, hst.args.isEmpty_eq]

theorem positive (h : View.Alike a b v w) : View.Alike a b v.positive w.positive :=
  ⟨h.value, h.words, rfl, h.deep, h.eventually, h.nested, h.own⟩

end View.Alike

namespace Assertion

/-- Both answers are none, or both are expressions that are read as the same. -/
abbrev Answers (a b : Reading) : Option Expr → Option Expr → Prop := Option.Rel (Expr.Alike a b)

section
variable (hnames : a.ctx.names = b.ctx.names)
include hnames

theorem alike_assertCall {method : String} {es es' : List Expr}
    (h : Expr.fillAll a.piece es = Expr.fillAll b.piece es') :
    Expr.Alike a b (assertCall a.ctx method es) (assertCall b.ctx method es') := by
  simp only [Expr.Alike, assertCall, Expr.callPath, Expr.fill, hnames, h]

theorem alike_predicate {e e' : Expr} (h : Expr.Alike a b e e') (negated : Bool) :
    Expr.Alike a b (predicate a.ctx e negated) (predicate b.ctx e' negated) := by
  unfold predicate
  split
  · exact alike_assertCall hnames (by simp only [Expr.fillAll, Expr.fill, h.eq])
  · exact alike_assertCall hnames (by simp only [Expr.fillAll, h.eq])

end

theorem fillAll_embed {sites sites' : List Site} (h : List.Forall₂ (Site.Alike a b) sites sites') :
    Expr.fillAll a.piece (sites.map Site.embed) = Expr.fillAll b.piece (sites'.map Site.embed) := by
  induction h with
  | nil => rfl
  | cons h _ ih => simp only [List.map_cons, Expr.fillAll, h.embed.eq, ih]

theorem alike_method {e e' : Expr} {name : String} {es es' : List Expr} (h : Expr.Alike a b e e')
    (hes : Expr.fillAll a.piece es = Expr.fillAll b.piece es') :
    Expr.Alike a b (e.method name es) (e'.method name es') := by
  simp only [Expr.Alike, Expr.method, Expr.fill, h.eq, hes]

theorem alike_lit (token : String) : Expr.Alike a b (.lit token) (.lit token) := by
  simp only [Expr.Alike, Expr.fill]

theorem alike_binary {l l' r r' : Expr} {op : String} (hl : Expr.Alike a b l l') (hr : Expr.Alike a b r r') :
    Expr.Alike a b (.binary l op r) (.binary l' op r') := by
  simp only [Expr.Alike, Expr.fill, hl.eq, hr.eq]

theorem alike_property {e e' : Expr} (h : Expr.Alike a b e e') (name : String) :
    Expr.Alike a b (e.property name) (e'.property name) := by
  unfold Expr.property
  split
  · simp only [Expr.Alike, Expr.fill, h.eq]
  · simp only [Expr.Alike, Expr.fill, h.eq]

theorem alike_foldl_optionalProperty (segments : List String) {e e' : Expr} (h : Expr.Alike a b e e') :
    Expr.Alike a b (segments.foldl Expr.optionalProperty e) (segments.foldl Expr.optionalProperty e') := by
  induction segments generalizing e e' with
  | nil => exact h
  | cons name segments ih =>
    refine ih ?_
    unfold Expr.optionalProperty
    split
    · simp only [Expr.Alike, Expr.fill, h.eq]
    · simp only [Expr.Alike, Expr.fill, h.eq]

theorem literalArgument?_eq {s t : Step} (h : Step.Alike a b s t) (i : Nat) :
    literalArgument? a.ctx s i = literalArgument? b.ctx t i := by
  have hargument := h.args.getElem? i
  unfold literalArgument?
  generalize s.args[i]? = x at hargument ⊢
  generalize t.args[i]? = y at hargument ⊢
  cases hargument with
  | none => rfl
  | some h => exact h.stringValue

theorem literalArguments?_eq {sites sites' : List Site} (h : List.Forall₂ (Site.Alike a b) sites sites') :
    literalArguments? a.ctx sites = literalArguments? b.ctx sites' := by
  induction h with
  | nil => rfl
  | cons h _ ih => simp only [literalArguments?, h.stringValue, ih]

/-- What an error has to match does not depend on more than what is read. -/
theorem alike_errorMatcher? {args args' : List Site} (h : List.Forall₂ (Site.Alike a b) args args') :
    Option.Rel (fun es es' => Expr.fillAll a.piece es = Expr.fillAll b.piece es') (errorMatcher? args)
      (errorMatcher? args') := by
  rcases h with _ | ⟨hfirst, _ | ⟨hsecond, _ | _⟩⟩
  · exact .some rfl
  · unfold errorMatcher?
    simp only [hfirst.kind]
    split
    · exact .some (by simp only [Expr.fillAll, Expr.fill, Property.fillAll, Property.fill, hfirst.embed.eq])
    · exact .some (by simp only [Expr.fillAll, Expr.fill, Property.fillAll, Property.fill, hfirst.embed.eq])
    · exact .some (by simp only [Expr.fillAll, hfirst.embed.eq])
  · unfold errorMatcher?
    simp only [hsecond.kind]
    split
    · exact .some (by simp only [Expr.fillAll, Expr.fill, hfirst.embed.eq, hsecond.embed.eq])
    · exact .some (by simp only [Expr.fillAll, Expr.fill, hfirst.embed.eq, hsecond.embed.eq])
    · exact .some (by
        simp only [Expr.fillAll, Expr.fill, Expr.method, hfirst.embed.eq, hsecond.embed.eq])
    · exact .none
  · exact .none

/-! ### The families -/

section
variable (hnames : a.ctx.names = b.ctx.names) (h : View.Alike a b v w)
include hnames h

theorem deepEquality_alike : Answers a b (deepEquality a.ctx v) (deepEquality b.ctx w) := by
  unfold deepEquality
  rw [h.deep, h.negated]
  have hword := (h.called? ["eql", "eqls", "deepEqual"] 1 2).orElse
    ((h.called? ["equal", "equals", "eq"] 1 2).filter_const w.deep)
  refine hword.bind fun s t hst => .some ?_
  exact alike_assertCall hnames (by simp only [Expr.fillAll, h.value.eq, fillAll_embed hst.args])

theorem strictEquality_alike : Answers a b (strictEquality a.ctx v) (strictEquality b.ctx w) := by
  unfold strictEquality
  rw [h.deep, h.negated]
  refine Option.Rel.bind (.of_eq rfl) fun _ _ _ => (h.called? _ 1 2).bind fun s t hst => .some ?_
  exact alike_assertCall hnames (by simp only [Expr.fillAll, h.value.eq, fillAll_embed hst.args])

theorem exists'_alike : Expr.Alike a b (exists' a.ctx v) (exists' b.ctx w) := by
  unfold exists'
  rw [hnames, h.negated]
  split
  · exact alike_predicate hnames (alike_binary h.value (alike_lit _)) _
  · exact alike_assertCall hnames (by simp only [Expr.fillAll, Expr.fill, h.value.eq])

theorem existence_alike : Answers a b (existence a.ctx v) (existence b.ctx w) := by
  unfold existence
  refine (h.bare? _).bind fun s t hst => ?_
  rw [hst.name, h.negated]
  split
  · exact .some (exists'_alike hnames h)
  · exact .some (exists'_alike hnames h)
  · exact .some (alike_assertCall hnames (by simp only [Expr.fillAll, Expr.fill, h.value.eq]))
  · exact .some (alike_predicate hnames
      (by simp only [Expr.Alike, Expr.callPath, Expr.fill, Expr.fillAll, h.value.eq]) _)
  · exact .some (alike_assertCall hnames (by simp only [Expr.fillAll, Expr.fill, h.value.eq]))

theorem boolean_alike : Answers a b (boolean a.ctx v) (boolean b.ctx w) := by
  unfold boolean
  refine (h.bare? _).bind fun s t hst => ?_
  rw [hst.name, h.negated]
  split
  · split
    · exact .none
    · exact .some (alike_assertCall hnames (by simp only [Expr.fillAll, h.value.eq]))
  · exact .some (alike_assertCall hnames (by simp only [Expr.fillAll, Expr.fill, h.value.eq]))

theorem throws_alike : Answers a b (throws a.ctx v) (throws b.ctx w) := by
  unfold throws
  refine h.single?.bind fun s t hst => ?_
  rw [hst.name, h.negated, hst.args.isEmpty_eq]
  refine Option.Rel.bind (.of_eq rfl) fun _ _ _ => ?_
  split
  · refine Option.Rel.bind (.of_eq rfl) fun _ _ _ => .some ?_
    exact alike_assertCall hnames (by simp only [Expr.fillAll, h.value.eq])
  · refine (alike_errorMatcher? hst.args).bind fun es es' hes => .some ?_
    exact alike_assertCall hnames (by simp only [Expr.fillAll, h.value.eq, hes])

omit hnames in
theorem settledWord?_alike :
    Option.Rel (fun p q => Site.Alike a b p.1 q.1 ∧ p.2 = q.2) (settledWord? v) (settledWord? w) := by
  have hargument {x y : Option Step} (hxy : Option.Rel (Step.Alike a b) x y) (deep : Bool) :
      Option.Rel (fun p q : Site × Bool => Site.Alike a b p.1 q.1 ∧ p.2 = q.2)
        ((x.bind (·.args.head?)).map fun s => (s, deep)) ((y.bind (·.args.head?)).map fun s => (s, deep)) :=
    (hxy.bind fun s t hst => hst.args.head?).map fun s t hst => ⟨hst, rfl⟩
  unfold settledWord?
  rw [h.eventually, h.deep]
  refine (hargument (h.called? _ 1 1) false).orElse ((hargument (h.called? _ 1 1) true).orElse ?_)
  split
  · exact (hargument (h.called? _ 1 1) w.deep).orElse (hargument (h.called? _ 1 1) true)
  · exact .none

theorem promise_alike : Answers a b (promise a.ctx v) (promise b.ctx w) := by
  unfold promise
  rw [(h.bare? ["fulfilled", "resolved"]).isSome_eq, (h.bare? ["rejected"]).isSome_eq, h.negated]
  split
  · exact .some (alike_assertCall hnames (by simp only [Expr.fillAll, h.value.eq]))
  · split
    · exact .some (alike_assertCall hnames (by simp only [Expr.fillAll, h.value.eq]))
    · have hword := h.called? ["rejectedWith"] 1 2
      generalize v.called? ["rejectedWith"] 1 2 = x at hword ⊢
      generalize w.called? ["rejectedWith"] 1 2 = y at hword ⊢
      cases hword with
      | some hst =>
        dsimp only
        split
        · exact .none
        · refine (alike_errorMatcher? hst.args).map fun es es' hes => ?_
          exact alike_assertCall hnames (by simp only [Expr.fillAll, h.value.eq, hes])
      | none =>
        refine (settledWord?_alike h).map fun p q hpq => alike_method h.value ?_
        have hcheck : Expr.Alike a b (assertCall a.ctx (comparison p.2 w.negated) [.ident "actual", p.1.embed])
            (assertCall b.ctx (comparison p.2 w.negated) [.ident "actual", q.1.embed]) :=
          alike_assertCall hnames (by simp only [Expr.fillAll, Expr.fill, hpq.1.embed.eq])
        simp only [Expr.fillAll, Expr.fill, hcheck.eq, ← hpq.2]

theorem compareValue_alike {e e' x x' : Expr} (he : Expr.Alike a b e e') (hx : Expr.Alike a b x x') :
    Expr.Alike a b (compareValue a.ctx v e x) (compareValue b.ctx w e' x') := by
  unfold compareValue
  rw [h.deep, h.negated]
  exact alike_assertCall hnames (by simp only [Expr.fillAll, he.eq, hx.eq])

omit hnames in
theorem nestedPath?_alike :
    Option.Rel (fun p q => p.1 = q.1 ∧ Answers a b p.2 q.2) (nestedPath? a.ctx v) (nestedPath? b.ctx w) := by
  have hword := (h.called? ["property"] 1 2).filter_const w.nested
  have hsingle := h.single?
  unfold nestedPath?
  rw [h.nested]
  generalize (v.called? ["property"] 1 2).filter (fun _ => w.nested) = x at hword ⊢
  generalize (w.called? ["property"] 1 2).filter (fun _ => w.nested) = y at hword ⊢
  cases hword with
  | some hst =>
    dsimp only
    rw [literalArgument?_eq hst]
    refine Option.Rel.bind (.of_eq rfl) fun path path' hpath => ?_
    subst hpath
    exact .some ⟨rfl, (hst.args.getElem? 1).map fun s t h => h.embed⟩
  | none =>
    generalize v.single? = x at hsingle ⊢
    generalize w.single? = y at hsingle ⊢
    cases hsingle with
    | none => exact .none
    | some hst =>
      dsimp only
      rw [hst.isCall, hst.name, hst.args.isEmpty_eq, literalArguments?_eq hst.args]
      split
      · exact (Option.Rel.of_eq rfl).map fun segments segments' hsegments => ⟨hsegments, .none⟩
      · exact .none

theorem nestedProperty_alike : Answers a b (nestedProperty a.ctx v) (nestedProperty b.ctx w) := by
  refine (nestedPath?_alike h).bind fun p q hpq => ?_
  obtain ⟨segments, expected⟩ := p
  obtain ⟨segments', expected'⟩ := q
  obtain ⟨rfl, hexpected⟩ := hpq
  refine Option.Rel.bind (.of_eq rfl) fun _ _ _ => ?_
  have haccess := alike_foldl_optionalProperty segments h.value
  cases hexpected with
  | some he => exact .some (compareValue_alike hnames h haccess he)
  | none =>
    dsimp only
    rw [h.negated]
    exact .some (alike_assertCall hnames (by simp only [Expr.fillAll, Expr.fill, haccess.eq]))

theorem ownProperty_alike : Answers a b (ownProperty a.ctx v) (ownProperty b.ctx w) := by
  unfold ownProperty
  rw [h.own, h.negated]
  have hword := (h.called? ["ownProperty", "haveOwnProperty"] 1 1).orElse
    ((h.called? ["property"] 1 1).filter_const w.own)
  refine hword.bind fun s t hst => hst.args.head?.bind fun x y hxy => .some ?_
  refine alike_predicate hnames ?_ _
  simp only [Expr.Alike, Expr.callPath, Expr.fill, Expr.fillAll, h.value.eq, hxy.embed.eq]

theorem range_alike : Answers a b (range a.ctx v) (range b.ctx w) := by
  have hbounds := (h.called? ["within"] 2 2).map (Q := List.Forall₂ (Site.Alike a b)) fun s t hst => hst.args
  unfold range
  generalize (v.called? ["within"] 2 2).map Step.args = x at hbounds ⊢
  generalize (w.called? ["within"] 2 2).map Step.args = y at hbounds ⊢
  rcases hbounds with (_ | ⟨hlow, _ | ⟨hhigh, _ | _⟩⟩) | _
  case some.cons.cons.nil =>
    refine .some (alike_assertCall hnames ?_)
    unfold within
    rw [h.negated]
    split
    · simp only [Expr.fillAll, Expr.fill, h.value.eq, hlow.embed.eq, hhigh.embed.eq]
    · simp only [Expr.fillAll, Expr.fill, h.value.eq, hlow.embed.eq, hhigh.embed.eq]
  -- without two bounds it is a comparison with one
  all_goals
    refine h.single?.bind fun s t hst => ?_
    have hargs := hst.args
    rw [hst.name, h.negated]
    generalize s.args = l at hargs ⊢
    generalize t.args = l' at hargs ⊢
    rcases hargs with _ | ⟨hbound, _ | _⟩
    · exact .none
    · refine Option.Rel.bind (.of_eq rfl) fun p q hpq => ?_
      subst hpq
      exact .some (alike_assertCall hnames (by simp only [Expr.fillAll, Expr.fill, h.value.eq, hbound.embed.eq]))
    · exact .none

theorem affix_alike : Answers a b (affix a.ctx v) (affix b.ctx w) := by
  unfold affix
  refine (h.called? _ 1 1).bind fun s t hst => ?_
  rw [hst.name, h.negated]
  exact .some (alike_predicate hnames (alike_method h.value (fillAll_embed hst.args)) _)

theorem contained_alike : Answers a b (contained a.ctx v) (contained b.ctx w) := by
  unfold contained
  refine (h.called? _ 1 1).bind fun s t hst => ?_
  have hkinds : (s.args.any fun x => x.kind == .object || x.kind == .array) =
      t.args.any fun x => x.kind == .object || x.kind == .array := by
    have hargs := hst.args
    generalize s.args = l at hargs ⊢
    generalize t.args = l' at hargs ⊢
    induction hargs with
    | nil => rfl
    | cons hx _ ih => rw [List.any_cons, List.any_cons, hx.kind, ih]
  rw [h.deep, h.negated, hkinds]
  refine Option.Rel.bind (.of_eq rfl) fun _ _ _ => .some ?_
  exact alike_predicate hnames (alike_method h.value (fillAll_embed hst.args)) _

theorem matching_alike : Answers a b (matching a.ctx v) (matching b.ctx w) := by
  unfold matching
  rw [h.negated]
  refine (h.called? _ 1 1).bind fun s t hst => .some ?_
  exact alike_assertCall hnames (by simp only [Expr.fillAll, h.value.eq, fillAll_embed hst.args])

theorem instance'_alike : Answers a b (instance' a.ctx v) (instance' b.ctx w) := by
  unfold instance'
  rw [h.negated]
  refine (h.called? _ 1 1).bind fun s t hst => hst.args.head?.bind fun x y hxy => .some ?_
  exact alike_predicate hnames (alike_binary h.value hxy.embed) _

omit hnames in
theorem typeName?_eq : typeName? a.ctx v = typeName? b.ctx w := by
  have hword := h.called? ["a", "an", "type"] 1 1
  have hbare := h.bare? ["Array", "Object", "String", "Number", "Boolean", "Function", "Promise"]
  unfold typeName?
  generalize v.called? ["a", "an", "type"] 1 1 = x at hword ⊢
  generalize w.called? ["a", "an", "type"] 1 1 = y at hword ⊢
  cases hword with
  | some hst => simp only [literalArgument?_eq hst]
  | none =>
    generalize v.bare? ["Array", "Object", "String", "Number", "Boolean", "Function", "Promise"] = x at hbare ⊢
    generalize w.bare? ["Array", "Object", "String", "Number", "Boolean", "Function", "Promise"] = y at hbare ⊢
    cases hbare with
    | none => rfl
    | some hst => simp only [Option.map_some, hst.name]

theorem typeCheck_alike : Answers a b (typeCheck a.ctx v) (typeCheck b.ctx w) := by
  unfold typeCheck
  rw [typeName?_eq h, h.negated]
  refine Option.Rel.bind (.of_eq rfl) fun name name' hname => .some (alike_predicate hnames ?_ _)
  subst hname
  split
  · simp only [Expr.Alike, Expr.callPath, Expr.fill, Expr.fillAll, h.value.eq]
  · split
    · simp only [Expr.Alike, Expr.fill, h.value.eq]
    · split
      · exact alike_binary h.value (alike_lit _)
      · simp only [Expr.Alike, Expr.fill, h.value.eq]

section
variable {onward onward' : Expr → Option Expr}
  (honward : ∀ e e', Expr.Alike a b e e' → Answers a b (onward e) (onward' e'))
include honward

theorem property_alike : Answers a b (property a.ctx v onward) (property b.ctx w onward') := by
  unfold property
  rw [h.own, h.nested, h.negated]
  refine h.words.head?.bind fun s t hst => ?_
  rw [hst.name, hst.isCall, literalArgument?_eq hst]
  refine Option.Rel.bind (.of_eq rfl) fun _ _ _ => Option.Rel.bind (.of_eq rfl) fun name name' hname => ?_
  subst hname
  have hargs := hst.args
  have hwords := h.words
  have haccess := alike_property h.value name
  generalize s.args = l at hargs ⊢
  generalize t.args = l' at hargs ⊢
  generalize v.words = l at hwords ⊢
  generalize w.words = l' at hwords ⊢
  rcases hargs with _ | ⟨hkey, _ | ⟨hexpected, _ | _⟩⟩
  · exact .none
  · rcases hwords with _ | ⟨_, _ | _⟩
    · exact honward _ _ haccess
    · exact .some (alike_predicate hnames (alike_binary hkey.embed h.value) _)
    · exact honward _ _ haccess
  · rcases hwords with _ | ⟨_, _ | _⟩
    · exact .none
    · exact .some (compareValue_alike hnames h haccess hexpected.embed)
    · exact .none
  · exact .none

theorem length_alike : Answers a b (length a.ctx v onward) (length b.ctx w onward') := by
  unfold length
  rw [h.negated]
  refine h.words.head?.bind fun s t hst => ?_
  rw [hst.name]
  refine Option.Rel.bind (.of_eq rfl) fun _ _ _ => ?_
  have harguments := hst.arguments
  have hwords := h.words
  have haccess : Expr.Alike a b (.member v.value "length") (.member w.value "length") := by
    simp only [Expr.Alike, Expr.fill, h.value.eq]
  generalize s.arguments? = x at harguments ⊢
  generalize t.arguments? = y at harguments ⊢
  generalize v.words = l at hwords ⊢
  generalize w.words = l' at hwords ⊢
  rcases harguments with (_ | ⟨hn, hmore⟩) | _
  · exact .none
  · rcases hwords with _ | ⟨_, _ | _⟩
    · exact .none
    · dsimp only
      rw [hmore.length_eq]
      split
      · exact .some (alike_assertCall hnames (by simp only [Expr.fillAll, haccess.eq, hn.embed.eq]))
      · exact .none
    · exact .none
  · rcases hwords with _ | ⟨_, _ | _⟩
    · exact .none
    · exact .none
    · exact honward _ _ haccess

theorem membershipWith_alike :
    Answers a b (membershipWith a.ctx v onward) (membershipWith b.ctx w onward') :=
  (nestedProperty_alike hnames h).orElse <| (ownProperty_alike hnames h).orElse <|
    (property_alike hnames h honward).orElse <| (length_alike hnames h honward).orElse <|
    (range_alike hnames h).orElse <| (affix_alike hnames h).orElse <| (contained_alike hnames h).orElse <|
    (matching_alike hnames h).orElse <| (instance'_alike hnames h).orElse <| typeCheck_alike hnames h

end

/-- What words say about a value that is reached, by induction on the words. -/
theorem buildSyncFrom_alike {words words' : List Step} (hwords : List.Forall₂ (Step.Alike a b) words words')
    {e e' : Expr} (he : Expr.Alike a b e e') :
    Answers a b (buildSyncFrom a.ctx v words e) (buildSyncFrom b.ctx w words' e') := by
  induction hwords generalizing e e' with
  | nil => exact .none
  | @cons s t rest rest' hst hrest ih =>
    have hview : View.Alike a b { v with words := s :: rest, value := e } { w with words := t :: rest', value := e' } :=
      ⟨he, .cons hst hrest, h.negated, h.deep, h.eventually, h.nested, h.own⟩
    exact (deepEquality_alike hnames hview).orElse <| (strictEquality_alike hnames hview).orElse <|
      (existence_alike hnames hview).orElse <| (boolean_alike hnames hview).orElse <|
      membershipWith_alike hnames hview fun _ _ => ih

theorem membership_alike : Answers a b (membership a.ctx v) (membership b.ctx w) := by
  refine membershipWith_alike hnames h fun e e' he => buildSyncFrom_alike hnames h ?_ he
  simpa using List.forall₂_drop 1 h.words

theorem Family.build_alike (f : Family) : Answers a b (f.build a.ctx v) (f.build b.ctx w) := by
  cases f with
  | promise => exact promise_alike hnames h
  | throws => exact throws_alike hnames h
  | deepEquality => exact deepEquality_alike hnames h
  | strictEquality => exact strictEquality_alike hnames h
  | existence => exact existence_alike hnames h
  | boolean => exact boolean_alike hnames h
  | membership => exact membership_alike hnames h

end

end Assertion

end TestMigration
