import TestMigration.Expr.Embed
import TestMigration.Import.Target
import TestMigration.Proofs.Expr.Reading

/-!
# Names in synthesised code

Synthesised code names things in two ways. `Expr.idents` lists the identifiers and dotted paths that it writes itself.
`Expr.placed` lists the embedded spans, each with the parameters of the functions around it: a name that
occurs free in such a span means the parameter once the code is printed (`Captures`).

Most code is `Simple`: it has no functions, so nothing is captured in it.
-/

namespace TestMigration

def paramName (param : String) : String := (restName? param).getD param

mutual

/-- The embedded spans of an expression, each with the names that are bound there. -/
def Expr.placed (bound : List String) : Expr → List (List String × Span)
  | .source span _ => [(bound, span)]
  | .ident _ | .str _ | .lit _ => []
  | .member e _ | .optionalMember e _ | .unary _ e => e.placed bound
  | .index e i | .optionalIndex e i => e.placed bound ++ i.placed bound
  | .call e args | .new e args => e.placed bound ++ Expr.placedAll bound args
  | .binary l _ r => l.placed bound ++ r.placed bound
  | .arrow params body => body.placed (params.map paramName ++ bound)
  | .arrowBlock params body => Stmt.placedAll (params.map paramName ++ bound) body
  | .object fields => Property.placedAll bound fields
  | .array items => Expr.placedAll bound items

def Expr.placedAll (bound : List String) : List Expr → List (List String × Span)
  | [] => []
  | e :: rest => e.placed bound ++ Expr.placedAll bound rest

def Stmt.placed (bound : List String) : Stmt → List (List String × Span)
  | .ifThen condition body => condition.placed bound ++ Stmt.placedAll bound body
  | .returnNothing => []
  | .return value | .throw value | .expr value => value.placed bound

def Stmt.placedAll (bound : List String) : List Stmt → List (List String × Span)
  | [] => []
  | s :: rest => s.placed bound ++ Stmt.placedAll bound rest

def Property.placed (bound : List String) : Property → List (List String × Span)
  | .mk _ value => value.placed bound

def Property.placedAll (bound : List String) : List Property → List (List String × Span)
  | [] => []
  | p :: rest => p.placed bound ++ Property.placedAll bound rest

end

mutual

/-- The identifiers and dotted paths that an expression writes. -/
def Expr.idents : Expr → List String
  | .ident name => [name]
  | .source _ _ | .str _ | .lit _ => []
  | .member e _ | .optionalMember e _ | .unary _ e | .arrow _ e => e.idents
  | .index e i | .optionalIndex e i => e.idents ++ i.idents
  | .call e args | .new e args => e.idents ++ Expr.identsAll args
  | .binary l _ r => l.idents ++ r.idents
  | .arrowBlock _ body => Stmt.identsAll body
  | .object fields => Property.identsAll fields
  | .array items => Expr.identsAll items

def Expr.identsAll : List Expr → List String
  | [] => []
  | e :: rest => e.idents ++ Expr.identsAll rest

def Stmt.idents : Stmt → List String
  | .ifThen condition body => condition.idents ++ Stmt.identsAll body
  | .returnNothing => []
  | .return value | .throw value | .expr value => value.idents

def Stmt.identsAll : List Stmt → List String
  | [] => []
  | s :: rest => s.idents ++ Stmt.identsAll rest

def Property.idents : Property → List String
  | .mk _ value => value.idents

def Property.identsAll : List Property → List String
  | [] => []
  | p :: rest => p.idents ++ Property.identsAll rest

end

/-- A name that occurs free in one of the spans is bound there; `free` says which names occur free in a
span. -/
def CapturesAmong (free : Span → List String) (placed : List (List String × Span)) : Prop :=
  ∃ p ∈ placed, ∃ x ∈ p.1, x ∈ free p.2

/-- A name that occurs free in an embedded span is a parameter of a function around it. -/
def Captures (free : Span → List String) (e : Expr) : Prop := CapturesAmong free (e.placed [])

section
variable {free : Span → List String}

@[simp] theorem not_capturesAmong_nil : ¬ CapturesAmong free [] := by simp [CapturesAmong]

@[simp] theorem capturesAmong_append (placed placed' : List (List String × Span)) :
    CapturesAmong free (placed ++ placed') ↔ CapturesAmong free placed ∨ CapturesAmong free placed' := by
  simp [CapturesAmong, or_and_right, exists_or]

@[simp] theorem capturesAmong_cons (p : List String × Span) (placed : List (List String × Span)) :
    CapturesAmong free (p :: placed) ↔ (∃ x ∈ p.1, x ∈ free p.2) ∨ CapturesAmong free placed := by
  simp [CapturesAmong]

@[simp] theorem capturesAmong_map (bound : List String) (args : List Site) :
    CapturesAmong free (args.map fun a => (bound, a.span)) ↔ ∃ a ∈ args, ∃ x ∈ bound, x ∈ free a.span := by
  constructor
  · rintro ⟨p, hp, x, hx, hfree⟩
    obtain ⟨a, ha, rfl⟩ := List.mem_map.mp hp
    exact ⟨a, ha, x, hx, hfree⟩
  · rintro ⟨a, ha, x, hx, hfree⟩
    exact ⟨_, List.mem_map_of_mem ha, x, hx, hfree⟩

end

/-- Nodes that stand in a function, each with the parameter of that function. -/
def below (param : String) (args : List Site) : List (String × Site) := args.map (param, ·)

@[simp] theorem exists_mem_below {free : Span → List String} (param : String) (args : List Site) :
    (∃ p ∈ below param args, p.1 ∈ free p.2.span) ↔ ∃ a ∈ args, param ∈ free a.span := by
  constructor
  · rintro ⟨p, hp, hfree⟩
    obtain ⟨a, ha, rfl⟩ := List.mem_map.mp hp
    exact ⟨a, ha, hfree⟩
  · rintro ⟨a, ha, hfree⟩
    exact ⟨_, List.mem_map_of_mem ha, hfree⟩

/-- What a piece of code names and encloses: all identifiers that it writes satisfy `P`, and a name is
captured just if it occurs free in a node below the parameter of that name. -/
structure Composed (P : String → Prop) (enclosed : List (String × Site)) (e : Expr) : Prop where
  idents : ∀ x ∈ e.idents, P x
  captures : ∀ free, Captures free e ↔ ∃ p ∈ enclosed, p.1 ∈ free p.2.span

/-- The path goes through the name under which the file knows what is needed. -/
def Names.Leads (names : Names) : ModuleKind → String → Prop
  | .assert, path => ∃ method, path = names.assert ++ "." ++ method
  | .mock, path => ∃ method, path = names.mock ++ "." ++ method
  | .util, path => path = names.util
  | .test, _ => False

/-- The other names that rules write: globals, parameters, and the registration functions behind aliases. -/
def ownNames : List String :=
  ["Object.hasOwn", "Object.assign", "Array.isArray", "Number.isNaN", "Promise", "Promise.resolve",
    "Promise.reject", "Error", "actual", "err", "call", "args", "describe.only", "describe.skip", "it.only",
    "it.skip"]

/-- The path leads to something needed, or is one of the other names that rules write. -/
def Spelled (names : Names) (needed : List ModuleKind) (path : String) : Prop :=
  (∃ kind ∈ needed, names.Leads kind path) ∨ path ∈ ownNames

/-! ### Lists of embedded nodes -/

@[simp] theorem placed_embed (bound : List String) (s : Site) : s.embed.placed bound = [(bound, s.span)] := rfl

@[simp] theorem placedAll_embed (bound : List String) (args : List Site) :
    Expr.placedAll bound (args.map Site.embed) = args.map fun a => (bound, a.span) := by
  induction args with
  | nil => rfl
  | cons a args ih => simp only [List.map_cons, Expr.placedAll, placed_embed, ih, List.singleton_append]

@[simp] theorem idents_embed (s : Site) : s.embed.idents = [] := rfl

@[simp] theorem identsAll_embed (args : List Site) : Expr.identsAll (args.map Site.embed) = [] := by
  induction args with
  | nil => rfl
  | cons a args ih => simp only [List.map_cons, Expr.identsAll, idents_embed, ih, List.append_nil]

/-! ### Simple code -/

mutual

/-- The expression has no functions and all identifiers that it writes satisfy `P`. -/
def Expr.Simple (P : String → Prop) : Expr → Prop
  | .ident name => P name
  | .source _ _ | .str _ | .lit _ => True
  | .member e _ | .optionalMember e _ | .unary _ e => e.Simple P
  | .index e i | .optionalIndex e i => e.Simple P ∧ i.Simple P
  | .call e args | .new e args => e.Simple P ∧ Expr.SimpleAll P args
  | .binary l _ r => l.Simple P ∧ r.Simple P
  | .arrow _ _ | .arrowBlock _ _ => False
  | .object fields => Property.SimpleAll P fields
  | .array items => Expr.SimpleAll P items

def Expr.SimpleAll (P : String → Prop) : List Expr → Prop
  | [] => True
  | e :: rest => e.Simple P ∧ Expr.SimpleAll P rest

def Property.Simple (P : String → Prop) : Property → Prop
  | .mk _ value => value.Simple P

def Property.SimpleAll (P : String → Prop) : List Property → Prop
  | [] => True
  | p :: rest => p.Simple P ∧ Property.SimpleAll P rest

end

section
variable {P : String → Prop}

mutual

theorem Expr.Simple.placed_eq : ∀ {e : Expr}, e.Simple P → ∀ bound, ∀ p ∈ e.placed bound, p.1 = bound
  | .source _ _, _, bound, p, hp => by
    obtain rfl := List.mem_singleton.mp hp
    rfl
  | .ident _, _, _, _, hp | .str _, _, _, _, hp | .lit _, _, _, _, hp => by cases hp
  | .member e _, h, bound, p, hp | .optionalMember e _, h, bound, p, hp | .unary _ e, h, bound, p, hp =>
    Expr.Simple.placed_eq (e := e) h bound p hp
  | .index e i, h, bound, p, hp | .optionalIndex e i, h, bound, p, hp | .binary e _ i, h, bound, p, hp => by
    rcases List.mem_append.mp hp with hp | hp
    · exact Expr.Simple.placed_eq h.1 bound p hp
    · exact Expr.Simple.placed_eq h.2 bound p hp
  | .call e args, h, bound, p, hp | .new e args, h, bound, p, hp => by
    rcases List.mem_append.mp hp with hp | hp
    · exact Expr.Simple.placed_eq h.1 bound p hp
    · exact Expr.SimpleAll.placed_eq h.2 bound p hp
  | .arrow _ _, h, _, _, _ | .arrowBlock _ _, h, _, _, _ => False.elim h
  | .object fields, h, bound, p, hp => Property.SimpleAll.placed_eq h bound p hp
  | .array items, h, bound, p, hp => Expr.SimpleAll.placed_eq h bound p hp

theorem Expr.SimpleAll.placed_eq :
    ∀ {es : List Expr}, Expr.SimpleAll P es → ∀ bound, ∀ p ∈ Expr.placedAll bound es, p.1 = bound
  | [], _, _, _, hp => by cases hp
  | e :: es, h, bound, p, hp => by
    rcases List.mem_append.mp hp with hp | hp
    · exact Expr.Simple.placed_eq h.1 bound p hp
    · exact Expr.SimpleAll.placed_eq h.2 bound p hp

theorem Property.SimpleAll.placed_eq :
    ∀ {ps : List Property}, Property.SimpleAll P ps → ∀ bound, ∀ p ∈ Property.placedAll bound ps, p.1 = bound
  | [], _, _, _, hp => by cases hp
  | .mk _ e :: ps, h, bound, p, hp => by
    rcases List.mem_append.mp hp with hp | hp
    · exact Expr.Simple.placed_eq (e := e) h.1 bound p hp
    · exact Property.SimpleAll.placed_eq h.2 bound p hp

end

mutual

theorem Expr.Simple.idents : ∀ {e : Expr}, e.Simple P → ∀ x ∈ e.idents, P x
  | .ident _, h, x, hx => by
    obtain rfl := List.mem_singleton.mp hx
    exact h
  | .source _ _, _, _, hx | .str _, _, _, hx | .lit _, _, _, hx => by cases hx
  | .member e _, h, x, hx | .optionalMember e _, h, x, hx | .unary _ e, h, x, hx =>
    Expr.Simple.idents (e := e) h x hx
  | .index e i, h, x, hx | .optionalIndex e i, h, x, hx | .binary e _ i, h, x, hx => by
    rcases List.mem_append.mp hx with hx | hx
    · exact Expr.Simple.idents h.1 x hx
    · exact Expr.Simple.idents h.2 x hx
  | .call e args, h, x, hx | .new e args, h, x, hx => by
    rcases List.mem_append.mp hx with hx | hx
    · exact Expr.Simple.idents h.1 x hx
    · exact Expr.SimpleAll.idents h.2 x hx
  | .arrow _ _, h, _, _ | .arrowBlock _ _, h, _, _ => False.elim h
  | .object fields, h, x, hx => Property.SimpleAll.idents h x hx
  | .array items, h, x, hx => Expr.SimpleAll.idents h x hx

theorem Expr.SimpleAll.idents : ∀ {es : List Expr}, Expr.SimpleAll P es → ∀ x ∈ Expr.identsAll es, P x
  | [], _, _, hx => by cases hx
  | e :: es, h, x, hx => by
    rcases List.mem_append.mp hx with hx | hx
    · exact Expr.Simple.idents h.1 x hx
    · exact Expr.SimpleAll.idents h.2 x hx

theorem Property.SimpleAll.idents :
    ∀ {ps : List Property}, Property.SimpleAll P ps → ∀ x ∈ Property.identsAll ps, P x
  | [], _, _, hx => by cases hx
  | .mk _ e :: ps, h, x, hx => by
    rcases List.mem_append.mp hx with hx | hx
    · exact Expr.Simple.idents (e := e) h.1 x hx
    · exact Property.SimpleAll.idents h.2 x hx

end

theorem Expr.Simple.not_captures {e : Expr} (h : e.Simple P) (free : Span → List String) :
    ¬ CapturesAmong free (e.placed []) := by
  rintro ⟨p, hp, x, hx, -⟩
  rw [h.placed_eq [] p hp] at hx
  cases hx

theorem Expr.Simple.composed {e : Expr} {enclosed : List (String × Site)} (h : e.Simple P)
    (henclosed : enclosed = []) : Composed P enclosed e where
  idents := h.idents
  captures free := by simp [Captures, h.not_captures free, henclosed]

theorem simple_embed (s : Site) : s.embed.Simple P := trivial

theorem simpleAll_embed (args : List Site) : Expr.SimpleAll P (args.map Site.embed) := by
  induction args with
  | nil => trivial
  | cons a args ih => exact ⟨simple_embed a, ih⟩

end

end TestMigration
