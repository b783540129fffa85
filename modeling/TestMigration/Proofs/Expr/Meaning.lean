import TestMigration.Expr.Basic

/-!
# What synthesised functions do

An evaluator for the expressions and statements that merged stubs are written in. What the code takes from
outside is a `World`: the values of the pieces of the file that it embeds, the two ways to compare values, and
what a function of the file does when it is called. Variables are the parameters of the function; a name that
is no variable is one of the functions that the language or the file has.

Code that none of the rules speaks about is `meaningless`, which is kept apart from code that throws.

The evaluator is not unfolded elsewhere: for each form of code that it gives a meaning to, there is a rule that
says what the code comes to when its parts come to values.
-/

namespace TestMigration

/-- Values of running code; those of the type `α` come from outside. -/
inductive Value (α : Type) where
  | given (a : α)
  | undefined
  | boolean (b : Bool)
  | number (n : Nat)
  | list (items : List (Value α))
  | record (fields : List (String × Value α))
  /-- A new error, with its name if it was given one. -/
  | error (name : Option (Value α))
  | fulfilled (v : Value α)
  | rejected (v : Value α)

/-- How a call ends. -/
inductive Completion (α : Type) where
  | returned (v : Value α)
  | thrown (v : Value α)

/-- Why code gives no value. -/
inductive Failure (α : Type) where
  | thrown (v : Value α)
  | meaningless

/-- What running code comes to, unless it fails. -/
abbrev Evaluation (α β : Type) := Except (Failure α) β

/-- What a call comes to that ends so. -/
def Completion.evaluation {α : Type} : Completion α → Evaluation α (Value α)
  | returned v => .ok v
  | thrown v => .error (.thrown v)

/-- What code takes from outside. -/
structure World (α : Type) where
  /-- What a piece of the file denotes. -/
  piece : Span → Value α
  /-- Comparison with `===`. -/
  same : Value α → Value α → Bool
  /-- Deep comparison. -/
  alike : Value α → Value α → Bool
  /-- What a function does that the file has or is given. -/
  apply : Value α → List (Value α) → Completion α
  /-- What a list gives for a key that is no position. -/
  property : List (Value α) → Value α → Value α

namespace World

variable {α : Type} (w : World α)

def item (items : List (Value α)) : Value α → Value α
  | .number i => items[i]?.getD .undefined
  | key => w.property items key

def callNamed (util name : String) (vs : List (Value α)) : Evaluation α (Value α) :=
  if name = util then
    match vs with
    | [a, b] => .ok (.boolean (w.alike a b))
    | _ => .error .meaningless
  else
    match name, vs with
    | "Promise.resolve", [v] => .ok (.fulfilled v)
    | "Promise.reject", [v] => .ok (.rejected v)
    | "Object.assign", [.error _, .record [("name", v)]] => .ok (.error (some v))
    | _, _ => .error .meaningless

end World

/-- The value of a literal token: decimal digits or `undefined`. -/
def Value.ofToken {α : Type} (token : String) : Evaluation α (Value α) :=
  if token.toList ≠ [] ∧ token.toList.all Char.isDigit then
    .ok (.number (Nat.ofDigitChars 10 token.toList 0))
  else if token = "undefined" then .ok .undefined
  else .error .meaningless

/-- `left op right` for values. -/
def Value.operate {α : Type} (w : World α) (left : Value α) (op : String) (right : Value α) :
    Evaluation α (Value α) :=
  match op, left, right with
  | "===", a, b => .ok (.boolean (w.same a b))
  | ">=", .number a, .number b => .ok (.boolean (b ≤ a))
  | _, _, _ => .error .meaningless

/-- The variables of a function that is called with the given arguments. -/
def bindParams {α : Type} : List String → List (Value α) → List (String × Value α)
  | [], _ => []
  | p :: rest, vs =>
    match p.toList with
    | '.' :: '.' :: '.' :: name => [(String.ofList name, .list vs)]
    | _ => (p, vs.headD .undefined) :: bindParams rest vs.tail

/-- The name that an expression is, if no variable has it. -/
def Expr.globalName? {α : Type} (vars : List (String × Value α)) : Expr → Option String
  | .ident name => if (vars.lookup name).isNone then some name else none
  | _ => none

def Expr.isSpread : Expr → Bool
  | .unary op _ => op == "..."
  | _ => false

section
variable {α : Type} (w : World α) (util : String) (vars : List (String × Value α))

mutual

/-- The value of an expression; that of `...e` is the list that it stands for. -/
def Expr.eval : Expr → Evaluation α (Value α)
  | .source span _ => .ok (w.piece span)
  | .lit token => Value.ofToken token
  | .ident name =>
    match vars.lookup name with
    | some v => .ok v
    | none => .error .meaningless
  | .member object property => do
    match ← object.eval, property with
    | .list items, "length" => .ok (.number items.length)
    | _, _ => .error .meaningless
  | .index object index => do
    match ← object.eval with
    | .list items => return w.item items (← index.eval)
    | _ => .error .meaningless
  | .call callee args => do
    match callee.globalName? vars with
    | some name => w.callNamed util name (← Expr.evalArgs args)
    | none => (w.apply (← callee.eval) (← Expr.evalArgs args)).evaluation
  | .new callee args =>
    match callee.globalName? vars, args with
    | some "Error", [] => .ok (.error none)
    | _, _ => .error .meaningless
  | .binary left op right => do
    if op = "&&" then
      match ← left.eval with
      | .boolean true => right.eval
      | .boolean false => .ok (.boolean false)
      | _ => .error .meaningless
    else Value.operate w (← left.eval) op (← right.eval)
  | .object fields => do return .record (← Property.evalAll fields)
  | .unary op operand => if op = "..." then operand.eval else .error .meaningless
  | _ => .error .meaningless

/-- The values of arguments; `...e` stands for all items of a list. -/
def Expr.evalArgs : List Expr → Evaluation α (List (Value α))
  | [] => .ok []
  | e :: rest => do
    let v ← e.eval
    let vs ← Expr.evalArgs rest
    match e.isSpread, v with
    | false, v => return v :: vs
    | true, .list items => return items ++ vs
    | true, _ => .error .meaningless

/-- The values of fields by their keys. -/
def Property.evalAll : List Property → Evaluation α (List (String × Value α))
  | [] => .ok []
  | .mk key value :: rest => do return (key, ← value.eval) :: (← Property.evalAll rest)

end

mutual

/-- The value that a statement returns, or none if the next one is to be run. -/
def Stmt.exec : Stmt → Evaluation α (Option (Value α))
  | .ifThen condition body => do
    match ← condition.eval w util vars with
    | .boolean true => Stmt.execAll body
    | .boolean false => .ok none
    | _ => .error .meaningless
  | .returnNothing => .ok (some .undefined)
  | .return value => do return some (← value.eval w util vars)
  | .throw value => do .error (.thrown (← value.eval w util vars))
  | .expr value => do
    let _ ← value.eval w util vars
    return none

/-- The value that the first statement returns that returns one. -/
def Stmt.execAll : List Stmt → Evaluation α (Option (Value α))
  | [] => .ok none
  | s :: rest => do
    match ← s.exec with
    | some v => .ok (some v)
    | none => Stmt.execAll rest

end

end

/-- What the function does that an expression denotes when it is called with the arguments. -/
def Expr.invoke {α : Type} (w : World α) (util : String) (args : List (Value α)) : Expr → Evaluation α (Value α)
  | .arrow params body => body.eval w util (bindParams params args)
  | .arrowBlock params body => do
    match ← Stmt.execAll w util (bindParams params args) body with
    | some v => return v
    | none => return .undefined
  | e => do (w.apply (← e.eval w util []) args).evaluation

/-! ### Rules -/

section
variable {α : Type} {w : World α} {util : String} {vars : List (String × Value α)}

namespace Expr

variable {e e' : Expr} {es : List Expr} {v v' : Value α} {vs items : List (Value α)} {name op : String}

theorem eval_source (span : Span) (prec : Nat) : (source span prec).eval w util vars = .ok (w.piece span) := rfl

theorem eval_lit (token : String) : (lit token).eval w util vars = Value.ofToken token := rfl

theorem eval_variable (h : vars.lookup name = some v) : (ident name).eval w util vars = .ok v := by
  show (match vars.lookup name with
    | some v => Except.ok v
    | none => Except.error Failure.meaningless) = _
  rw [h]

theorem eval_length (he : e.eval w util vars = .ok (.list items)) :
    (member e "length").eval w util vars = .ok (.number items.length) := by
  show (e.eval w util vars >>= _) = _
  rw [he]
  rfl

theorem eval_item (he : e.eval w util vars = .ok (.list items)) (he' : e'.eval w util vars = .ok v) :
    (index e e').eval w util vars = .ok (w.item items v) := by
  show (e.eval w util vars >>= _) = _
  rw [he]
  show (e'.eval w util vars >>= _) = _
  rw [he']
  rfl

theorem eval_callNamed (he : e.globalName? vars = some name) (hes : evalArgs w util vars es = .ok vs) :
    (call e es).eval w util vars = w.callNamed util name vs := by
  show (match e.globalName? vars with
    | some name => evalArgs w util vars es >>= _
    | none => _) = _
  rw [he, hes]
  rfl

theorem eval_call (hname : e.globalName? vars = none) (he : e.eval w util vars = .ok v)
    (hes : evalArgs w util vars es = .ok vs) : (call e es).eval w util vars = (w.apply v vs).evaluation := by
  show (match e.globalName? vars with
    | some name => _
    | none => e.eval w util vars >>= fun v => evalArgs w util vars es >>= _) = _
  rw [hname, he, hes]
  rfl

theorem eval_newError (he : e.globalName? vars = some "Error") :
    (new e []).eval w util vars = .ok (.error none) := by
  show (match e.globalName? vars, ([] : List Expr) with
    | some "Error", [] => Except.ok (Value.error none)
    | _, _ => Except.error Failure.meaningless) = _
  rw [he]
  rfl

/-- The second operand of `&&` counts only if the first one holds. -/
theorem eval_and {b b' : Bool} (he : e.eval w util vars = .ok (.boolean b))
    (he' : b = true → e'.eval w util vars = .ok (.boolean b')) :
    (binary e "&&" e').eval w util vars = .ok (.boolean (b && b')) := by
  show (e.eval w util vars >>= _) = _
  rw [he]
  cases b with
  | false => rfl
  | true => exact he' rfl

theorem eval_operation (hop : op ≠ "&&") (he : e.eval w util vars = .ok v)
    (he' : e'.eval w util vars = .ok v') :
    (binary e op e').eval w util vars = Value.operate w v op v' := by
  show (if op = "&&" then _ else e.eval w util vars >>= fun v => e'.eval w util vars >>= _) = _
  rw [if_neg hop, he, he']
  rfl

theorem eval_object {fields : List Property} {vs : List (String × Value α)}
    (h : Property.evalAll w util vars fields = .ok vs) :
    (object fields).eval w util vars = .ok (.record vs) := by
  show (Property.evalAll w util vars fields >>= _) = _
  rw [h]
  rfl

theorem evalArgs_nil : evalArgs w util vars [] = .ok [] := rfl

theorem evalArgs_cons (hspread : e.isSpread = false) (he : e.eval w util vars = .ok v)
    (hes : evalArgs w util vars es = .ok vs) : evalArgs w util vars (e :: es) = .ok (v :: vs) := by
  show (e.eval w util vars >>= fun v => evalArgs w util vars es >>= fun vs =>
    match e.isSpread, v with
    | false, v => pure (v :: vs)
    | true, .list items => pure (items ++ vs)
    | true, _ => .error .meaningless) = _
  rw [he, hes, hspread]
  rfl

theorem evalArgs_spread (he : e.eval w util vars = .ok (.list items)) :
    evalArgs w util vars [unary "..." e] = .ok items := by
  have happend : evalArgs w util vars [unary "..." e] = .ok (items ++ []) := by
    show (e.eval w util vars >>= _) = _
    rw [he]
    rfl
  rw [happend, List.append_nil]

end Expr

theorem Property.evalAll_singleton {key : String} {e : Expr} {v : Value α} (he : e.eval w util vars = .ok v) :
    Property.evalAll w util vars [.mk key e] = .ok [(key, v)] := by
  show (e.eval w util vars >>= _) = _
  rw [he]
  rfl

namespace Stmt

variable {e : Expr} {s : Stmt} {body rest : List Stmt} {v : Value α}

theorem exec_ifThen {b : Bool} (he : e.eval w util vars = .ok (.boolean b)) :
    (ifThen e body).exec w util vars = if b then execAll w util vars body else .ok none := by
  show (e.eval w util vars >>= _) = _
  rw [he]
  cases b <;> rfl

theorem exec_return (e : Expr) : (Stmt.return e).exec w util vars = some <$> e.eval w util vars := rfl

theorem exec_throw (he : e.eval w util vars = .ok v) :
    (throw e).exec w util vars = .error (.thrown v) := by
  show (e.eval w util vars >>= _) = _
  rw [he]
  rfl

theorem execAll_cons_none (hs : s.exec w util vars = .ok none) :
    execAll w util vars (s :: rest) = execAll w util vars rest := by
  show (s.exec w util vars >>= _) = _
  rw [hs]
  rfl

theorem execAll_cons_ends {c : Completion α} (hs : s.exec w util vars = some <$> c.evaluation) :
    execAll w util vars (s :: rest) = some <$> c.evaluation := by
  show (s.exec w util vars >>= _) = _
  rw [hs]
  cases c <;> rfl

end Stmt

namespace Expr

variable {args : List (Value α)} {params : List String} {body : List Stmt}

theorem invoke_arrow (params : List String) (e : Expr) :
    (arrow params e).invoke w util args = e.eval w util (bindParams params args) := rfl

theorem invoke_arrowBlock {c : Completion α}
    (hbody : Stmt.execAll w util (bindParams params args) body = some <$> c.evaluation) :
    (arrowBlock params body).invoke w util args = c.evaluation := by
  show (Stmt.execAll w util (bindParams params args) body >>= _) = _
  rw [hbody]
  cases c <;> rfl

end Expr

end

end TestMigration
