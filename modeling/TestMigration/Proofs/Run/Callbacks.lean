import TestMigration.Proofs.Run.Inspected
import TestMigration.Proofs.Tree.Scoped

/-!
# Callbacks of registrations

For each registration call that a run handles, a timeout that the callback sets is moved into an option beside the
callback, and a context is put in front of a single parameter. Neither asks for the scopes of the names it moves or
adds: the value of the timeout leaves the callback with its references, and the context is called `t` unless the
parameter itself is simply called so.

Main statements: `Settings.timeout_moved_iff` and `Settings.context_fresh_iff`.
-/

namespace TestMigration

variable {source : Text} {call callback parameter value : Site} {callee : Registration.Callee} {x : Edit}

/-! ### Timeouts -/

namespace Registration

/-- The callback of a call and the value of the timeout that is moved out of it: the first one that is set, unless it
is no limit or the call has options. -/
def movedTimeout? (source : Text) (call : Site) : Option (Site × Site) := do
  let callback ← call.callArguments.reverse.find? (·.isFunctionLiteral)
  guard (callback.kind != .arrowFunction)
  let statement ← callback.bodyStatements.find? (setsTimeout source)
  let (_, args) ← thisCall? source statement
  let value ← args.head?
  guard (value.text source != "0" && !call.callArguments.any (·.kind == .object))
  return (callback, value)

/-- The option with the value of a timeout: behind the callback of a hook and in front of that of a test. -/
def timeoutOption (source : Text) (registers : Registration) (callback value : Site) : Edit :=
  let option := "\x7b timeout: " ++ value.text source ++ " \x7d"
  if registers == .hook then .insert callback.span.stop (", " ++ option) "timeout-option"
  else .insert callback.span.start (option ++ ", ") "timeout-option"

theorem movedTimeout?_eq_some_iff : movedTimeout? source call = some (callback, value) ↔
    call.callArguments.reverse.find? (·.isFunctionLiteral) = some callback ∧ callback.kind ≠ .arrowFunction ∧
      (∃ statement ∈ callback.bodyStatements.find? (setsTimeout source),
        thisCall? source statement = some ("timeout", [value])) ∧
      value.text source ≠ "0" ∧ call.callArguments.any (·.kind == .object) = false := by
  simp only [movedTimeout?, Option.bind_eq_bind, Option.bind_eq_some_iff]
  constructor
  · rintro ⟨literal, hcallback, _, harrow, statement, hstatement, ⟨method, args⟩, hcall, _, hvalue, _, hlimit, heq⟩
    obtain ⟨rfl, rfl⟩ := Prod.mk.inj (Option.some.inj heq)
    obtain ⟨value', hset⟩ := setsTimeout_iff.mp (List.find?_some (p := setsTimeout source) hstatement)
    obtain ⟨-, rfl⟩ := Prod.mk.inj (Option.some.inj (hset.symm.trans hcall))
    obtain rfl : value' = _ := Option.some.inj hvalue
    have harrow : literal.kind ≠ .arrowFunction := by simpa using harrow
    have hlimit : value'.text source ≠ "0" ∧ call.callArguments.any (·.kind == .object) = false := by
      simpa using hlimit
    exact ⟨hcallback, harrow, ⟨statement, hstatement, hset⟩, hlimit⟩
  · rintro ⟨hcallback, harrow, ⟨statement, hstatement, hset⟩, hlimit, hoptions⟩
    refine ⟨callback, hcallback, (), by simp [harrow], statement, hstatement, _, hset, value, rfl, (), ?_, rfl⟩
    simp [hlimit, hoptions]

/-- The edits of a call with a rule for timeouts are a deletion and at most one option. -/
theorem mem_callChange_timeout_iff (hrule : x.rule = "timeout-option") (hdelete : x.isDelete = false) :
    x ∈ (callChange source call callee).edits ↔ ∃ callback value,
      movedTimeout? source call = some (callback, value) ∧
        x = timeoutOption source callee.registers callback value := by
  have hrename : x ∉ (rename call callee).edits := by
    intro h
    obtain ⟨-, -, f, -, rfl⟩ := mem_rename_iff.mp h
    exact absurd hrule (by decide : "registration-rename" ≠ "timeout-option")
  have hcontext {callback : Site} : x ∉ (contextParameter source callback).edits := fun h =>
    absurd ((contextParameter_rule h).symm.trans hrule) (by decide)
  -- the deletion is the other edit
  have htimeout {callback statement value : Site} (hset : thisCall? source statement = some ("timeout", [value])) :
      x ∈ timeoutEdits source callee.registers callback (call.callArguments.any (·.kind == .object)) statement
          (runnerValue source statement) ↔
        (value.text source ≠ "0" ∧ call.callArguments.any (·.kind == .object) = false) ∧
          x = timeoutOption source callee.registers callback value := by
    have hdeletion : x ≠ .deleteStatement source statement.span "timeout-option" := by
      rintro rfl
      exact absurd hdelete (by simp [Edit.deleteStatement, Edit.isDelete])
    simp only [timeoutEdits, timeoutOption, show runnerValue source statement = value.text source by
      simp [runnerValue, hset]]
    by_cases hlimit : value.text source = "0"
    · simp [hlimit, hdeletion]
    · cases call.callArguments.any (·.kind == .object) with
      | true => simp [hdeletion]
      | false =>
        by_cases hhook : callee.registers = .hook <;> simp [hlimit, hhook, hdeletion]
  rw [mem_callChange_iff, or_iff_right hrename]
  constructor
  · rintro ⟨callback, hcallback, ⟨-, h⟩ | ⟨harrow, statement, hstatement, h⟩⟩
    · exact absurd h hcontext
    · obtain ⟨value, hset⟩ := setsTimeout_iff.mp (List.find?_some (p := setsTimeout source) hstatement)
      obtain ⟨⟨hlimit, hoptions⟩, hoption⟩ := (htimeout hset).mp h
      exact ⟨callback, value, movedTimeout?_eq_some_iff.mpr
        ⟨hcallback, harrow, ⟨statement, hstatement, hset⟩, hlimit, hoptions⟩, hoption⟩
  · rintro ⟨callback, value, hmoved, hoption⟩
    obtain ⟨hcallback, harrow, ⟨statement, hstatement, hset⟩, hlimit, hoptions⟩ := movedTimeout?_eq_some_iff.mp hmoved
    exact ⟨callback, hcallback, .inr ⟨harrow, statement, hstatement, (htimeout hset).mpr ⟨⟨hlimit, hoptions⟩, hoption⟩⟩⟩

end Registration

theorem Registration.thisCall?_cases {statement : Site} {method : String} {args : List Site}
    (h : thisCall? source statement = some (method, args)) : statement.kind = .expressionStatement ∧
      ∃ call ∈ statement.children, call.kind = .call ∧ args = call.callArguments := by
  simp only [thisCall?, Option.bind_eq_bind, Option.bind_eq_some_iff] at h
  obtain ⟨_, hkind, call, hcall, f, -, _, hkinds, object, -, property, -, _, -, heq⟩ := h
  cases heq
  have hkind : statement.kind = .expressionStatement := by simpa using hkind
  have hkinds : call.kind = .call ∧ f.kind = .member := by simpa using hkinds
  exact ⟨hkind, call, List.mem_of_head? hcall, hkinds.1, rfl⟩

namespace Registration

/-- The nodes around a moved value: the call that sets the timeout, the block of the callback, and the callback. -/
theorem above_of_movedTimeout? (h : movedTimeout? source call = some (callback, value)) :
    ∃ list setter statement : Node, ∃ block : Site, list.kind = .arguments ∧ setter.kind = .call ∧
      statement.kind = .expressionStatement ∧ callback.child? .body = some block ∧
      value.above = [list, setter, statement, block.node, callback.node] ++ callback.above := by
  obtain ⟨-, -, ⟨statement, hstatement, hset⟩, -⟩ := movedTimeout?_eq_some_iff.mp h
  obtain ⟨hkind, setter, hsetter, hcall, hargs⟩ := thisCall?_cases hset
  obtain ⟨list, hlist, habove⟩ := Site.above_of_callArguments (hargs ▸ List.mem_singleton_self value)
  obtain ⟨block, hblock, hstatementAbove⟩ := Site.above_of_bodyStatements (List.mem_of_find?_eq_some hstatement)
  obtain ⟨n, -, rfl⟩ := List.mem_map.mp hsetter
  refine ⟨list, n, statement.node, block, hlist, hcall, hkind, hblock, ?_⟩
  rw [habove]
  show list :: n :: statement.node :: statement.above = _
  rw [hstatementAbove]
  rfl

theorem movedTimeout?_within {tree : Node} (hcall : call.Within tree)
    (h : movedTimeout? source call = some (callback, value)) : value.Within tree := by
  obtain ⟨hcallback, -, ⟨statement, hstatement, hset⟩, -⟩ := movedTimeout?_eq_some_iff.mp h
  obtain ⟨-, setter, hsetter, -, hargs⟩ := thisCall?_cases hset
  have hwithin := hcall.callArguments (List.mem_reverse.mp (List.mem_of_find?_eq_some hcallback))
  have hstatementWithin := hwithin.bodyStatements (List.mem_of_find?_eq_some hstatement)
  exact (hstatementWithin.children hsetter).callArguments (hargs ▸ List.mem_singleton_self value)

end Registration

namespace Settings

variable {settings : Settings} {path : String} {tree : Node} {scope : Node → List String}

/-- The run plans an option with a timeout for exactly those calls that have one to move, whatever the names in its
value stand for. A reference in the value means the same beside the callback exactly when its name is declared within
the value, or neither by the callback nor by its block. -/
theorem timeout_moved_iff (henabled : settings.migrations.contains .registration = true)
    (hscope : ∀ n : Node, n.kind ∈ [.arguments, .call, .expressionStatement] → scope n = []) :
    (∀ x : Edit, x.rule = "timeout-option" → x.isDelete = false → (x ∈ settings.planned path source tree ↔
      ∃ c ∈ settings.handled source tree, ∃ callback value,
        Registration.movedTimeout? source c.1 = some (callback, value) ∧
          x = Registration.timeoutOption source c.2.registers callback value)) ∧
    ∀ c ∈ settings.handled source tree, ∀ callback value,
      Registration.movedTimeout? source c.1 = some (callback, value) →
        ∀ r ∈ value.sites, ∃ below, r.above = below ++ value.above ∧
          (declaring? scope (r.text source) r.above = declaring? scope (r.text source) (below ++ callback.above) ↔
            (∃ n ∈ below, r.text source ∈ scope n) ∨ r.text source ∉ scope callback.node ∧
              ∀ block ∈ callback.child? .body, r.text source ∉ scope block.node) := by
  refine ⟨fun x hrule hdelete => ?_, fun c hc callback value hmoved r hr => ?_⟩
  · rw [mem_planned_iff_callChange henabled (.inr hrule)]
    simp only [Registration.mem_callChange_timeout_iff hrule hdelete]
  · have hcall : c.1.Within tree := (List.mem_filter.mp (RegistrationPass.mem_handled hc).1).1
    obtain ⟨list, setter, statement, block, hlist, hsetter, hstatement, hblock, habove⟩ :=
      Registration.above_of_movedTimeout? hmoved
    have hnodup := (Registration.movedTimeout?_within hcall hmoved).nodup_above
    obtain ⟨below, hbelow⟩ := Site.exists_below hr
    refine ⟨below, hbelow, ?_⟩
    rw [habove] at hnodup hbelow
    -- of the nodes that are left behind, only the callback and its block declare names
    rw [hbelow, declaring?_without hnodup]
    simp [hscope list (by simp [hlist]), hscope setter (by simp [hsetter]), hscope statement (by simp [hstatement]),
      hblock, and_comm]

set_option maxRecDepth 100000 in
theorem timeout_moved_const : ∃ (text : String) (tree : Node) (c : Site × Registration.Callee) (callback value : Site),
    text = "const ms = 5;\nit('a', function () \x7b\n  this.timeout(ms);\n\x7d);\n" ∧
    Grammar.parse (Grammar.ofPath "a.test.js") text.toList = some tree ∧
    c ∈ Settings.handled {} text.toList tree ∧
    Registration.movedTimeout? text.toList c.1 = some (callback, value) ∧
    Registration.timeoutOption text.toList c.2.registers callback value ∈
      Settings.planned {} "a.test.js" text.toList tree ∧
    ∀ r ∈ value.sites, ∃ below, r.above = below ++ value.above ∧
      declaring? (Node.declares text.toList) (r.text text.toList) r.above =
        declaring? (Node.declares text.toList) (r.text text.toList) (below ++ callback.above) := by
  obtain ⟨text, htext⟩ : ∃ text, text = "const ms = 5;\nit('a', function () \x7b\n  this.timeout(ms);\n\x7d);\n" :=
    ⟨_, rfl⟩
  have hfile : (Grammar.parse (Grammar.ofPath "a.test.js") text.toList).any (fun tree =>
      (Settings.handled {} text.toList tree).any fun c =>
        (Registration.movedTimeout? text.toList c.1).any fun m =>
          m.2.sites.all fun r => !(m.1.node.declares text.toList).contains (r.text text.toList) &&
            (m.1.child? .body).all fun block => !(block.node.declares text.toList).contains (r.text text.toList)) =
      true := by
    rw [htext]
    decide +kernel
  obtain ⟨tree, hparse, hfile⟩ := (Option.any_eq_true _ _).mp hfile
  obtain ⟨c, hc, hfile⟩ := List.any_eq_true.mp hfile
  obtain ⟨⟨callback, value⟩, hmoved, hfile⟩ := (Option.any_eq_true _ _).mp hfile
  have hquiet (n : Node) (hn : n.kind ∈ [.arguments, .call, .expressionStatement]) : n.declares text.toList = [] := by
    rcases (by simpa using hn : n.kind = .arguments ∨ n.kind = .call ∨ n.kind = .expressionStatement) with h | h | h <;>
      simp [Node.declares, h]
  obtain ⟨hplanned, hsame⟩ :=
    @timeout_moved_iff text.toList {} "a.test.js" tree (Node.declares text.toList) (by decide) hquiet
  have hrule : (Registration.timeoutOption text.toList c.2.registers callback value).rule = "timeout-option" ∧
      (Registration.timeoutOption text.toList c.2.registers callback value).isDelete = false := by
    unfold Registration.timeoutOption
    dsimp only
    split <;> exact ⟨rfl, rfl⟩
  refine ⟨text, tree, c, callback, value, htext, hparse, hc, hmoved,
    (hplanned _ hrule.1 hrule.2).mpr ⟨c, hc, callback, value, hmoved, rfl⟩, fun r hr => ?_⟩
  obtain ⟨below, habove, hiff⟩ := hsame c hc callback value hmoved r hr
  have hfree := List.all_eq_true.mp hfile r hr
  refine ⟨below, habove, hiff.mpr (.inr ?_)⟩
  simpa [Option.all_eq_true] using hfree

set_option maxRecDepth 100000 in
/-- A timeout that the callback declares itself leaves it all the same. -/
theorem timeout_declared_within : ¬ ∀ (settings : Settings) (path text : String) (tree : Node)
    (c : Site × Registration.Callee) (callback value : Site),
    Grammar.parse (Grammar.ofPath path) text.toList = some tree →
    settings.migrations.contains .registration = true → c ∈ settings.handled text.toList tree →
    Registration.movedTimeout? text.toList c.1 = some (callback, value) →
      ∀ r ∈ value.sites, r.isReference = true → r.text text.toList ∉ callback.node.declares text.toList ∧
        ∀ block ∈ callback.child? .body, r.text text.toList ∉ block.node.declares text.toList := by
  intro h
  obtain ⟨text, htext⟩ : ∃ text,
      text = "it('a', function () \x7b\n  const ms = 5;\n  this.timeout(ms);\n\x7d);\n" := ⟨_, rfl⟩
  have hfile : (Grammar.parse (Grammar.ofPath "a.test.js") text.toList).any (fun tree =>
      (Settings.handled {} text.toList tree).any fun c =>
        (Registration.movedTimeout? text.toList c.1).any fun m =>
          m.2.sites.any fun r => r.isReference && (m.1.child? .body).any fun block =>
            (block.node.declares text.toList).contains (r.text text.toList)) = true := by
    rw [htext]
    decide +kernel
  obtain ⟨tree, hparse, hfile⟩ := (Option.any_eq_true _ _).mp hfile
  obtain ⟨c, hc, hfile⟩ := List.any_eq_true.mp hfile
  obtain ⟨⟨callback, value⟩, hmoved, hfile⟩ := (Option.any_eq_true _ _).mp hfile
  obtain ⟨r, hr, hfile⟩ := List.any_eq_true.mp hfile
  obtain ⟨hreference, hfile⟩ := Bool.and_eq_true_iff.mp hfile
  obtain ⟨block, hblock, hfile⟩ := (Option.any_eq_true _ _).mp hfile
  have hnot := (h {} "a.test.js" text tree c callback value hparse (by decide) hc hmoved r hr hreference).2 block hblock
  exact hnot (by simpa using hfile)

end Settings

/-! ### Contexts -/

namespace Registration

/-- The callback of a test or hook and its parameter, if it takes a single one. -/
def addedContext? (call : Site) (callee : Callee) : Option (Site × Site) := do
  guard (callee.registers != .suite)
  let callback ← call.callArguments.reverse.find? (·.isFunctionLiteral)
  match callback.functionParameters with
  | [parameter] => some (callback, parameter)
  | _ => none

def contextName (source : Text) (parameter : Site) : String :=
  if parameter.parameterName? source == some "t" then "_t" else "t"

/-- The context in front of a parameter, with parentheses around both where there are none. -/
def contextEdit (source : Text) (callback parameter : Site) : Edit :=
  if (callback.child? .parameter).isSome then
    .replaceText parameter.span ("(" ++ contextName source parameter ++ ", " ++ parameter.text source ++ ")")
      "context-parameter"
  else .insert parameter.span.start (contextName source parameter ++ ", ") "context-parameter"

/-- The name is bound by no part of the parameter, and the body of the callback does not refer to anything under this
name from outside of the body. -/
structure Fresh (scope : Node → List String) (source : Text) (callback parameter : Site) (name : String) : Prop where
  parameter : name ∉ parameter.boundNames source
  body : ∀ body ∈ callback.child? .body, ¬ body.UsesFree scope source name

theorem addedContext?_eq_some_iff : addedContext? call callee = some (callback, parameter) ↔
    callee.registers ≠ .suite ∧ call.callArguments.reverse.find? (·.isFunctionLiteral) = some callback ∧
      callback.functionParameters = [parameter] := by
  simp only [addedContext?, Option.bind_eq_bind, Option.bind_eq_some_iff]
  constructor
  · rintro ⟨_, hsuite, literal, hcallback, h⟩
    have hsuite : callee.registers ≠ .suite := by simpa using hsuite
    split at h
    · rename_i single hsingle
      obtain ⟨rfl, rfl⟩ := Prod.mk.inj (Option.some.inj h)
      exact ⟨hsuite, hcallback, hsingle⟩
    · cases h
  · rintro ⟨hsuite, hcallback, hsingle⟩
    exact ⟨(), by simp [hsuite], callback, hcallback, by rw [hsingle]⟩

theorem mem_contextParameter_iff : x ∈ (contextParameter source callback).edits ↔
    ∃ parameter, callback.functionParameters = [parameter] ∧ x = contextEdit source callback parameter := by
  unfold contextParameter contextEdit
  split
  · rename_i parameter hsingle
    simp only [hsingle, List.cons.injEq, and_true, exists_eq_left']
    split <;> exact List.mem_singleton
  · rename_i hother
    exact iff_of_false List.not_mem_nil fun ⟨parameter, hsingle, _⟩ => hother parameter hsingle

theorem mem_callChange_context_iff (hrule : x.rule = "context-parameter") :
    x ∈ (callChange source call callee).edits ↔ ∃ callback parameter,
      addedContext? call callee = some (callback, parameter) ∧ x = contextEdit source callback parameter := by
  have hrename : x ∉ (rename call callee).edits := by
    intro h
    obtain ⟨-, -, f, -, rfl⟩ := mem_rename_iff.mp h
    exact absurd hrule (by decide : "registration-rename" ≠ "context-parameter")
  have htimeout {callback statement : Site} {hasOptions : Bool} {limit : String} :
      x ∉ timeoutEdits source callee.registers callback hasOptions statement limit := fun h =>
    absurd ((timeoutEdits_rule h).symm.trans hrule) (by decide)
  rw [mem_callChange_iff, or_iff_right hrename]
  constructor
  · rintro ⟨callback, hcallback, ⟨hsuite, h⟩ | ⟨-, statement, -, h⟩⟩
    · obtain ⟨parameter, hsingle, hx⟩ := mem_contextParameter_iff.mp h
      exact ⟨callback, parameter, addedContext?_eq_some_iff.mpr ⟨hsuite, hcallback, hsingle⟩, hx⟩
    · exact absurd h htimeout
  · rintro ⟨callback, parameter, hadded, hx⟩
    obtain ⟨hsuite, hcallback, hsingle⟩ := addedContext?_eq_some_iff.mp hadded
    exact ⟨callback, hcallback, .inl ⟨hsuite, mem_contextParameter_iff.mpr ⟨parameter, hsingle, hx⟩⟩⟩

variable {scope : Node → List String}

/-- The name of the context is fresh for a parameter `t` if the body does not use `_t`, and for others if neither the
parameter nor the body has a `t`. -/
theorem fresh_contextName_iff : Fresh scope source callback parameter (contextName source parameter) ↔
    parameter.parameterName? source = some "t" ∧
        (∀ body ∈ callback.child? .body, ¬ body.UsesFree scope source "_t") ∨
      Fresh scope source callback parameter "t" := by
  by_cases hname : parameter.parameterName? source = some "t"
  · have hbound := Site.boundNames_of_parameterName? hname
    have hnot : ¬ Fresh scope source callback parameter "t" := fun h => h.parameter (by simp [hbound])
    have hfresh : "_t" ∉ parameter.boundNames source := by simp [hbound]
    rw [or_iff_left hnot, contextName, hname, if_pos (beq_self_eq_true _)]
    exact ⟨fun h => ⟨rfl, h.body⟩, fun h => ⟨hfresh, h.2⟩⟩
  · rw [contextName, if_neg (by simpa using hname)]
    simp [hname]

end Registration

namespace Settings

variable {settings : Settings} {path : String} {tree : Node} {scope : Node → List String}

/-- The run plans a context for exactly those tests and hooks whose callbacks have a single parameter. Its name is
fresh where the parameter is simply `t` and the body does not refer to a `_t`, and where neither the parameter binds a
`t` nor the body refers to one. In the body exactly those references get another meaning that have the name of the
context and are declared neither within the body nor by the callback. -/
theorem context_fresh_iff (henabled : settings.migrations.contains .registration = true) :
    (∀ x : Edit, x.rule = "context-parameter" → (x ∈ settings.planned path source tree ↔
      ∃ c ∈ settings.handled source tree, ∃ callback parameter,
        Registration.addedContext? c.1 c.2 = some (callback, parameter) ∧
          x = Registration.contextEdit source callback parameter)) ∧
    ∀ c ∈ settings.handled source tree, ∀ callback parameter,
      Registration.addedContext? c.1 c.2 = some (callback, parameter) →
        (Registration.Fresh scope source callback parameter (Registration.contextName source parameter) ↔
          parameter.parameterName? source = some "t" ∧
              (∀ body ∈ callback.child? .body, ¬ body.UsesFree scope source "_t") ∨
            Registration.Fresh scope source callback parameter "t") ∧
        ∀ scope' : Node → List String,
          scope' callback.node = Registration.contextName source parameter :: scope callback.node →
          (∀ n, n ≠ callback.node → scope' n = scope n) →
            ∀ body ∈ callback.child? .body, ∀ r ∈ body.sites,
              ∃ below, r.above = below ++ callback.node :: callback.above ∧
                (declaring? scope' (r.text source) r.above = declaring? scope (r.text source) r.above ↔
                  r.text source ≠ Registration.contextName source parameter ∨
                    (∃ n ∈ below, r.text source ∈ scope n) ∨ r.text source ∈ scope callback.node) := by
  refine ⟨fun x hrule => ?_, fun c hc callback parameter hadded => ⟨Registration.fresh_contextName_iff, ?_⟩⟩
  · rw [mem_planned_iff_callChange henabled (.inl hrule)]
    simp only [Registration.mem_callChange_context_iff hrule]
  · intro scope' hcallback hothers body hbody r hr
    have hcall : c.1.Within tree := (List.mem_filter.mp (RegistrationPass.mem_handled hc).1).1
    obtain ⟨-, hfound, -⟩ := Registration.addedContext?_eq_some_iff.mp hadded
    have hwithin := hcall.callArguments (List.mem_reverse.mp (List.mem_of_find?_eq_some hfound))
    have hnodup := (Node.within_of_sitesBelow body.node (hwithin.child? hbody) hr).nodup_above
    obtain ⟨below, hbelow⟩ := Site.exists_below hr
    rw [Site.above_of_child? hbody] at hbelow
    rw [hbelow] at hnodup
    refine ⟨below, hbelow, ?_⟩
    rw [hbelow, declaring?_added hnodup hcallback hothers]

set_option maxRecDepth 100000 in
theorem context_fresh_beside_t : ∃ (text : String) (tree : Node) (c : Site × Registration.Callee)
    (callback parameter : Site), text = "it('a', function (t) \x7b t(); \x7d);\n" ∧
    Grammar.parse (Grammar.ofPath "a.test.js") text.toList = some tree ∧
    c ∈ Settings.handled {} text.toList tree ∧ Registration.addedContext? c.1 c.2 = some (callback, parameter) ∧
    Registration.contextEdit text.toList callback parameter ∈ Settings.planned {} "a.test.js" text.toList tree ∧
    Registration.Fresh (Node.declares text.toList) text.toList callback parameter
      (Registration.contextName text.toList parameter) := by
  obtain ⟨text, htext⟩ : ∃ text, text = "it('a', function (t) \x7b t(); \x7d);\n" := ⟨_, rfl⟩
  have hfile : (Grammar.parse (Grammar.ofPath "a.test.js") text.toList).any (fun tree =>
      (Settings.handled {} text.toList tree).any fun c => (Registration.addedContext? c.1 c.2).any fun a =>
        a.2.parameterName? text.toList == some "t" && (a.1.child? .body).all fun body =>
          body.sites.all fun r => r.text text.toList != "_t") = true := by
    rw [htext]
    decide +kernel
  obtain ⟨tree, hparse, hfile⟩ := (Option.any_eq_true _ _).mp hfile
  obtain ⟨c, hc, hfile⟩ := List.any_eq_true.mp hfile
  obtain ⟨⟨callback, parameter⟩, hadded, hfile⟩ := (Option.any_eq_true _ _).mp hfile
  obtain ⟨hname, hbody⟩ := Bool.and_eq_true_iff.mp hfile
  obtain ⟨hplanned, hfresh⟩ :=
    @context_fresh_iff text.toList {} "a.test.js" tree (Node.declares text.toList) (by decide)
  have hrule : (Registration.contextEdit text.toList callback parameter).rule = "context-parameter" := by
    unfold Registration.contextEdit
    split <;> rfl
  refine ⟨text, tree, c, callback, parameter, htext, hparse, hc, hadded,
    (hplanned _ hrule).mpr ⟨c, hc, callback, parameter, hadded, rfl⟩,
    (hfresh c hc callback parameter hadded).1.mpr (.inl ⟨eq_of_beq hname, ?_⟩)⟩
  rintro body hbody' ⟨r, hr, -, htext', -⟩
  have hother := List.all_eq_true.mp ((Option.all_eq_true _ _).mp hbody body hbody') r hr
  simp [htext'] at hother

set_option maxRecDepth 100000 in
/-- A parameter that takes a `t` out of an object gets a context `t` in front of it. -/
theorem context_not_fresh : ¬ ∀ (settings : Settings) (path text : String) (tree : Node)
    (c : Site × Registration.Callee) (callback parameter : Site),
    Grammar.parse (Grammar.ofPath path) text.toList = some tree →
    settings.migrations.contains .registration = true → c ∈ settings.handled text.toList tree →
    Registration.addedContext? c.1 c.2 = some (callback, parameter) →
      Registration.Fresh (Node.declares text.toList) text.toList callback parameter
        (Registration.contextName text.toList parameter) := by
  intro h
  obtain ⟨text, htext⟩ : ∃ text, text = "it('a', (\x7b t \x7d) => t());\n" := ⟨_, rfl⟩
  have hfile : (Grammar.parse (Grammar.ofPath "a.test.js") text.toList).any (fun tree =>
      (Settings.handled {} text.toList tree).any fun c => (Registration.addedContext? c.1 c.2).any fun a =>
        (a.2.boundNames text.toList).contains (Registration.contextName text.toList a.2)) = true := by
    rw [htext]
    decide +kernel
  obtain ⟨tree, hparse, hfile⟩ := (Option.any_eq_true _ _).mp hfile
  obtain ⟨c, hc, hfile⟩ := List.any_eq_true.mp hfile
  obtain ⟨⟨callback, parameter⟩, hadded, hfile⟩ := (Option.any_eq_true _ _).mp hfile
  exact (h {} "a.test.js" text tree c callback parameter hparse (by decide) hc hadded).parameter (by simpa using hfile)

end Settings

end TestMigration
