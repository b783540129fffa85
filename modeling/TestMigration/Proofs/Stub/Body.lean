import TestMigration.Run.Outcome
import TestMigration.Stub.Entry

/-!
# What stands behind the arrow of a stub

A stub that only gives a value becomes a function whose body is an expression. `StubResult.valueText?` is
the text of the value, said without the printer, and it is just what stands behind the arrow
(`StubResult.function_print`). Behind an arrow an opening brace begins a block of statements.
`StubResult.body_opens_iff`: the text begins with one exactly if the value is copied from the file, needs no
parentheses and begins with one itself; `StubResult.object_reads_as_block` is such a file.
-/

namespace TestMigration

/-- The text begins with a brace, which behind an arrow begins a block. -/
def OpensBlock (text : String) : Prop := text.toList.head? = some '\x7b'

/-- The text of a copied expression where an argument may stand. -/
def Site.argumentText (write : Span → String) (s : Site) : String :=
  parenthesizeIf (s.kind.precedence < Precedence.assignment) (write s.span)

namespace StubResult

section
variable (write : Span → String)

/-- The text of a value, or `undefined`. -/
def givenText : Option Site → String
  | some v => v.argumentText write
  | none => "undefined"

/-- The text of an error: a string names the kind of a new one. -/
def errorText : Option Site → String
  | some e =>
    if e.kind == .string then
      "Object.assign(new Error(), \x7b name: " ++ e.argumentText write ++ " \x7d)"
    else e.argumentText write
  | none => "new Error()"

/-- The text of the value that the stub gives, unless it throws or calls something else. -/
def valueText? : StubResult → Option String
  | returns v => some (givenText write v)
  | resolves v => some ("Promise.resolve(" ++ givenText write v ++ ")")
  | rejects e => some ("Promise.reject(" ++ errorText write e ++ ")")
  | returnsArg n => some ("args[" ++ write n.span ++ "]")
  | throws _ | callsFake _ => none

end

def params : StubResult → List String
  | returnsArg _ => ["...args"]
  | _ => []

/-! ### The text of the function -/

section
variable (style : Style) {write : Span → String} (indent : String)

theorem printAt_embed (s : Site) :
    s.embed.printAt style write indent Precedence.assignment = s.argumentText write := by
  rw [Site.embed, Expr.printAt]
  rfl

theorem printAt_valueExpr (v : Option Site) :
    (valueExpr v).printAt style write indent Precedence.assignment = givenText write v := by
  cases v with
  | none => rw [valueExpr, Expr.printAt]; rfl
  | some v => exact printAt_embed style indent v

theorem printAt_callPath (path : String) (args : List Expr) :
    (Expr.callPath path args).printAt style write indent Precedence.assignment =
      path ++ "(" ++ Expr.printList style write indent args ++ ")" := by
  simp [Expr.callPath, Expr.printAt, Expr.precedence, parenthesizeIf, Precedence.assignment,
    Precedence.member, Precedence.primary]

theorem printAt_newError :
    (Expr.new (.ident "Error") []).printAt style write indent Precedence.assignment = "new Error()" := by
  simp [Expr.printAt, Expr.precedence, parenthesizeIf, Expr.printList, Precedence.assignment,
    Precedence.member, Precedence.primary]

theorem printAt_errorExpr (e : Option Site) :
    (errorExpr e).printAt style write indent Precedence.assignment = errorText write e := by
  cases e with
  | none => exact printAt_newError style indent
  | some e =>
    rw [errorExpr, errorText]
    split
    · have hrecord : (Expr.object [.mk "name" e.embed]).printAt style write indent Precedence.assignment =
          "\x7b " ++ ("name: " ++ e.argumentText write) ++ " \x7d" := by
        rw [Expr.printAt, Property.printList, Property.print, printAt_embed]
        rfl
      have hsplit : "Object.assign(new Error(), \x7b name: " =
          "Object.assign" ++ "(" ++ ("new Error()" ++ ", ") ++ ("\x7b " ++ "name: ") := rfl
      rw [printAt_callPath, Expr.printList, printAt_newError, Expr.printList, hrecord, hsplit]
      · simp only [String.append_assoc]
        rfl
      · simp
    · exact printAt_embed style indent e

/-- The value is written as its text says, and is no object that is put together. -/
theorem printAt_returned {r : StubResult} {text : String} (h : r.valueText? write = some text) :
    ∃ body, r.returned? = some body ∧ body.isObject = false ∧
      body.printAt style write indent Precedence.assignment = text := by
  cases r with
  | returns v =>
    obtain rfl := Option.some.inj h
    exact ⟨_, rfl, by cases v <;> rfl, printAt_valueExpr style indent v⟩
  | resolves v =>
    obtain rfl := Option.some.inj h
    refine ⟨_, rfl, rfl, ?_⟩
    rw [printAt_callPath, Expr.printList, printAt_valueExpr]
    rfl
  | rejects e =>
    obtain rfl := Option.some.inj h
    refine ⟨_, rfl, rfl, ?_⟩
    rw [printAt_callPath, Expr.printList, printAt_errorExpr]
    rfl
  | returnsArg n =>
    obtain rfl := Option.some.inj h
    refine ⟨_, rfl, rfl, ?_⟩
    simp [Expr.printAt, Site.embed, Expr.precedence, parenthesizeIf, Precedence.assignment, Precedence.member,
      Precedence.primary]
  | throws e | callsFake f => cases h

theorem function_print {r : StubResult} {text : String} (h : r.valueText? write = some text) :
    r.function.print style write indent = printParams r.params ++ " => " ++ text := by
  obtain ⟨body, hbody, hobject, hprint⟩ := printAt_returned style indent h
  have hfunction : r.function = .arrow r.params body := by
    cases r with
    | returns v | resolves v | rejects e | returnsArg n => simp [function, hbody, params]
    | throws e | callsFake f => cases h
  rw [hfunction, Expr.print, Expr.printAt, hobject, hprint]
  rfl

end

/-! ### How it begins -/

theorem opensBlock_append {c : Char} {t : Text} (head rest : String) (h : head.toList = c :: t) :
    OpensBlock (head ++ rest) ↔ c = '\x7b' := by
  simp [OpensBlock, h]

/-- A copied value begins with a brace if it is not put in parentheses and its text begins with one. -/
theorem opensBlock_argumentText {write : Span → String} {s : Site} :
    OpensBlock (s.argumentText write) ↔
      Precedence.assignment ≤ s.kind.precedence ∧ OpensBlock (write s.span) := by
  unfold Site.argumentText parenthesizeIf
  by_cases hlt : s.kind.precedence < Precedence.assignment
  · have hparen := opensBlock_append "(" (write s.span ++ ")") rfl
    rw [if_pos (by simpa using hlt), String.append_assoc, hparen]
    refine ⟨fun h => absurd h (by decide), fun h => absurd h.1 (by omega)⟩
  · rw [if_neg (by simpa using hlt)]
    exact ⟨fun h => ⟨by omega, h⟩, And.right⟩

/-- The function of a stub that only gives a value is an arrow and the text of the value. It begins a block
exactly if the value is copied and begins with a brace itself. -/
theorem body_opens_iff (style : Style) (write : Span → String) (indent : String) {r : StubResult} {text : String}
    (h : r.valueText? write = some text) :
    r.function.print style write indent = printParams r.params ++ " => " ++ text ∧
      (OpensBlock text ↔ ∃ v, r = .returns (some v) ∧ Precedence.assignment ≤ v.kind.precedence ∧
        OpensBlock (write v.span)) := by
  refine ⟨function_print style indent h, ?_⟩
  -- all other texts begin with a name that is written for the stub
  have hnamed {c : Char} {t : Text} (head rest : String) (hhead : head.toList = c :: t) (hc : c ≠ '\x7b')
      (hr : ∀ v, r ≠ .returns (some v)) : OpensBlock (head ++ rest) ↔ ∃ v, r = .returns (some v) ∧
        Precedence.assignment ≤ v.kind.precedence ∧ OpensBlock (write v.span) := by
    rw [opensBlock_append head rest hhead]
    exact ⟨fun heq => absurd heq hc, fun ⟨v, hv, _⟩ => absurd hv (hr v)⟩
  cases r with
  | returns v =>
    obtain rfl := Option.some.inj h
    cases v with
    | none => exact hnamed "u" "ndefined" rfl (by decide) (by simp)
    | some v =>
      simp only [givenText, opensBlock_argumentText, StubResult.returns.injEq, Option.some.injEq]
      exact ⟨fun ⟨hlevel, hopens⟩ => ⟨v, rfl, hlevel, hopens⟩, fun ⟨_, hv, hopens⟩ => hv ▸ hopens⟩
  | resolves v =>
    obtain rfl := Option.some.inj h
    rw [String.append_assoc]
    exact hnamed "Promise.resolve(" _ rfl (by decide) (by simp)
  | rejects e =>
    obtain rfl := Option.some.inj h
    rw [String.append_assoc]
    exact hnamed "Promise.reject(" _ rfl (by decide) (by simp)
  | returnsArg n =>
    obtain rfl := Option.some.inj h
    rw [String.append_assoc]
    exact hnamed "args[" _ rfl (by decide) (by simp)
  | throws e | callsFake f => cases h

set_option maxRecDepth 100000 in
/-- An object that is to be resolved with stands in the call of a function. -/
theorem resolved_object_is_a_value : ∃ (text : String) (tree : Node) (v : Site),
    text = "sinon.stub(api, 'get').resolves(\x7b a: 1 \x7d);\n" ∧ Grammar.parse .plain text.toList = some tree ∧
    v ∈ tree.sites ∧ v.kind = .object ∧ OpensBlock (Text.cut text.toList v.span) ∧
    (resolves (some v)).valueText? (Text.cut text.toList) = some "Promise.resolve(\x7b a: 1 \x7d)" ∧
    (resolves (some v)).function.print {} (Text.cut text.toList) "" = "() => Promise.resolve(\x7b a: 1 \x7d)" ∧
    ¬ OpensBlock "Promise.resolve(\x7b a: 1 \x7d)" := by
  obtain ⟨text, htext⟩ : ∃ text, text = "sinon.stub(api, 'get').resolves(\x7b a: 1 \x7d);\n" := ⟨_, rfl⟩
  have hfile : (Grammar.parse .plain text.toList).any (fun tree => tree.sites.any fun v =>
      v.kind == .object && Text.cut text.toList v.span == "\x7b a: 1 \x7d") = true := by
    rw [htext]
    decide +kernel
  obtain ⟨tree, hparse, hfile⟩ := (Option.any_eq_true _ _).mp hfile
  simp only [List.any_eq_true, Bool.and_eq_true, beq_iff_eq] at hfile
  obtain ⟨v, hv, hkind, hcut⟩ := hfile
  have hvalue : (resolves (some v)).valueText? (Text.cut text.toList) = some "Promise.resolve(\x7b a: 1 \x7d)" := by
    rw [valueText?, givenText, Site.argumentText, hkind, hcut]
    rfl
  obtain ⟨hprint, hopens⟩ := body_opens_iff {} (Text.cut text.toList) "" hvalue
  refine ⟨text, tree, v, htext, hparse, hv, hkind, by rw [hcut]; rfl, hvalue, hprint, fun h => ?_⟩
  obtain ⟨w, hw, -⟩ := hopens.mp h
  cases hw

set_option maxRecDepth 100000 in
/-- An object that is to be returned becomes a block: the stub of this file gives nothing. -/
theorem object_reads_as_block : ∃ (text : String) (tree output : Node) (v arrow : Site) (o : Outcome),
    text = "sinon.stub(api, 'get').returns(\x7b a: 1 \x7d);\n" ∧ Grammar.parse .plain text.toList = some tree ∧
    v ∈ tree.sites ∧
    (returns (some v)).function.print {} (Text.cut text.toList) "" = "() => \x7b a: 1 \x7d" ∧
    migrate {} "a.test.js" text = some o ∧ Grammar.parse .plain o.output.toList = some output ∧
    arrow ∈ output.sites ∧ arrow.kind = .arrowFunction ∧ (arrow.child? .body).map (·.kind) = some .block := by
  obtain ⟨text, htext⟩ : ∃ text, text = "sinon.stub(api, 'get').returns(\x7b a: 1 \x7d);\n" := ⟨_, rfl⟩
  have hfile : (Grammar.parse .plain text.toList).any (fun tree => tree.sites.any fun v =>
      (returns (some v)).function.print {} (Text.cut text.toList) "" == "() => \x7b a: 1 \x7d") = true := by
    rw [htext]
    decide +kernel
  have houtput : (migrate {} "a.test.js" text).any (fun o => (Grammar.parse .plain o.output.toList).any fun output =>
      output.sites.any fun arrow => arrow.kind == .arrowFunction &&
        (arrow.child? .body).map (·.kind) == some .block) = true := by
    rw [htext]
    decide +kernel
  obtain ⟨tree, hparse, hfile⟩ := (Option.any_eq_true _ _).mp hfile
  obtain ⟨v, hv, hprint⟩ := List.any_eq_true.mp hfile
  obtain ⟨o, ho, houtput⟩ := (Option.any_eq_true _ _).mp houtput
  obtain ⟨output, hreparse, houtput⟩ := (Option.any_eq_true _ _).mp houtput
  simp only [List.any_eq_true, Bool.and_eq_true, beq_iff_eq] at houtput
  obtain ⟨arrow, harrow, hkind, hbody⟩ := houtput
  exact ⟨text, tree, output, v, arrow, o, htext, hparse, hv, beq_iff_eq.mp hprint, ho, hreparse, harrow, hkind,
    hbody⟩

end StubResult

end TestMigration
