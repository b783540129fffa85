import TestMigration.Grammar.Source
import TestMigration.Proofs.Assertion.Alike
import TestMigration.Rule.Catalog

/-!
# Forms of an assertion

An assertion about a value is written in one of four forms (`Form`). `View.split?` finds the value and the steps in
each of them, apart from parentheses around the value (`Form.split?_eq`), and the view of the steps does not depend on
fillers and on where its flags stand (`Reworded.foldl_addStep`). So the same rule takes the chains and writes the same
expression, since families cannot tell alike views apart (`Family.build_alike`).

Main statement: `Form.findRule?_agree`.
-/

namespace TestMigration

namespace Step

def isShould (s : Step) : Bool := s.name == "should" && !s.isCall

/-- The step accesses a property that means nothing. -/
def isFiller (s : Step) : Bool := fillers.contains s.name && !s.isCall

def isFlag (s : Step) : Bool := ["not", "deep", "nested", "own", "eventually"].contains s.name && !s.isCall

end Step

/-- The chain asserts by `steps` something about `value`. -/
inductive Form (ctx : Context) (value : Site) (steps : List Step) (c : Chain) : Prop
  /-- `value.should.steps`, where the chain of the value has no `should` of its own. -/
  | property {own : List Step} {should : Step} (hsteps : c.steps = own ++ should :: steps)
    (hown : ∀ s ∈ own, s.isShould = false) (hshould : should.isShould = true)
    (hvalue : should.site.child? .object = some value)
  /-- `expect(value).steps` and `should(value).steps`. -/
  | called {callee : Site} (hsteps : c.steps = steps) (hsubject : c.subject.kind = .call)
    (hcallee : c.subject.child? .callee = some callee) (hkind : callee.kind = .identifier)
    (hname : ctx.text callee = ctx.names.expect ∨ ctx.text callee = ctx.names.should)
    (hvalue : c.subject.callArguments = [value])
  /-- `chai.expect(value).steps`. -/
  | library {first : Step} (hsteps : c.steps = first :: steps) (hsubject : c.subjectIs ctx.names.chai ctx.source = true)
    (hname : first.name = "expect") (hvalue : first.arguments? = some [value])

/-- The second list is the first with fillers put in and flags moved. -/
inductive Reworded (steps : List Step) : List Step → Prop
  | refl : Reworded steps steps
  | filler {front rest : List Step} {filler : Step} (h : Reworded steps (front ++ rest))
    (hfiller : filler.isFiller = true) : Reworded steps (front ++ filler :: rest)
  | flag {front rest front' rest' : List Step} {flag : Step} (h : Reworded steps (front ++ flag :: rest))
    (hflag : flag.isFlag = true) (hothers : front' ++ rest' = front ++ rest) :
    Reworded steps (front' ++ flag :: rest')

/-! ### The view of the steps -/

/-- What a step does to a view. -/
inductive StepEffect where
  | word
  | negate
  | deep
  | eventually
  | nested
  | own
  | nothing

/-- What a step does depends on its name and on whether it is a call. -/
def Step.effect (s : Step) : StepEffect :=
  if s.isCall then .word
  else if s.name == "not" then .negate
  else if s.name == "deep" then .deep
  else if s.name == "eventually" || s.name == "finally" then .eventually
  else if s.name == "nested" then .nested
  else if s.name == "own" then .own
  else if fillers.contains s.name then .nothing
  else .word

namespace View

variable {s flag : Step}

/-- The view with the effect of one more step. -/
def take (v : View) (s : Step) : StepEffect → View
  | .word => { v with words := v.words ++ [s] }
  | .negate => { v with negated := !v.negated }
  | .deep => { v with deep := true }
  | .eventually => { v with eventually := true }
  | .nested => { v with nested := true }
  | .own => { v with own := true }
  | .nothing => v

theorem addStep_eq (v : View) (s : Step) : v.addStep s = v.take s s.effect := by
  unfold addStep Step.effect
  repeat' split
  all_goals rfl

theorem addStep_filler (v : View) (h : s.isFiller = true) : v.addStep s = v := by
  obtain ⟨hname, hcall⟩ : s.name ∈ fillers ∧ s.isCall = false := by simpa [Step.isFiller] using h
  have hflags : ∀ name ∈ fillers, name ≠ "not" ∧ name ≠ "deep" ∧ name ≠ "eventually" ∧ name ≠ "finally" ∧
      name ≠ "nested" ∧ name ≠ "own" := by decide
  simp [addStep, hcall, hname, hflags s.name hname]

theorem effect_of_isFlag (h : flag.isFlag = true) : flag.effect ≠ .word := by
  obtain ⟨hname, hcall⟩ : flag.name ∈ ["not", "deep", "nested", "own", "eventually"] ∧ flag.isCall = false := by
    simpa [Step.isFlag] using h
  simp only [List.mem_cons, List.not_mem_nil, or_false] at hname
  rcases hname with hname | hname | hname | hname | hname
  all_goals simp [Step.effect, hcall, hname]

/-- A flag may as well be set one step later. -/
theorem addStep_flag (v : View) (h : flag.isFlag = true) (s : Step) :
    (v.addStep flag).addStep s = (v.addStep s).addStep flag := by
  have hword := effect_of_isFlag h
  simp only [addStep_eq]
  generalize flag.effect = e at hword
  cases e with
  | word => exact absurd rfl hword
  | _ => cases s.effect <;> rfl

theorem foldl_addStep_flag (v : View) (h : flag.isFlag = true) (steps : List Step) :
    steps.foldl addStep (v.addStep flag) = (steps.foldl addStep v).addStep flag := by
  induction steps generalizing v with
  | nil => rfl
  | cons s rest ih => rw [List.foldl_cons, v.addStep_flag h, ih, List.foldl_cons]

end View

theorem Reworded.foldl_addStep {steps steps' : List Step} (h : Reworded steps steps') (v : View) :
    steps'.foldl View.addStep v = steps.foldl View.addStep v := by
  induction h with
  | refl => rfl
  | filler _ hfiller ih =>
    rw [← ih, List.foldl_append, List.foldl_append, List.foldl_cons, View.addStep_filler _ hfiller]
  | @flag front rest front' rest' flag _ hflag hothers ih =>
    -- in both places the flag may as well stand at the end
    have hlast (l l' : List Step) :
        (l ++ flag :: l').foldl View.addStep v = ((l ++ l').foldl View.addStep v).addStep flag := by
      rw [List.foldl_append, List.foldl_cons, View.foldl_addStep_flag _ hflag, List.foldl_append]
    rw [← ih, hlast, hlast, hothers]

theorem Reworded.should_free {steps steps' : List Step} (h : Reworded steps steps')
    (hsteps : ∀ s ∈ steps, s.isShould = false) : ∀ s ∈ steps', s.isShould = false := by
  have hplain {s : Step} {names : List String} (hnames : "should" ∉ names) (hs : s.name ∈ names) :
      s.isShould = false := by
    have hne : s.name ≠ "should" := fun heq => hnames (heq ▸ hs)
    simp [Step.isShould, hne]
  induction h with
  | refl => exact hsteps
  | @filler front rest filler _ hfiller ih =>
    obtain ⟨hname, -⟩ : filler.name ∈ fillers ∧ filler.isCall = false := by simpa [Step.isFiller] using hfiller
    intro s hs
    rcases List.mem_append.mp hs with hs | hs
    · exact ih s (List.mem_append_left _ hs)
    · rcases List.mem_cons.mp hs with rfl | hs
      · exact hplain (by decide) hname
      · exact ih s (List.mem_append_right _ hs)
  | @flag front rest front' rest' flag _ _ hothers ih =>
    intro s hs
    have hmem : s ∈ front ++ flag :: rest := by
      have hs : s ∈ front' ++ rest' ∨ s = flag := by
        simp only [List.mem_append, List.mem_cons] at hs ⊢
        tauto
      rw [hothers] at hs
      simp only [List.mem_append, List.mem_cons] at hs ⊢
      tauto
    exact ih s hmem

theorem Step.Alike.effect {a b : Reading} {s t : Step} (h : Step.Alike a b s t) : s.effect = t.effect := by
  unfold Step.effect
  rw [h.isCall, h.name]

theorem View.Alike.addStep {a b : Reading} {v w : View} (hv : View.Alike a b v w) {s t : Step}
    (h : Step.Alike a b s t) : View.Alike a b (v.addStep s) (w.addStep t) := by
  obtain ⟨hvalue, hwords, hnegated, hdeep, heventually, hnested, hown⟩ := hv
  rw [View.addStep_eq, View.addStep_eq, h.effect]
  cases t.effect with
  | word => exact ⟨hvalue, List.rel_append hwords (.cons h .nil), hnegated, hdeep, heventually, hnested, hown⟩
  | negate => exact ⟨hvalue, hwords, congrArg Bool.not hnegated, hdeep, heventually, hnested, hown⟩
  | deep => exact ⟨hvalue, hwords, hnegated, rfl, heventually, hnested, hown⟩
  | eventually => exact ⟨hvalue, hwords, hnegated, hdeep, rfl, hnested, hown⟩
  | nested => exact ⟨hvalue, hwords, hnegated, hdeep, heventually, rfl, hown⟩
  | own => exact ⟨hvalue, hwords, hnegated, hdeep, heventually, hnested, rfl⟩
  | nothing => exact ⟨hvalue, hwords, hnegated, hdeep, heventually, hnested, hown⟩

theorem foldl_addStep_alike {a b : Reading} {steps steps' : List Step}
    (h : List.Forall₂ (Step.Alike a b) steps steps') {v w : View} (hv : View.Alike a b v w) :
    View.Alike a b (steps.foldl View.addStep v) (steps'.foldl View.addStep w) := by
  induction h generalizing v w with
  | nil => exact hv
  | cons hst _ ih => exact ih (hv.addStep hst)

theorem should_free_alike {a b : Reading} {steps steps' : List Step}
    (h : List.Forall₂ (Step.Alike a b) steps steps') (hsteps : ∀ s ∈ steps, s.isShould = false) :
    ∀ s ∈ steps', s.isShould = false := by
  induction h with
  | nil => exact hsteps
  | cons hst _ ih =>
    obtain ⟨hs, hrest⟩ := List.forall_mem_cons.mp hsteps
    refine List.forall_mem_cons.mpr ⟨?_, ih hrest⟩
    unfold Step.isShould at hs ⊢
    rwa [← hst.name, ← hst.isCall]

/-! ### The value and the steps of a form -/

namespace Form

variable {ctx : Context} {c : Chain} {value : Site} {steps : List Step}

theorem afterShould_eq_none (h : ∀ s ∈ steps, s.isShould = false) : View.afterShould steps = none := by
  induction steps with
  | nil => rfl
  | cons s rest ih =>
    obtain ⟨hs, hrest⟩ := List.forall_mem_cons.mp h
    unfold View.afterShould
    rw [show (s.name == "should" && !s.isCall) = false from hs]
    exact ih hrest

theorem afterShould_append {own : List Step} {should : Step} (hown : ∀ s ∈ own, s.isShould = false)
    (hshould : should.isShould = true) : View.afterShould (own ++ should :: steps) = some (should, steps) := by
  induction own with
  | nil =>
    rw [List.nil_append]
    unfold View.afterShould
    rw [show (should.name == "should" && !should.isCall) = true from hshould]
    rfl
  | cons s rest ih =>
    obtain ⟨hs, hrest⟩ := List.forall_mem_cons.mp hown
    rw [List.cons_append]
    unfold View.afterShould
    rw [show (s.name == "should" && !s.isCall) = false from hs]
    exact ih hrest

/-- In each form the value is found, with or without the parentheses around it, and the steps behind it. -/
theorem split?_eq (h : Form ctx value steps c) (hsteps : ∀ s ∈ steps, s.isShould = false) :
    View.split? ctx c = some (value.core, steps) ∨ View.split? ctx c = some (value, steps) := by
  cases h with
  | property hchain hown hshould hvalue =>
    left
    simp only [View.split?, hchain, afterShould_append hown hshould, hvalue, Option.map_some]
  | called hchain hsubject hcallee hkind hname hvalue =>
    right
    simp only [View.split?, hchain, afterShould_eq_none hsteps, hsubject, hcallee, hkind, hvalue, beq_self_eq_true,
      Bool.true_and, Bool.or_eq_true, beq_iff_eq, if_true, Option.bind_eq_bind, Option.bind_some, guard, if_pos hname]
    rfl
  | @library first hchain hsubject hname hvalue =>
    right
    have hnone : View.afterShould (first :: steps) = none := by
      refine afterShould_eq_none (List.forall_mem_cons.mpr ⟨?_, hsteps⟩)
      simp [Step.isShould, hname]
    have hkind : c.subject.kind = .identifier := by
      simp only [Chain.subjectIs, Bool.and_eq_true, beq_iff_eq] at hsubject
      exact hsubject.1
    simp [View.split?, hchain, hnone, hkind, hsubject, hname, Step.args, hvalue]

/-- No form is the setup of a library. -/
theorem setup?_eq_none (h : Form ctx value steps c) : Assertion.setup? ctx c = none := by
  unfold Assertion.setup?
  split
  · rename_i step hstep
    have hno : (step.isCall && (c.subjectIs ctx.names.chai ctx.source && ["use", "should"].contains step.name ||
        c.subjectIs ctx.names.should ctx.source && step.name == "extend")) = false := by
      cases h with
      | @property own should hchain _ hshould _ =>
        obtain ⟨rfl, rfl, rfl⟩ : own = [] ∧ should = step ∧ steps = [] := by
          rw [hchain] at hstep
          cases own with
          | nil => simpa using hstep
          | cons _ _ => simp at hstep
        simp only [Step.isShould, Bool.and_eq_true, Bool.not_eq_true'] at hshould
        simp [hshould.2]
      | called _ hsubject _ _ _ _ => simp [Chain.subjectIs, hsubject]
      | library hchain hsubject hname _ =>
        rw [hchain] at hstep
        obtain ⟨rfl, -⟩ := List.cons.inj hstep
        simp [hname]
    simp only [hno]
    rfl
  · rfl

/-- Without steps nothing is said, so a family need not be kept from such chains. -/
theorem synthesis?_eq (h : Form ctx value steps c) (f : Assertion.Family) :
    (Rule.assertion f).synthesis? ctx c = f.synthesis? ctx c := by
  unfold Rule.synthesis?
  split
  · rename_i hempty
    have hnil : c.steps = [] := by simpa using hempty
    have hsteps : steps = [] := by
      cases h with
      | property hchain _ _ _ => simp [hchain] at hnil
      | called hchain _ _ _ _ _ => rw [← hchain, hnil]
      | library hchain _ _ _ => simp [hchain] at hnil
    have hview : View.ofChain? ctx c = none := by
      subst hsteps
      rcases h.split?_eq (by simp) with hsplit | hsplit
      · simp [View.ofChain?, hsplit, guard]
      · simp [View.ofChain?, hsplit, guard]
    simp [Assertion.Family.synthesis?, Assertion.Family.view?, hview]
  · rfl

end Form

/-! ### Rules -/

/-- The site is read as what its parentheses enclose. -/
def Reading.Bares (a : Reading) (s : Site) : Prop := s.core.embed.fill a.piece = s.embed.fill a.piece

/-- The same rule replaces both chains, by expressions that are read as the same, or keeps both. -/
inductive SameRule (a b : Reading) (c c' : Chain) : Rule × Synthesis → Rule × Synthesis → Prop
  | replaced (rule : Rule) {e e' : Expr} (h : Expr.Alike a b e e') :
    SameRule a b c c' (rule, c.replaceBy e) (rule, c'.replaceBy e')
  | kept (rule : Rule) (reason reason' : String) : SameRule a b c c' (rule, .skip reason) (rule, .skip reason')

section
variable {a b : Reading} {c c' : Chain} {value value' : Site} {steps steps' reworded : List Step}

theorem Form.ofChain?_alike (h : Form a.ctx value steps c) (h' : Form b.ctx value' steps' c')
    (hsteps : ∀ s ∈ steps, s.isShould = false) (hbares : a.Bares value) (hbares' : b.Bares value')
    (hvalue : Expr.Alike a b value.embed value'.embed) (hreworded : Reworded steps reworded)
    (halike : List.Forall₂ (Step.Alike a b) reworded steps') :
    Option.Rel (View.Alike a b) (View.ofChain? a.ctx c) (View.ofChain? b.ctx c') := by
  have hsteps' := should_free_alike halike (hreworded.should_free hsteps)
  obtain ⟨taken, hsplit, htaken⟩ : ∃ taken, View.split? a.ctx c = some (taken, steps) ∧
      taken.embed.fill a.piece = value.embed.fill a.piece := by
    rcases h.split?_eq hsteps with hsplit | hsplit
    · exact ⟨_, hsplit, hbares⟩
    · exact ⟨_, hsplit, rfl⟩
  obtain ⟨taken', hsplit', htaken'⟩ : ∃ taken', View.split? b.ctx c' = some (taken', steps') ∧
      taken'.embed.fill b.piece = value'.embed.fill b.piece := by
    rcases h'.split?_eq hsteps' with hsplit | hsplit
    · exact ⟨_, hsplit, hbares'⟩
    · exact ⟨_, hsplit, rfl⟩
  have hview : View.Alike a b (steps.foldl View.addStep { value := taken.embed })
      (steps'.foldl View.addStep { value := taken'.embed }) := by
    rw [← hreworded.foldl_addStep]
    refine foldl_addStep_alike halike ⟨?_, .nil, rfl, rfl, rfl, rfl, rfl⟩
    exact htaken.trans (hvalue.eq.trans htaken'.symm)
  unfold View.ofChain?
  rw [hsplit, hsplit']
  simp only [Option.bind_eq_bind, Option.bind_some]
  rw [hview.words.isEmpty_eq]
  exact Option.Rel.bind (.of_eq rfl) fun _ _ _ => .some hview

theorem Assertion.Family.synthesis?_agree (hnames : a.ctx.names = b.ctx.names) (f : Assertion.Family)
    (hview : Option.Rel (View.Alike a b) (View.ofChain? a.ctx c) (View.ofChain? b.ctx c')) :
    Option.Rel (SameRule a b c c') ((f.synthesis? a.ctx c).map (Rule.assertion f, ·))
      ((f.synthesis? b.ctx c').map (Rule.assertion f, ·)) := by
  have hlooked : Option.Rel (View.Alike a b) (f.view? a.ctx c) (f.view? b.ctx c') :=
    hview.filter fun v w hvw => by rw [hvw.eventually]
  unfold Assertion.Family.synthesis?
  rw [Option.bind_eq_bind, Option.bind_eq_bind, Option.map_bind, Option.map_bind]
  refine hlooked.bind fun v w hvw => ?_
  have hbuilt := f.build_alike hnames hvw
  have hpositive := (f.build_alike hnames hvw.positive).isSome_eq
  simp only [Function.comp_apply]
  generalize f.build a.ctx v = x at hbuilt ⊢
  generalize f.build b.ctx w = y at hbuilt ⊢
  cases hbuilt with
  | some he => exact .some (.replaced _ he)
  | none =>
    dsimp only
    rw [hvw.negated, hpositive, Option.map_bind, Option.map_bind]
    exact Option.Rel.bind (.of_eq rfl) fun _ _ _ => .some (.kept _ _ _)

/-- Chains of the same steps on the same value belong to the same rule, in whatever form they are written, and the
rule writes the same expression. Fillers and the places of flags make no difference. -/
theorem Form.findRule?_agree (h : Form a.ctx value steps c) (hnames : a.ctx.names = b.ctx.names)
    (h' : Form b.ctx value' steps' c') (hsteps : ∀ s ∈ steps, s.isShould = false) (hbares : a.Bares value)
    (hbares' : b.Bares value') (hvalue : Expr.Alike a b value.embed value'.embed)
    (hreworded : Reworded steps reworded) (halike : List.Forall₂ (Step.Alike a b) reworded steps') :
    Option.Rel (SameRule a b c c') (Migration.assertions.findRule? a.ctx c)
      (Migration.assertions.findRule? b.ctx c') := by
  have hview := h.ofChain?_alike h' hsteps hbares hbares' hvalue hreworded halike
  have hfamilies (fs : List Assertion.Family) :
      Option.Rel (SameRule a b c c') ((fs.map Rule.assertion).findSome? fun r => (r.synthesis? a.ctx c).map (r, ·))
        ((fs.map Rule.assertion).findSome? fun r => (r.synthesis? b.ctx c').map (r, ·)) := by
    induction fs with
    | nil => exact .none
    | cons f rest ih =>
      have hfirst := f.synthesis?_agree hnames hview
      rw [List.map_cons, List.findSome?_cons, List.findSome?_cons, h.synthesis?_eq, h'.synthesis?_eq]
      generalize (f.synthesis? a.ctx c).map (Rule.assertion f, ·) = x at hfirst ⊢
      generalize (f.synthesis? b.ctx c').map (Rule.assertion f, ·) = y at hfirst ⊢
      cases hfirst with
      | none => exact ih
      | some hagree => exact .some hagree
  have hsetup {ctx : Context} {c : Chain} {value : Site} {steps : List Step} (h : Form ctx value steps c) :
      Rule.assertionSetup.synthesis? ctx c = none := by
    unfold Rule.synthesis?
    split
    · rfl
    · exact h.setup?_eq_none
  unfold Migration.findRule? Migration.catalog
  rw [List.findSome?_cons, List.findSome?_cons, hsetup h, hsetup h']
  exact hfamilies _

end

/-- The text of a piece without parentheses. -/
def bareText (source : Text) (span : Span) : String :=
  String.ofList ((source.slice span.start span.stop).filter fun c => c != '(' && c != ')')

/-- Each piece is read as its text without parentheses. -/
def Reading.bareTexts (source : Text) : Reading where
  ctx := { source, names := {} }
  piece span _ := .ident (bareText source span)

/-- The value and the argument in `value.should.not.deep.equal(argument)`. -/
def Form.propertyPieces? (steps : List Step) : Option (Site × Site) :=
  match steps with
  | [⟨"should", none, site⟩, ⟨"not", none, _⟩, ⟨"deep", none, _⟩, ⟨"equal", some [x], _⟩] =>
    (site.child? .object).map fun value => (value, x)
  | _ => none

/-- The value and the argument in `chai.expect(value).to.deep.not.equal(argument)`. -/
def Form.libraryPieces? (steps : List Step) : Option (Site × Site) :=
  match steps with
  | [⟨"expect", some [value], _⟩, ⟨"to", none, _⟩, ⟨"deep", none, _⟩, ⟨"not", none, _⟩, ⟨"equal", some [x], _⟩] =>
    some (value, x)
  | _ => none

theorem Form.propertyPieces?_eq_some {steps : List Step} {value x : Site}
    (h : propertyPieces? steps = some (value, x)) : ∃ should not deep equal, should.child? .object = some value ∧
    steps = [⟨"should", none, should⟩, ⟨"not", none, not⟩, ⟨"deep", none, deep⟩, ⟨"equal", some [x], equal⟩] := by
  unfold propertyPieces? at h
  split at h
  · obtain ⟨_, hobject, heq⟩ := Option.map_eq_some_iff.mp h
    cases heq
    exact ⟨_, _, _, _, hobject, rfl⟩
  · cases h

theorem Form.libraryPieces?_eq_some {steps : List Step} {value x : Site}
    (h : libraryPieces? steps = some (value, x)) : ∃ expect filler deep not equal,
    steps = [⟨"expect", some [value], expect⟩, ⟨"to", none, filler⟩, ⟨"deep", none, deep⟩, ⟨"not", none, not⟩,
      ⟨"equal", some [x], equal⟩] := by
  unfold libraryPieces? at h
  split at h
  · cases h
    exact ⟨_, _, _, _, _, rfl⟩
  · cases h

set_option maxRecDepth 100000 in
/-- Two forms of an assertion about a sum, with the flags in another order and a filler. -/
theorem Form.findRule?_agree_sum : ∃ (text text' : String) (tree tree' : Node) (root root' : Site) (a b : Reading),
    text = "(a + b).should.not.deep.equal(1);\n" ∧ Grammar.parse .plain text.toList = some tree ∧ root ∈ tree.sites ∧
    text' = "chai.expect((a + b)).to.deep.not.equal(1);\n" ∧ Grammar.parse .plain text'.toList = some tree' ∧
    root' ∈ tree'.sites ∧ a = .bareTexts text.toList ∧ b = .bareTexts text'.toList ∧
    Option.Rel (SameRule a b (Chain.walk text.toList root) (Chain.walk text'.toList root'))
      (Migration.assertions.findRule? a.ctx (Chain.walk text.toList root))
      (Migration.assertions.findRule? b.ctx (Chain.walk text'.toList root')) ∧
    (Migration.assertions.findRule? a.ctx (Chain.walk text.toList root)).isSome = true := by
  obtain ⟨text, htext⟩ : ∃ text, text = "(a + b).should.not.deep.equal(1);\n" := ⟨_, rfl⟩
  obtain ⟨text', htext'⟩ : ∃ text, text = "chai.expect((a + b)).to.deep.not.equal(1);\n" := ⟨_, rfl⟩
  have hfile : (Grammar.parse .plain text.toList).any (fun tree => tree.sites.any fun root =>
      (Grammar.parse .plain text'.toList).any fun tree' => tree'.sites.any fun root' =>
        (Chain.walk text'.toList root').subjectIs "chai" text'.toList &&
        (Migration.assertions.findRule? (Reading.bareTexts text.toList).ctx (Chain.walk text.toList root)).isSome &&
        (propertyPieces? (Chain.walk text.toList root).steps).any fun p =>
          (libraryPieces? (Chain.walk text'.toList root').steps).any fun q =>
            bareText text.toList p.1.core.span == bareText text.toList p.1.span &&
            bareText text'.toList q.1.core.span == bareText text'.toList q.1.span &&
            bareText text.toList p.1.span == bareText text'.toList q.1.span &&
            p.2.kind == .number && q.2.kind == .number &&
            bareText text.toList p.2.span == bareText text'.toList q.2.span) = true := by
    rw [htext, htext']
    decide +kernel
  obtain ⟨tree, hparse, hfile⟩ := (Option.any_eq_true _ _).mp hfile
  obtain ⟨root, hroot, hfile⟩ := List.any_eq_true.mp hfile
  obtain ⟨tree', hparse', hfile⟩ := (Option.any_eq_true _ _).mp hfile
  obtain ⟨root', hroot', hfile⟩ := List.any_eq_true.mp hfile
  simp only [Bool.and_eq_true] at hfile
  obtain ⟨⟨hsubject, hsome⟩, hfile⟩ := hfile
  refine ⟨text, text', tree, tree', root, root', _, _, htext, hparse, hroot, htext', hparse', hroot', rfl, rfl, ?_,
    hsome⟩
  obtain ⟨⟨value, x⟩, hpieces, hfile⟩ := (Option.any_eq_true _ _).mp hfile
  obtain ⟨⟨value', x'⟩, hpieces', hfile⟩ := (Option.any_eq_true _ _).mp hfile
  simp only [Bool.and_eq_true, beq_iff_eq] at hfile
  obtain ⟨⟨⟨⟨⟨hcore, hcore'⟩, hvalue⟩, hkind⟩, hkind'⟩, hargument⟩ := hfile
  obtain ⟨should, not, deep, equal, hobject, hsteps⟩ := propertyPieces?_eq_some hpieces
  obtain ⟨expect, filler, deep', not', equal', hsteps'⟩ := libraryPieces?_eq_some hpieces'
  have h : Form (Reading.bareTexts text.toList).ctx value
      [⟨"not", none, not⟩, ⟨"deep", none, deep⟩, ⟨"equal", some [x], equal⟩] (Chain.walk text.toList root) :=
    @Form.property _ _ _ _ [] _ hsteps (by simp) rfl hobject
  have h' : Form (Reading.bareTexts text'.toList).ctx value'
      [⟨"to", none, filler⟩, ⟨"deep", none, deep'⟩, ⟨"not", none, not'⟩, ⟨"equal", some [x'], equal'⟩]
      (Chain.walk text'.toList root') :=
    .library hsteps' hsubject rfl rfl
  have hreworded : Reworded [⟨"not", none, not⟩, ⟨"deep", none, deep⟩, ⟨"equal", some [x], equal⟩]
      [⟨"to", none, filler⟩, ⟨"deep", none, deep⟩, ⟨"not", none, not⟩, ⟨"equal", some [x], equal⟩] :=
    @Reworded.filler _ [] _ _ (@Reworded.flag _ [] _ [_] _ _ .refl rfl rfl) rfl
  have hx : Site.Alike (.bareTexts text.toList) (.bareTexts text'.toList) x x' :=
    ⟨hkind.trans hkind'.symm, by simp [Site.stringValue?, hkind, hkind'], congrArg Expr.ident hargument⟩
  have halike : List.Forall₂ (Step.Alike (.bareTexts text.toList) (.bareTexts text'.toList))
      [⟨"to", none, filler⟩, ⟨"deep", none, deep⟩, ⟨"not", none, not⟩, ⟨"equal", some [x], equal⟩]
      [⟨"to", none, filler⟩, ⟨"deep", none, deep'⟩, ⟨"not", none, not'⟩, ⟨"equal", some [x'], equal'⟩] :=
    .cons ⟨rfl, .none⟩ <| .cons ⟨rfl, .none⟩ <| .cons ⟨rfl, .none⟩ <|
      .cons ⟨rfl, .some (.cons hx .nil)⟩ .nil
  exact h.findRule?_agree rfl h' (by simp [Step.isShould]) (congrArg Expr.ident hcore) (congrArg Expr.ident hcore')
    (congrArg Expr.ident hvalue) hreworded halike

end TestMigration
