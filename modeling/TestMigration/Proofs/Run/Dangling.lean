import TestMigration.Proofs.Edit.Copied
import TestMigration.Proofs.Run.Settled

/-!
# References to names that a run unbinds

A run deletes a legacy declaration or a sandbox once every reference to its names lies under an edit. That a
reference lies under an edit does not mean that it is gone: an expression brings back what it embeds. Here it
is said when a reference survives.

Main statement: `Settings.Unbinds.none_survives_iff`.
-/

namespace TestMigration

/-! ### Sandboxes that go -/

namespace Run

variable {ctx : Context} {tree : Node} {declarations : List (Site × String)}

/-- The sandboxes of a list of names that are removed, one after the other. -/
def removedFrom (ctx : Context) (tree : Node) (declarations : List (Site × String)) :
    Run → List String → List String
  | _, [] => []
  | r, n :: rest =>
    let later := removedFrom ctx tree declarations (r.removeSandbox ctx tree declarations n) rest
    if isStillReferenced ctx.source tree n ((sandboxStatements declarations n).map (·.span)) r.edits
    then later else n :: later

def sandboxDeletions (ctx : Context) (declarations : List (Site × String)) (binding : String) : List Edit :=
  (sandboxStatements declarations binding).map fun s =>
    .deleteStatement ctx.source ((s.emptiedHook? ctx.source).getD s).span "sandbox-creation"

theorem foldl_removeSandbox_edits (r : Run) (names : List String) :
    (names.foldl (removeSandbox ctx tree declarations) r).edits =
      r.edits ++ (removedFrom ctx tree declarations r names).flatMap (sandboxDeletions ctx declarations) := by
  induction names generalizing r with
  | nil => simp [removedFrom]
  | cons n rest ih =>
    rw [List.foldl_cons, ih, removedFrom]
    have hedits : (r.removeSandbox ctx tree declarations n).edits = r.edits ++
        if isStillReferenced ctx.source tree n ((sandboxStatements declarations n).map (·.span)) r.edits
        then [] else sandboxDeletions ctx declarations n := by
      unfold removeSandbox
      dsimp only
      rw [← sandboxStatements]
      split
      · simp
      · rfl
    rw [hedits]
    split <;> simp

/-- A removed sandbox is not referenced any more, whatever edits follow. -/
theorem isStillReferenced_of_mem_removedFrom {r : Run} {names : List String} {n : String} {later : List Edit}
    (hn : n ∈ removedFrom ctx tree declarations r names)
    (hlater : (names.foldl (removeSandbox ctx tree declarations) r).edits ⊆ later) :
    isStillReferenced ctx.source tree n ((sandboxStatements declarations n).map (·.span)) later = false := by
  induction names generalizing r with
  | nil => cases hn
  | cons first rest ih =>
    have hrest := ih (r := r.removeSandbox ctx tree declarations first)
    rw [removedFrom] at hn
    split at hn
    · exact hrest hn hlater
    · rename_i hgone
      rcases List.mem_cons.mp hn with rfl | hn
      · have hbefore : r.edits ⊆ later := by
          rw [foldl_removeSandbox_edits] at hlater
          exact fun e he => hlater (List.mem_append_left _ he)
        exact isStillReferenced_anti hbefore (by simpa using hgone)
      · exact hrest hn hlater

end Run

/-! ### Edits stay -/

theorem RegistrationPass.edits_prefix_ofTree (source : Text) (tree : Node) (edits : List Edit) :
    edits <+: (RegistrationPass.ofTree source tree edits).edits := by
  have hfold (calls : List Site) (p : RegistrationPass) :
      p.edits <+: (calls.foldl (addCall source) p).edits := by
    induction calls generalizing p with
    | nil => exact List.prefix_refl _
    | cons call rest ih =>
      refine List.IsPrefix.trans ?_ (ih _)
      unfold addCall
      split
      · exact List.prefix_refl _
      · split
        · exact List.prefix_refl _
        · exact List.prefix_append _ _
  exact hfold _ { edits }

namespace Settings

variable {settings : Settings} {path : String} {source : Text} {tree : Node}

theorem unboxed_prefix_collected :
    (settings.unboxed source tree).edits <+: (settings.collected source tree).edits := by
  have hregistered : (settings.unboxed source tree).edits <+: (settings.registered source tree).1.edits := by
    by_cases henabled : settings.migrations.contains .registration = true
    · rw [registered, (Run.register_of_enabled henabled).1]
      exact RegistrationPass.edits_prefix_ofTree _ _ _
    · have hsame : (settings.unboxed source tree).edits = (settings.registered source tree).1.edits := by
        rw [registered, Run.register_of_disabled henabled]
      exact ⟨[], by rw [List.append_nil, hsame]⟩
  refine hregistered.trans ?_
  unfold collected Run.removeSetup
  split
  · exact List.prefix_refl _
  · split
    · exact List.prefix_append _ _
    · exact List.prefix_refl _

/-- The legacy declarations that a run deletes. -/
def deleted (settings : Settings) (path : String) (source : Text) (tree : Node) : List Declaration :=
  (settings.planner path source tree).deleted source tree (settings.request source tree)
    (settings.collected source tree).edits

def removedSandboxes (settings : Settings) (source : Text) (tree : Node) : List String :=
  Run.removedFrom (settings.context source tree) tree (settings.sandboxes source tree)
    ((settings.discovered source tree).finishStubs (settings.context source tree))
    (orderNames ((settings.sandboxes source tree).map (·.2)))

theorem dropLegacy_prefix_planned :
    ((settings.planner path source tree).dropLegacy source tree (settings.request source tree)
      (settings.collected source tree).edits).1 <+: settings.planned path source tree := by
  obtain ⟨more, hmore⟩ := @ImportPlanner.plan_edits (settings.planner path source tree) source tree
    (settings.request source tree) (settings.collected source tree).edits
  exact ⟨more, hmore.symm⟩

theorem unboxed_prefix_planned :
    (settings.unboxed source tree).edits <+: settings.planned path source tree := by
  have hcollected : (settings.collected source tree).edits <+: ((settings.planner path source tree).dropLegacy
      source tree (settings.request source tree) (settings.collected source tree).edits).1 := by
    rw [ImportPlanner.dropLegacy_eq]
    exact List.prefix_append _ _
  exact (unboxed_prefix_collected.trans hcollected).trans dropLegacy_prefix_planned

/-- The run deletes what binds `name`, which are the statements at the given spans, and does not import the
name anew. -/
inductive Unbinds (settings : Settings) (path : String) (source : Text) (tree : Node) :
    String → List Span → Prop
  | declaration {d : Declaration} {name : String} (hd : d ∈ settings.deleted path source tree)
    (hname : name ∈ d.locals) (hfresh : name ∉ (settings.request source tree).provided) :
    Unbinds settings path source tree name [d.statement.span]
  | sandbox {name : String} (hname : name ∈ settings.removedSandboxes source tree) :
    Unbinds settings path source tree name
      ((Run.sandboxStatements (settings.sandboxes source tree) name).map (·.span))

theorem Unbinds.isStillReferenced_eq_false {name : String} {statements : List Span}
    (h : settings.Unbinds path source tree name statements) :
    isStillReferenced source tree name statements (settings.planned path source tree) = false := by
  cases h with
  | declaration hd hname hfresh =>
    exact ImportPlanner.isStillReferenced_of_mem_deleted hd
      (fun e he => dropLegacy_prefix_planned.subset he) name hname hfresh
  | sandbox hname =>
    have hlater : (settings.unboxed source tree).edits ⊆ settings.planned path source tree :=
      unboxed_prefix_planned.subset
    exact @Run.isStillReferenced_of_mem_removedFrom (settings.context source tree) _ _ _ _ _ _ hname hlater

end Settings

/-! ### Surviving references -/

/-- The uses of a name outside of the given spans. -/
def outsideReferences (source : Text) (tree : Node) (name : String) (excluded : List Span) : List Site :=
  tree.sites.filter fun s =>
    s.isReference && s.text source == name && !excluded.any (·.contains s.span)

theorem covers_of_isStillReferenced_eq_false {source : Text} {tree : Node} {name : String}
    {excluded : List Span} {edits : List Edit}
    (h : isStillReferenced source tree name excluded edits = false) {s : Site}
    (hs : s ∈ outsideReferences source tree name excluded) : Edit.covers edits s.span = true := by
  obtain ⟨hsite, hreference⟩ := List.mem_filter.mp hs
  rw [Bool.and_eq_true, Bool.not_eq_true'] at hreference
  have hgone := List.any_eq_false.mp h s hsite
  simpa [hreference.1, isGone, hreference.2] using hgone

/-- The two spans share a byte. -/
def Span.Meets (s t : Span) : Prop := max s.start t.start < min s.stop t.stop

instance (s t : Span) : Decidable (s.Meets t) := inferInstanceAs (Decidable (_ < _))

theorem Span.meets_iff {s t : Span} : s.Meets t ↔ ∃ b, s.Holds b ∧ t.Holds b := by
  unfold Span.Meets Span.Holds
  constructor
  · exact fun h => ⟨max s.start t.start, by omega⟩
  · rintro ⟨b, hb⟩
    omega

namespace Settings

variable {settings : Settings} {path : String} {source : Text} {tree : Node}

/-- Some byte of the span is copied to the output. -/
def Survives (settings : Settings) (path : String) (source : Text) (tree : Node) (s : Span) : Prop :=
  ∃ c ∈ copied source (settings.planned path source tree), c.Meets s

instance (s : Span) : Decidable (settings.Survives path source tree s) :=
  inferInstanceAs (Decidable (∃ c ∈ _, _))

theorem survives_iff {s : Span} : settings.Survives path source tree s ↔
    ∃ b, s.Holds b ∧ Held (copied source (settings.planned path source tree)) b := by
  unfold Survives Held
  simp only [Span.meets_iff]
  constructor
  · rintro ⟨c, hc, b, hcb, hsb⟩
    exact ⟨b, hsb, c, hc, hcb⟩
  · rintro ⟨b, hsb, c, hc, hcb⟩
    exact ⟨c, hc, b, hcb, hsb⟩

/-- References to a name that the run unbinds all lie under edits. None of them survives exactly when no
expression of the forest embeds one of their bytes, and none of their bytes lies under dropped edits alone. -/
theorem Unbinds.none_survives_iff {text name : String} {statements : List Span}
    (hparse : Grammar.parse (Grammar.ofPath path) text.toList = some tree)
    (h : settings.Unbinds path text.toList tree name statements) :
    (∀ s ∈ outsideReferences text.toList tree name statements,
      ¬ settings.Survives path text.toList tree s.span) ↔
    ∀ s ∈ outsideReferences text.toList tree name statements, ∀ b, s.span.Holds b →
      (∀ t ∈ forest text.toList (settings.planned path text.toList tree), ¬ t.Embeds b) ∧
      ((∃ e ∈ overlapping text.toList (settings.planned path text.toList tree), e.span.Holds b) →
        ∃ t ∈ forest text.toList (settings.planned path text.toList tree), t.span.Holds b) := by
  have htree := Grammar.parse_placed hparse
  have hinside := settings.planned_inside path htree
  refine forall_congr' fun s => forall_congr' fun hs => ?_
  obtain ⟨e, he, hcovers⟩ := List.any_eq_true.mp
    (covers_of_isStillReferenced_eq_false h.isStillReferenced_eq_false hs)
  rw [survives_iff]
  simp only [not_exists, not_and]
  refine forall_congr' fun b => forall_congr' fun hb => ?_
  have hholds : e.span.Holds b := by
    obtain ⟨hstart, hstop⟩ : e.span.start ≤ s.span.start ∧ s.span.stop ≤ e.span.stop := by
      simpa [Span.contains] using (Bool.and_eq_true_iff.mp hcovers).2
    exact ⟨Nat.le_trans hstart hb.1, Nat.lt_of_lt_of_le hb.2 hstop⟩
  have hsize : b < Text.size text.toList := Nat.lt_of_lt_of_le hholds.2 (hinside e he).stop_le
  rw [held_copied_iff hinside]
  constructor
  · intro hnone
    refine ⟨fun t ht hembeds => hnone (Or.inr ⟨t, ht, hembeds⟩), fun _ => ?_⟩
    refine Classical.byContradiction fun hfree => hnone (Or.inl ⟨hsize, fun t ht hb => ?_⟩)
    exact hfree ⟨t, ht, hb⟩
  · rintro ⟨hembeds, hoverlap⟩ (⟨-, hfree⟩ | ⟨t, ht, hembed⟩)
    · rcases holds_forest_or_overlapping hinside ⟨e, he, hholds⟩ with hforest | hdropped
      · obtain ⟨t, ht, hb⟩ := hforest
        exact hfree t ht hb
      · obtain ⟨t, ht, hb⟩ := hoverlap hdropped
        exact hfree t ht hb
    · exact hembeds t ht hembed

set_option maxRecDepth 100000 in
theorem Unbinds.unused_chai_gone : ∃ (text : String) (tree : Node) (d : Declaration),
    text = "const chai = require('chai');\nchai.expect(1).to.equal(1);\n" ∧
    Grammar.parse (Grammar.ofPath "a.test.js") text.toList = some tree ∧
    Settings.Unbinds {} "a.test.js" text.toList tree "chai" [d.statement.span] ∧
    ∃ s ∈ outsideReferences text.toList tree "chai" [d.statement.span], ∀ b, s.span.Holds b →
      ∀ t ∈ forest text.toList (Settings.planned {} "a.test.js" text.toList tree), ¬ t.Embeds b := by
  obtain ⟨text, htext⟩ : ∃ text, text = "const chai = require('chai');\nchai.expect(1).to.equal(1);\n" :=
    ⟨_, rfl⟩
  have hfile : (Grammar.parse (Grammar.ofPath "a.test.js") text.toList).any (fun tree =>
      (∃ d ∈ Settings.deleted {} "a.test.js" text.toList tree, "chai" ∈ d.locals ∧
        "chai" ∉ (Settings.request {} text.toList tree).provided ∧
        outsideReferences text.toList tree "chai" [d.statement.span] ≠ [] ∧
        ∀ s ∈ outsideReferences text.toList tree "chai" [d.statement.span],
          ¬ Settings.Survives {} "a.test.js" text.toList tree s.span : Bool)) = true := by
    rw [htext]
    decide +kernel
  obtain ⟨tree, hparse, hfile⟩ := (Option.any_eq_true _ _).mp hfile
  obtain ⟨d, hd, hname, hfresh, hsome, hnone⟩ := of_decide_eq_true hfile
  have hunbinds := Unbinds.declaration hd hname hfresh
  obtain ⟨s, hs⟩ := List.exists_mem_of_ne_nil _ hsome
  have hembeds := (Unbinds.none_survives_iff hparse hunbinds).mp hnone s hs
  exact ⟨text, tree, d, htext, hparse, hunbinds, s, hs, fun b hb => (hembeds b hb).1⟩

set_option maxRecDepth 100000 in
/-- The subject of an assertion is embedded in the new one, with the name that goes. -/
theorem Unbinds.reference_survives : ¬ ∀ (settings : Settings) (path text : String) (tree : Node)
    (name : String) (statements : List Span), Grammar.parse (Grammar.ofPath path) text.toList = some tree →
    settings.Unbinds path text.toList tree name statements →
      ∀ s ∈ outsideReferences text.toList tree name statements,
        ¬ settings.Survives path text.toList tree s.span := by
  intro h
  obtain ⟨text, htext⟩ : ∃ text, text =
      "const chai = require('chai');\nchai.expect(chai.version).to.equal('4');\n" := ⟨_, rfl⟩
  have hfile : (Grammar.parse (Grammar.ofPath "a.test.js") text.toList).any (fun tree =>
      (∃ d ∈ Settings.deleted {} "a.test.js" text.toList tree, "chai" ∈ d.locals ∧
        "chai" ∉ (Settings.request {} text.toList tree).provided ∧
        ∃ s ∈ outsideReferences text.toList tree "chai" [d.statement.span],
          Settings.Survives {} "a.test.js" text.toList tree s.span : Bool)) = true := by
    rw [htext]
    decide +kernel
  obtain ⟨tree, hparse, hfile⟩ := (Option.any_eq_true _ _).mp hfile
  obtain ⟨d, hd, hname, hfresh, s, hs, hsurvives⟩ := of_decide_eq_true hfile
  exact h {} "a.test.js" text tree "chai" _ hparse (Unbinds.declaration hd hname hfresh) s hs hsurvives

end Settings

end TestMigration
