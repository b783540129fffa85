import TestMigration.Proofs.Grammar.AgreeingProductions
import TestMigration.Proofs.Grammar.Parsed

/-!
# How deeply productions are nested

What a goal takes from a scan depends on the text ahead only: neither the offset nor the bound on the depth matters,
as long as the bound is not reached (`Grammar.rules_agree`). `Grammar.parse` chooses the bound so that it never is
(`Grammar.parse_eq_parseWithin`).
-/

namespace TestMigration

open Movable

namespace Like

mutual

theorem Node.moved_zero (n : Node) : n.moved 0 = n := by
  cases n with
  | mk r k s cs =>
    rw [Node.moved, Node.movedAll_zero cs]
    rfl

theorem Node.movedAll_zero (l : List Node) : Node.movedAll 0 l = l := by
  cases l with
  | nil => rfl
  | cons n rest => rw [Node.movedAll, Node.moved_zero n, Node.movedAll_zero rest]

end

theorem moved_zero (l : List Node) : moved 0 l = l := by
  rw [← Node.movedAll_eq]
  exact Node.movedAll_zero l

end Like

namespace Grammar

open Scan Scanner

variable {M m n : Nat} {F : Frame} {s s' : Scan}

theorem production_agrees (g g' : Rules) [Rules.Agree M F g g'] (goal : Goal) :
    Agrees M F (.fresh goal.rank) (production g goal) (production g' goal) true := by
  unfold production
  split <;> infer_instance

/-- Goals come to the same from scans with the same text ahead, whatever the bounds are that are not reached. -/
theorem rules_agree (F : Frame) (hn : M ≤ n) (hm : M ≤ m) : Rules.Agree M F (rules n) (rules m) := by
  induction M generalizing n m with
  | zero => exact ⟨fun _ _ _ _ h => absurd h (Nat.not_lt_zero _)⟩
  | succ M ih =>
    obtain ⟨n, rfl⟩ : ∃ k, n = k + 1 := ⟨n - 1, by omega⟩
    obtain ⟨m, rfl⟩ : ∃ k, m = k + 1 := ⟨m - 1, by omega⟩
    have hg : Rules.Agree M F (rules n) (rules m) := ih (by omega) (by omega)
    exact ⟨fun goal _ _ hs hM => (production_agrees (rules n) (rules m) goal).out hs (Nat.le_of_lt_succ hM)⟩

theorem statements_outcome (hs : s.Meets F s') (hn : 16 * s.skip.rest.length + 7 ≤ n)
    (hm : 16 * s.skip.rest.length + 7 ≤ m) :
    Scanner.Outcome F (.fresh 7) false s (many (rules n .statement) s) (many (rules m .statement) s') := by
  have hg := rules_agree F hn hm
  have hmany : Agrees (16 * s.skip.rest.length + 7) F (.fresh 7) (many (rules n .statement))
      (many (rules m .statement)) false := inferInstance
  exact hmany.out hs (Nat.le_refl _)

/-! ### Files -/

/-- What a file is read as when productions are nested at most so deeply. -/
def parseWithin (depth : Nat) (grammar : Grammar) (source : Text) : Option Node :=
  (sourceFile (rules depth) (start grammar source)).map fun r => r.2.comments.foldr Node.insertComment r.1

theorem parse_eq (grammar : Grammar) (source : Text) :
    parse grammar source = parseWithin (16 * source.length + 64) grammar source := by
  unfold parse parseWithin
  cases sourceFile (rules (16 * source.length + 64)) (start grammar source) <;> rfl

/-- The tree of a file whose statements were read, if nothing is left behind them. -/
def finished (first : Option Node) (r : List Node × Scan) : Option Node :=
  if r.2.skip.rest.isEmpty then
    some (r.2.skip.comments.foldr Node.insertComment (.mk .part .program ⟨0, r.2.skip.pos⟩ (first.toList ++ r.1)))
  else none

theorem parseWithin_run (depth : Nat) (grammar : Grammar) (source : Text) : parseWithin depth grammar source =
    (optional hashBang (start grammar source)).bind fun x =>
      (many (rules depth .statement) x.2).bind (finished x.1) := by
  have hrun (g : Rules) (s : Scan) : sourceFile g s =
      (optional hashBang s).bind fun x => (many (g .statement) x.2).bind fun r =>
        ((guard r.2.skip.rest.isEmpty : Scanner Unit) r.2.skip).bind fun u =>
          some (.mk .part .program ⟨0, r.2.skip.pos⟩ (x.1.toList ++ r.1), u.2) := rfl
  unfold parseWithin
  rw [hrun, Option.map_bind]
  refine Option.bind_congr fun x _ => ?_
  rw [Function.comp, Option.map_bind]
  refine Option.bind_congr fun r _ => ?_
  rw [Function.comp, guard_run, finished]
  split <;> rfl

theorem optional_run {α : Type} (p : Scanner α) (s : Scan) :
    optional p s = some ((p s).elim (none, s) fun r => (some r.1, r.2)) := by
  have hrun : optional p s = ((p s).bind fun r => some (some r.1, r.2)).orElse fun _ => some (none, s) := rfl
  rw [hrun]
  cases p s <;> rfl

theorem hashBang_run (s : Scan) : optional hashBang s =
    if Text.startsWith s.rest "#!" then
      let line := s.rest.takeWhile (· != '\n')
      let s' := s.advance line (s.rest.dropWhile (· != '\n'))
      some (some (.mk .part .hashBang ⟨s.pos, s'.pos⟩ []), s')
    else some (none, s) := by
  rw [optional_run]
  unfold hashBang immediate
  simp only [bind, StateT.bind]
  by_cases h : Text.startsWith s.rest "#!" = true
  · simp only [h, if_true]
    rfl
  · simp only [h]
    rfl

theorem hashBang_length_le {first : Option Node} (h : optional hashBang s = some (first, s')) :
    s'.rest.length ≤ s.rest.length := by
  rw [hashBang_run] at h
  split at h
  · cases h
    exact (List.dropWhile_sublist _).length_le
  · cases h
    exact Nat.le_refl _

/-- The bound that a file is read with is not reached: every greater one gives the same tree. -/
theorem parse_eq_parseWithin (grammar : Grammar) {source : Text} {depth : Nat} (h : 16 * source.length + 7 ≤ depth) :
    parse grammar source = parseWithin depth grammar source := by
  rw [parse_eq, parseWithin_run, parseWithin_run]
  refine Option.bind_congr fun x hx => ?_
  obtain ⟨first, s⟩ := x
  have hlength : s.rest.length ≤ source.length := hashBang_length_le hx
  have hahead := s.skip_length_le
  let F : Frame := ⟨0, 0, s.skip.comments, s.skip.comments⟩
  have hmeets : s.Meets F s := ⟨⟨rfl, rfl, rfl⟩, rfl, rfl, [], [], rfl, rfl, rfl⟩
  have hout := statements_outcome (n := 16 * source.length + 64) (m := depth) hmeets (by omega) (by omega)
  generalize many (rules (16 * source.length + 64) .statement) s = r at hout
  generalize many (rules depth .statement) s = r' at hout
  cases hout with
  | fails => rfl
  | @comes ss ss' t t' like joins length =>
    obtain ⟨-, hrest, hpos, passed, passed', hpassed, hcomments, hcomments'⟩ := joins
    obtain rfl : ss = ss' := by rwa [Like.moved_zero, Like.moved_zero] at like
    obtain rfl : passed = passed' := by rwa [Like.moved_zero, Like.moved_zero] at hpassed
    show finished first (ss, t) = finished first (ss, t')
    rw [finished, finished, hrest, show t.skip.pos = t'.skip.pos from hpos, hcomments, hcomments']

end Grammar

end TestMigration
