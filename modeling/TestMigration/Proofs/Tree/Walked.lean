import Mathlib.Data.Option.Basic
import TestMigration.Chain

/-!
# Walking down a chain

`Step.last?_eq_some_iff` says which sites end with a step and what the step goes on from. The walk meets the end of the
chain before its bound does (`Chain.walkGo_eq`), so that it is a recursion along `Step.last?`: `Chain.walk_of_none` and
`Chain.walk_of_last?`. Main statements: `Chain.walk_induction`, and `Chain.walk_steps` for properties of single sites.
-/

namespace TestMigration

variable {source : Text} {s t inner root : Site} {step : Step} {later : List Step}

/-! ### One step down -/

namespace Step

/-- A site ends with a step when it is a member with a property and an object, or calls such a member. -/
theorem last?_eq_some_iff : last? source s = some (step, inner) ↔
    (s.kind = .member ∧ ∃ p, s.child? .property = some p ∧ s.child? .object = some inner ∧
      step = { name := p.text source, arguments? := none, site := s }) ∨
    s.kind = .call ∧ ∃ f p args, s.child? .callee = some f ∧ f.kind = .member ∧ f.child? .property = some p ∧
      f.child? .object = some inner ∧ s.child? .arguments = some args ∧ args.kind = .arguments ∧
        step = { name := p.text source, arguments? := some args.parts, site := s } := by
  constructor
  · intro h
    unfold last? at h
    split at h
    · rename_i hkind
      simp only [Option.bind_eq_bind, Option.bind_eq_some_iff] at h
      obtain ⟨f, hf, _, hmember, p, hp, object, hobject, args, hargs, _, harguments, heq⟩ := h
      obtain ⟨rfl, rfl⟩ := Prod.mk.inj (Option.some.inj heq)
      exact .inr ⟨hkind, f, p, args, hf, by simpa using hmember, hp, hobject, hargs,
        by simpa using harguments, rfl⟩
    · rename_i hkind
      simp only [Option.bind_eq_bind, Option.bind_eq_some_iff] at h
      obtain ⟨p, hp, object, hobject, heq⟩ := h
      obtain ⟨rfl, rfl⟩ := Prod.mk.inj (Option.some.inj heq)
      exact .inl ⟨hkind, p, hp, hobject, rfl⟩
    · cases h
  · rintro (⟨hkind, p, hp, hobject, rfl⟩ | ⟨hkind, f, p, args, hf, hmember, hp, hobject, hargs, harguments, rfl⟩)
    · simp [last?, hkind, hp, hobject]
    · simp [last?, hkind, hf, hmember, hp, hobject, hargs, harguments, guard]

theorem last?_site (h : last? source s = some (step, inner)) : step.site = s := by
  obtain ⟨-, _, -, -, rfl⟩ | ⟨-, _, _, _, -, -, -, -, -, -, rfl⟩ := last?_eq_some_iff.mp h <;> rfl

/-- A step goes on from the object of a member, which is the site itself or its callee. -/
theorem last?_inner (h : last? source s = some (step, inner)) :
    s.child? .object = some inner ∨ ∃ f, s.child? .callee = some f ∧ f.child? .object = some inner := by
  obtain ⟨-, _, -, hobject, -⟩ | ⟨-, f, _, _, hf, -, -, hobject, -⟩ := last?_eq_some_iff.mp h
  · exact .inl hobject
  · exact .inr ⟨f, hf, hobject⟩

theorem last?_kind (h : (last? source s).isSome = true) : (s.kind == .call || s.kind == .member) = true := by
  obtain ⟨⟨step, inner⟩, h⟩ := Option.isSome_iff_exists.mp h
  obtain ⟨hkind, -⟩ | ⟨hkind, -⟩ := last?_eq_some_iff.mp h <;> simp [hkind]

end Step

/-! ### The bound -/

theorem Node.height_le {n : Node} : ∀ {cs : List Node}, n ∈ cs → n.height ≤ Node.heightOfAll cs
  | c :: rest, h => by
    rw [Node.heightOfAll]
    rcases List.mem_cons.mp h with rfl | h
    · exact Nat.le_max_left ..
    · exact Nat.le_trans (Node.height_le h) (Nat.le_max_right ..)

theorem Node.height_lt {n c : Node} (h : c ∈ n.children) : c.height < n.height := by
  cases n
  exact Nat.lt_succ_of_le (Node.height_le h)

theorem Node.height_pos (n : Node) : 0 < n.height := by
  cases n
  exact Nat.succ_pos _

theorem Site.height_child? {r : Role} (h : s.child? r = some t) : t.node.height < s.node.height := by
  obtain ⟨n, hn, rfl⟩ := Option.map_eq_some_iff.mp h
  exact Node.height_lt (List.mem_of_find?_eq_some hn)

theorem Step.height_last? (h : last? source s = some (step, inner)) : inner.node.height < s.node.height := by
  obtain hobject | ⟨f, hf, hobject⟩ := last?_inner h
  · exact Site.height_child? hobject
  · exact Nat.lt_trans (Site.height_child? hobject) (Site.height_child? hf)

namespace Chain

/-- Every bound from the height of the site on gives the same walk. -/
theorem walkGo_eq {n m : Nat} (hn : s.node.height ≤ n) (hm : s.node.height ≤ m) :
    walkGo source n s later = walkGo source m s later := by
  induction n generalizing m s later with
  | zero => exact absurd hn (Nat.not_le_of_lt s.node.height_pos)
  | succ n ih =>
    cases m with
    | zero => exact absurd hm (Nat.not_le_of_lt s.node.height_pos)
    | succ m =>
      cases hlast : Step.last? source s with
      | none => simp only [walkGo, hlast]
      | some last =>
        have hsmaller := Step.height_last? hlast
        simp only [walkGo, hlast]
        exact ih (by omega) (by omega)

theorem walkGo_append (n : Nat) (s : Site) (later : List Step) :
    walkGo source n s later = ((walkGo source n s []).1 ++ later, (walkGo source n s []).2) := by
  induction n generalizing s later with
  | zero => rfl
  | succ n ih =>
    cases hlast : Step.last? source s with
    | none => simp only [walkGo, hlast, List.nil_append]
    | some last =>
      simp only [walkGo, hlast]
      rw [ih, ih last.2 [last.1], List.append_assoc, List.singleton_append]

/-! ### The walk along the steps -/

theorem walk_of_none (h : Step.last? source root = none) : walk source root = { steps := [], subject := root, root } := by
  obtain ⟨n, hheight⟩ := Nat.exists_eq_add_of_lt root.node.height_pos
  simp only [walk, hheight, walkGo, h]

theorem walk_of_last? (h : Step.last? source root = some (step, inner)) : walk source root =
    { steps := (walk source inner).steps ++ [step], subject := (walk source inner).subject, root } := by
  obtain ⟨n, hheight⟩ := Nat.exists_eq_add_of_lt root.node.height_pos
  have hsmaller := Step.height_last? h
  have hinner : walkGo source (0 + n) inner [step] = walkGo source inner.node.height inner [step] :=
    walkGo_eq (by omega) (Nat.le_refl _)
  simp only [walk, hheight, walkGo, h]
  rw [hinner, walkGo_append]

theorem walkGo_induction {motive : List Step → Site → Prop} (n : Nat) (h : motive later s)
    (hstep : ∀ {s inner : Site} {step : Step} {later : List Step}, Step.last? source s = some (step, inner) →
      motive later s → motive (step :: later) inner) :
    motive (walkGo source n s later).1 (walkGo source n s later).2 := by
  induction n generalizing s later with
  | zero => exact h
  | succ n ih =>
    unfold walkGo
    split
    · rename_i step inner hlast
      exact ih (hstep hlast h)
    · exact h

/-- What holds at the end of a chain and goes on down from step to step holds of the whole chain. -/
theorem walk_induction {motive : List Step → Site → Prop} (h : motive [] root)
    (hstep : ∀ {s inner : Site} {step : Step} {later : List Step}, Step.last? source s = some (step, inner) →
      motive later s → motive (step :: later) inner) :
    motive (walk source root).steps (walk source root).subject := walkGo_induction root.node.height h hstep

/-- A property that goes on down from step to step holds of the subject and where the steps end, and each step is the
last one of the part of the chain that it ends. -/
theorem walk_steps {P : Site → Prop} (hroot : P root)
    (hlast : ∀ {s inner : Site} {step : Step}, P s → Step.last? source s = some (step, inner) → P inner) :
    (∀ step ∈ (walk source root).steps, P step.site ∧ ∃ inner, Step.last? source step.site = some (step, inner)) ∧
      P (walk source root).subject := by
  refine walk_induction (motive := fun steps s =>
    (∀ step ∈ steps, P step.site ∧ ∃ inner, Step.last? source step.site = some (step, inner)) ∧ P s)
    ⟨by simp, hroot⟩ ?_
  rintro s inner step later hstep ⟨hlater, hs⟩
  refine ⟨List.forall_mem_cons.mpr ⟨?_, hlater⟩, hlast hs hstep⟩
  rw [Step.last?_site hstep]
  exact ⟨hs, inner, hstep⟩

theorem last?_walk_subject (source : Text) (root : Site) : Step.last? source (walk source root).subject = none := by
  cases hlast : Step.last? source root with
  | none => rwa [walk_of_none hlast]
  | some last =>
    rw [walk_of_last? hlast]
    exact last?_walk_subject source last.2
termination_by root.node.height
decreasing_by exact Step.height_last? hlast

theorem steps_eq_nil_iff : (walk source root).steps = [] ↔ Step.last? source root = none := by
  cases hlast : Step.last? source root with
  | none => simp [walk_of_none hlast]
  | some last => simp [walk_of_last? hlast]

end Chain

end TestMigration
