import Mathlib.Data.List.Pairwise
import TestMigration.Assertion.View
import TestMigration.Proofs.Tree.Nested
import TestMigration.Proofs.Tree.Walked

/-!
# Chains of orderly trees

The arguments of the steps of a chain stand one behind the other, each behind the part of the chain that its step
goes on from (`Chain.Row`). So the value that a chain speaks about and the arguments that speak about it share no byte
(`Site.Separate`), whatever form the chain is written in.

Main statement: `View.split?_separate`.
-/

namespace TestMigration

/-! ### Sites that share no byte -/

namespace Site

variable {s t : Site} {xs ys : List Site}

/-- One of the sites ends in front of the other. -/
def Apart (s t : Site) : Prop := s.node.stop ≤ t.node.start ∨ t.node.stop ≤ s.node.start

theorem Apart.symm (h : s.Apart t) : t.Apart s := Or.symm h

/-- The sites are not empty and share no byte. -/
structure Separate (xs : List Site) : Prop where
  lt : ∀ s ∈ xs, s.node.start < s.node.stop
  apart : xs.Pairwise Apart

/-- The sites are not empty and stand one behind the other. -/
structure InRow (xs : List Site) : Prop where
  lt : ∀ s ∈ xs, s.node.start < s.node.stop
  row : xs.Pairwise fun s t => s.node.stop ≤ t.node.start

theorem InRow.separate (h : InRow xs) : Separate xs := ⟨h.lt, h.row.imp .inl⟩

namespace Separate

theorem nil : Separate [] := ⟨by simp, .nil⟩

theorem cons (h : Separate xs) (hs : s.node.start < s.node.stop) (hxs : ∀ t ∈ xs, s.Apart t) : Separate (s :: xs) := by
  refine ⟨fun t ht => ?_, List.pairwise_cons.mpr ⟨hxs, h.apart⟩⟩
  rcases List.mem_cons.mp ht with rfl | ht
  · exact hs
  · exact h.lt t ht

theorem perm (h : Separate xs) (hperm : ys.Perm xs) : Separate ys :=
  ⟨fun s hs => h.lt s (hperm.mem_iff.mp hs), h.apart.perm hperm.symm fun h => h.symm⟩

theorem sublist (h : Separate xs) (hsub : ys.Sublist xs) : Separate ys :=
  ⟨fun s hs => h.lt s (hsub.subset hs), h.apart.sublist hsub⟩

/-- What shares a byte is the same. -/
theorem spans_nodup (h : Separate xs) : (xs.map Site.span).Nodup := by
  refine List.pairwise_map.mpr (h.apart.imp_of_mem fun {s t} hs _ hst heq => ?_)
  have hlt : s.span.start < s.span.stop := h.lt s hs
  have hst : s.span.stop ≤ t.span.start ∨ t.span.stop ≤ s.span.start := hst
  rw [← heq] at hst
  omega

end Separate

end Site

/-! ### Parts of orderly nodes -/

mutual

theorem Node.coreBelow_mem {above : List Node} : ∀ n : Node, n.coreBelow above ∈ n.sitesBelow above
  | .mk r k sp cs => by
    unfold Node.coreBelow
    split
    · cases hcore : Node.coreAmong (.mk r .parenthesized sp cs :: above) cs with
      | none => exact List.mem_cons_self
      | some t => exact List.mem_cons_of_mem _ (Node.coreAmong_mem cs hcore)
    · exact List.mem_cons_self

theorem Node.coreAmong_mem {above : List Node} {t : Site} : ∀ cs : List Node, Node.coreAmong above cs = some t →
    t ∈ Node.sitesOfAll above cs
  | [], ht => by cases ht
  | c :: rest, ht => by
    unfold Node.coreAmong at ht
    split at ht
    · exact List.mem_append_right _ (Node.coreAmong_mem rest ht)
    · cases ht
      exact List.mem_append_left _ (Node.coreBelow_mem c)

end

/-- No site is empty, except for one at the top. -/
theorem Node.Orderly.site_lt {n : Node} {above : List Node} {t : Site} (h : n.Orderly) (hn : n.start < n.stop)
    (ht : t ∈ n.sitesBelow above) : t.node.start < t.node.stop := by
  induction h generalizing above with
  | mk _ _ within _ _ ih =>
    rcases Node.sites_cases ht with rfl | ⟨c, hc, ht⟩
    · exact hn
    · exact ih c hc (within c hc).2.1 ht

namespace Site

variable {s t f : Site} {r : Role}

/-- The site is orderly and not empty. -/
structure Sound (s : Site) : Prop where
  orderly : s.node.Orderly
  lt : s.node.start < s.node.stop

/-- The second site stands in the first one. -/
def Holds (s t : Site) : Prop := s.node.start ≤ t.node.start ∧ t.node.stop ≤ s.node.stop

theorem Holds.trans {u : Site} (h : s.Holds t) (h' : t.Holds u) : s.Holds u :=
  ⟨Nat.le_trans h.1 h'.1, Nat.le_trans h'.2 h.2⟩

theorem child?_sound (h : s.node.Orderly) (ht : s.child? r = some t) : t.Sound ∧ s.Holds t := by
  obtain ⟨n, hn, rfl⟩ := Option.map_eq_some_iff.mp ht
  have hmem : n ∈ s.node.children := List.mem_of_find?_eq_some hn
  obtain ⟨hstart, hlt, hstop⟩ := h.child hmem
  exact ⟨⟨h.child_orderly hmem, hlt⟩, hstart, hstop⟩

theorem core_sound (h : s.Sound) : s.core.Sound ∧ s.Holds s.core := by
  have hmem : s.core ∈ s.node.sitesBelow s.above := Node.coreBelow_mem s.node
  exact ⟨⟨h.orderly.site_orderly hmem, h.orderly.site_lt h.lt hmem⟩, h.orderly.site_within hmem⟩

theorem parts_inRow (h : s.node.Orderly) : InRow s.parts ∧ ∀ t ∈ s.parts, s.Holds t := by
  refine ⟨⟨fun t ht => ?_, List.pairwise_map.mpr (h.children_row.filter _)⟩, fun t ht => ?_⟩
  · obtain ⟨n, hn, rfl⟩ := List.mem_map.mp ht
    exact (h.child (List.mem_filter.mp hn).1).2.1
  · obtain ⟨n, hn, rfl⟩ := List.mem_map.mp ht
    obtain ⟨hstart, -, hstop⟩ := h.child (List.mem_filter.mp hn).1
    exact ⟨hstart, hstop⟩

theorem callArguments_sound (h : s.node.Orderly) (ht : t ∈ s.callArguments) : t.Sound ∧ s.Holds t := by
  obtain ⟨args, hargs, -, ht⟩ := mem_callArguments_iff.mp ht
  obtain ⟨hasound, haholds⟩ := child?_sound h hargs
  obtain ⟨n, hn, rfl⟩ := List.mem_map.mp ht
  have hmem : n ∈ args.node.children := (List.mem_filter.mp hn).1
  obtain ⟨hstart, hlt, hstop⟩ := hasound.orderly.child hmem
  exact ⟨⟨hasound.orderly.child_orderly hmem, hlt⟩, haholds.trans ⟨hstart, hstop⟩⟩

theorem callee_arguments (h : s.node.Orderly) (hkind : s.kind = .call) (hf : s.child? .callee = some f)
    (ht : s.child? .arguments = some t) (hfkind : f.kind = .member) (htkind : t.kind = .arguments) :
    f.node.stop ≤ t.node.start := by
  obtain ⟨n, hn, rfl⟩ := Option.map_eq_some_iff.mp hf
  obtain ⟨m, hm, rfl⟩ := Option.map_eq_some_iff.mp ht
  have hnmem : n ∈ s.node.children := List.mem_of_find?_eq_some hn
  have hmmem : m ∈ s.node.children := List.mem_of_find?_eq_some hm
  have hnkind : n.kind = .member := hfkind
  have hmkind : m.kind = .arguments := htkind
  have hhead : Role.callee ∈ s.node.kind.head? := by rw [show s.node.kind = .call from hkind]; rfl
  have hnot : n.isComment = false := by simp [Node.isComment, hnkind]
  -- the call begins with its callee, so the arguments cannot stand in front of it
  obtain ⟨first, hfirst, hrole, hstart⟩ := h.parts_shaped.head _ hhead
  have hfirstmem : first ∈ s.node.children := (List.mem_filter.mp (List.mem_of_mem_head? hfirst)).1
  obtain rfl : first = n := h.head_child hhead hn hnot hfirstmem hstart
  obtain ⟨hmstart, hmlt, -⟩ := h.child hmmem
  by_contra hle
  have hle : ¬ first.stop ≤ m.start := hle
  obtain rfl : first = m := h.child_unique hnmem hmmem (by omega) (by omega)
  rw [hnkind] at hmkind
  cases hmkind

end Site

/-! ### Steps -/

namespace Chain

variable {source : Text} {s inner : Site} {step : Step} {steps later : List Step}

/-- The arguments of the steps stand one behind the other in their steps, behind the earlier steps and behind what
the first step goes on from. -/
structure Row (inner : Site) (steps : List Step) : Prop where
  sound : ∀ s ∈ steps, s.site.Sound ∧ inner.node.stop ≤ s.site.node.stop
  args : ∀ s ∈ steps, Site.InRow s.args
  within : ∀ s ∈ steps, ∀ x ∈ s.args, inner.node.stop ≤ x.node.start ∧ x.node.stop ≤ s.site.node.stop
  behind : steps.Pairwise fun s t => ∀ x ∈ t.args, s.site.node.stop ≤ x.node.start

theorem last?_row (h : s.Sound) (hlast : Step.last? source s = some (step, inner)) :
    step.site = s ∧ inner.Sound ∧ s.Holds inner ∧ Site.InRow step.args ∧
      ∀ x ∈ step.args, inner.node.stop ≤ x.node.start ∧ x.node.stop ≤ s.node.stop := by
  obtain ⟨-, p, -, hobject, rfl⟩ | ⟨hkind, f, p, args, hf, hmember, -, hobject, hargs, harguments, rfl⟩ :=
    Step.last?_eq_some_iff.mp hlast
  · obtain ⟨hosound, hoholds⟩ := Site.child?_sound h.orderly hobject
    exact ⟨rfl, hosound, hoholds, ⟨by simp [Step.args], by simp [Step.args]⟩, by simp [Step.args]⟩
  · obtain ⟨hfsound, hfholds⟩ := Site.child?_sound h.orderly hf
    obtain ⟨hosound, hoholds⟩ := Site.child?_sound hfsound.orderly hobject
    obtain ⟨hasound, haholds⟩ := Site.child?_sound h.orderly hargs
    obtain ⟨hrow, hparts⟩ := Site.parts_inRow hasound.orderly
    have hfront := Site.callee_arguments h.orderly hkind hf hargs hmember harguments
    refine ⟨rfl, hosound, hfholds.trans hoholds, hrow, fun x hx => ⟨?_, ?_⟩⟩
    · exact Nat.le_trans hoholds.2 (Nat.le_trans hfront (hparts x hx).1)
    · exact (haholds.trans (hparts x hx)).2

namespace Row

theorem nil : Row inner [] := ⟨by simp, by simp, by simp, .nil⟩

theorem sublist (h : Row inner steps) (hsub : later.Sublist steps) : Row inner later :=
  ⟨fun s hs => h.sound s (hsub.subset hs), fun s hs => h.args s (hsub.subset hs),
    fun s hs => h.within s (hsub.subset hs), h.behind.sublist hsub⟩

theorem cons (hs : s.Sound) (h : Row s later) (hlast : Step.last? source s = some (step, inner)) :
    Row inner (step :: later) := by
  obtain ⟨rfl, -, hholds, hargs, hwithin⟩ := last?_row hs hlast
  refine ⟨fun t ht => ?_, fun t ht => ?_, fun t ht x hx => ?_, ?_⟩
  · rcases List.mem_cons.mp ht with rfl | ht
    · exact ⟨hs, hholds.2⟩
    · exact ⟨(h.sound t ht).1, Nat.le_trans hholds.2 (h.sound t ht).2⟩
  · rcases List.mem_cons.mp ht with rfl | ht
    · exact hargs
    · exact h.args t ht
  · rcases List.mem_cons.mp ht with rfl | ht
    · exact hwithin x hx
    · exact ⟨Nat.le_trans hholds.2 (h.within t ht x hx).1, (h.within t ht x hx).2⟩
  · exact List.pairwise_cons.mpr ⟨fun t ht x hx => (h.within t ht x hx).1, h.behind⟩

theorem arguments (h : Row inner steps) : Site.InRow (steps.flatMap Step.args) := by
  refine ⟨fun x hx => ?_, List.pairwise_flatMap.mpr ⟨fun s hs => (h.args s hs).row, ?_⟩⟩
  · obtain ⟨s, hs, hx⟩ := List.mem_flatMap.mp hx
    exact (h.args s hs).lt x hx
  · refine h.behind.imp_of_mem fun {s t} hs _ hst x hx y hy => ?_
    exact Nat.le_trans (h.within s hs x hx).2 (hst y hy)

/-- What ends with a step or in front of its end stands in front of the arguments of all later steps. -/
theorem split (before : List Step) (h : Row inner (before ++ step :: later)) {x : Site}
    (hx : x ∈ later.flatMap Step.args) : step.site.node.stop ≤ x.node.start := by
  obtain ⟨t, ht, hx⟩ := List.mem_flatMap.mp hx
  exact (List.pairwise_cons.mp (List.pairwise_append.mp h.behind).2.1).1 t ht x hx

theorem subject (h : Row inner steps) {x : Site} (hx : x ∈ steps.flatMap Step.args) :
    inner.node.stop ≤ x.node.start := by
  obtain ⟨t, ht, hx⟩ := List.mem_flatMap.mp hx
  exact (h.within t ht x hx).1

end Row

theorem walk_row (source : Text) {root : Site} (h : root.Sound) :
    (walk source root).subject.Sound ∧ Row (walk source root).subject (walk source root).steps := by
  refine walk_induction (motive := fun steps s => s.Sound ∧ Row s steps) ⟨h, .nil⟩ ?_
  rintro s inner step later hlast ⟨hs, hrow⟩
  exact ⟨(last?_row hs hlast).2.1, hrow.cons hs hlast⟩

end Chain

/-! ### The value and the arguments of an assertion -/

namespace View

variable {ctx : Context} {c : Chain} {value : Site} {steps : List Step}

theorem afterShould_eq_some {step : Step} {rest : List Step} (h : afterShould steps = some (step, rest)) :
    ∃ before, steps = before ++ step :: rest ∧ (step.name == "should" && !step.isCall) = true := by
  induction steps with
  | nil => cases h
  | cons s steps ih =>
    unfold afterShould at h
    split at h
    · rename_i hshould
      cases h
      exact ⟨[], rfl, hshould⟩
    · obtain ⟨before, rfl, hshould⟩ := ih h
      exact ⟨s :: before, rfl, hshould⟩

theorem takeValue_perm (h : takeValue steps = some (value, later)) :
    (value :: later.flatMap Step.args).Perm (steps.flatMap Step.args) := by
  simp only [takeValue, Option.bind_eq_bind, Option.bind_eq_some_iff] at h
  obtain ⟨last, hlast, args, hargs, value', hvalue, heq⟩ := h
  cases heq
  obtain ⟨rest, rfl⟩ := List.head?_eq_some_iff.mp hvalue
  obtain ⟨before, rfl⟩ := List.getLast?_eq_some_iff.mp hlast
  simp only [List.dropLast_concat, List.flatMap_append, List.flatMap_singleton, Step.args, hargs, Option.getD_some,
    List.drop_one, List.tail_cons]
  exact List.perm_middle.symm

theorem separate_in_front {xs : List Site} (hvalue : value.Sound) (hxs : Site.InRow xs)
    (h : ∀ x ∈ xs, value.node.stop ≤ x.node.start) : Site.Separate (value :: xs) :=
  hxs.separate.cons hvalue.lt fun x hx => .inl (h x hx)

/-- How a value is found in a chain, with the steps that are about it. -/
inductive Divides (c : Chain) (value : Site) : List Step → Prop
  /-- In front of the step `should`, without parentheses. -/
  | should {before rest : List Step} {step : Step} {object : Site} (hsteps : c.steps = before ++ step :: rest)
    (hshould : (step.name == "should" && !step.isCall) = true) (hobject : step.site.child? .object = some object)
    (hvalue : value = object.core) : Divides c value rest
  /-- As an argument of the subject. -/
  | subject (hvalue : value ∈ c.subject.callArguments) : Divides c value c.steps
  /-- As an argument of the first step. -/
  | first {first : Step} {rest : List Step} (hsteps : c.steps = first :: rest) (hvalue : value ∈ first.args) :
    Divides c value rest
  /-- As the first argument of the last step. -/
  | last {steps : List Step} (h : takeValue c.steps = some (value, steps)) : Divides c value steps

theorem split?_divides (h : split? ctx c = some (value, steps)) : Divides c value steps := by
  unfold split? at h
  split at h
  · rename_i step rest hafter
    obtain ⟨object, hobject, heq⟩ := Option.map_eq_some_iff.mp h
    cases heq
    obtain ⟨before, hsteps, hshould⟩ := afterShould_eq_some hafter
    exact .should hsteps hshould hobject rfl
  · split at h
    · simp only [Option.bind_eq_bind, Option.bind_eq_some_iff] at h
      obtain ⟨callee, -, -, -, h⟩ := h
      -- one argument, with or without a message behind it
      split at h
      · rename_i hargs
        cases h
        exact .subject (by simp [hargs])
      · rename_i hargs
        cases h
        exact .subject (by simp [hargs])
      · cases h
    · split at h
      · split at h
        · rename_i first rest hsteps
          split at h
          · split at h
            · rename_i hargs
              cases h
              exact .first hsteps (by simp [hargs])
            · rename_i hargs
              cases h
              exact .first hsteps (by simp [hargs])
            · cases h
          · cases h
        · cases h
      · split at h
        · exact .last h
        · cases h

/-- The value that a chain is about and the arguments of the steps that are about it are not empty and share no
byte. -/
theorem split?_separate (hsubject : c.subject.Sound) (hrow : Chain.Row c.subject c.steps)
    (h : split? ctx c = some (value, steps)) : Site.Separate (value :: steps.flatMap Step.args) := by
  cases split?_divides h with
  | @should before _ step object hsteps _ hobject hvalue =>
    -- the value ends in front of the end of the step
    rw [hsteps] at hrow
    obtain ⟨hosound, hoholds⟩ := Site.child?_sound (hrow.sound step (by simp)).1.orderly hobject
    obtain ⟨hvsound, hvholds⟩ := Site.core_sound hosound
    rw [hvalue]
    refine separate_in_front hvsound (hrow.sublist ?_).arguments fun x hx => ?_
    · exact (List.sublist_cons_self ..).trans (List.sublist_append_right ..)
    · exact Nat.le_trans (hoholds.trans hvholds).2 (hrow.split _ hx)
  | subject hvalue =>
    obtain ⟨hvsound, hvholds⟩ := Site.callArguments_sound hsubject.orderly hvalue
    exact separate_in_front hvsound hrow.arguments fun x hx => Nat.le_trans hvholds.2 (hrow.subject hx)
  | @first first _ hsteps hvalue =>
    rw [hsteps] at hrow
    refine (hrow.sublist (List.sublist_cons_self ..)).arguments.separate.cons
      ((hrow.args first List.mem_cons_self).lt value hvalue) fun x hx => .inl ?_
    exact Nat.le_trans (hrow.within first List.mem_cons_self value hvalue).2 (hrow.split [] hx)
  | last htake => exact hrow.arguments.separate.perm (takeValue_perm htake)

end View

end TestMigration
