import TestMigration.Proofs.Grammar.Parsed
import TestMigration.Proofs.Tree.Chained

/-!
# Climbing back along a chain

`Chain.walk` goes down from the end of a chain, and `Site.outermost` climbs from a part of a chain to its end. One move
of the walk is undone by one or two moves of the climb (`Step.outermost_last?`), so the climb from any part of a chain
ends where the walk began, and no two chains share a step.

Main statement: `Chain.walk_climbs`.
-/

namespace TestMigration

variable {source : Text} {s t inner root : Site} {step : Step} {later : List Step}

/-! ### Climbing -/

namespace Site

theorem outermost_down {n : Node} (h : s.node.extendsChain n = true) : (s.down n).outermost = s.outermost := by
  show (if s.node.extendsChain n then outermostGo s.node s.above else _) = _
  rw [if_pos h]
  rfl

/-- A climb does not come back to where it began. -/
theorem length_outermostGo (n : Node) (above : List Node) : (outermostGo n above).above.length ≤ above.length := by
  induction above generalizing n with
  | nil => exact Nat.le_refl _
  | cons p rest ih =>
    unfold outermostGo
    split
    · exact Nat.le_succ_of_le (ih p)
    · exact Nat.le_refl _

theorem isChainRoot_iff : s.isChainRoot = true ↔ s.outermost = s := by
  obtain ⟨n, above⟩ := s
  cases above with
  | nil => exact ⟨fun _ => rfl, fun _ => rfl⟩
  | cons p rest =>
    by_cases h : p.extendsChain n = true
    · have hroot : isChainRoot ⟨n, p :: rest⟩ = false := by simp [isChainRoot, h]
      rw [hroot]
      refine ⟨fun hfalse => Bool.noConfusion hfalse, fun heq => ?_⟩
      -- the climb goes on from `p`, which has fewer nodes above it
      have hlength := length_outermostGo p rest
      rw [outermost, outermostGo, if_pos h] at heq
      rw [heq] at hlength
      exact absurd hlength (Nat.not_succ_le_self _)
    · exact iff_of_true (by simp [isChainRoot, h]) (by simp [outermost, outermostGo, h])

/-- The site stands below the other one. -/
def Under (s t : Site) : Prop := t.node :: t.above <:+ s.above

theorem Under.trans {u : Site} (h : s.Under t) (h' : t.Under u) : s.Under u :=
  List.IsSuffix.trans h' ((List.suffix_cons ..).trans h)

theorem under_of_child? {r : Role} (h : s.child? r = some t) : t.Under s := by
  obtain ⟨n, -, rfl⟩ := Option.map_eq_some_iff.mp h
  exact List.suffix_refl _

end Site

/-! ### One step down -/

namespace Step

/-- The climb from what a step goes on from passes the step. -/
theorem outermost_last? (h : last? source s = some (step, inner)) : inner.outermost = s.outermost := by
  have hobject {m : Site} (hm : m.kind = .member) (hinner : m.child? .object = some inner) :
      inner.outermost = m.outermost := by
    have hrole := (Site.mem_children_of_child? hinner).2
    obtain ⟨n, -, rfl⟩ := Option.map_eq_some_iff.mp hinner
    have hm : m.node.kind = .member := hm
    have hrole : n.role = .object := hrole
    exact Site.outermost_down (by simp [Node.extendsChain, hm, hrole])
  obtain ⟨hmember, _, -, hinner, -⟩ | ⟨hcall, f, _, _, hf, hmember, -, hinner, -⟩ := last?_eq_some_iff.mp h
  · exact hobject hmember hinner
  · rw [hobject hmember hinner]
    have hrole := (Site.mem_children_of_child? hf).2
    obtain ⟨n, -, rfl⟩ := Option.map_eq_some_iff.mp hf
    have hcall : s.node.kind = .call := hcall
    have hmember : n.kind = .member := hmember
    have hrole : n.role = .callee := hrole
    exact Site.outermost_down (by simp [Node.extendsChain, hcall, hmember, hrole])

theorem last?_under (h : last? source s = some (step, inner)) : inner.Under s := by
  obtain hobject | ⟨f, hf, hobject⟩ := last?_inner h
  · exact Site.under_of_child? hobject
  · exact (Site.under_of_child? hobject).trans (Site.under_of_child? hf)

end Step

/-! ### The whole chain -/

namespace Chain

/-- The subject of the chain and the ends of its steps, from the inside out. -/
def sites (c : Chain) : List Site := c.subject :: c.steps.map Step.site

/-- A relation between a site and what its last step goes on from relates all sites of a chain. -/
theorem walk_pairwise {P : Site → Prop} {R : Site → Site → Prop} (hroot : P root)
    (htrans : ∀ {s t u : Site}, R s t → R t u → R s u)
    (hlast : ∀ {s inner : Site} {step : Step}, P s → Step.last? source s = some (step, inner) → P inner ∧ R inner s) :
    (walk source root).sites.Pairwise R := by
  refine (walk_induction (motive := fun steps s => P s ∧ (s :: steps.map Step.site).Pairwise R)
    ⟨hroot, List.pairwise_singleton ..⟩ ?_).2
  rintro s inner step later hstep ⟨hs, hrow⟩
  obtain ⟨hinner, hrelated⟩ := hlast hs hstep
  refine ⟨hinner, ?_⟩
  rw [List.map_cons, Step.last?_site hstep]
  refine List.pairwise_cons.mpr ⟨fun t ht => ?_, hrow⟩
  rcases List.mem_cons.mp ht with rfl | ht
  · exact hrelated
  · exact htrans hrelated ((List.pairwise_cons.mp hrow).1 t ht)

theorem walk_getLast? (source : Text) (root : Site) : (walk source root).sites.getLast? = some root := by
  refine walk_induction (motive := fun steps s => (s :: steps.map Step.site).getLast? = some root) rfl ?_
  intro s inner step later hstep hend
  rw [List.map_cons, Step.last?_site hstep, List.getLast?_cons_cons]
  exact hend

theorem walk_outermost (source : Text) (root : Site) :
    ∀ step ∈ (walk source root).steps, step.site.outermost = root.outermost := fun step hstep =>
  ((walk_steps (P := fun s => s.outermost = root.outermost) rfl fun hs hlast =>
    (Step.outermost_last? hlast).trans hs).1 step hstep).1

end Chain

/-! ### Spans -/

namespace Node.Orderly

variable {n f m : Node} {r : Role}

/-- The part that a node begins with stands in front of all other nodes below. -/
theorem head_row (h : n.Orderly) (hr : r ∈ n.kind.head?) (hf : n.child? r = some f) :
    f.start = n.start ∧ ∀ m ∈ n.children, m ≠ f → f.stop ≤ m.start := by
  obtain ⟨first, hfirst, hrole, hstart⟩ := h.parts_shaped.head r hr
  have hfirst : first ∈ n.children := (List.mem_filter.mp (List.mem_of_mem_head? hfirst)).1
  obtain ⟨-, before, behind, hchildren, hbefore⟩ := List.find?_eq_some_iff_append.mp hf
  have hmem : f ∈ n.children := List.mem_of_find?_eq_some hf
  have hrow := h.children_row
  have hfspan := h.child hmem
  -- what plays the role is not in front of the first that does
  have hfstart : f.start = n.start := by
    rw [hchildren] at hfirst hrow
    rcases List.mem_append.mp hfirst with hfirst | hfirst
    · have hnot := hbefore first hfirst
      simp [hrole] at hnot
    · rcases List.mem_cons.mp hfirst with rfl | hfirst
      · exact hstart
      · have hle := (List.pairwise_cons.mp (List.pairwise_append.mp hrow).2.1).1 first hfirst
        omega
  refine ⟨hfstart, fun m hm hne => ?_⟩
  have hmspan := h.child hm
  by_contra hle
  exact hne (h.child_unique hm hmem (by omega) (by omega))

end Node.Orderly

namespace Site

/-- Both sites begin alike, and the second one goes on behind the first one. -/
def Widens (s t : Site) : Prop := s.node.start = t.node.start ∧ s.node.stop < t.node.stop

theorem Widens.trans {u : Site} (h : s.Widens t) (h' : t.Widens u) : s.Widens u :=
  ⟨h.1.trans h'.1, Nat.lt_trans h.2 h'.2⟩

theorem child?_orderly {r : Role} (h : s.node.Orderly) (ht : s.child? r = some t) : t.node.Orderly := by
  obtain ⟨n, hn, rfl⟩ := Option.map_eq_some_iff.mp ht
  exact h.child_orderly (List.mem_of_find?_eq_some hn)

/-- A node goes on behind the part that it begins with when another part is there. -/
theorem widens_of_child? {r r' : Role} {u : Site} (h : s.node.Orderly) (hr : r ∈ s.node.kind.head?)
    (ht : s.child? r = some t) (hu : s.child? r' = some u) (hne : r ≠ r') : t.Widens s := by
  obtain ⟨-, htrole⟩ := mem_children_of_child? ht
  obtain ⟨-, hurole⟩ := mem_children_of_child? hu
  obtain ⟨n, hn, rfl⟩ := Option.map_eq_some_iff.mp ht
  obtain ⟨m, hm, rfl⟩ := Option.map_eq_some_iff.mp hu
  obtain ⟨hstart, hrow⟩ := h.head_row hr hn
  have hmem : m ∈ s.node.children := List.mem_of_find?_eq_some hm
  have hdifferent : m ≠ n := by
    rintro rfl
    exact hne (htrole.symm.trans hurole)
  have hle := hrow m hmem hdifferent
  have hspan := h.child hmem
  exact ⟨hstart, show n.stop < s.node.stop by omega⟩

end Site

theorem Step.last?_widens (h : s.node.Orderly) (hlast : last? source s = some (step, inner)) :
    inner.node.Orderly ∧ inner.Widens s := by
  have hobject {m p : Site} (hm : m.node.Orderly) (hkind : m.kind = .member) (hinner : m.child? .object = some inner)
      (hp : m.child? .property = some p) : inner.node.Orderly ∧ inner.Widens m := by
    have hhead : Role.object ∈ m.node.kind.head? := by rw [show m.node.kind = .member from hkind]; rfl
    exact ⟨Site.child?_orderly hm hinner, Site.widens_of_child? hm hhead hinner hp (by decide)⟩
  obtain ⟨hmember, p, hp, hinner, -⟩ | ⟨hcall, f, p, args, hf, hmember, hp, hinner, hargs, -⟩ :=
    last?_eq_some_iff.mp hlast
  · exact hobject h hmember hinner hp
  · have hhead : Role.callee ∈ s.node.kind.head? := by rw [show s.node.kind = .call from hcall]; rfl
    obtain ⟨horderly, hwidens⟩ := hobject (Site.child?_orderly h hf) hmember hinner hp
    exact ⟨horderly, hwidens.trans (Site.widens_of_child? h hhead hf hargs (by decide))⟩

/-! ### The climb -/

namespace Chain

/-- The chain at a chain's end is nested: its subject, which is no step, and the ends of its steps stand each below
the next one, and the last of them is the end of the chain. In a file each begins where the others begin and goes on
behind those below it. The climb from every step leads back to the end, so that it leads to the same chain, and other
chains have other steps. A site is the end of a chain exactly when the climb from it stays there. -/
theorem walk_climbs (source : Text) (root : Site) (hroot : root.isCandidate = true) :
    (walk source root).sites.Pairwise Site.Under ∧ (walk source root).sites.getLast? = some root ∧
    Step.last? source (walk source root).subject = none ∧
    (root.node.Orderly → (walk source root).sites.Pairwise Site.Widens) ∧
    (∀ step ∈ (walk source root).steps, step.site.outermost = root ∧ walkFrom source step.site = walk source root) ∧
    (∀ other : Site, other.isCandidate = true → other ≠ root →
      ∀ step ∈ (walk source root).steps, ∀ step' ∈ (walk source other).steps, step.site ≠ step'.site) ∧
    ∀ s : Site, s.isChainRoot = true ↔ s.outermost = s := by
  have hclimb {end' : Site} (hend : end'.isCandidate = true) :
      ∀ step ∈ (walk source end').steps, step.site.outermost = end' := by
    intro step hstep
    have hchain : end'.isChainRoot = true := (Bool.and_eq_true_iff.mp hend).2
    rw [walk_outermost source end' step hstep]
    exact Site.isChainRoot_iff.mp hchain
  refine ⟨?_, walk_getLast? source root, last?_walk_subject source root, fun horderly => ?_, fun step hstep => ?_,
    fun other hother hne step hstep step' hstep' hsite => ?_, fun s => Site.isChainRoot_iff⟩
  · exact walk_pairwise (P := fun _ => True) trivial Site.Under.trans fun _ hlast => ⟨trivial, Step.last?_under hlast⟩
  · exact walk_pairwise (P := fun s => s.node.Orderly) horderly Site.Widens.trans Step.last?_widens
  · have hout := hclimb hroot step hstep
    exact ⟨hout, by rw [walkFrom, hout]⟩
  · refine hne ?_
    rw [← hclimb hother step' hstep', ← hsite]
    exact hclimb hroot step hstep

set_option maxRecDepth 100000 in
theorem walk_climbs_stub : ∃ (text : String) (tree : Node) (root : Site),
    text = "sinon.stub(api, 'get').withArgs(1).returns(2);\n" ∧ Grammar.parse .plain text.toList = some tree ∧
    root ∈ tree.sites ∧ root.isCandidate = true ∧
    (walk text.toList root).names = ["stub", "withArgs", "returns"] ∧
    (walk text.toList root).sites.Pairwise Site.Under ∧ (walk text.toList root).sites.Pairwise Site.Widens ∧
    ∀ step ∈ (walk text.toList root).steps,
      step.site.outermost = root ∧ walkFrom text.toList step.site = walk text.toList root := by
  obtain ⟨text, htext⟩ : ∃ text, text = "sinon.stub(api, 'get').withArgs(1).returns(2);\n" := ⟨_, rfl⟩
  have hfile : (Grammar.parse .plain text.toList).any (fun tree => tree.sites.any fun root =>
      root.isCandidate && (walk text.toList root).names == ["stub", "withArgs", "returns"]) = true := by
    rw [htext]
    decide +kernel
  obtain ⟨tree, hparse, hfile⟩ := (Option.any_eq_true _ _).mp hfile
  obtain ⟨root, hroot, hfile⟩ := List.any_eq_true.mp hfile
  obtain ⟨hcandidate, hnames⟩ := Bool.and_eq_true_iff.mp hfile
  obtain ⟨hunder, -, -, hwidens, hclimbs, -⟩ := walk_climbs text.toList root hcandidate
  exact ⟨text, tree, root, htext, hparse, hroot, hcandidate, eq_of_beq hnames, hunder,
    hwidens ((Grammar.parse_orderly hparse).site_orderly hroot), hclimbs⟩

end Chain

end TestMigration
