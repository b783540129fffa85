import TestMigration.Proofs.Grammar.Placed
import TestMigration.Proofs.Tree.Query
import TestMigration.Proofs.Tree.Walked

/-!
# Sites of placed trees

A site is placed when its node and all nodes above it are. All sites of a placed tree are
(`Site.Placed.of_sites`), and no question about a site leads to a node that is not: parents, children,
the steps and the subject of a chain.
-/

namespace TestMigration

/-- The node of the site and the nodes above it are placed. -/
structure Site.Placed (source : Text) (s : Site) : Prop where
  node : s.node.Placed source
  above : ∀ n ∈ s.above, n.Placed source

namespace Site.Placed

variable {source : Text} {s t : Site}

theorem start (h : s.Placed source) : source.Boundary s.span.start := h.node.start

theorem stop (h : s.Placed source) : source.Boundary s.span.stop := h.node.stop

theorem start_le_stop (h : s.Placed source) : s.span.start ≤ s.span.stop := h.node.start_le_stop

/-! ### Up and down -/

theorem parent? (h : s.Placed source) (ht : s.parent? = some t) : t.Placed source := by
  unfold Site.parent? at ht
  split at ht
  · cases ht
  · rename_i p rest habove
    cases ht
    exact ⟨h.above p (by simp [habove]), fun n hn => h.above n (by simp [habove, hn])⟩

theorem parentOf? {k : Kind} (h : s.Placed source) (ht : s.parentOf? k = some t) :
    t.Placed source :=
  h.parent? (Option.eq_some_of_filter_eq_some ht)

theorem down (h : s.Placed source) {child : Node} (hchild : child ∈ s.node.children) :
    (s.down child).Placed source := by
  refine ⟨h.node.child hchild, ?_⟩
  intro n hn
  rcases List.mem_cons.mp hn with rfl | hn
  · exact h.node
  · exact h.above n hn

theorem child? {r : Role} (h : s.Placed source) (ht : s.child? r = some t) : t.Placed source := by
  obtain ⟨child, hchild, rfl⟩ := Option.map_eq_some_iff.mp ht
  exact h.down (List.mem_of_find?_eq_some hchild)

theorem children (h : s.Placed source) (ht : t ∈ s.children) : t.Placed source := by
  obtain ⟨child, hchild, rfl⟩ := List.mem_map.mp ht
  exact h.down hchild

theorem parts (h : s.Placed source) (ht : t ∈ s.parts) : t.Placed source := by
  obtain ⟨child, hchild, rfl⟩ := List.mem_map.mp ht
  exact h.down (List.mem_filter.mp hchild).1

/-! ### All sites of a tree -/

mutual

theorem of_sitesBelow {above : List Node} (habove : ∀ n ∈ above, n.Placed source) :
    ∀ n : Node, n.Placed source → ∀ t ∈ n.sitesBelow above, t.Placed source
  | .mk r k sp cs, hn, t, ht => by
    rcases List.mem_cons.mp ht with rfl | ht
    · exact ⟨hn, habove⟩
    · refine of_sitesOfAll ?_ cs (fun c hc => hn.child hc) t ht
      intro m hm
      rcases List.mem_cons.mp hm with rfl | hm
      · exact hn
      · exact habove m hm

theorem of_sitesOfAll {above : List Node} (habove : ∀ n ∈ above, n.Placed source) :
    ∀ cs : List Node, (∀ c ∈ cs, c.Placed source) →
      ∀ t ∈ Node.sitesOfAll above cs, t.Placed source
  | [], _, t, ht => absurd ht List.not_mem_nil
  | c :: rest, hcs, t, ht => by
    rcases List.mem_append.mp ht with ht | ht
    · exact of_sitesBelow habove c (hcs c List.mem_cons_self) t ht
    · exact of_sitesOfAll habove rest (fun d hd => hcs d (List.mem_cons_of_mem _ hd)) t ht

end

theorem of_sites {tree : Node} (h : tree.Placed source) (ht : t ∈ tree.sites) : t.Placed source :=
  of_sitesBelow (by simp) tree h t ht

/-! ### Calls and functions -/

theorem callArguments (h : s.Placed source) (ht : t ∈ s.callArguments) : t.Placed source := by
  obtain ⟨args, hargs, -, ht⟩ := Site.mem_callArguments_iff.mp ht
  exact (h.child? hargs).parts ht

theorem functionParameters (h : s.Placed source) (ht : t ∈ s.functionParameters) :
    t.Placed source := by
  unfold Site.functionParameters at ht
  split at ht
  · rename_i single hsingle
    obtain rfl := List.mem_singleton.mp ht
    exact h.child? hsingle
  · split at ht
    · rename_i ps hps
      exact (h.child? hps).parts ht
    · cases ht

theorem bodyStatements (h : s.Placed source) (ht : t ∈ s.bodyStatements) : t.Placed source := by
  obtain ⟨block, hblock, -, ht⟩ := Site.mem_bodyStatements_iff.mp ht
  exact (h.child? hblock).parts ht

end Site.Placed

/-! ### Chains -/

namespace Chain

variable {source : Text}

/-- The subject of the chain, its root and the ends of its steps are placed. -/
structure Placed (source : Text) (c : Chain) : Prop where
  subject : c.subject.Placed source
  root : c.root.Placed source
  steps : ∀ step ∈ c.steps, step.site.Placed source

theorem walk_placed {root : Site} (h : root.Placed source) : (walk source root).Placed source := by
  obtain ⟨hsteps, hsubject⟩ := walk_steps (P := Site.Placed source) h fun hs hlast => by
    obtain hobject | ⟨f, hf, hobject⟩ := Step.last?_inner hlast
    · exact hs.child? hobject
    · exact (hs.child? hf).child? hobject
  exact ⟨hsubject, h, fun step hstep => (hsteps step hstep).1⟩

end Chain

end TestMigration
