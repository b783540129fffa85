import TestMigration.Grammar.Source
import TestMigration.Proofs.Import.Bindings
import TestMigration.Proofs.Tree.Orderly
import TestMigration.Stub.Plan

/-!
# Sites of a tree and lists of statements

The sites of a tree are closed under going up and down (`Site.Within`). A site is listed when the node above it is a
list of statements, so that nothing else depends on the site being there: the statements at the top level, in a
block and in a case of a switch are listed, the body of an `if` or of a loop is not.
-/

namespace TestMigration

/-! ### Up and down -/

mutual

theorem Node.mem_sitesBelow_trans {above : List Node} {s c : Site} (hc : c ∈ s.children) :
    ∀ {n : Node}, s ∈ n.sitesBelow above → c ∈ n.sitesBelow above
  | .mk r k sp cs, hs => by
    rcases List.mem_cons.mp hs with rfl | hs
    · exact Site.mem_sites_of_child hc (by cases c with | mk n a => cases n; exact List.mem_cons_self)
    · exact List.mem_cons_of_mem _ (Node.mem_sitesOfAll_trans hc hs)

theorem Node.mem_sitesOfAll_trans {above : List Node} {s c : Site} (hc : c ∈ s.children) :
    ∀ {cs : List Node}, s ∈ Node.sitesOfAll above cs → c ∈ Node.sitesOfAll above cs
  | [], hs => by cases hs
  | n :: rest, hs => by
    rw [Node.sitesOfAll, List.mem_append] at hs ⊢
    rcases hs with hs | hs
    · exact .inl (Node.mem_sitesBelow_trans hc hs)
    · exact .inr (Node.mem_sitesOfAll_trans hc hs)

end

mutual

theorem Node.parent_of_sitesBelow {above : List Node} {t : Site} : ∀ {n : Node}, t ∈ n.sitesBelow above →
    t = ⟨n, above⟩ ∨ ∃ p ∈ n.sitesBelow above, t.parent? = some p
  | .mk r k sp cs, ht => by
    rcases List.mem_cons.mp ht with rfl | ht
    · exact .inl rfl
    · refine .inr ?_
      rcases Node.parent_of_sitesOfAll ht with ⟨c, rfl⟩ | ⟨p, hp, hparent⟩
      · exact ⟨_, List.mem_cons_self, rfl⟩
      · exact ⟨p, List.mem_cons_of_mem _ hp, hparent⟩

theorem Node.parent_of_sitesOfAll {above : List Node} {t : Site} : ∀ {cs : List Node},
    t ∈ Node.sitesOfAll above cs → (∃ c, t = ⟨c, above⟩) ∨ ∃ p ∈ Node.sitesOfAll above cs, t.parent? = some p
  | [], ht => by cases ht
  | n :: rest, ht => by
    rw [Node.sitesOfAll] at ht ⊢
    rcases List.mem_append.mp ht with ht | ht
    · rcases Node.parent_of_sitesBelow ht with rfl | ⟨p, hp, hparent⟩
      · exact .inl ⟨n, rfl⟩
      · exact .inr ⟨p, List.mem_append_left _ hp, hparent⟩
    · rcases Node.parent_of_sitesOfAll ht with hc | ⟨p, hp, hparent⟩
      · exact .inl hc
      · exact .inr ⟨p, List.mem_append_right _ hp, hparent⟩

end

/-- The site is one of the tree. -/
def Site.Within (tree : Node) (s : Site) : Prop := s ∈ tree.sites

namespace Site.Within

variable {tree : Node} {s t : Site}

theorem parent? (h : s.Within tree) (ht : s.parent? = some t) : t.Within tree := by
  rcases Node.parent_of_sitesBelow h with rfl | ⟨p, hp, hparent⟩
  · cases ht
  · obtain rfl : p = t := Option.some.inj (hparent.symm.trans ht)
    exact hp

theorem parentOf? {k : Kind} (h : s.Within tree) (ht : s.parentOf? k = some t) : t.Within tree :=
  h.parent? (Option.eq_some_of_filter_eq_some ht)

theorem children (h : s.Within tree) (ht : t ∈ s.children) : t.Within tree := Node.mem_sitesBelow_trans ht h

theorem parts (h : s.Within tree) (ht : t ∈ s.parts) : t.Within tree := by
  obtain ⟨child, hchild, rfl⟩ := List.mem_map.mp ht
  exact h.children (List.mem_map_of_mem (List.mem_filter.mp hchild).1)

theorem child? {r : Role} (h : s.Within tree) (ht : s.child? r = some t) : t.Within tree :=
  h.children (Site.mem_children_of_child? ht).1

theorem callArguments (h : s.Within tree) (ht : t ∈ s.callArguments) : t.Within tree := by
  obtain ⟨args, hargs, -, ht⟩ := Site.mem_callArguments_iff.mp ht
  exact (h.child? hargs).parts ht

theorem bodyStatements (h : s.Within tree) (ht : t ∈ s.bodyStatements) : t.Within tree := by
  obtain ⟨block, hblock, -, ht⟩ := Site.mem_bodyStatements_iff.mp ht
  exact (h.child? hblock).parts ht

end Site.Within

/-! ### Lists of statements -/

/-- A node of this kind is a list of statements. -/
def Kind.listsStatements : Kind → Bool
  | .program | .block | .switchCase => true
  | _ => false

namespace Site

variable {s t : Site}

/-- The site stands in a list of statements: at the top level, in a block or in a case of a switch. -/
def isListed (s : Site) : Bool := (s.parent?.map (·.kind.listsStatements)).getD false

theorem isListed_down {n : Node} (h : s.kind.listsStatements = true) : (s.down n).isListed = true := h

theorem isListed_of_bodyStatements (h : t ∈ s.bodyStatements) : t.isListed = true := by
  obtain ⟨block, -, hkind, h⟩ := mem_bodyStatements_iff.mp h
  obtain ⟨n, -, rfl⟩ := List.mem_map.mp h
  refine isListed_down ?_
  rw [hkind]
  rfl

/-- A chain that runs unconditionally is a statement of a list. -/
theorem isListed_of_isUnconditional (h : s.isUnconditional = true) (ht : s.parent? = some t) :
    t.isListed = true := by
  unfold isUnconditional at h
  split at h
  · cases h
  · rename_i statement hstatement
    obtain rfl : statement = t := Option.some.inj ((Option.eq_some_of_filter_eq_some hstatement).symm.trans ht)
    unfold isListed
    split at h
    · cases h
    · rename_i list hlist
      rw [hlist]
      show list.kind.listsStatements = true
      split at h
      · rename_i hkind
        rw [hkind]
        rfl
      · rename_i hkind
        rw [hkind]
        rfl
      · cases h

end Site

/-- What a file is read as is a list of statements. -/
theorem Grammar.parse_kind {grammar : Grammar} {source : Text} {tree : Node}
    (h : Grammar.parse grammar source = some tree) : tree.kind = .program := by
  unfold Grammar.parse at h
  split at h
  · rename_i program last hprogram
    cases h
    rw [Node.kind_insertComments]
    unfold Grammar.sourceFile at hprogram
    simp only [bind, StateT.bind, Option.bind_eq_some_iff] at hprogram
    obtain ⟨first, -, ss, -, _, -, at', -, _, -, hpure⟩ := hprogram
    cases hpure
    rfl
  · cases h

end TestMigration
