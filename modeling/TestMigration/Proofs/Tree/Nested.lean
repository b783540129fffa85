import TestMigration.Proofs.Tree.Listed

/-!
# Sites of orderly trees

In an orderly tree a site stands inside of each site above it. Two sites that share a byte are nested
(`Node.Orderly.nested`), and what begins where a call or a member begins is part of its callee or its object
(`Node.Orderly.site_head`).
-/

namespace TestMigration

theorem Node.exists_of_mem_sitesOfAll {above : List Node} {t : Site} : ∀ {cs : List Node},
    t ∈ Node.sitesOfAll above cs → ∃ c ∈ cs, t ∈ c.sitesBelow above
  | n :: rest, ht => by
    rcases List.mem_append.mp ht with ht | ht
    · exact ⟨n, List.mem_cons_self, ht⟩
    · obtain ⟨c, hc, ht⟩ := Node.exists_of_mem_sitesOfAll ht
      exact ⟨c, List.mem_cons_of_mem _ hc, ht⟩

theorem Node.sites_cases {n : Node} {above : List Node} {t : Site} (h : t ∈ n.sitesBelow above) :
    t = ⟨n, above⟩ ∨ ∃ c ∈ n.children, t ∈ c.sitesBelow (n :: above) := by
  cases n
  exact (List.mem_cons.mp h).imp_right Node.exists_of_mem_sitesOfAll

namespace Node.Orderly

variable {n c f : Node} {above : List Node} {s t : Site}

theorem site_orderly (h : n.Orderly) (ht : t ∈ n.sitesBelow above) : t.node.Orderly := by
  induction h generalizing above with
  | mk remark shaped within row below ih =>
    rcases Node.sites_cases ht with rfl | ⟨c, hc, ht⟩
    · exact .mk remark shaped within row below
    · exact ih c hc ht

theorem site_within (h : n.Orderly) (ht : t ∈ n.sitesBelow above) :
    n.start ≤ t.node.start ∧ t.node.stop ≤ n.stop := by
  induction h generalizing above with
  | mk _ _ within _ _ ih =>
    rcases Node.sites_cases ht with rfl | ⟨c, hc, ht⟩
    · exact ⟨Nat.le_refl _, Nat.le_refl _⟩
    · obtain ⟨hstart, -, hstop⟩ := within c hc
      obtain ⟨hstart', hstop'⟩ := ih c hc ht
      exact ⟨Nat.le_trans hstart hstart', Nat.le_trans hstop' hstop⟩

/-- Two sites that share a byte are nested. -/
theorem nested (h : n.Orderly) (hs : s ∈ n.sitesBelow above) (ht : t ∈ n.sitesBelow above)
    (hst : s.node.start < t.node.stop) (hts : t.node.start < s.node.stop) : t ∈ s.sites ∨ s ∈ t.sites := by
  have horderly := h
  induction h generalizing above with
  | mk remark shaped within row below ih =>
    rcases Node.sites_cases hs with rfl | ⟨c, hc, hs'⟩
    · exact .inl ht
    rcases Node.sites_cases ht with rfl | ⟨d, hd, ht'⟩
    · exact .inr hs
    -- both stand below a child, which is the same
    obtain ⟨hcs, hsc⟩ := (below c hc).site_within hs'
    obtain ⟨hdt, htd⟩ := (below d hd).site_within ht'
    obtain rfl : c = d := horderly.child_unique hc hd (by omega) (by omega)
    exact ih c hc hs' ht' (below c hc)

/-- Below an identifier there are comments only. -/
theorem isComment_below_identifier (h : n.Orderly) (hkind : n.kind = .identifier) (ht : t ∈ n.sitesBelow above) :
    t = ⟨n, above⟩ ∨ t.node.isComment = true := by
  refine (Node.sites_cases ht).imp_right ?_
  rintro ⟨c, hc, ht⟩
  have hcomment : c.isComment = true := by
    have hparts : n.children.filter (!·.isComment) = [] := h.parts_shaped.bare hkind
    simpa using List.filter_eq_nil_iff.mp hparts c hc
  rcases Node.sites_cases ht with rfl | ⟨d, hd, -⟩
  · exact hcomment
  · rw [(h.child_orderly hc).remark_children hcomment] at hd
    cases hd

/-- What begins where the node begins is the part that the node begins with. -/
theorem head_child (h : n.Orderly) {r : Role} (hr : r ∈ n.kind.head?) (hf : n.child? r = some f)
    (hfpart : f.isComment = false) (hc : c ∈ n.children) (hstart : c.start = n.start) : c = f := by
  obtain ⟨m, hm, hrole, hmstart⟩ := h.parts_shaped.head r hr
  obtain ⟨hfrole, before, behind, hchildren, hbefore⟩ := List.find?_eq_some_iff_append.mp hf
  obtain rfl : m = f := by
    have hparts : n.parts = before.filter (!·.isComment) ++ f :: behind.filter (!·.isComment) := by
      rw [parts, hchildren, List.filter_append, List.filter_cons_of_pos (by simpa using hfpart)]
    cases hfront : before.filter (!·.isComment) with
    | nil =>
      rw [hparts, hfront] at hm
      exact (Option.some.inj hm).symm
    | cons b rest =>
      -- a part in front of `f` does not play the role
      rw [hparts, hfront] at hm
      obtain rfl : b = m := Option.some.inj hm
      have hb : b ∈ before := (List.mem_filter.mp (hfront ▸ List.mem_cons_self)).1
      simpa [hrole] using hbefore b hb
  have hm : m ∈ n.children := List.mem_of_find?_eq_some hf
  have hmlt := (h.child hm).2.1
  have hclt := (h.child hc).2.1
  exact h.child_unique hc hm (by omega) (by omega)

theorem site_head (h : n.Orderly) {r : Role} (hr : r ∈ n.kind.head?) (hf : n.child? r = some f)
    (hfpart : f.isComment = false) (ht : t ∈ n.sitesBelow above) (hstart : t.node.start = n.start) :
    t = ⟨n, above⟩ ∨ t ∈ f.sitesBelow (n :: above) ∧ t.node.start = f.start := by
  refine (Node.sites_cases ht).imp_right ?_
  rintro ⟨c, hc, ht⟩
  have hnc := (h.child hc).1
  have hct := ((h.child_orderly hc).site_within ht).1
  obtain rfl : c = f := h.head_child hr hf hfpart hc (by omega)
  exact ⟨ht, by omega⟩

end Node.Orderly

end TestMigration
