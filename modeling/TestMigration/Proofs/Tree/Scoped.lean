import TestMigration.Import.Reference
import TestMigration.Proofs.Tree.Climbing

/-!
# Names in scope

A reference means what the nearest of the nodes around it declares under its name (`declaring?`). What a node declares
is left open: `scope` stands for any reading of the scopes of the language. `Node.declares` is such a reading, with the
parameters of functions and the statements of blocks.

Main statements: `declaring?_without`, a part of the nodes around is left out, and `declaring?_added`, one of them
declares one more name.
-/

namespace TestMigration

variable {scope scope' : Node → List String} {name added : String} {below between above : List Node} {n : Node}
  {s t : Site}

/-! ### Nodes around a site -/

/-- The sites below a node have the nodes around it around them. -/
theorem Node.suffix_above : ∀ {n : Node} {above : List Node}, t ∈ n.sitesBelow above → above <:+ t.above
  | n, above, ht => by
    rcases Node.sites_cases ht with rfl | ⟨c, hc, ht⟩
    · exact List.suffix_refl _
    · have hlt := Node.height_lt hc
      exact (List.suffix_cons ..).trans (Node.suffix_above ht)
termination_by n => n.height

theorem Node.ascends_of_sitesBelow : ∀ {n : Node} {above : List Node}, t ∈ n.sitesBelow above →
    (n :: above).Pairwise (fun a b => a.height < b.height) →
      (t.node :: t.above).Pairwise fun a b => a.height < b.height
  | n, above, ht, h => by
    rcases Node.sites_cases ht with rfl | ⟨c, hc, ht⟩
    · exact h
    · have hlt := Node.height_lt hc
      refine Node.ascends_of_sitesBelow ht (List.pairwise_cons.mpr ⟨fun a ha => ?_, h⟩)
      rcases List.mem_cons.mp ha with rfl | ha
      · exact hlt
      · exact Nat.lt_trans hlt ((List.pairwise_cons.mp h).1 a ha)
termination_by n => n.height

namespace Site

theorem exists_below (ht : t ∈ s.sites) : ∃ below, t.above = below ++ s.above := by
  obtain ⟨below, hbelow⟩ := Node.suffix_above ht
  exact ⟨below, hbelow.symm⟩

/-- The nodes around a site are different ones. -/
theorem Within.nodup_above {tree : Node} (h : s.Within tree) : s.above.Nodup := by
  have hascends := Node.ascends_of_sitesBelow h (List.pairwise_singleton ..)
  refine (List.pairwise_cons.mp hascends).2.imp fun hlt heq => ?_
  rw [heq] at hlt
  exact Nat.lt_irrefl _ hlt

end Site

/-! ### Declared names -/

/-- The node that declares a name, of the nodes around a reference, nearest first. -/
def declaring? (scope : Node → List String) (name : String) (above : List Node) : Option Node :=
  above.find? fun n => decide (name ∈ scope n)

theorem declaring?_cons : declaring? scope name (n :: above) =
    if name ∈ scope n then some n else declaring? scope name above := by
  by_cases h : name ∈ scope n <;> simp [declaring?, h]

theorem declaring?_append :
    declaring? scope name (below ++ above) = (declaring? scope name below).or (declaring? scope name above) :=
  List.find?_append

theorem declaring?_eq_none_iff : declaring? scope name above = none ↔ ∀ n ∈ above, name ∉ scope n := by
  simp [declaring?]

theorem mem_of_declaring? (h : declaring? scope name above = some n) : n ∈ above ∧ name ∈ scope n :=
  ⟨List.mem_of_find?_eq_some h, by simpa using List.find?_some h⟩

theorem declaring?_congr (h : ∀ n ∈ above, scope' n = scope n) :
    declaring? scope' name above = declaring? scope name above := by
  induction above with
  | nil => rfl
  | cons n rest ih =>
    obtain ⟨hn, hrest⟩ := List.forall_mem_cons.mp h
    rw [declaring?_cons, declaring?_cons, hn, ih hrest]

/-- Two continuations mean the same for a name that is declared nearer, and otherwise if they agree on it. -/
theorem declaring?_append_inj {above' : List Node}
    (hbelow : declaring? scope' name below = declaring? scope name below) :
    declaring? scope' name (below ++ above') = declaring? scope name (below ++ above) ↔
      (∃ n ∈ below, name ∈ scope n) ∨ declaring? scope' name above' = declaring? scope name above := by
  rw [declaring?_append, declaring?_append, hbelow]
  cases hfound : declaring? scope name below with
  | some n => exact iff_of_true rfl (.inl ⟨n, mem_of_declaring? hfound⟩)
  | none =>
    have hnone := declaring?_eq_none_iff.mp hfound
    have hnot : ¬ ∃ n ∈ below, name ∈ scope n := fun ⟨n, hn, hname⟩ => hnone n hn hname
    exact (or_iff_right hnot).symm

/-- Without some of the nodes around a reference its name means the same exactly when it is declared nearer, or by
none of them. -/
theorem declaring?_without (hnodup : (between ++ above).Nodup) :
    declaring? scope name (below ++ (between ++ above)) = declaring? scope name (below ++ above) ↔
      (∃ n ∈ below, name ∈ scope n) ∨ ∀ n ∈ between, name ∉ scope n := by
  rw [declaring?_append_inj rfl, declaring?_append, ← declaring?_eq_none_iff]
  refine or_congr_right ?_
  cases hbetween : declaring? scope name between with
  | none => exact iff_of_true rfl rfl
  | some n =>
    refine iff_of_false (fun heq => ?_) (by simp)
    -- the node would stand in both parts
    have hapart := (List.nodup_append.mp hnodup).2.2
    exact hapart n (mem_of_declaring? hbetween).1 n (mem_of_declaring? heq.symm).1 rfl

/-- One more name that a node around a reference declares leaves the meaning of the reference exactly when the
reference has another name, or its name is declared nearer, or the node declared it before. -/
theorem declaring?_added (hnodup : (below ++ n :: above).Nodup) (hn : scope' n = added :: scope n)
    (hothers : ∀ m, m ≠ n → scope' m = scope m) :
    declaring? scope' name (below ++ n :: above) = declaring? scope name (below ++ n :: above) ↔
      name ≠ added ∨ (∃ m ∈ below, name ∈ scope m) ∨ name ∈ scope n := by
  obtain ⟨-, hrest, hapart⟩ := List.nodup_append.mp hnodup
  have hfresh : n ∉ above := (List.nodup_cons.mp hrest).1
  have hbelow : declaring? scope' name below = declaring? scope name below :=
    declaring?_congr fun m hm => hothers m fun heq => hapart m hm n List.mem_cons_self heq
  have habove : declaring? scope' name above = declaring? scope name above :=
    declaring?_congr fun m hm => hothers m (ne_of_mem_of_not_mem hm hfresh)
  rw [declaring?_append_inj hbelow, declaring?_cons, declaring?_cons, hn, habove, or_left_comm]
  refine or_congr_right ?_
  by_cases hname : name ∈ scope n
  · simp [hname]
  · by_cases hadded : name = added
    · subst hadded
      refine iff_of_false (fun heq => ?_) (by simp [hname])
      rw [if_pos List.mem_cons_self, if_neg hname] at heq
      exact hfresh (mem_of_declaring? heq.symm).1
    · simp [hname, hadded]

/-- The site refers to the name, and nothing between the reference and the outside of the site declares it. -/
def Site.UsesFree (scope : Node → List String) (source : Text) (s : Site) (name : String) : Prop :=
  ∃ r ∈ s.sites, r.isReference = true ∧ r.text source = name ∧
    ∃ below, r.above = below ++ s.above ∧ ∀ n ∈ below, name ∉ scope n

/-! ### What a node declares -/

/-- The names that a parameter binds, also inside of patterns. -/
def Site.boundNames (source : Text) (parameter : Site) : List String :=
  let pattern :=
    match parameter.kind with
    | .requiredParameter | .optionalParameter => parameter.child? .pattern
    | _ => some parameter
  (pattern.toList.flatMap binders).map (·.text source)

/-- The names that a node declares for what stands below it: the parameters of a function, and what the statements of
a block bind. -/
def Node.declares (source : Text) (n : Node) : List String :=
  match n.kind with
  | .arrowFunction | .functionExpression | .generatorExpression | .functionDeclaration | .generatorDeclaration
  | .method => (Site.functionParameters ⟨n, []⟩).flatMap (Site.boundNames source)
  | .program | .block => (Site.parts ⟨n, []⟩).flatMap fun s => s.bindings.map (·.text source)
  | _ => []

/-- A parameter that is a simple name binds it and nothing else. -/
theorem Site.boundNames_of_parameterName? {source : Text} {parameter : Site}
    (h : parameter.parameterName? source = some name) : parameter.boundNames source = [name] := by
  have hident {p : Site} (hp : p.kind = .identifier) (htext : p.text source = name) :
      p.binders.map (·.text source) = [name] := by
    rw [Site.binders_of_isBinder (by rw [hp]; rfl), List.map_singleton, htext]
  obtain ⟨hkind, htext⟩ | ⟨hkind, p, hp, hname, htext⟩ :=
    Site.parameterName?_eq_some_iff.mp h
  · simpa [Site.boundNames, hkind] using hident hkind htext
  · rcases hkind with hkind | hkind
    · simpa [Site.boundNames, hkind, hp] using hident hname htext
    · simpa [Site.boundNames, hkind, hp] using hident hname htext

end TestMigration
