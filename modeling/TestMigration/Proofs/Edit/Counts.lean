import TestMigration.Edit.Apply

/-!
# Counting by name

`Counts.ofNames` keeps its entries in the order of the names, so each name has one entry and the number for a
name is how often it occurs (`Counts.get_ofNames`).
-/

namespace TestMigration.Counts

def get (c : Counts) (name : String) : Nat := (c.lookup name).getD 0

/-- The names stand in their order, each once. -/
def Ordered (c : Counts) : Prop := c.Pairwise fun a b => a.1 < b.1

variable {c : Counts} {name other : String}

theorem get_cons {n : Nat} : get ((other, n) :: c) name = if name = other then n else c.get name := by
  by_cases h : name = other
  · simp [get, h]
  · have hne : (name == other) = false := by simpa using h
    simp [get, List.lookup_cons, hne, h]

theorem get_eq_zero (h : ∀ entry ∈ c, name < entry.1) : c.get name = 0 := by
  have hnone : c.lookup name = none := by
    refine List.lookup_eq_none_iff.mpr fun entry hentry => ?_
    have hne : name ≠ entry.1 := fun heq => String.lt_irrefl _ (heq ▸ h entry hentry)
    simpa using hne
  simp [get, hnone]

theorem lt_of_not_lt (hne : name ≠ other) (h : ¬ name < other) : other < name := by
  refine Decidable.byContradiction fun h' => hne ?_
  exact String.le_antisymm (String.not_lt.mp h') (String.not_lt.mp h)

theorem mem_increment {entry : String × Nat} (h : entry ∈ c.increment name) :
    entry.1 = name ∨ ∃ e ∈ c, e.1 = entry.1 := by
  induction c with
  | nil => exact .inl (by simp_all [increment])
  | cons first rest ih =>
    obtain ⟨other, n⟩ := first
    unfold increment at h
    split at h
    · rcases List.mem_cons.mp h with rfl | h
      · exact .inr ⟨_, List.mem_cons_self, rfl⟩
      · exact .inr ⟨entry, List.mem_cons_of_mem _ h, rfl⟩
    · split at h
      · rcases List.mem_cons.mp h with rfl | h
        · exact .inl rfl
        · exact .inr ⟨entry, h, rfl⟩
      · rcases List.mem_cons.mp h with rfl | h
        · exact .inr ⟨_, List.mem_cons_self, rfl⟩
        · rcases ih h with h | ⟨e, he, heq⟩
          · exact .inl h
          · exact .inr ⟨e, List.mem_cons_of_mem _ he, heq⟩

theorem Ordered.increment (h : c.Ordered) (name : String) : (c.increment name).Ordered := by
  induction c with
  | nil => simp [Ordered, Counts.increment]
  | cons first rest ih =>
    obtain ⟨other, n⟩ := first
    obtain ⟨hfirst, hrest⟩ := List.pairwise_cons.mp h
    unfold Counts.increment
    split
    · exact List.pairwise_cons.mpr ⟨hfirst, hrest⟩
    · rename_i hne
      split
      · rename_i hlt
        refine List.pairwise_cons.mpr ⟨List.forall_mem_cons.mpr ⟨hlt, fun entry hentry => ?_⟩, h⟩
        exact String.lt_trans hlt (hfirst entry hentry)
      · rename_i hlt
        refine List.pairwise_cons.mpr ⟨fun entry hentry => ?_, ih hrest⟩
        rcases mem_increment hentry with heq | ⟨e, he, heq⟩
        · exact heq ▸ lt_of_not_lt (by simpa using hne) hlt
        · exact heq ▸ hfirst e he

theorem Ordered.get_increment (h : c.Ordered) (name other : String) :
    (c.increment name).get other = c.get other + if other = name then 1 else 0 := by
  induction c with
  | nil =>
    rw [Counts.increment, get_cons]
    simp [get]
  | cons first rest ih =>
    obtain ⟨key, n⟩ := first
    obtain ⟨hfirst, hrest⟩ := List.pairwise_cons.mp h
    unfold Counts.increment
    split
    · rename_i heq
      obtain rfl : name = key := by simpa using heq
      by_cases hother : other = name <;> simp [get_cons, hother]
    · rename_i hne
      have hne : name ≠ key := by simpa using hne
      split
      · rename_i hlt
        -- the name comes before all others, so it had no entry
        have hzero : get ((key, n) :: rest) name = 0 :=
          get_eq_zero (List.forall_mem_cons.mpr ⟨hlt, fun e he => String.lt_trans hlt (hfirst e he)⟩)
        rw [get_cons]
        by_cases hother : other = name
        · rw [hother, if_pos rfl, if_pos rfl, hzero]
        · rw [if_neg hother, if_neg hother, Nat.add_zero]
      · rw [get_cons, get_cons, ih hrest]
        by_cases hkey : other = key
        · have hother : other ≠ name := fun h => hne (h ▸ hkey)
          simp [hkey, Ne.symm hne]
        · simp [hkey]

theorem get_ofNames (names : List String) (name : String) : (ofNames names).get name = names.count name := by
  have hfold (c : Counts) (h : c.Ordered) :
      (names.foldl (fun c n => increment n c) c).get name = c.get name + names.count name := by
    induction names generalizing c with
    | nil => simp
    | cons n rest ih =>
      rw [List.foldl_cons, ih _ (h.increment n), h.get_increment, List.count_cons]
      by_cases hn : name = n
      · simp [hn, Nat.add_assoc, Nat.add_comm]
      · simp [hn, Ne.symm hn]
  simpa [ofNames, get] using hfold [] List.Pairwise.nil

end TestMigration.Counts
