import Mathlib.Data.List.Nodup
import TestMigration.Proofs.Edit.Applied

/-!
# Edits that do not overlap

`Edit.Compatible edits`: the edits stand at different places, and any two that are no insertions are disjoint
or nested. Such edits have no blanks to separate (`Compatible.separateBlanks_eq`), and their places alone
determine the order in which they are nested (`Compatible.sortByPosition_eq`), so it does not matter in which
order they were found: `applyEdits_eq_of_perm`.
-/

namespace TestMigration

attribute [ext] Span

theorem Span.contains_iff {outer inner : Span} :
    outer.contains inner = true ↔ outer.start ≤ inner.start ∧ inner.stop ≤ outer.stop := by
  simp [contains]

theorem Span.eq_of_contains {a b : Span} (hab : a.contains b = true) (hba : b.contains a = true) : a = b := by
  rw [contains_iff] at hab hba
  exact Span.ext (by omega) (by omega)

/-- `b` begins inside `a` and ends behind it. -/
def Span.Overlaps (a b : Span) : Prop := a.start < b.start ∧ b.start < a.stop ∧ a.stop < b.stop

namespace Edit

/-- Edits at different places, of which any two that are no insertions are disjoint or nested. -/
structure Compatible (edits : List Edit) : Prop where
  distinct : (edits.map (·.span)).Nodup
  nested : ∀ a ∈ edits, ∀ b ∈ edits, a.isInsert = false → b.isInsert = false →
    a.span.stop ≤ b.span.start ∨ b.span.stop ≤ a.span.start ∨
      a.span.contains b.span = true ∨ b.span.contains a.span = true

namespace Compatible

variable {edits edits' : List Edit} {a b : Edit}

theorem perm (h : Compatible edits) (hperm : edits.Perm edits') : Compatible edits' where
  distinct := (hperm.map _).nodup_iff.mp h.distinct
  nested a ha b hb := h.nested a (hperm.mem_iff.mpr ha) b (hperm.mem_iff.mpr hb)

theorem eq_of_span_eq (h : Compatible edits) (ha : a ∈ edits) (hb : b ∈ edits) (hspan : a.span = b.span) :
    a = b :=
  List.inj_on_of_nodup_map h.distinct ha hb hspan

theorem not_overlaps (h : Compatible edits) (ha : a ∈ edits) (hb : b ∈ edits) :
    ¬ a.span.Overlaps b.span := by
  rintro ⟨hstart, hinside, hstop⟩
  have hplain : a.isInsert = false ∧ b.isInsert = false := by
    simp only [isInsert, Span.isEmpty, decide_eq_false_iff_not]
    omega
  have hnested := h.nested a ha b hb hplain.1 hplain.2
  simp only [Span.contains_iff] at hnested
  omega

theorem separateBlanks_eq (h : Compatible edits) (source : Text) : separateBlanks source edits = edits := by
  refine separateDeletions_step (P := fun l => l = edits) ?_ _ _ rfl
  rintro l i j p n span hp hn hspan rfl
  obtain ⟨-, hstart, -, hinside, hstop⟩ := yieldBlanks_eq_some hspan
  exact absurd ⟨hstart, hinside, hstop⟩ (h.not_overlaps (List.mem_of_getElem? hp) (List.mem_of_getElem? hn))

end Compatible

theorem precedes_antisymm {a b : Edit} (hab : a.precedes b = true) (hba : b.precedes a = true) :
    a.span = b.span := by
  have hplace : a.span.start = b.span.start ∧ a.span.stop = b.span.stop := by
    rw [precedes_iff] at hab hba
    cases ha : a.isInsert <;> cases hb : b.isInsert <;> simp [ha, hb] at hab hba <;> omega
  exact Span.ext hplace.1 hplace.2

theorem Compatible.sortByPosition_eq {edits edits' : List Edit} (h : Compatible edits)
    (hperm : edits.Perm edits') : sortByPosition edits = sortByPosition edits' := by
  have hsorted := (sortByPosition_perm edits).trans (hperm.trans (sortByPosition_perm edits').symm)
  refine hsorted.eq_of_pairwise ?_ (sortByPosition_sorted edits) (sortByPosition_sorted edits')
  intro a b ha hb hab hba
  have ha : a ∈ edits := (sortByPosition_perm edits).mem_iff.mp ha
  have hb : b ∈ edits := hperm.mem_iff.mpr ((sortByPosition_perm edits').mem_iff.mp hb)
  exact h.eq_of_span_eq ha hb (precedes_antisymm hab hba)

end Edit

/-- Compatible edits can be applied in whatever order they were found. -/
theorem applyEdits_eq_of_perm {edits edits' : List Edit} (source : Text) (style : Style)
    (h : Edit.Compatible edits) (hperm : edits.Perm edits') :
    applyEdits source style edits' = applyEdits source style edits := by
  have hnest : nest edits' = nest edits := by
    unfold nest
    rw [h.sortByPosition_eq hperm]
  unfold applyEdits
  rw [h.separateBlanks_eq, (h.perm hperm).separateBlanks_eq, hnest]

/-- A call that is replaced, its argument that is too, and a text behind it: found in this order, and from the
back to the front. -/
theorem applyEdits_eq_of_perm_call :
    let edits := [Edit.replace ⟨0, 6⟩ (.callPath "g" [.source ⟨2, 5⟩ 20]) "outer",
      Edit.replaceText ⟨2, 5⟩ "z" "inner", Edit.insert 7 "\n" "break"]
    Edit.Compatible edits ∧ edits.Perm edits.reverse ∧
      applyEdits "f(x.y);".toList {} edits.reverse = applyEdits "f(x.y);".toList {} edits := by
  intro edits
  have hcompatible : Edit.Compatible edits := ⟨by decide, by decide⟩
  have hperm : edits.Perm edits.reverse := (List.reverse_perm edits).symm
  exact ⟨hcompatible, hperm, applyEdits_eq_of_perm _ _ hcompatible hperm⟩

end TestMigration
