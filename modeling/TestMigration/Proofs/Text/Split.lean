import TestMigration.Text.Basic

/-!
# Texts in pieces

What `Text.splitAt` makes of a text that is put together from pieces, and of a text that goes on in front.
-/

namespace TestMigration

namespace Text

variable {sep : Char} {t : Text}

theorem splitAt_ne_nil : splitAt sep t ≠ [] := by
  cases t with
  | nil => simp [splitAt]
  | cons c t =>
    rw [splitAt]
    split
    · simp
    · split <;> simp

/-- What stands in front of a text without a separator belongs to its first piece. -/
theorem splitAt_append {front : Text} (h : sep ∉ front) :
    ∃ piece rest, splitAt sep t = piece :: rest ∧ splitAt sep (front ++ t) = (front ++ piece) :: rest := by
  induction front with
  | nil =>
    obtain ⟨piece, rest, hsplit⟩ := List.exists_cons_of_ne_nil (@splitAt_ne_nil sep t)
    exact ⟨piece, rest, hsplit, hsplit⟩
  | cons c front ih =>
    obtain ⟨hc, hfront⟩ : sep ≠ c ∧ sep ∉ front := by simpa using h
    obtain ⟨piece, rest, hsplit, happend⟩ := ih hfront
    refine ⟨piece, rest, hsplit, ?_⟩
    rw [List.cons_append, splitAt, if_neg hc.symm, happend]
    rfl

theorem not_mem_of_mem_splitAt {piece : Text} (h : piece ∈ splitAt sep t) : sep ∉ piece := by
  induction t generalizing piece with
  | nil =>
    obtain rfl := List.mem_singleton.mp h
    exact List.not_mem_nil
  | cons c t ih =>
    rw [splitAt] at h
    split at h
    · rcases List.mem_cons.mp h with rfl | h
      · exact List.not_mem_nil
      · exact ih h
    · rename_i hne
      split at h
      · obtain rfl := List.mem_singleton.mp h
        simpa using Ne.symm hne
      · rename_i first rest hsplit
        rw [hsplit] at ih
        rcases List.mem_cons.mp h with rfl | h
        · have hfirst := ih List.mem_cons_self
          simp [Ne.symm hne, hfirst]
        · exact ih (List.mem_cons_of_mem _ h)

/-- Pieces without the separator come back from the text that they make. -/
theorem splitAt_flatMap {pieces : List Text} (hpieces : ∀ p ∈ pieces, sep ∉ p) {first : Text}
    (hfirst : sep ∉ first) : splitAt sep (first ++ pieces.flatMap (sep :: ·)) = first :: pieces := by
  induction pieces generalizing first with
  | nil =>
    induction first with
    | nil => rfl
    | cons c t ih =>
      obtain ⟨hc, ht⟩ : sep ≠ c ∧ sep ∉ t := by simpa using hfirst
      rw [List.cons_append, splitAt, if_neg (Ne.symm hc), ih ht]
  | cons p rest ih =>
    obtain ⟨hp, hrest⟩ := List.forall_mem_cons.mp hpieces
    induction first with
    | nil =>
      rw [List.nil_append, List.flatMap_cons, List.cons_append, splitAt, if_pos rfl, ih hrest hp]
    | cons c t ih' =>
      obtain ⟨hc, ht⟩ : sep ≠ c ∧ sep ∉ t := by simpa using hfirst
      rw [List.cons_append, splitAt, if_neg (Ne.symm hc), ih' ht]

end Text

end TestMigration
