import TestMigration.Proofs.Edit.Applied
import TestMigration.Proofs.Tree.Placed

/-!
# Deleting statements stays inside the file

The span deleted for a statement reaches over the statement and never out of the text (`deletionSpan_spec`).
-/

namespace TestMigration

namespace Text

theorem Boundary.size_dropBytes {t : Text} {k : Nat} (h : t.Boundary k) :
    k + size (t.dropBytes k) = size t := by
  obtain ⟨before, after, rfl, rfl⟩ := h
  rw [dropBytes_size, size_append]

theorem lineStart_le (t : Text) (offset : Nat) : t.lineStart offset ≤ offset := by
  have hle := size_takeBytes_le offset t
  simp only [lineStart]
  omega

theorem size_takeWhile_add_dropWhile (p : Char → Bool) (t : Text) :
    size (t.takeWhile p) + size (t.dropWhile p) = size t := by
  rw [← size_append, List.takeWhile_append_dropWhile]

theorem size_dropWhile_pos {p : Char → Bool} {t : Text} {c : Char} (hc : c ∈ t) (hp : p c = false) :
    0 < size (t.dropWhile p) := by
  induction t with
  | nil => cases hc
  | cons d t ih =>
    rw [List.dropWhile_cons]
    split
    · rename_i hd
      rcases List.mem_cons.mp hc with rfl | hc
      · rw [hp] at hd
        cases hd
      · exact ih hc
    · have hpos := d.utf8Size_pos
      simp only [size]
      omega

theorem size_of_startsWith {t : Text} {p : String} (h : startsWith t p = true) :
    size p.toList ≤ size t := by
  obtain ⟨rest, rfl⟩ := List.isPrefixOf_iff_prefix.mp h
  rw [size_append]
  omega

end Text

/-- The deleted span reaches over the statement and stays in the text. -/
theorem deletionSpan_spec {source : Text} {s : Span} (hstop : source.Boundary s.stop) :
    (deletionSpan source s).start ≤ s.start ∧ s.stop ≤ (deletionSpan source s).stop ∧
      (deletionSpan source s).stop ≤ source.size := by
  have hline := Text.lineStart_le source s.start
  have hrest := hstop.size_dropBytes
  have hmargin := Text.size_takeWhile_add_dropWhile isMargin (source.dropBytes s.stop)
  have hbefore : Text.size (Text.dropBackWhile isMargin (source.slice (source.lineStart s.start) s.start))
      ≤ s.start - source.lineStart s.start :=
    Nat.le_trans (Text.size_dropBackWhile_le ..) (Text.size_takeBytes_le ..)
  unfold deletionSpan
  dsimp only
  split
  · split
    · exact ⟨by dsimp only; omega, by dsimp only; omega, by dsimp only; omega⟩
    · exact ⟨Nat.le_refl _, by dsimp only; omega, by dsimp only; omega⟩
  · split
    · rename_i hbreak
      have hsize : 2 ≤ _ := Text.size_of_startsWith hbreak
      exact ⟨hline, by dsimp only; omega, by dsimp only; omega⟩
    · split
      · rename_i hbreak
        have hsize : 1 ≤ _ := Text.size_of_startsWith hbreak
        exact ⟨hline, by dsimp only; omega, by dsimp only; omega⟩
      · split
        · exact ⟨hline, by dsimp only; omega, by dsimp only; omega⟩
        · exact ⟨Nat.le_refl _, by dsimp only; omega, by dsimp only; omega⟩

namespace Site.Placed

variable {source : Text} {s : Site}

theorem inside (h : s.Placed source) (r : Replacement) (rule : String) :
    (Edit.mk s.span r rule).Inside source.size :=
  ⟨h.start_le_stop, h.stop.le_size⟩

theorem deleteStatement_inside (h : s.Placed source) (rule : String) :
    (Edit.deleteStatement source s.span rule).Inside source.size := by
  obtain ⟨hstart, hstop, hsize⟩ := deletionSpan_spec h.stop
  have hle := h.start_le_stop
  exact ⟨by simp only [Edit.deleteStatement]; omega, hsize⟩

end Site.Placed

theorem Text.Boundary.insert_inside {source : Text} {k : Nat} (h : source.Boundary k) (text rule : String) :
    (Edit.insert k text rule).Inside source.size :=
  ⟨Nat.le_refl _, h.le_size⟩

end TestMigration
