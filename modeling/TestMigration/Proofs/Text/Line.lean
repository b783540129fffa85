import TestMigration.Proofs.Text.Blanks

/-!
# Lines between offsets

Two offsets are on one line when their lines start at the same offset. Going back from an offset, its line starts
behind the newline that stands first (`Text.lineStart_eq_iff`); going on, the next line begins behind the newline that
stands first (`Text.lt_nextLine_iff`).
-/

namespace TestMigration.Text

variable {t u v line : Text} {a b : Nat}

/-- Offset of the first byte of the line behind the one that holds `offset`, if there is one. -/
def nextLine (t : Text) (offset : Nat) : Nat := offset + size ((t.dropBytes offset).takeWhile (· != '\n')) + 1

theorem lt_nextLine (t : Text) (offset : Nat) : offset < t.nextLine offset :=
  Nat.lt_succ_of_le (Nat.le_add_right ..)

theorem exists_last_newline (h : '\n' ∈ u) : ∃ front line, u = front ++ '\n' :: line ∧ '\n' ∉ line := by
  obtain ⟨line, front, hu, hline⟩ := List.eq_append_cons_of_mem (List.mem_reverse.mpr h)
  refine ⟨front.reverse, line.reverse, ?_, by simpa using hline⟩
  rw [← List.reverse_reverse u, hu]
  simp

theorem takeWhile_ne_newline (h : '\n' ∉ u) : (u ++ v).takeWhile (· != '\n') = u ++ v.takeWhile (· != '\n') :=
  List.takeWhile_append_of_pos fun c hc => by simpa using ne_of_mem_of_not_mem hc h

theorem lastLine_newline (h : '\n' ∉ line) : lastLine (u ++ '\n' :: line) = line := by
  have htake := takeWhile_ne_newline (v := '\n' :: u.reverse) (by simpa using h : '\n' ∉ line.reverse)
  rw [lastLine, List.reverse_append, List.reverse_cons, List.append_assoc]
  simpa using congrArg List.reverse htake

theorem lastLine_append (h : '\n' ∉ v) : lastLine (u ++ v) = lastLine u ++ v := by
  rw [lastLine, List.reverse_append, takeWhile_ne_newline (by simpa using h), List.reverse_append, List.reverse_reverse]
  rfl

theorem size_newline (u : Text) : size ('\n' :: u) = size u + 1 := by
  rw [size, Nat.add_comm]
  rfl

theorem lineStart_append (before between after : Text) :
    lineStart (before ++ between ++ after) (size before + size between) =
      size before + size between - size (lastLine (before ++ between)) := by
  rw [lineStart, ← size_append, takeBytes_size_append]

section
variable (ha : t.Boundary a) (hb : t.Boundary b) (hle : b ≤ a)
include ha hb hle

/-- The line of an offset starts in front of another one if no newline stands between them. -/
theorem lineStart_le_iff : t.lineStart a ≤ b ↔ '\n' ∉ t.slice b a := by
  obtain ⟨before, after, ht, hbefore, hbetween⟩ := exists_slice hb ha hle
  have hline := lineStart_append before (t.slice b a) after
  rw [← ht, hbetween] at hline
  constructor
  · intro hstart hnewline
    -- the line starts behind the last newline, which stands between the offsets
    obtain ⟨front, line, hslice, hlast⟩ := exists_last_newline hnewline
    rw [hslice, ← List.append_assoc, lastLine_newline hlast] at hline
    have hsize := congrArg size hslice
    rw [size_append, size_newline] at hsize
    omega
  · intro hnone
    rw [lastLine_append hnone, size_append] at hline
    omega

/-- Two offsets are on one line if no newline stands between them. -/
theorem lineStart_eq_iff : t.lineStart b = t.lineStart a ↔ '\n' ∉ t.slice b a := by
  refine ⟨fun heq => (lineStart_le_iff ha hb hle).mp (heq ▸ lineStart_le t b), fun hnone => ?_⟩
  obtain ⟨before, after, ht, hbefore, hbetween⟩ := exists_slice hb ha hle
  have hline := lineStart_append before (t.slice b a) after
  have hline' := lineStart_append before [] (t.slice b a ++ after)
  rw [List.append_nil, ← List.append_assoc, ← ht, hbefore] at hline'
  rw [← ht, hbetween, lastLine_append hnone, size_append] at hline
  rw [size, Nat.add_zero] at hline'
  omega

/-- An offset is in front of the next line if no newline stands before it. -/
theorem lt_nextLine_iff : a < t.nextLine b ↔ '\n' ∉ t.slice b a := by
  rw [nextLine, dropBytes_eq_slice_append hb ha hle]
  have hsize := size_slice hb ha hle
  constructor
  · intro hlt hnewline
    obtain ⟨line, behind, hslice, hline⟩ := List.eq_append_cons_of_mem hnewline
    rw [hslice, List.append_assoc, takeWhile_ne_newline hline] at hlt
    have hstops : ('\n' :: behind ++ t.dropBytes a).takeWhile (· != '\n') = [] := rfl
    rw [hstops, List.append_nil] at hlt
    rw [hslice, size_append, size_newline] at hsize
    omega
  · intro hnone
    rw [takeWhile_ne_newline hnone, size_append]
    omega

end

end TestMigration.Text
