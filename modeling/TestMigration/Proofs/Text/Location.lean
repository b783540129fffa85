import TestMigration.Proofs.Text.Line
import TestMigration.Proofs.Text.Split

/-!
# Locations and offsets

A line starts behind the lines in front of it (`Text.startOfLine`). The location of an offset names the line that holds
the offset, and its column counts on from the start of that line, so the offset can be read off the location, and
locations stand in the order of their offsets.

Main statements: `Text.startOfLine_column` and `Location.StartsAt.before_iff`.
-/

namespace TestMigration

theorem Location.before_iff {l m : Location} :
    l.before m = true ↔ l.line < m.line ∨ l.line = m.line ∧ l.column < m.column := by
  simp [before]

namespace Text

variable {t : Text} {a b : Nat}

/-- Offset of the first byte of a line, given its number: behind the lines in front of it, each with its newline. -/
def startOfLine (t : Text) (line : Nat) : Nat := size (((splitAt '\n' t).take (line - 1)).flatMap (· ++ ['\n']))

/-- The line behind a newline starts right behind it. -/
theorem startOfLine_newline (front after : Text) :
    startOfLine (front ++ '\n' :: after) (front.count '\n' + 2) = size front + 1 := by
  have hlines (n : Nat) (first : Text) (rest : List Text) :
      size (((first :: rest).take (n + 2 - 1)).flatMap (· ++ ['\n']))
        = size first + 1 + size ((rest.take n).flatMap (· ++ ['\n'])) := by
    rw [Nat.add_sub_cancel (m := 1), List.take_succ_cons, List.flatMap_cons, size_append, size_append]
    rfl
  induction front with
  | nil => exact hlines 0 [] _
  | cons c front ih =>
    rw [startOfLine] at ih ⊢
    by_cases hc : c = '\n'
    · subst hc
      rw [List.cons_append, splitAt, if_pos rfl, List.count_cons_self, hlines, size_newline]
      rw [Nat.add_sub_cancel (m := 1)] at ih
      rw [ih, size, Nat.zero_add, Nat.add_comm]
    · obtain ⟨piece, rest, hsplit⟩ := List.exists_cons_of_ne_nil (@splitAt_ne_nil '\n' (front ++ '\n' :: after))
      rw [List.cons_append, splitAt, if_neg hc, List.count_cons_of_ne hc, hsplit, hlines]
      rw [hsplit, hlines] at ih
      rw [size, size]
      omega

/-- A location names the line that holds the offset. -/
theorem startOfLine_locationAt (h : t.Boundary a) : t.startOfLine (t.locationAt a).line = t.lineStart a := by
  obtain ⟨before, after, rfl, rfl⟩ := h
  rw [locationAt, lineStart, takeBytes_size_append]
  by_cases hnewline : '\n' ∈ before
  · obtain ⟨front, line, rfl, hline⟩ := exists_last_newline hnewline
    have hcount : (front ++ '\n' :: line).count '\n' = front.count '\n' + 1 := by
      rw [List.count_append, List.count_cons_self, List.count_eq_zero.mpr hline]
    have hstart := startOfLine_newline front (line ++ after)
    rw [List.append_assoc, List.cons_append, hcount, hstart, lastLine_newline hline, size_append, size_newline]
    omega
  · have hlast : lastLine before = before := lastLine_append (u := []) hnewline
    rw [List.count_eq_zero.mpr hnewline, hlast, Nat.sub_self]
    rfl

theorem size_lastLine_le (u : Text) : size (lastLine u) ≤ size u := by
  obtain ⟨front, hfront⟩ : lastLine u <:+ u := by
    rw [← List.reverse_prefix, lastLine, List.reverse_reverse]
    exact List.takeWhile_prefix _
  have hsize := congrArg size hfront
  rw [size_append] at hsize
  omega

theorem startOfLine_column (h : t.Boundary a) :
    t.startOfLine (t.locationAt a).line + (t.locationAt a).column - 1 = a := by
  have hline := size_lastLine_le (t.takeBytes a)
  rw [startOfLine_locationAt h]
  rw [boundary_iff.mp h] at hline
  calc t.lineStart a + (size (lastLine (t.takeBytes a)) + 1) - 1
      = size (t.takeBytes a) - size (lastLine (t.takeBytes a)) + size (lastLine (t.takeBytes a)) := rfl
    _ = a := by rw [boundary_iff.mp h, Nat.sub_add_cancel hline]

/-- Later offsets have later locations: on a later line if a newline stands between, else in a later column. -/
theorem locationAt_before (ha : t.Boundary a) (hb : t.Boundary b) (hlt : a < b) :
    (t.locationAt a).before (t.locationAt b) = true := by
  obtain ⟨before, after, ht, rfl, hsize⟩ := exists_slice ha hb (Nat.le_of_lt hlt)
  generalize t.slice (size before) b = between at ht hsize
  subst ht hsize
  have hupto := takeBytes_size_append before (between ++ after)
  have hupto' := takeBytes_size_append (before ++ between) after
  rw [← List.append_assoc] at hupto
  rw [size_append] at hupto'
  rw [Location.before_iff, locationAt, locationAt, hupto, hupto', List.count_append]
  by_cases hnewline : '\n' ∈ between
  · have hpos := List.count_pos_iff.mpr hnewline
    exact .inl (Nat.succ_lt_succ (Nat.lt_add_of_pos_right hpos))
  · rw [List.count_eq_zero.mpr hnewline, lastLine_append hnewline, size_append]
    exact .inr ⟨rfl, Nat.succ_lt_succ (by omega)⟩

end Text

namespace Location

variable {l m : Location}

/-- The location names the place of an offset; where it stops does not matter. -/
structure StartsAt (l : Location) (t : Text) (offset : Nat) : Prop where
  boundary : t.Boundary offset
  line : l.line = (t.locationAt offset).line
  column : l.column = (t.locationAt offset).column

/-- Locations stand in the order of the offsets that they name. -/
theorem StartsAt.before_iff {t : Text} {a b : Nat} (hl : l.StartsAt t a) (hm : m.StartsAt t b) :
    l.before m = true ↔ a < b := by
  have hsame : l.before m = (t.locationAt a).before (t.locationAt b) := by
    rw [before, before, hl.line, hl.column, hm.line, hm.column]
  rw [hsame]
  refine ⟨fun hbefore => ?_, Text.locationAt_before hl.boundary hm.boundary⟩
  by_contra hge
  rcases Nat.eq_or_lt_of_le (Nat.not_lt.mp hge) with rfl | hlt
  · rw [Location.before_iff] at hbefore
    omega
  · have hafter := Text.locationAt_before hm.boundary hl.boundary hlt
    rw [Location.before_iff] at hbefore hafter
    omega

end Location

end TestMigration
