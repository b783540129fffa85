import TestMigration.Text.Lines

/-!
# Byte offsets between characters

`Text.Boundary t k`: the offset `k` lies between two characters of `t` or at one of its ends. Cutting at
boundaries loses nothing: `takeBytes` and `dropBytes` at a boundary are the two halves of the text.
-/

namespace TestMigration.Text

@[simp] theorem size_append (a b : Text) : size (a ++ b) = size a + size b := by
  induction a with
  | nil => simp [size]
  | cons c a ih => simp [size, ih, Nat.add_assoc]

theorem size_pos_of_ne_nil {u : Text} (h : u ≠ []) : 0 < size u := by
  cases u with
  | nil => exact absurd rfl h
  | cons c u =>
    have hpos := c.utf8Size_pos
    simp only [size]
    omega

/-- The offset lies between two characters of the text, or at one of its ends. -/
def Boundary (t : Text) (k : Nat) : Prop :=
  ∃ before after, t = before ++ after ∧ size before = k

theorem Boundary.zero (t : Text) : t.Boundary 0 := ⟨[], t, rfl, rfl⟩

theorem Boundary.le_size {t : Text} {k : Nat} (h : t.Boundary k) : k ≤ t.size := by
  obtain ⟨before, after, rfl, rfl⟩ := h
  rw [size_append]
  omega

/-! ### Taking and dropping -/

theorem takeBytes_size (t rest : Text) : takeBytes t.size (t ++ rest) = t ++ takeBytes 0 rest := by
  induction t with
  | nil => rfl
  | cons c t ih =>
    have hc : ¬ c.utf8Size + size t < c.utf8Size := by omega
    simp only [List.cons_append, size, takeBytes, hc, ↓reduceIte, Nat.add_sub_cancel_left, ih]

theorem takeBytes_zero (t : Text) : takeBytes 0 t = [] := by
  cases t with
  | nil => rfl
  | cons c t => simp [takeBytes, Char.utf8Size_pos]

theorem takeBytes_self (t : Text) : takeBytes t.size t = t := by
  simpa [takeBytes_zero] using takeBytes_size t []

theorem dropBytes_zero (t : Text) : dropBytes 0 t = t := by
  cases t with
  | nil => rfl
  | cons c t => simp [dropBytes]

theorem dropBytes_size (before after : Text) : dropBytes (size before) (before ++ after) = after := by
  induction before with
  | nil => exact dropBytes_zero after
  | cons c before ih =>
    have hc : c.utf8Size + size before ≠ 0 := by
      have := c.utf8Size_pos
      omega
    simp only [List.cons_append, size, dropBytes, hc, ↓reduceIte, Nat.add_sub_cancel_left, ih]

theorem cut_self (t : Text) : t.cut ⟨0, t.size⟩ = String.ofList t := by
  simp [cut, slice, dropBytes_zero, takeBytes_self]

/-! ### Slices of slices -/

theorem takeBytes_append {a : Text} (b : Text) {n : Nat} (h : size a ≤ n) :
    takeBytes n (a ++ b) = a ++ takeBytes (n - size a) b := by
  induction a generalizing n with
  | nil => simp [size]
  | cons c a ih =>
    simp only [size] at h ⊢
    rw [List.cons_append, takeBytes, if_neg (by omega), ih (by omega), List.cons_append]
    rw [show n - c.utf8Size - size a = n - (c.utf8Size + size a) by omega]

theorem takeBytes_mono {m n : Nat} (h : m ≤ n) (t : Text) : takeBytes m t <+: takeBytes n t := by
  induction t generalizing m n with
  | nil => exact List.prefix_refl _
  | cons c t ih =>
    unfold takeBytes
    split
    · exact List.nil_prefix
    · rw [if_neg (by omega)]
      exact (List.prefix_cons_inj c).mpr (ih (by omega))

theorem dropBytes_append {a : Text} (b : Text) {n : Nat} (h : n ≤ size a) :
    dropBytes n (a ++ b) = dropBytes n a ++ b := by
  induction a generalizing n with
  | nil =>
    obtain rfl : n = 0 := by simpa [size] using h
    rw [List.nil_append, dropBytes_zero]
    rfl
  | cons c a ih =>
    simp only [List.cons_append, dropBytes]
    simp only [size] at h
    split
    · rfl
    · exact ih (by omega)

theorem size_dropBytes_le {n : Nat} (t : Text) : size (dropBytes n t) ≤ size t - n := by
  induction t generalizing n with
  | nil => simp [dropBytes, size]
  | cons c t ih =>
    unfold dropBytes
    split
    · simp [size, *]
    · have := @ih (n - c.utf8Size)
      simp only [size]
      omega

/-- A slice that begins at a boundary is a piece of every slice around it. -/
theorem slice_infix {t : Text} {start stop start' stop' : Nat} (hstart : t.Boundary start')
    (hle : start ≤ start') (hle' : stop' ≤ stop) : t.slice start' stop' <:+: t.slice start stop := by
  obtain ⟨before, after, rfl, rfl⟩ := hstart
  rw [slice, slice, dropBytes_size, dropBytes_append after hle]
  have hsize := @size_dropBytes_le start before
  by_cases hempty : stop' ≤ size before
  · rw [Nat.sub_eq_zero_of_le hempty, takeBytes_zero]
    exact List.nil_infix
  · rw [takeBytes_append after (by omega)]
    exact (takeBytes_mono (by omega) after).isInfix.trans (List.suffix_append _ _).isInfix

end TestMigration.Text
