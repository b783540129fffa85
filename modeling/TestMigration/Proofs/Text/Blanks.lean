import TestMigration.Proofs.Edit.Checked

/-!
# Characters, blanks and what is left without some spans

`Text.At t b c`: the character `c` stands at the offset `b`. A *gap* (`Text.Gap t a z`) is a piece of a text
with nothing but blanks in it; pieces of gaps and gaps side by side are gaps.

`Text.without t spans` are the characters of a text that stand in none of the spans. Spans that differ only by
blanks leave the same, blanks apart (`filter_without_congr`).
-/

namespace TestMigration

instance (s : Span) (b : Nat) : Decidable (s.Holds b) := inferInstanceAs (Decidable (_ ∧ _))

instance (spans : List Span) (b : Nat) : Decidable (Held spans b) :=
  inferInstanceAs (Decidable (∃ s ∈ spans, s.Holds b))

namespace Text

variable {t : Text} {a b z : Nat} {c : Char}

/-! ### Two ways to split a text -/

/-- Of two prefixes of a text the one with fewer bytes is a prefix of the other. -/
theorem exists_append_of_size_le {p q p' q' : Text} (h : p ++ q = p' ++ q') (hle : size p ≤ size p') :
    ∃ u, p' = p ++ u ∧ q = u ++ q' := by
  rcases List.append_eq_append_iff.mp h with ⟨u, hp, hq⟩ | ⟨u, hp, hq⟩
  · exact ⟨u, hp, hq⟩
  · -- then the second one is the shorter one, so both are equal
    have hempty : u = [] := by
      by_contra hne
      have hpos := size_pos_of_ne_nil hne
      rw [hp, size_append] at hle
      omega
    subst hempty
    exact ⟨[], by simpa using hp.symm, by simpa using hq.symm⟩

theorem slice_append (before piece after : Text) :
    slice (before ++ piece ++ after) (size before) (size before + size piece) = piece := by
  rw [slice, List.append_assoc, dropBytes_size, Nat.add_sub_cancel_left, takeBytes_size_append]

theorem exists_slice (hstart : t.Boundary a) (hstop : t.Boundary z) (hle : a ≤ z) :
    ∃ before after, t = before ++ t.slice a z ++ after ∧ size before = a ∧
      size before + size (t.slice a z) = z := by
  obtain ⟨before, rest, rfl, rfl⟩ := hstart
  obtain ⟨upto, after, heq, rfl⟩ := hstop
  obtain ⟨piece, rfl, rfl⟩ := exists_append_of_size_le heq hle
  have hslice := slice_append before piece after
  rw [List.append_assoc] at hslice
  rw [size_append, hslice]
  exact ⟨before, after, by rw [List.append_assoc], rfl, rfl⟩

theorem size_slice (hstart : t.Boundary a) (hstop : t.Boundary z) (hle : a ≤ z) : a + size (t.slice a z) = z := by
  obtain ⟨before, after, -, hbefore, hsize⟩ := exists_slice hstart hstop hle
  rwa [hbefore] at hsize

/-- What follows an offset begins with the piece up to a later one. -/
theorem dropBytes_eq_slice_append (hstart : t.Boundary a) (hstop : t.Boundary z) (hle : a ≤ z) :
    t.dropBytes a = t.slice a z ++ t.dropBytes z := by
  obtain ⟨before, after, ht, rfl, hsize⟩ := exists_slice hstart hstop hle
  generalize t.slice (size before) z = piece at ht hsize
  subst ht hsize
  rw [List.append_assoc, dropBytes_size, ← size_append, ← List.append_assoc, dropBytes_size]

/-! ### Characters at offsets -/

/-- The character `c` begins at the offset `b` of the text. -/
def At (t : Text) (b : Nat) (c : Char) : Prop := ∃ before after, t = before ++ c :: after ∧ size before = b

/-- An offset between characters does not lie in a character. -/
theorem At.le_of_boundary (h : t.At b c) (hz : t.Boundary z) (hlt : b < z) : b + c.utf8Size ≤ z := by
  obtain ⟨before, after, rfl, rfl⟩ := h
  obtain ⟨upto, rest, heq, rfl⟩ := hz
  obtain ⟨u, rfl, hu⟩ := exists_append_of_size_le heq (Nat.le_of_lt hlt)
  cases u with
  | nil => simp at hlt
  | cons d u =>
    obtain ⟨rfl, -⟩ := List.cons.inj hu
    simp only [size_append, size]
    omega

theorem at_of_head? (hstart : t.Boundary a) (hstop : t.Boundary z) (hle : a ≤ z)
    (h : (t.slice a z).head? = some c) : t.At a c ∧ a < z := by
  obtain ⟨before, after, ht, hbefore, hsize⟩ := exists_slice hstart hstop hle
  obtain ⟨rest, hrest⟩ := List.head?_eq_some_iff.mp h
  rw [hrest] at ht hsize
  have hpos := c.utf8Size_pos
  refine ⟨⟨before, rest ++ after, by simpa using ht, hbefore⟩, ?_⟩
  simp only [size] at hsize
  omega

theorem at_of_getLast? (hstart : t.Boundary a) (hstop : t.Boundary z) (hle : a ≤ z)
    (h : (t.slice a z).getLast? = some c) : ∃ b, t.At b c ∧ b + c.utf8Size = z := by
  obtain ⟨before, after, ht, hbefore, hsize⟩ := exists_slice hstart hstop hle
  obtain ⟨rest, hrest⟩ := List.getLast?_eq_some_iff.mp h
  rw [hrest] at ht hsize
  refine ⟨size (before ++ rest), ⟨before ++ rest, after, by simpa using ht, rfl⟩, ?_⟩
  simp only [size_append, size] at hsize ⊢
  omega

/-! ### Gaps -/

/-- Between the two offsets stands nothing but blanks. -/
def Gap (t : Text) (a z : Nat) : Prop :=
  ∃ before gap after, t = before ++ gap ++ after ∧ size before = a ∧ size before + size gap = z ∧
    isBlank gap = true

theorem isBlank_of_margin {u : Text} (h : u.all isMargin = true) : isBlank u = true := by
  refine List.all_eq_true.mpr fun c hc => ?_
  rcases Bool.or_eq_true_iff.mp (List.all_eq_true.mp h c hc) with heq | heq
  · obtain rfl : c = ' ' := by simpa using heq
    rfl
  · obtain rfl : c = '\t' := by simpa using heq
    rfl

namespace Gap

theorem le (h : t.Gap a z) : a ≤ z := by
  obtain ⟨before, gap, after, -, rfl, rfl, -⟩ := h
  omega

theorem start (h : t.Gap a z) : t.Boundary a := by
  obtain ⟨before, gap, after, rfl, rfl, -, -⟩ := h
  exact ⟨before, gap ++ after, by rw [List.append_assoc], rfl⟩

theorem stop (h : t.Gap a z) : t.Boundary z := by
  obtain ⟨before, gap, after, rfl, rfl, rfl, -⟩ := h
  exact ⟨before ++ gap, after, rfl, size_append ..⟩

theorem refl (h : t.Boundary a) : t.Gap a a := by
  obtain ⟨before, after, rfl, rfl⟩ := h
  exact ⟨before, [], after, by simp, rfl, by simp [size], rfl⟩

theorem trans {m : Nat} (h : t.Gap a m) (h' : t.Gap m z) : t.Gap a z := by
  obtain ⟨before, gap, after, ht, rfl, rfl, hgap⟩ := h
  obtain ⟨before', gap', after', rfl, hbefore, rfl, hgap'⟩ := h'
  have hsplit : before ++ gap ++ after = before' ++ (gap' ++ after') := by rw [← ht, List.append_assoc]
  obtain ⟨u, hu, -⟩ := exists_append_of_size_le hsplit (by rw [size_append]; omega)
  have hempty : u = [] := by
    by_contra hne
    have hpos := size_pos_of_ne_nil hne
    rw [hu, size_append, size_append] at hbefore
    omega
  subst hempty
  rw [List.append_nil] at hu
  subst hu
  refine ⟨before, gap ++ gap', after', by simp, rfl, by simp only [size_append]; omega, ?_⟩
  rw [isBlank, List.all_append]
  exact Bool.and_eq_true_iff.mpr ⟨hgap, hgap'⟩

theorem blank (h : t.Gap a z) (hc : t.At b c) (hstart : a ≤ b) (hstop : b < z) : TestMigration.isBlank c = true := by
  obtain ⟨before, gap, after, rfl, rfl, rfl, hgap⟩ := h
  obtain ⟨before', after', heq, rfl⟩ := hc
  rw [List.append_assoc] at heq
  obtain ⟨u, rfl, hu⟩ := exists_append_of_size_le heq hstart
  rw [size_append] at hstop
  obtain ⟨v, rfl, hv⟩ := exists_append_of_size_le hu.symm (by omega)
  cases v with
  | nil => simp at hstop
  | cons d v =>
    obtain ⟨rfl, -⟩ := List.cons.inj hv
    exact List.all_eq_true.mp hgap c (by simp)

theorem sub {a' z' : Nat} (h : t.Gap a z) (hstart : t.Boundary a') (hstop : t.Boundary z') (ha : a ≤ a')
    (hle : a' ≤ z') (hz : z' ≤ z) : t.Gap a' z' := by
  obtain ⟨before, after, ht, hbefore, hsize⟩ := exists_slice hstart hstop hle
  refine ⟨before, t.slice a' z', after, ht, hbefore, hsize, List.all_eq_true.mpr fun c hc => ?_⟩
  -- each character of the piece stands in the gap
  obtain ⟨u, v, huv⟩ := List.append_of_mem hc
  rw [huv] at ht hsize
  have hpos := c.utf8Size_pos
  refine h.blank (b := size (before ++ u)) ⟨before ++ u, v ++ after, by simpa using ht, rfl⟩ ?_ ?_
  · rw [size_append]
    omega
  · simp only [size_append, size] at hsize ⊢
    omega

theorem isBlank_slice (h : t.Gap a z) : isBlank (t.slice a z) = true := by
  obtain ⟨before, gap, after, rfl, rfl, rfl, hgap⟩ := h
  rwa [slice_append]

theorem of_slice (hstart : t.Boundary a) (hstop : t.Boundary z) (hle : a ≤ z)
    (h : isBlank (t.slice a z) = true) : t.Gap a z := by
  obtain ⟨before, after, ht, hbefore, hsize⟩ := exists_slice hstart hstop hle
  exact ⟨before, _, after, ht, hbefore, hsize, h⟩

/-- Blanks right behind an offset. -/
theorem of_dropBytes {gap rest : Text} (h : t.Boundary a) (hrest : t.dropBytes a = gap ++ rest)
    (hgap : isBlank gap = true) : t.Gap a (a + size gap) := by
  obtain ⟨before, after, rfl, rfl⟩ := h
  rw [dropBytes_size] at hrest
  exact ⟨before, gap, rest, by rw [hrest, List.append_assoc], rfl, rfl, hgap⟩

/-- The margin at the end of a piece. -/
theorem of_dropBackWhile (hstart : t.Boundary a) (hstop : t.Boundary z) (hle : a ≤ z) :
    t.Gap (a + size (dropBackWhile isMargin (t.slice a z))) z := by
  obtain ⟨before, after, ht, hbefore, hsize⟩ := exists_slice hstart hstop hle
  have hsplit : t.slice a z = dropBackWhile isMargin (t.slice a z) ++
      ((t.slice a z).reverse.takeWhile isMargin).reverse := by
    rw [dropBackWhile, ← List.reverse_append, List.takeWhile_append_dropWhile, List.reverse_reverse]
  have hparts := congrArg size hsplit
  rw [size_append] at hparts
  have hmargin : ((t.slice a z).reverse.takeWhile isMargin).reverse.all isMargin = true := by
    rw [List.all_reverse, List.all_takeWhile]
  refine ⟨before ++ dropBackWhile isMargin (t.slice a z), _, after, ?_, by rw [size_append, hbefore], ?_,
    isBlank_of_margin hmargin⟩
  · rw [List.append_assoc before, ← hsplit]
    exact ht
  · rw [size_append]
    omega

end Gap

/-! ### Without some spans -/

/-- The characters at offsets that are kept, given the offset of the first one. -/
def keepFrom (keep : Nat → Bool) : Nat → Text → Text
  | _, [] => []
  | pos, c :: t =>
    if keep pos then c :: keepFrom keep (pos + c.utf8Size) t else keepFrom keep (pos + c.utf8Size) t

/-- The characters that stand in none of the spans. -/
def without (t : Text) (spans : List Span) : Text := keepFrom (fun b => !decide (Held spans b)) 0 t

theorem keepFrom_append (keep : Nat → Bool) (pos : Nat) (u v : Text) :
    keepFrom keep pos (u ++ v) = keepFrom keep pos u ++ keepFrom keep (pos + size u) v := by
  induction u generalizing pos with
  | nil => rfl
  | cons c u ih =>
    have hsize : pos + c.utf8Size + size u = pos + size (c :: u) := by
      simp only [size]
      omega
    simp only [List.cons_append, keepFrom, ih, hsize]
    split <;> rfl

theorem keepFrom_congr {keep keep' : Nat → Bool} {pos : Nat} {u : Text}
    (h : ∀ b, pos ≤ b → b < pos + size u → keep b = keep' b) : keepFrom keep pos u = keepFrom keep' pos u := by
  induction u generalizing pos with
  | nil => rfl
  | cons c u ih =>
    have hpos := c.utf8Size_pos
    simp only [size] at h
    rw [keepFrom, keepFrom, h pos (Nat.le_refl _) (by omega), ih]
    intro b hle hlt
    exact h b (by omega) (by omega)

theorem keepFrom_true (pos : Nat) (u : Text) : keepFrom (fun _ => true) pos u = u := by
  induction u generalizing pos with
  | nil => rfl
  | cons c u ih => simp [keepFrom, ih]

theorem keepFrom_false (pos : Nat) (u : Text) : keepFrom (fun _ => false) pos u = [] := by
  induction u generalizing pos with
  | nil => rfl
  | cons c u ih => simp [keepFrom, ih]

theorem filter_keepFrom_cons (p : Char → Bool) (keep : Nat → Bool) (pos : Nat) (c : Char) (u : Text) :
    (keepFrom keep pos (c :: u)).filter p =
      (if keep pos && p c then [c] else []) ++ (keepFrom keep (pos + c.utf8Size) u).filter p := by
  cases hkeep : keep pos <;> cases hp : p c <;> simp [keepFrom, hkeep, hp]

theorem filter_without_congr {spans spans' : List Span}
    (h : ∀ b c, t.At b c → TestMigration.isBlank c = false → (Held spans b ↔ Held spans' b)) :
    (t.without spans).filter (!TestMigration.isBlank ·) =
      (t.without spans').filter (!TestMigration.isBlank ·) := by
  have hfrom (before u : Text) (ht : t = before ++ u) :
      (keepFrom (fun b => !decide (Held spans b)) (size before) u).filter (!TestMigration.isBlank ·) =
        (keepFrom (fun b => !decide (Held spans' b)) (size before) u).filter (!TestMigration.isBlank ·) := by
    induction u generalizing before with
    | nil => rfl
    | cons c u ih =>
      have hrest := ih (before ++ [c]) (by simpa using ht)
      simp only [size_append, size, Nat.add_zero] at hrest
      rw [filter_keepFrom_cons, filter_keepFrom_cons, hrest]
      cases hblank : TestMigration.isBlank c with
      | true => simp
      | false =>
        have hiff := h (size before) c ⟨before, u, ht, rfl⟩ hblank
        rw [decide_eq_decide.mpr hiff]
  exact hfrom [] t rfl

end Text

end TestMigration
