import TestMigration.Edit.Apply
import TestMigration.Proofs.Edit.Forest
import TestMigration.Proofs.Text.Boundary

/-!
# What applying edits gives

Without edits the source comes back unchanged (`applyEdits_nil`). Edits that lie in the file
(`Edit.Inside`) stay so when neighbouring deletions are separated, and what they cover stays covered
(`separateBlanks_holds`); all roots of their forest are spliced in (`spliceable_row`), so unless there is no
edit at all, some rewrite is counted (`eq_nil_of_counts_eq_nil`).
-/

namespace TestMigration

/-- The edit lies in the text of so many bytes, and does not end before it begins. -/
structure Edit.Inside (limit : Nat) (e : Edit) : Prop where
  start_le_stop : e.span.start ≤ e.span.stop
  stop_le : e.span.stop ≤ limit

/-- The byte at offset `b` lies in the span. -/
def Span.Holds (s : Span) (b : Nat) : Prop := s.start ≤ b ∧ b < s.stop

/-! ### Nothing to apply -/

theorem applyEdits_nil (source : Text) (style : Style) :
    applyEdits source style [] = { output := String.ofList source, counts := [], diagnostics := [] } := by
  have hnest : nest (separateBlanks source []) = ([], []) := rfl
  have hsplice : splice source [] ⟨0, source.size⟩ = String.ofList source := Text.cut_self source
  simp [applyEdits, hnest, EditTree.renderAll, hsplice, EditTree.shown, EditTree.spans,
    EditTree.emittedAll, EditTree.marked, Counts.ofNames]

/-! ### Deletions side by side -/

namespace Text

theorem size_takeBytes_le (n : Nat) (t : Text) : size (t.takeBytes n) ≤ n := by
  induction t generalizing n with
  | nil => simp [takeBytes, size]
  | cons c t ih =>
    unfold takeBytes
    split
    · simp [size]
    · have := ih (n - c.utf8Size)
      simp only [size]
      omega

theorem size_dropBackWhile_le (p : Char → Bool) (t : Text) : size (dropBackWhile p t) ≤ size t := by
  have hsplit : t = dropBackWhile p t ++ (t.reverse.takeWhile p).reverse := by
    rw [dropBackWhile, ← List.reverse_append, List.takeWhile_append_dropWhile, List.reverse_reverse]
  calc size (dropBackWhile p t) ≤ size (dropBackWhile p t) + size (t.reverse.takeWhile p).reverse :=
        Nat.le_add_right ..
    _ = size t := by rw [← size_append, ← hsplit]

end Text

/-- A deletion that gives up blanks begins no later than before and ends where the next one begins. -/
theorem yieldBlanks_eq_some {source : Text} {edits : List Edit} {previous next span : Span}
    (h : yieldBlanks source edits previous next = some span) :
    span.start ≤ previous.start ∧ previous.start < next.start ∧ span.stop = next.start ∧
      next.start < previous.stop ∧ previous.stop < next.stop := by
  unfold yieldBlanks at h
  dsimp only at h
  split at h
  · cases h
  · rename_i hshared
    simp only [Bool.not_eq_true', Bool.not_eq_false, Bool.and_eq_true, decide_eq_true_eq] at hshared
    obtain ⟨⟨⟨h₁, h₂⟩, h₃⟩, -⟩ := hshared
    cases h
    refine ⟨?_, h₁, rfl, h₂, h₃⟩
    dsimp only
    split
    · exact Nat.le_trans (Text.size_dropBackWhile_le ..) (Text.size_takeBytes_le ..)
    · exact Nat.le_refl _

theorem separateDeletions_step {source : Text} {P : List Edit → Prop}
    (hstep : ∀ (edits : List Edit) (i j : Nat) (p n : Edit) (span : Span), edits[i]? = some p →
      edits[j]? = some n → yieldBlanks source edits p.span n.span = some span → P edits →
      P (edits.set i { p with span })) :
    ∀ (order : List Nat) (edits : List Edit), P edits → P (separateDeletions source order edits)
  | [], _, h => h
  | [_], _, h => h
  | i :: j :: rest, edits, h => by
    unfold separateDeletions
    dsimp only
    refine separateDeletions_step hstep (j :: rest) _ ?_
    split
    · rename_i p n hp hn
      split
      · rename_i span hspan
        exact hstep edits i j p n span hp hn hspan h
      · exact h
    · exact h

theorem separateBlanks_length (source : Text) (edits : List Edit) :
    (separateBlanks source edits).length = edits.length := by
  refine separateDeletions_step (P := fun l => l.length = edits.length) ?_ _ _ rfl
  intro l i j p n span _ _ _ h
  rw [List.length_set, h]

theorem separateBlanks_inside {source : Text} {limit : Nat} {edits : List Edit}
    (h : ∀ e ∈ edits, e.Inside limit) : ∀ e ∈ separateBlanks source edits, e.Inside limit := by
  refine separateDeletions_step (P := fun l => ∀ e ∈ l, e.Inside limit) ?_ _ _ h
  intro l i j p n span hp hn hspan hl e he
  obtain ⟨hstart, hlt, hstop, hlt', -⟩ := yieldBlanks_eq_some hspan
  rcases List.mem_or_eq_of_mem_set he with he | rfl
  · exact hl e he
  · have hbound := (hl p (List.mem_of_getElem? hp)).stop_le
    exact ⟨by simp only; omega, by simp only; omega⟩

theorem separateBlanks_holds {source : Text} {edits : List Edit} {b : Nat}
    (h : ∃ e ∈ edits, e.span.Holds b) : ∃ e ∈ separateBlanks source edits, e.span.Holds b := by
  refine separateDeletions_step (P := fun l => ∃ e ∈ l, e.span.Holds b) ?_ _ _ h
  intro l i j p n span hp hn hspan hl
  obtain ⟨e, he, hb⟩ := hl
  obtain ⟨hstart, hlt, hstop, hlt', hlt''⟩ := yieldBlanks_eq_some hspan
  obtain ⟨k, hk⟩ := List.mem_iff_getElem?.mp he
  have hi : i < l.length := (List.getElem?_eq_some_iff.mp hp).1
  by_cases hki : k = i
  · obtain rfl : e = p := by
      rw [hki, hp] at hk
      exact (Option.some.inj hk).symm
    by_cases hbefore : b < n.span.start
    · refine ⟨{ e with span }, List.mem_set hi _, ?_⟩
      obtain ⟨h₁, h₂⟩ := hb
      exact ⟨by simp only; omega, by simp only; omega⟩
    · -- what was given up lies under the next deletion
      have hij : i ≠ j := by
        intro hij
        rw [hij, hn] at hp
        cases hp
        omega
      refine ⟨n, List.mem_of_getElem? (by rw [List.getElem?_set_ne hij, hn]), ?_⟩
      obtain ⟨h₁, h₂⟩ := hb
      exact ⟨by omega, by omega⟩
  · exact ⟨e, List.mem_of_getElem? (by rw [List.getElem?_set_ne (Ne.symm hki), hk]), hb⟩

/-! ### Splicing a row -/

open EditTree

/-- Of the trees of a row, those inside a span are spliced into it. -/
theorem spliceable_contained {limit : Span} {pos lo hi : Nat} {ts : List EditTree} (h : Row lo hi ts)
    (hpos : pos ≤ max limit.start lo) :
    spliceable limit pos (spans ts) = ts.map fun t => limit.contains t.span := by
  induction ts generalizing pos lo with
  | nil => rfl
  | cons t rest ih =>
    obtain ⟨hlo, ht, hrest⟩ := h
    have hle := ht.start_le_stop
    have hspans : spans (t :: rest) = t.span :: spans rest := rfl
    rw [hspans, spliceable, List.map_cons]
    cases hinside : limit.contains t.span with
    | false =>
      rw [Bool.false_and, if_neg (by simp), ih hrest (by omega)]
    | true =>
      have hstart : limit.start ≤ t.span.start := by
        simp only [Span.contains, Bool.and_eq_true, decide_eq_true_eq] at hinside
        exact hinside.1
      rw [Bool.true_and, if_pos (by simp; omega), ih hrest (by omega)]

theorem shown_row {limit : Span} {ts : List EditTree} (h : Row limit.start limit.stop ts) :
    shown [limit] (spans ts) = ts.map fun _ => true := by
  have hmask : ((spans ts).map fun _ => false).zip (spliceable limit limit.start (spans ts))
      = ts.map fun _ => (false, true) := by
    have hinside : ts.map (fun t => limit.contains t.span) = ts.map fun _ => true := by
      refine List.map_congr_left fun t ht => ?_
      obtain ⟨hstart, -, hstop⟩ := h.mem ht
      simpa [Span.contains] using ⟨hstart, hstop⟩
    rw [spliceable_contained h (Nat.le_max_left _ _), hinside, spans, List.map_map]
    exact List.zip_map'
  rw [shown, List.foldl_cons, List.foldl_nil, hmask, List.map_map]
  rfl

theorem marked_all {α β : Type} (ts : List β) (f : β → List α) :
    marked (ts.map fun _ => true) (ts.map f) = ts.flatMap f := by
  induction ts with
  | nil => rfl
  | cons t rest ih => rw [List.map_cons, List.map_cons, marked, ih, List.flatMap_cons]

theorem emittedAll_eq_map (ts : List EditTree) : emittedAll ts = ts.map emitted := by
  induction ts with
  | nil => rfl
  | cons t rest ih => simp [emittedAll, ih]

theorem edit_mem_emitted (t : EditTree) : t.edit ∈ t.emitted := by
  cases t
  unfold emitted
  split <;> simp [edit]

/-! ### Counting -/

theorem Counts.increment_ne_nil (name : String) (c : Counts) : c.increment name ≠ [] := by
  cases c with
  | nil => simp [increment]
  | cons entry rest =>
    unfold increment
    split
    · simp
    · split <;> simp

theorem Counts.ofNames_eq_nil {names : List String} (h : ofNames names = []) : names = [] := by
  cases hrev : names.reverse with
  | nil => simpa using hrev
  | cons last rest =>
    rw [← names.reverse_reverse, hrev] at h
    simp only [ofNames, List.reverse_cons, List.foldl_append, List.foldl_cons, List.foldl_nil] at h
    exact (increment_ne_nil _ _ h).elim

/-- The trees of the forest are spliced into the whole source, and the edits they show are counted. -/
theorem applyEdits_eq (source : Text) (style : Style) (edits : List Edit) :
    (applyEdits source style edits).output =
      splice source (renderAll source style (nest (separateBlanks source edits)).1) ⟨0, source.size⟩ ∧
    (applyEdits source style edits).counts = Counts.ofNames
      ((marked (shown [⟨0, source.size⟩] (spans (nest (separateBlanks source edits)).1))
        (emittedAll (nest (separateBlanks source edits)).1)).map (·.rule)) := by
  unfold applyEdits
  generalize nest (separateBlanks source edits) = nested
  obtain ⟨roots, dropped⟩ := nested
  exact ⟨rfl, rfl⟩

theorem eq_nil_of_counts_eq_nil {source : Text} {style : Style} {edits : List Edit}
    (hinside : ∀ e ∈ edits, e.Inside source.size)
    (h : (applyEdits source style edits).counts = []) : edits = [] := by
  have hseparated : ∀ e ∈ separateBlanks source edits, e.Inside source.size :=
    separateBlanks_inside hinside
  have hrow := nest_row (fun e he => (hseparated e he).start_le_stop)
    fun e he => (hseparated e he).stop_le
  have hemitted : (marked (shown [⟨0, source.size⟩] (spans (nest (separateBlanks source edits)).1))
      (emittedAll (nest (separateBlanks source edits)).1)).map (·.rule) = [] := by
    rw [(applyEdits_eq source style edits).2] at h
    exact Counts.ofNames_eq_nil h
  rw [shown_row hrow, emittedAll_eq_map, marked_all, List.map_eq_nil_iff] at hemitted
  have hroots : (nest (separateBlanks source edits)).1 = [] := by
    refine List.eq_nil_iff_forall_not_mem.mpr fun t ht => ?_
    have hmem : t.edit ∈ (nest (separateBlanks source edits)).1.flatMap emitted :=
      List.mem_flatMap.mpr ⟨t, ht, edit_mem_emitted t⟩
    rw [hemitted] at hmem
    exact absurd hmem List.not_mem_nil
  have hlength := separateBlanks_length source edits
  rw [eq_nil_of_nest_eq_nil hroots] at hlength
  exact List.length_eq_zero_iff.mp hlength.symm

end TestMigration
