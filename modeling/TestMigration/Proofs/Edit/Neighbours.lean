import TestMigration.Proofs.Edit.Containment
import TestMigration.Proofs.Text.Blanks

/-!
# Deleting neighbouring statements

A statement goes with the blanks around it (`Span.Widens`), so two neighbours may claim the same blanks. When
the deletions are separated, one after the other in the order of their positions, each gives up what the next
one deletes too, and may take the margin in front of it instead. `Separating` is the invariant of this pass:
every deletion is its statement and blanks, and those that the pass has left behind share nothing with any
other. Statements that begin and end with more than blanks (`Span.Solid`) and share nothing therefore can be
deleted together, in whatever order: `applyEdits_deleteStatements`.
-/

namespace TestMigration

/-! ### A statement and the blanks around it -/

/-- The span is a piece of the text whose first and last characters are no blanks. -/
structure Span.Solid (source : Text) (s : Span) : Prop where
  piece : s.PieceOf source
  first : (source.slice s.start s.stop).head?.any (!isBlank ·) = true
  last : (source.slice s.start s.stop).getLast?.any (!isBlank ·) = true

instance (source : Text) (s : Span) : Decidable (s.Solid source) :=
  decidable_of_iff (s.PieceOf source ∧ (source.slice s.start s.stop).head?.any (!isBlank ·) = true ∧
      (source.slice s.start s.stop).getLast?.any (!isBlank ·) = true)
    ⟨fun ⟨hpiece, hfirst, hlast⟩ => ⟨hpiece, hfirst, hlast⟩,
      fun ⟨hpiece, hfirst, hlast⟩ => ⟨hpiece, hfirst, hlast⟩⟩

instance (s t : Span) : Decidable (s.Apart t) := inferInstanceAs (Decidable (_ ∨ _))

/-- `d` is `s` and blanks at its two ends. -/
structure Span.Widens (source : Text) (s d : Span) : Prop where
  before : source.Gap d.start s.start
  behind : source.Gap s.stop d.stop

namespace Span

variable {source : Text} {s s' d d' : Span}

theorem Apart.symm (h : s.Apart s') : s'.Apart s := Or.symm h

theorem Solid.start_lt_stop (h : s.Solid source) : s.start < s.stop := by
  obtain ⟨c, hc, -⟩ := (Option.any_eq_true _ _).mp h.first
  exact (Text.at_of_head? h.piece.start h.piece.stop h.piece.start_le_stop hc).2

theorem Widens.stop_le (h : s.Widens source d) (hsolid : s'.Solid source) (hle : s.stop ≤ s'.start) :
    d.stop ≤ s'.start := by
  obtain ⟨c, hc, hblank⟩ := (Option.any_eq_true _ _).mp hsolid.first
  have hat := (Text.at_of_head? hsolid.piece.start hsolid.piece.stop hsolid.piece.start_le_stop hc).1
  by_contra hlt
  rw [h.behind.blank hat hle (by omega)] at hblank
  cases hblank

theorem Widens.le_start (h : s'.Widens source d') (hsolid : s.Solid source) (hle : s.stop ≤ s'.start) :
    s.stop ≤ d'.start := by
  obtain ⟨c, hc, hblank⟩ := (Option.any_eq_true _ _).mp hsolid.last
  obtain ⟨b, hat, hb⟩ := Text.at_of_getLast? hsolid.piece.start hsolid.piece.stop hsolid.piece.start_le_stop hc
  have hpos := c.utf8Size_pos
  by_contra hlt
  -- the offset where the blanks begin does not lie in the last character
  have hbefore : d'.start ≤ b := by
    by_contra hinside
    have := hat.le_of_boundary h.before.start (by omega)
    omega
  rw [h.before.blank hat hbefore (by omega)] at hblank
  cases hblank

end Span

/-- What is deleted for a statement is the statement and blanks. -/
theorem deletionSpan_widens {source : Text} {s : Span} (h : s.PieceOf source) :
    s.Widens source (deletionSpan source s) := by
  have hline : source.Boundary (source.lineStart s.start) := h.start.lineStart
  have hle := Text.lineStart_le source s.start
  have hmargin : ((source.dropBytes s.stop).takeWhile isMargin).all isMargin = true := List.all_takeWhile
  have hsplit : source.dropBytes s.stop = (source.dropBytes s.stop).takeWhile isMargin ++
      (source.dropBytes s.stop).dropWhile isMargin := List.takeWhile_append_dropWhile.symm
  have hafter := Text.Gap.of_dropBytes h.stop hsplit (Text.isBlank_of_margin hmargin)
  -- the line break behind the margin, if the statement has the line for itself
  have hbreak (p : String) (hp : Text.isBlank p.toList = true)
      (hstarts : Text.startsWith ((source.dropBytes s.stop).dropWhile isMargin) p = true) :
      source.Gap s.stop
        (s.stop + Text.size ((source.dropBytes s.stop).takeWhile isMargin) + Text.size p.toList) := by
    obtain ⟨rest, hrest⟩ := List.isPrefixOf_iff_prefix.mp hstarts
    rw [← hrest, ← List.append_assoc] at hsplit
    have hgap := Text.Gap.of_dropBytes h.stop hsplit (by
      rw [Text.isBlank, List.all_append]
      exact Bool.and_eq_true_iff.mpr ⟨Text.isBlank_of_margin hmargin, hp⟩)
    rwa [Text.size_append, ← Nat.add_assoc] at hgap
  unfold deletionSpan
  dsimp only
  split
  · split
    · exact ⟨Text.Gap.of_dropBackWhile hline h.start hle, hafter⟩
    · exact ⟨Text.Gap.refl h.start, hafter⟩
  · rename_i hblank
    have hbefore : source.Gap (source.lineStart s.start) s.start :=
      Text.Gap.of_slice hline h.start hle (by simpa using hblank)
    split
    · exact ⟨hbefore, hbreak "\r\n" rfl (by assumption)⟩
    · split
      · exact ⟨hbefore, hbreak "\n" rfl (by assumption)⟩
      · split
        · exact ⟨hbefore, hafter⟩
        · exact ⟨Text.Gap.refl h.start, hafter⟩

/-! ### Giving up blanks -/

/-- The edit deletes the statement of `d` with blanks around it, for the rule of `d`. -/
structure Edit.Deletes (source : Text) (d : Span × String) (e : Edit) : Prop where
  delete : e.replacement = .delete
  rule : e.rule = d.2
  widens : d.1.Widens source e.span

/-- Deletions that overlap in blanks are separated. -/
theorem yieldBlanks_ne_none {source : Text} {previous next : Span} (edits : List Edit)
    (hoverlaps : previous.Overlaps next) (hgap : source.Gap next.start previous.stop) :
    yieldBlanks source edits previous next ≠ none := by
  obtain ⟨hstart, hinside, hstop⟩ := hoverlaps
  simp [yieldBlanks, hstart, hinside, hstop, hgap.isBlank_slice]

/-- The deletion that gives up blanks begins where it did, or takes the margin before it if no other edit
reaches into it. -/
theorem yieldBlanks_start {source : Text} {edits : List Edit} {previous next span : Span}
    (hprevious : source.Boundary previous.start) (h : yieldBlanks source edits previous next = some span) :
    source.Gap span.start previous.start ∧
      ∀ e ∈ edits, e.span.start < previous.start → e.span.stop ≤ previous.start → e.span.stop ≤ span.start := by
  unfold yieldBlanks at h
  dsimp only at h
  split at h
  · cases h
  · cases h
    dsimp only
    split
    · rename_i hfree
      have hmargin := Text.Gap.of_dropBackWhile (Text.Boundary.zero source) hprevious (Nat.zero_le _)
      rw [Text.slice, Text.dropBytes_zero, Nat.sub_zero, Nat.zero_add] at hmargin
      simp only [Bool.and_eq_true, Bool.not_eq_true', List.any_eq_false, decide_eq_true_eq, not_and,
        Nat.not_lt] at hfree
      exact ⟨hmargin, fun e he hstart _ => hfree.2 e he hstart⟩
    · exact ⟨Text.Gap.refl hprevious, fun e _ _ hstop => hstop⟩

/-! ### The pass over the deletions -/

/-- The deletions of some statements while they are separated, with `order` still to come: each edit deletes
its statement and blanks, the statements to come stand one behind the other, and an edit that has been left
behind shares nothing with another one. -/
structure Separating (source : Text) (deletions : List (Span × String)) (order : List Nat)
    (edits : List Edit) : Prop where
  length : edits.length = deletions.length
  deletes : ∀ {k : Nat} {d : Span × String} {e : Edit}, deletions[k]? = some d → edits[k]? = some e →
    e.Deletes source d
  sorted : order.Pairwise fun k l =>
    ∃ d d', deletions[k]? = some d ∧ deletions[l]? = some d' ∧ d.1.stop ≤ d'.1.start
  settled : ∀ {k l : Nat} {e e' : Edit}, k ∉ order → k ≠ l → edits[k]? = some e → edits[l]? = some e' →
    e.span.Apart e'.span

namespace Separating

variable {source : Text} {deletions : List (Span × String)} {order rest : List Nat} {edits : List Edit}
  {i j : Nat} {d d' : Span × String} {p p' n : Edit}

theorem start_lt_stop (hsolid : ∀ d ∈ deletions, d.1.Solid source)
    (h : Separating source deletions order edits) (hp : edits[i]? = some p) : p.span.start < p.span.stop := by
  have hlt : i < deletions.length := h.length ▸ (List.getElem?_eq_some_iff.mp hp).1
  have hwidens := (h.deletes (List.getElem?_eq_getElem hlt) hp).widens
  have hstart := hwidens.before.le
  have hstop := hwidens.behind.le
  have hstatement := (hsolid _ (List.getElem_mem hlt)).start_lt_stop
  omega

theorem exists_edit (h : Separating source deletions order edits) (hd : deletions[i]? = some d) :
    ∃ e, edits[i]? = some e := by
  have hlt : i < edits.length := h.length ▸ (List.getElem?_eq_some_iff.mp hd).1
  exact ⟨edits[i], List.getElem?_eq_getElem hlt⟩

theorem settle (h : Separating source deletions (i :: order) edits) (hd : deletions[i]? = some d)
    (hp' : p'.Deletes source d)
    (hapart : ∀ {l : Nat} {e : Edit}, l ≠ i → edits[l]? = some e → p'.span.Apart e.span) :
    Separating source deletions order (edits.set i p') := by
  have hget {l : Nat} {e : Edit} (he : (edits.set i p')[l]? = some e) :
      l = i ∧ e = p' ∨ l ≠ i ∧ edits[l]? = some e := by
    by_cases hl : l = i
    · subst hl
      rw [List.getElem?_set_self'] at he
      obtain ⟨x, -, rfl⟩ := Option.map_eq_some_iff.mp he
      exact .inl ⟨rfl, rfl⟩
    · rw [List.getElem?_set_ne (Ne.symm hl)] at he
      exact .inr ⟨hl, he⟩
  refine ⟨by rw [List.length_set, h.length], ?_, (List.pairwise_cons.mp h.sorted).2, ?_⟩
  · intro k dk e hdk he
    rcases hget he with ⟨rfl, rfl⟩ | ⟨-, he⟩
    · rw [hd] at hdk
      cases hdk
      exact hp'
    · exact h.deletes hdk he
  · intro k l e e' hk hkl he he'
    rcases hget he with ⟨rfl, rfl⟩ | ⟨hki, hek⟩
    · rcases hget he' with ⟨rfl, -⟩ | ⟨hli, hel⟩
      · exact absurd rfl hkl
      · exact hapart hli hel
    · rcases hget he' with ⟨rfl, rfl⟩ | ⟨-, hel⟩
      · exact (hapart hki hek).symm
      · exact h.settled (by simp [hki, hk]) hkl hek hel

/-- A deletion that ends where the next one begins ends before all that are still to come. -/
theorem apart_of_stop_le (hsolid : ∀ d ∈ deletions, d.1.Solid source)
    (h : Separating source deletions (i :: j :: rest) edits) (hd' : deletions[j]? = some d')
    (hn : edits[j]? = some n) (hstop : p'.span.stop ≤ n.span.start) {l : Nat} {e : Edit}
    (hl : l ∈ j :: rest) (he : edits[l]? = some e) : p'.span.Apart e.span := by
  rcases List.mem_cons.mp hl with rfl | hl
  · rw [hn] at he
    cases he
    exact .inl hstop
  · obtain ⟨-, hsorted⟩ := List.pairwise_cons.mp h.sorted
    obtain ⟨dj, dl, hdj, hdl, hle⟩ := (List.pairwise_cons.mp hsorted).1 l hl
    rw [hd'] at hdj
    cases hdj
    have hsolid' := hsolid _ (List.mem_of_getElem? hd')
    have hstart := (h.deletes hd' hn).widens.before.le
    have hlater := (h.deletes hdl he).widens.le_start hsolid' hle
    have hlt := hsolid'.start_lt_stop
    exact .inl (by omega)

theorem step (hsolid : ∀ d ∈ deletions, d.1.Solid source)
    (h : Separating source deletions (i :: j :: rest) edits) (hp : edits[i]? = some p)
    (hn : edits[j]? = some n) :
    Separating source deletions (j :: rest)
      (match yieldBlanks source edits p.span n.span with
        | some span => edits.set i { p with span }
        | none => edits) := by
  obtain ⟨d, d', hd, hd', hle⟩ := (List.pairwise_cons.mp h.sorted).1 j List.mem_cons_self
  have hfirst := (h.deletes hd hp).widens
  have hnext := (h.deletes hd' hn).widens
  -- neither deletion reaches into the statement of the other
  have hstop : p.span.stop ≤ d'.1.start := hfirst.stop_le (hsolid _ (List.mem_of_getElem? hd')) hle
  have hstart : d.1.stop ≤ n.span.start := hnext.le_start (hsolid _ (List.mem_of_getElem? hd)) hle
  have hlt := (hsolid _ (List.mem_of_getElem? hd)).start_lt_stop
  have hlt' := (hsolid _ (List.mem_of_getElem? hd')).start_lt_stop
  have hbefore := hfirst.before.le
  have hbehind := hnext.behind.le
  cases hyield : yieldBlanks source edits p.span n.span with
  | none =>
    have hend : p.span.stop ≤ n.span.start := by
      by_contra hover
      refine yieldBlanks_ne_none edits ⟨by omega, by omega, by omega⟩ ?_ hyield
      exact hfirst.behind.sub hnext.before.start hfirst.behind.stop hstart (by omega) (Nat.le_refl _)
    have hsettled := h.settle hd (h.deletes hd hp) fun {l e} hl he => by
      by_cases hlater : l ∈ j :: rest
      · exact h.apart_of_stop_le hsolid hd' hn hend hlater he
      · exact (h.settled (by simp_all) hl he hp).symm
    have hself : edits.set i p = edits := by
      obtain ⟨hi, rfl⟩ := List.getElem?_eq_some_iff.mp hp
      exact List.set_getElem_self hi
    rwa [hself] at hsettled
  | some span =>
    obtain ⟨-, -, hend, hinside, -⟩ := yieldBlanks_eq_some hyield
    obtain ⟨hmargin, hfree⟩ := yieldBlanks_start hfirst.before.start hyield
    have hbehind' := hfirst.behind.sub hfirst.behind.start hnext.before.start (Nat.le_refl _) hstart
      (Nat.le_of_lt hinside)
    refine h.settle hd ⟨(h.deletes hd hp).delete, (h.deletes hd hp).rule, ⟨hmargin.trans hfirst.before, ?_⟩⟩ ?_
    · exact hend ▸ hbehind'
    · intro l e hl he
      by_cases hlater : l ∈ j :: rest
      · exact h.apart_of_stop_le hsolid hd' hn (Nat.le_of_eq hend) hlater he
      · rcases h.settled (by simp_all) hl he hp with hle | hle
        · have hlt := h.start_lt_stop hsolid he
          exact .inr (hfree e (List.mem_of_getElem? he) (by omega) hle)
        · exact .inl (by dsimp only; omega)

theorem separateDeletions (hsolid : ∀ d ∈ deletions, d.1.Solid source) :
    ∀ (order : List Nat) (edits : List Edit), Separating source deletions order edits →
      Separating source deletions [] (separateDeletions source order edits)
  | [], _, h => h
  | [i], edits, h => by
    refine ⟨h.length, h.deletes, List.Pairwise.nil, fun {k l e e'} _ hkl he he' => ?_⟩
    by_cases hk : k = i
    · exact (h.settled (by simpa using hk ▸ Ne.symm hkl) (Ne.symm hkl) he' he).symm
    · exact h.settled (by simpa using hk) hkl he he'
  | i :: j :: rest, edits, h => by
    obtain ⟨d, d', hd, hd', -⟩ := (List.pairwise_cons.mp h.sorted).1 j List.mem_cons_self
    obtain ⟨p, hp⟩ := h.exists_edit hd
    obtain ⟨n, hn⟩ := h.exists_edit hd'
    unfold TestMigration.separateDeletions
    simp only [hp, hn]
    exact separateDeletions hsolid (j :: rest) _ (h.step hsolid hp hn)

end Separating

/-! ### The order of the deletions -/

theorem insertByStart_perm (q : Edit × Nat) (l : List (Edit × Nat)) : (insertByStart q l).Perm (q :: l) := by
  induction l with
  | nil => exact .refl _
  | cons first rest ih =>
    unfold insertByStart
    split
    · exact .refl _
    · exact (ih.cons first).trans (.swap q first rest)

theorem insertByStart_sorted {q : Edit × Nat} {l : List (Edit × Nat)}
    (h : l.Pairwise fun a b => a.1.span.start ≤ b.1.span.start) :
    (insertByStart q l).Pairwise fun a b => a.1.span.start ≤ b.1.span.start := by
  induction l with
  | nil => exact List.pairwise_singleton _ _
  | cons first rest ih =>
    obtain ⟨hfirst, hrest⟩ := List.pairwise_cons.mp h
    unfold insertByStart
    split
    · rename_i hle
      refine List.pairwise_cons.mpr ⟨List.forall_mem_cons.mpr ⟨hle, fun r hr => ?_⟩, h⟩
      exact Nat.le_trans hle (hfirst r hr)
    · rename_i hlt
      refine List.pairwise_cons.mpr ⟨fun r hr => ?_, ih hrest⟩
      rcases mem_insertByStart hr with rfl | hr
      · omega
      · exact hfirst r hr

/-- The deletions by where they start: each of them once, with its position. -/
theorem foldr_insertByStart (l : List (Edit × Nat)) :
    (l.foldr insertByStart []).Perm l ∧
      (l.foldr insertByStart []).Pairwise fun a b => a.1.span.start ≤ b.1.span.start := by
  induction l with
  | nil => exact ⟨.refl _, List.Pairwise.nil⟩
  | cons q rest ih => exact ⟨(insertByStart_perm q _).trans (ih.1.cons q), insertByStart_sorted ih.2⟩

section

variable {source : Text} {deletions : List (Span × String)}

/-- What the statements and their rules become before the deletions are separated. -/
def deleteStatements (source : Text) (deletions : List (Span × String)) : List Edit :=
  deletions.map fun d => Edit.deleteStatement source d.1 d.2

theorem getElem?_deleteStatements {k : Nat} {e : Edit} (h : (deleteStatements source deletions)[k]? = some e) :
    ∃ d, deletions[k]? = some d ∧ e = Edit.deleteStatement source d.1 d.2 := by
  rw [deleteStatements, List.getElem?_map] at h
  obtain ⟨d, hd, rfl⟩ := Option.map_eq_some_iff.mp h
  exact ⟨d, hd, rfl⟩

theorem apart_of_ne (hapart : deletions.Pairwise fun a b => a.1.Apart b.1) {k l : Nat} {d d' : Span × String}
    (hd : deletions[k]? = some d) (hd' : deletions[l]? = some d') (hne : k ≠ l) : d.1.Apart d'.1 := by
  obtain ⟨hk, rfl⟩ := List.getElem?_eq_some_iff.mp hd
  obtain ⟨hl, rfl⟩ := List.getElem?_eq_some_iff.mp hd'
  rcases Nat.lt_or_gt_of_ne hne with hlt | hlt
  · exact List.pairwise_iff_getElem.mp hapart k l hk hl hlt
  · exact (List.pairwise_iff_getElem.mp hapart l k hl hk hlt).symm

theorem separating_deletionOrder (hsolid : ∀ d ∈ deletions, d.1.Solid source)
    (hapart : deletions.Pairwise fun a b => a.1.Apart b.1) :
    Separating source deletions (deletionOrder (deleteStatements source deletions))
      (deleteStatements source deletions) := by
  have hdelete : ∀ q ∈ (deleteStatements source deletions).zipIdx, q.1.isDelete = true := by
    intro q hq
    obtain ⟨d, -, heq⟩ := getElem?_deleteStatements (List.mk_mem_zipIdx_iff_getElem?.mp hq)
    rw [heq]
    rfl
  have hfilter : (deleteStatements source deletions).zipIdx.filter (·.1.isDelete) =
      (deleteStatements source deletions).zipIdx := List.filter_eq_self.mpr hdelete
  obtain ⟨hperm, hsorted⟩ := foldr_insertByStart (deleteStatements source deletions).zipIdx
  have hnodup : (((deleteStatements source deletions).zipIdx.foldr insertByStart []).map (·.2)).Nodup := by
    rw [(hperm.map _).nodup_iff, List.zipIdx_map_snd]
    exact List.nodup_range'
  rw [deletionOrder, hfilter]
  refine ⟨by simp [deleteStatements], ?_, ?_, ?_⟩
  · intro k d e hd he
    obtain ⟨d', hd', rfl⟩ := getElem?_deleteStatements he
    rw [hd] at hd'
    cases hd'
    exact ⟨rfl, rfl, deletionSpan_widens (hsolid d (List.mem_of_getElem? hd)).piece⟩
  · refine List.pairwise_map.mpr ((hsorted.and (List.pairwise_map.mp hnodup)).imp_of_mem ?_)
    rintro ⟨e, k⟩ ⟨e', l⟩ hq hq' ⟨hstart, hne⟩
    obtain ⟨d, hd, rfl⟩ := getElem?_deleteStatements (List.mk_mem_zipIdx_iff_getElem?.mp (hperm.mem_iff.mp hq))
    obtain ⟨d', hd', rfl⟩ :=
      getElem?_deleteStatements (List.mk_mem_zipIdx_iff_getElem?.mp (hperm.mem_iff.mp hq'))
    refine ⟨d, d', hd, hd', ?_⟩
    rcases apart_of_ne hapart hd hd' hne with hle | hle
    · exact hle
    · -- the deletion of the earlier statement would start first
      have hsolidd := hsolid d (List.mem_of_getElem? hd)
      have hsolidd' := hsolid d' (List.mem_of_getElem? hd')
      have hbefore := (deletionSpan_widens hsolidd.piece).le_start hsolidd' hle
      have hbefore' := (deletionSpan_widens hsolidd'.piece).before.le
      have hlt := hsolidd'.start_lt_stop
      simp only [Edit.deleteStatement] at hstart
      omega
  · intro k l e e' hk _ he _
    refine absurd ?_ hk
    exact List.mem_map.mpr ⟨(e, k), hperm.mem_iff.mpr (List.mk_mem_zipIdx_iff_getElem?.mpr he), rfl⟩

end

/-! ### Separated deletions -/

namespace Separating

variable {source : Text} {deletions : List (Span × String)} {edits : List Edit}

theorem exists_deletion {order : List Nat} (h : Separating source deletions order edits) {e : Edit}
    (he : e ∈ edits) : ∃ d ∈ deletions, e.Deletes source d := by
  obtain ⟨k, hk⟩ := List.mem_iff_getElem?.mp he
  have hlt : k < deletions.length := h.length ▸ (List.getElem?_eq_some_iff.mp hk).1
  exact ⟨_, List.getElem_mem hlt, h.deletes (List.getElem?_eq_getElem hlt) hk⟩

theorem exists_deletes {order : List Nat} (h : Separating source deletions order edits) {d : Span × String}
    (hd : d ∈ deletions) : ∃ e ∈ edits, e.Deletes source d := by
  obtain ⟨k, hk⟩ := List.mem_iff_getElem?.mp hd
  obtain ⟨e, he⟩ := h.exists_edit hk
  exact ⟨e, List.mem_of_getElem? he, h.deletes hk he⟩

theorem map_rule {order : List Nat} (h : Separating source deletions order edits) :
    edits.map (·.rule) = deletions.map (·.2) := by
  refine List.ext_getElem (by simp [h.length]) fun k hk hk' => ?_
  rw [List.length_map] at hk hk'
  rw [List.getElem_map, List.getElem_map]
  exact (h.deletes (List.getElem?_eq_getElem hk') (List.getElem?_eq_getElem hk)).rule

theorem pieceOf (hsolid : ∀ d ∈ deletions, d.1.Solid source) (h : Separating source deletions [] edits)
    {e : Edit} (he : e ∈ edits) : e.span.PieceOf source := by
  obtain ⟨k, hk⟩ := List.mem_iff_getElem?.mp he
  obtain ⟨d, -, hdeletes⟩ := h.exists_deletion he
  exact ⟨Nat.le_of_lt (h.start_lt_stop hsolid hk), hdeletes.widens.before.start, hdeletes.widens.behind.stop⟩

theorem eq_or_apart (h : Separating source deletions [] edits) {a b : Edit} (ha : a ∈ edits) (hb : b ∈ edits) :
    a = b ∨ a.span.Apart b.span := by
  obtain ⟨k, hk⟩ := List.mem_iff_getElem?.mp ha
  obtain ⟨l, hl⟩ := List.mem_iff_getElem?.mp hb
  by_cases hkl : k = l
  · subst hkl
    exact .inl (Option.some.inj (hk.symm.trans hl))
  · exact .inr (h.settled List.not_mem_nil hkl hk hl)

theorem compatible (hsolid : ∀ d ∈ deletions, d.1.Solid source) (h : Separating source deletions [] edits) :
    Edit.Compatible edits where
  distinct := by
    refine List.pairwise_map.mpr (List.pairwise_iff_getElem.mpr fun k l hk hl hkl heq => ?_)
    have hek := List.getElem?_eq_getElem hk
    have hel := List.getElem?_eq_getElem hl
    have hlt := h.start_lt_stop hsolid hek
    rcases h.settled List.not_mem_nil (Nat.ne_of_lt hkl) hek hel with hle | hle
    · rw [← heq] at hle
      omega
    · rw [heq] at hle hlt
      omega
  nested a ha b hb _ _ := by
    rcases h.eq_or_apart ha hb with rfl | hle | hle
    · exact .inr (.inr (.inl (Span.contains_iff.mpr ⟨Nat.le_refl _, Nat.le_refl _⟩)))
    · exact .inl hle
    · exact .inr (.inl hle)

theorem inside (hsolid : ∀ d ∈ deletions, d.1.Solid source) (h : Separating source deletions [] edits) :
    ∀ e ∈ edits, e.Inside source.size := fun _ he =>
  have hpiece := h.pieceOf hsolid he
  ⟨hpiece.start_le_stop, hpiece.stop.le_size⟩

theorem root (hsolid : ∀ d ∈ deletions, d.1.Solid source) (h : Separating source deletions [] edits) {e : Edit}
    (he : e ∈ edits) : ∃ t ∈ forest source edits, t.edit = e := by
  refine ((h.compatible hsolid).root_iff (h.inside hsolid) he).mpr fun o ho hencloses => ?_
  obtain ⟨hbefore, hbehind⟩ := hencloses.meets (h.inside hsolid e he).start_le_stop
  rcases h.eq_or_apart ho he with rfl | hle | hle
  · obtain ⟨hplain, hreach⟩ := hencloses
    rw [if_neg (by simp [hplain])] at hreach
    exact hreach.2 rfl
  · omega
  · omega

theorem emittedEdits_perm (hsolid : ∀ d ∈ deletions, d.1.Solid source)
    (h : Separating source deletions [] edits) : (emittedEdits source edits).Perm edits := by
  have hcompatible := h.compatible hsolid
  refine (hcompatible.emittedEdits_subperm source).antisymm ?_
  refine (List.Nodup.of_map _ hcompatible.distinct).subperm fun e he => ?_
  exact (hcompatible.mem_emittedEdits_iff (h.inside hsolid)).mpr (.inl (h.root hsolid he))

/-- The statements and the deletions hold the same characters, blanks apart. -/
theorem held_iff {order : List Nat} (h : Separating source deletions order edits) {b : Nat} {c : Char}
    (hc : source.At b c) (hsolid : isBlank c = false) :
    Held (edits.map (·.span)) b ↔ Held (deletions.map (·.1)) b := by
  constructor
  · rintro ⟨s, hs, hstart, hstop⟩
    obtain ⟨e, he, rfl⟩ := List.mem_map.mp hs
    obtain ⟨d, hd, -, -, hwidens⟩ := h.exists_deletion he
    refine ⟨d.1, List.mem_map_of_mem hd, ?_, ?_⟩
    · by_contra hlt
      rw [hwidens.before.blank hc hstart (by omega)] at hsolid
      cases hsolid
    · by_contra hlt
      rw [hwidens.behind.blank hc (by omega) hstop] at hsolid
      cases hsolid
  · rintro ⟨s, hs, hstart, hstop⟩
    obtain ⟨d, hd, rfl⟩ := List.mem_map.mp hs
    obtain ⟨e, he, -, -, hwidens⟩ := h.exists_deletes hd
    have hbefore := hwidens.before.le
    have hbehind := hwidens.behind.le
    exact ⟨e.span, List.mem_map_of_mem he, by omega, by omega⟩

end Separating

/-! ### What is left -/

open EditTree

/-- With nothing in their place, the spans of a row of trees are cut out of the text. -/
theorem interleave_deleted {source : Text} (style : Style) {ts : List EditTree}
    (hdelete : ∀ t ∈ ts, t.edit.replacement = .delete) (hpiece : ∀ t ∈ ts, t.span.PieceOf source) {pos : Nat}
    (hpos : source.Boundary pos) (hrow : Row pos source.size ts) :
    (interleave source style pos ts).toList =
      Text.keepFrom (fun b => !decide (Held (spans ts) b)) pos (source.dropBytes pos) := by
  induction ts generalizing pos with
  | nil =>
    have hrest : source.slice pos source.size = source.dropBytes pos := by
      rw [Text.slice, ← hpos.size_dropBytes, Nat.add_sub_cancel_left, Text.takeBytes_self]
    have hall : (fun b => !decide (Held (spans []) b)) = fun _ => true := by simp [spans, Held]
    rw [interleave, Text.cut, String.toList_ofList, hrest, hall, Text.keepFrom_true]
  | cons t rest ih =>
    obtain ⟨hdelete, hdeletes⟩ := List.forall_mem_cons.mp hdelete
    obtain ⟨hpiece, hpieces⟩ := List.forall_mem_cons.mp hpiece
    obtain ⟨hle, -, hrest⟩ := hrow
    have hordered := hpiece.start_le_stop
    have hlater : ∀ s ∈ spans rest, t.span.stop ≤ s.start := by
      intro s hs
      obtain ⟨u, hu, rfl⟩ := List.mem_map.mp hs
      exact (hrest.mem hu).1
    have hheld (b : Nat) : Held (spans (t :: rest)) b ↔ t.span.Holds b ∨ Held (spans rest) b := by
      simp [Held, spans, EditTree.span]
    have hrender : t.render source style = "" := by
      cases t with
      | node e children => rw [render, show e.replacement = .delete from hdelete]
    -- the text is kept up to the span, and behind it without the other ones
    rw [Text.dropBytes_eq_slice_append hpos hpiece.start hle,
      Text.dropBytes_eq_slice_append hpiece.start hpiece.stop hordered, Text.keepFrom_append,
      Text.keepFrom_append, Text.size_slice hpos hpiece.start hle,
      Text.size_slice hpiece.start hpiece.stop hordered]
    have hbefore : Text.keepFrom (fun b => !decide (Held (spans (t :: rest)) b)) pos
        (source.slice pos t.span.start) = source.slice pos t.span.start := by
      refine (Text.keepFrom_congr fun b _ hb => ?_).trans (Text.keepFrom_true _ _)
      rw [Text.size_slice hpos hpiece.start hle] at hb
      simp only [hheld, Bool.not_eq_true', decide_eq_false_iff_not, not_or]
      refine ⟨fun hholds => ?_, ?_⟩
      · exact absurd hholds.1 (by omega)
      · rintro ⟨s, hs, hstart, -⟩
        have := hlater s hs
        omega
    have hinside : Text.keepFrom (fun b => !decide (Held (spans (t :: rest)) b)) t.span.start
        (source.slice t.span.start t.span.stop) = [] := by
      refine (Text.keepFrom_congr fun b hstart hb => ?_).trans (Text.keepFrom_false _ _)
      rw [Text.size_slice hpiece.start hpiece.stop hordered] at hb
      simp only [hheld, Bool.not_eq_false', decide_eq_true_eq]
      exact .inl ⟨hstart, hb⟩
    have hbehind : Text.keepFrom (fun b => !decide (Held (spans (t :: rest)) b)) t.span.stop
        (source.dropBytes t.span.stop) = (interleave source style t.span.stop rest).toList := by
      rw [ih hdeletes hpieces hpiece.stop hrest]
      refine Text.keepFrom_congr fun b hstop _ => ?_
      have hnot : ¬ t.span.Holds b := fun hholds => absurd hholds.2 (by omega)
      simp only [hheld, hnot, false_or]
    rw [hbefore, hinside, hbehind, interleave, hrender, String.append_empty, String.toList_append, Text.cut,
      String.toList_ofList, List.nil_append]

namespace Separating

variable {source : Text} {deletions : List (Span × String)} {edits : List Edit}

/-- The separated deletions leave what the statements leave, blanks apart. -/
theorem filter_splice (style : Style) (hsolid : ∀ d ∈ deletions, d.1.Solid source)
    (h : Separating source deletions [] edits) :
    (splice source (renderAll source style (forest source edits)) ⟨0, source.size⟩).toList.filter (!isBlank ·) =
      (source.without (deletions.map (·.1))).filter (!isBlank ·) := by
  have hrow := forest_row (h.inside hsolid)
  have hperm := (h.compatible hsolid).editsAll_forest_perm source
  have hmem (t : EditTree) (ht : t ∈ forest source edits) : t.edit ∈ edits :=
    hperm.mem_iff.mp (mem_editsAll.mpr ⟨t, ht, edit_mem_edits t⟩)
  have hdelete (t : EditTree) (ht : t ∈ forest source edits) : t.edit.replacement = .delete := by
    obtain ⟨_, _, hdeletes⟩ := h.exists_deletion (hmem t ht)
    exact hdeletes.delete
  have hcut := interleave_deleted style hdelete (fun t ht => h.pieceOf hsolid (hmem t ht))
    (Text.Boundary.zero source) hrow
  rw [splice_eq_interleave style hrow, hcut, Text.dropBytes_zero]
  refine Text.filter_without_congr fun b c hc hblank => Iff.trans ?_ (h.held_iff hc hblank)
  -- the trees at the top are the deletions
  constructor
  · rintro ⟨s, hs, hholds⟩
    obtain ⟨t, ht, rfl⟩ := List.mem_map.mp hs
    exact ⟨_, List.mem_map_of_mem (hmem t ht), hholds⟩
  · rintro ⟨s, hs, hholds⟩
    obtain ⟨e, he, rfl⟩ := List.mem_map.mp hs
    obtain ⟨t, ht, rfl⟩ := h.root hsolid he
    exact ⟨_, List.mem_map_of_mem ht, hholds⟩

end Separating

/-- Statements that share nothing can be deleted together, in whatever order. No deletion is dropped and each
is emitted; what comes out is the text without the statements, blanks apart. -/
theorem applyEdits_deleteStatements {source : Text} {deletions : List (Span × String)} (style : Style)
    (hsolid : ∀ d ∈ deletions, d.1.Solid source) (hapart : deletions.Pairwise fun a b => a.1.Apart b.1) :
    (applyEdits source style (deleteStatements source deletions)).diagnostics = [] ∧
    ((emittedEdits source (deleteStatements source deletions)).Perm
        (separateBlanks source (deleteStatements source deletions)) ∧
      ∀ rule, (applyEdits source style (deleteStatements source deletions)).counts.get rule =
        (deletions.map (·.2)).count rule) ∧
    (applyEdits source style (deleteStatements source deletions)).output.toList.filter (!isBlank ·) =
      (source.without (deletions.map (·.1))).filter (!isBlank ·) := by
  have h : Separating source deletions [] (separateBlanks source (deleteStatements source deletions)) :=
    Separating.separateDeletions hsolid _ _ (separating_deletionOrder hsolid hapart)
  have hcompatible := h.compatible hsolid
  have hforest : forest source (separateBlanks source (deleteStatements source deletions)) =
      forest source (deleteStatements source deletions) := hcompatible.forest_eq source
  have hemitted : (emittedEdits source (deleteStatements source deletions)).Perm
      (separateBlanks source (deleteStatements source deletions)) := by
    have hperm := h.emittedEdits_perm hsolid
    rwa [emittedEdits, hforest] at hperm
  refine ⟨?_, ⟨hemitted, fun rule => ?_⟩, ?_⟩
  · rw [applyEdits_diagnostics, hcompatible.nest_dropped_eq_nil, List.map_nil]
  · rw [(applyEdits_eq source style _).2, ← h.map_rule, ← (hemitted.map _).count_eq]
    exact Counts.get_ofNames _ rule
  · rw [(applyEdits_eq source style _).1, ← h.filter_splice style hsolid, hforest]
    rfl

/-- Three neighbours at the end of a line behind a call, and one that has the next line for itself, found from
the back to the front. -/
theorem applyEdits_deleteStatements_line :
    let source : Text := "x(); a(); b(); c();\r\n  d();\r\n".toList
    let deletions : List (Span × String) := [(⟨23, 27⟩, "last"), (⟨15, 19⟩, "tail"), (⟨10, 14⟩, "tail"),
      (⟨5, 9⟩, "first")]
    (∀ d ∈ deletions, d.1.Solid source) ∧ (deletions.Pairwise fun a b => a.1.Apart b.1) ∧
      (applyEdits source {} (deleteStatements source deletions)).diagnostics = [] ∧
      (applyEdits source {} (deleteStatements source deletions)).counts.get "tail" = 2 ∧
      (applyEdits source {} (deleteStatements source deletions)).output.toList.filter (!isBlank ·) =
        "x();".toList := by
  intro source deletions
  have hsolid : ∀ d ∈ deletions, d.1.Solid source := by decide
  have hapart : deletions.Pairwise fun a b => a.1.Apart b.1 := by decide
  obtain ⟨hdiagnostics, ⟨-, hcounts⟩, houtput⟩ := applyEdits_deleteStatements {} hsolid hapart
  exact ⟨hsolid, hapart, hdiagnostics, hcounts "tail", houtput⟩

end TestMigration
