import TestMigration.Proofs.Edit.Containment

/-!
# Which of two overlapping edits is dropped

The edits are nested in the order of their places, so of two edits that overlap the one that begins later in the
file is dropped, whichever was found first. `Nesting.openEdits` are the edits on the stack of the pass, innermost
first; they nest (`Nesting.nested_foldl_place`), and an edit stays open for all that begins inside of it
(`Nesting.mem_openEdits_foldl`). A dropped edit leaves no trace in the forest (`Nesting.foldl_place_dropping`).

Main statement: `Edit.OnlyConflict.dropsOnly_iff`. `Edit.earlier_found_dropped` shows that the edit found first
may be the one that goes.
-/

namespace TestMigration

/-! ### Sorting without one edit -/

namespace Edit

variable {e : Edit} {edits : List Edit}

theorem insertByPosition_eq (e : Edit) (l : List Edit) :
    ∃ before behind, e.insertByPosition l = before ++ e :: behind ∧ l = before ++ behind := by
  induction l with
  | nil => exact ⟨[], [], rfl, rfl⟩
  | cons f rest ih =>
    unfold insertByPosition
    split
    · exact ⟨[], f :: rest, rfl, rfl⟩
    · obtain ⟨before, behind, hinsert, hrest⟩ := ih
      exact ⟨f :: before, behind, by simp [hinsert], by simp [hrest]⟩

/-- Putting an edit into an ordered list does not depend on one of the other edits. -/
theorem insertByPosition_without {before behind : List Edit} (f : Edit)
    (hsorted : (before ++ e :: behind).Pairwise fun a b => a.precedes b = true) :
    ∃ before' behind', f.insertByPosition (before ++ e :: behind) = before' ++ e :: behind' ∧
      f.insertByPosition (before ++ behind) = before' ++ behind' := by
  induction before with
  | nil =>
    simp only [List.nil_append, insertByPosition]
    split
    · rename_i hfe
      refine ⟨[f], behind, rfl, ?_⟩
      cases behind with
      | nil => rfl
      | cons g rest =>
        have heg := (List.pairwise_cons.mp hsorted).1 g List.mem_cons_self
        simp [insertByPosition, precedes_trans hfe heg]
    · exact ⟨[], f.insertByPosition behind, rfl, rfl⟩
  | cons g before ih =>
    simp only [List.cons_append, insertByPosition]
    split
    · exact ⟨f :: g :: before, behind, rfl, rfl⟩
    · obtain ⟨before', behind', hwith, hwithout⟩ := ih (List.pairwise_cons.mp hsorted).2
      exact ⟨g :: before', behind', by simp [hwith], by simp [hwithout]⟩

theorem sortByPosition_eraseIdx {j : Nat} (h : edits[j]? = some e) :
    ∃ before behind, sortByPosition edits = before ++ e :: behind ∧
      sortByPosition (edits.eraseIdx j) = before ++ behind := by
  induction edits generalizing j with
  | nil => cases h
  | cons f rest ih =>
    cases j with
    | zero =>
      cases h
      exact insertByPosition_eq e (sortByPosition rest)
    | succ j =>
      obtain ⟨before, behind, hwith, hwithout⟩ := ih h
      have hsorted := sortByPosition_sorted rest
      rw [hwith] at hsorted
      show ∃ before behind, f.insertByPosition (sortByPosition rest) = before ++ e :: behind ∧
        f.insertByPosition (sortByPosition (rest.eraseIdx j)) = before ++ behind
      rw [hwith, hwithout]
      exact insertByPosition_without f hsorted

end Edit

/-! ### The edits on the stack -/

namespace Nesting

open EditTree Edit

variable {e : Edit} {n : Nesting}

def openEdits (n : Nesting) : List Edit := n.opened.map (·.edit)

theorem closeUntil_openEdits (stays : Edit → Bool) (opened : List OpenEdit) (finished roots : List EditTree) :
    (closeUntil stays opened finished roots).1.map (·.edit) =
      (opened.map (·.edit)).dropWhile fun o => !stays o := by
  induction opened generalizing finished with
  | nil => rfl
  | cons o rest ih =>
    simp only [closeUntil, List.map_cons, List.dropWhile_cons]
    cases stays o.edit with
    | true => simp
    | false => simpa using ih _

/-- The open edits from the innermost one on in which `e` begins. -/
def around (n : Nesting) (e : Edit) : List Edit := n.openEdits.dropWhile fun o => !o.opensInside e

theorem around_sublist (n : Nesting) (e : Edit) : (n.around e).Sublist n.openEdits := List.dropWhile_sublist _

theorem mem_around {o : Edit} (ho : o ∈ n.openEdits) (hinside : o.opensInside e = true) : o ∈ n.around e := by
  rw [← List.takeWhile_append_dropWhile (p := fun o : Edit => !o.opensInside e) (l := n.openEdits)] at ho
  rcases List.mem_append.mp ho with ho | ho
  · have hall := List.all_takeWhile (p := fun o : Edit => !o.opensInside e) (l := n.openEdits)
    simpa [hinside] using List.all_eq_true.mp hall o ho
  · exact ho

/-- What one edit does to the stack: an insertion leaves it, another edit is opened, or it is dropped because it ends
behind the innermost edit in which it begins. -/
theorem place_stack (n : Nesting) (e : Edit) :
    e.isInsert = true ∧ (n.place e).openEdits = n.around e ∧ (n.place e).dropped = n.dropped ∨
    e.isInsert = false ∧ (∀ o ∈ (n.around e).head?, e.span.stop ≤ o.span.stop) ∧
      (n.place e).openEdits = e :: n.around e ∧ (n.place e).dropped = n.dropped ∨
    e.isInsert = false ∧ ∃ o ∈ (n.around e).head?, o.span.stop < e.span.stop ∧
      (n.place e).openEdits = n.around e ∧ (n.place e).dropped = (e, o) :: n.dropped := by
  have hcut := closeUntil_openEdits (·.opensInside e) n.opened [] n.roots
  unfold around openEdits place
  generalize closeUntil (·.opensInside e) n.opened [] n.roots = cut at hcut
  obtain ⟨opened, roots⟩ := cut
  dsimp only at hcut ⊢
  rw [← hcut]
  cases opened with
  | nil => cases e.isInsert <;> simp
  | cons o rest =>
    cases e.isInsert with
    | true => simp
    | false =>
      by_cases hstop : o.edit.span.stop < e.span.stop
      · simp [hstop]
      · simp [hstop, Nat.le_of_not_lt hstop]

/-! ### The stack is nested -/

/-- Of two open edits the inner one does not end behind the outer one. -/
def Nested (n : Nesting) : Prop :=
  n.openEdits.Pairwise fun inner outer => inner.span.stop ≤ outer.span.stop

theorem Nested.place (h : n.Nested) (e : Edit) : (n.place e).Nested := by
  have haround := h.sublist (n.around_sublist e)
  unfold Nested
  rcases place_stack n e with ⟨-, hopen, -⟩ | ⟨-, hfits, hopen, -⟩ | ⟨-, o, -, -, hopen, -⟩
  · rwa [hopen]
  · rw [hopen]
    refine List.pairwise_cons.mpr ⟨fun b hb => ?_, haround⟩
    -- the edits behind the innermost one end no earlier than that one
    cases houter : n.around e with
    | nil => simp [houter] at hb
    | cons o rest =>
      rw [houter] at hb haround
      have ho := hfits o (by simp [houter])
      rcases List.mem_cons.mp hb with rfl | hb
      · exact ho
      · exact Nat.le_trans ho ((List.pairwise_cons.mp haround).1 b hb)
  · rwa [hopen]

theorem nested_foldl_place (l : List Edit) : (l.foldl place {}).Nested :=
  List.foldlRecOn l place (motive := Nested) List.Pairwise.nil fun _ h e _ => h.place e

/-! ### An edit stays open -/

theorem mem_openEdits_place {o : Edit} (ho : o ∈ n.openEdits) (hinside : o.opensInside e = true) :
    o ∈ (n.place e).openEdits := by
  have haround := mem_around ho hinside
  rcases place_stack n e with ⟨-, hopen, -⟩ | ⟨-, -, hopen, -⟩ | ⟨-, -, -, -, hopen, -⟩
  · rwa [hopen]
  · rw [hopen]
    exact List.mem_cons_of_mem _ haround
  · rwa [hopen]

/-- An edit is open as long as all that comes begins inside of it. -/
theorem mem_openEdits_foldl {o : Edit} {l : List Edit} (ho : o ∈ n.openEdits)
    (hinside : ∀ e ∈ l, o.opensInside e = true) : o ∈ (l.foldl place n).openEdits := by
  induction l generalizing n with
  | nil => exact ho
  | cons e rest ih =>
    exact ih (mem_openEdits_place ho (hinside e List.mem_cons_self))
      fun f hf => hinside f (List.mem_cons_of_mem _ hf)

theorem opened_or_dropped (n : Nesting) (hplain : e.isInsert = false) :
    e ∈ (n.place e).openEdits ∨ ∃ o, (n.place e).dropped = (e, o) :: n.dropped := by
  rcases place_stack n e with ⟨hinsert, -⟩ | ⟨-, -, hopen, -⟩ | ⟨-, o, -, -, -, hdropped⟩
  · rw [hplain] at hinsert
    cases hinsert
  · exact .inl (by simp [hopen])
  · exact .inr ⟨o, hdropped⟩

theorem dropped_place_of_overlaps {o : Edit} (hnested : n.Nested) (ho : o ∈ n.openEdits)
    (hoverlaps : o.span.Overlaps e.span) : ∃ o', (n.place e).dropped = (e, o') :: n.dropped := by
  obtain ⟨hstart, hbegins, hstop⟩ := hoverlaps
  have hplain : e.isInsert = false := by
    simp only [isInsert, Span.isEmpty, decide_eq_false_iff_not]
    omega
  have hmem := mem_around ho (e := e) (by simpa [opensInside, hplain] using hbegins)
  rcases place_stack n e with ⟨hinsert, -⟩ | ⟨-, hfits, -⟩ | ⟨-, o', -, -, -, hdropped⟩
  · rw [hplain] at hinsert
    cases hinsert
  · -- the innermost edit ends no later than the one that is overlapped
    have hpairs := hnested.sublist (n.around_sublist e)
    cases houter : n.around e with
    | nil => simp [houter] at hmem
    | cons inner rest =>
      rw [houter] at hmem hpairs
      have hinner := hfits inner (by simp [houter])
      rcases List.mem_cons.mp hmem with rfl | hmem
      · omega
      · have hle := (List.pairwise_cons.mp hpairs).1 o hmem
        omega
  · exact ⟨o', hdropped⟩

theorem dropped_of_foldl {l : List Edit} (h : (l.foldl place n).dropped = []) : n.dropped = [] := by
  induction l generalizing n with
  | nil => exact h
  | cons e rest ih =>
    have hplace := ih h
    rcases place_stack n e with ⟨-, -, hdropped⟩ | ⟨-, -, -, hdropped⟩ | ⟨-, o, -, -, -, hdropped⟩
    · rwa [hdropped] at hplace
    · rwa [hdropped] at hplace
    · rw [hdropped] at hplace
      cases hplace

/-- If nothing is dropped before an edit, all those are open that it overlaps. -/
theorem mem_openEdits_of_overlaps {o : Edit} {l : List Edit}
    (hsorted : (l ++ [e]).Pairwise fun a b => a.precedes b = true) (hdropped : (l.foldl place {}).dropped = [])
    (ho : o ∈ l) (hoverlaps : o.span.Overlaps e.span) : o ∈ (l.foldl place {}).openEdits := by
  obtain ⟨p, q, rfl⟩ := List.append_of_mem ho
  obtain ⟨hstart, hbegins, hstop⟩ := hoverlaps
  have hplain : o.isInsert = false ∧ e.isInsert = false := by
    simp only [isInsert, Span.isEmpty, decide_eq_false_iff_not]
    omega
  obtain ⟨hbefore, -, hcross⟩ := List.pairwise_append.mp hsorted
  have hrest := (List.pairwise_cons.mp (List.pairwise_append.mp hbefore).2.1).1
  rw [List.foldl_append, List.foldl_cons] at hdropped ⊢
  refine mem_openEdits_foldl ?_ fun f hf => ?_
  · rcases opened_or_dropped (p.foldl place {}) hplain.1 with hopen | ⟨o', ho'⟩
    · exact hopen
    · rw [dropped_of_foldl hdropped] at ho'
      cases ho'
  · have hof := precedes_iff.mp (hrest f hf)
    have hfe := precedes_iff.mp (hcross f (by simp [hf]) e List.mem_cons_self)
    unfold opensInside
    cases hf : f.isInsert <;> simp [hf, hplain] at hof hfe ⊢ <;> omega

/-! ### A dropped edit leaves no trace -/

/-- Closing twice is closing once, if what stays at last stays at first. -/
theorem closeUntil_closeUntil {first last : Edit → Bool} {opened : List OpenEdit} {finished roots : List EditTree}
    (h : ∀ o ∈ opened, last o.edit = true → first o.edit = true) :
    closeUntil last (closeUntil first opened finished roots).1 [] (closeUntil first opened finished roots).2 =
      closeUntil last opened finished roots := by
  induction opened generalizing finished with
  | nil => simp [closeUntil]
  | cons o rest ih =>
    obtain ⟨ho, hrest⟩ := List.forall_mem_cons.mp h
    simp only [closeUntil]
    cases hfirst : first o.edit with
    | true => simp [closeUntil]
    | false =>
      have hlast : last o.edit = false := by
        by_contra hlast
        rw [ho (by simpa using hlast)] at hfirst
        cases hfirst
      simpa [hlast] using ih hrest

/-- The pass with some edits dropped before. -/
def withDropped (n : Nesting) (d : List (Edit × Edit)) : Nesting := { n with dropped := n.dropped ++ d }

theorem place_withDropped (n : Nesting) (d : List (Edit × Edit)) (e : Edit) :
    (n.withDropped d).place e = (n.place e).withDropped d := by
  unfold withDropped place
  dsimp only
  generalize closeUntil (·.opensInside e) n.opened [] n.roots = cut
  obtain ⟨opened, roots⟩ := cut
  cases opened with
  | nil => cases e.isInsert <;> rfl
  | cons o rest =>
    cases e.isInsert with
    | true => rfl
    | false => by_cases hstop : o.edit.span.stop < e.span.stop <;> simp [hstop]

theorem foldl_place_withDropped (l : List Edit) (n : Nesting) (d : List (Edit × Edit)) :
    l.foldl place (n.withDropped d) = (l.foldl place n).withDropped d := by
  induction l generalizing n with
  | nil => rfl
  | cons e rest ih => rw [List.foldl_cons, List.foldl_cons, place_withDropped, ih]

theorem place_dropping {o : Edit} (h : (n.place e).dropped = (e, o) :: n.dropped) :
    n.place e = ⟨(closeUntil (·.opensInside e) n.opened [] n.roots).1,
      (closeUntil (·.opensInside e) n.opened [] n.roots).2, (e, o) :: n.dropped⟩ := by
  unfold place at h ⊢
  generalize closeUntil (·.opensInside e) n.opened [] n.roots = cut at h ⊢
  obtain ⟨opened, roots⟩ := cut
  have hne {d : List (Edit × Edit)} : d ≠ (e, o) :: d := fun heq => by simpa using congrArg List.length heq
  cases opened with
  | nil =>
    dsimp only at h
    split at h <;> exact absurd h hne
  | cons o' rest =>
    dsimp only at h ⊢
    split at h
    · exact absurd h hne
    · rename_i hinsert
      split at h
      · rename_i hstop
        simp_all
      · exact absurd h hne

/-- The edits behind one that is dropped find the pass as if that one had not been there. -/
theorem foldl_place_dropping {o : Edit} {l : List Edit} (hdropped : n.dropped = [])
    (h : (n.place e).dropped = [(e, o)])
    (hbehind : ∀ f ∈ l, ∀ a : Edit, a.opensInside f = true → a.opensInside e = true) :
    (l.foldl place (n.place e)).finish = (l.foldl place n).finish ∧
      (l.foldl place (n.place e)).dropped = (l.foldl place n).dropped ++ [(e, o)] := by
  have hplace := place_dropping (n := n) (by rw [hdropped]; exact h)
  cases l with
  | nil =>
    refine ⟨?_, by simp [h, hdropped]⟩
    simp only [List.foldl_nil, hplace, finish]
    rw [closeUntil_closeUntil (by simp)]
  | cons f rest =>
    have hsecond : (n.place e).place f = (n.place f).withDropped [(e, o)] := by
      have htwice : closeUntil (·.opensInside f) (closeUntil (·.opensInside e) n.opened [] n.roots).1 []
          (closeUntil (·.opensInside e) n.opened [] n.roots).2 = closeUntil (·.opensInside f) n.opened [] n.roots :=
        closeUntil_closeUntil fun o _ => hbehind f List.mem_cons_self o.edit
      have hstate : n.withDropped [(e, o)] = ⟨n.opened, n.roots, (e, o) :: n.dropped⟩ := by
        simp [withDropped, hdropped]
      rw [← place_withDropped, hstate, hplace]
      unfold place
      dsimp only
      rw [htwice]
    rw [List.foldl_cons, List.foldl_cons, hsecond, foldl_place_withDropped]
    exact ⟨rfl, rfl⟩

end Nesting

/-! ### A single conflict -/

namespace Edit

open Nesting

variable {edits : List Edit} {i j : Nat} {a b : Edit}

instance (a b : Span) : Decidable (a.Overlaps b) :=
  inferInstanceAs (Decidable (a.start < b.start ∧ b.start < a.stop ∧ a.stop < b.stop))

/-- Of all pairs of edits, only those at the places `i` and `j` of the list overlap; `b` begins inside of `a` and
ends behind it. -/
structure OnlyConflict (edits : List Edit) (i j : Nat) (a b : Edit) : Prop where
  left : edits[i]? = some a
  right : edits[j]? = some b
  overlaps : a.span.Overlaps b.span
  only : ∀ k l, ∀ c ∈ edits[k]?, ∀ d ∈ edits[l]?, c.span.Overlaps d.span → k = i ∧ l = j

/-- Of the edits, the one at the place `k` of the list is dropped and no other: the file comes out as without it, and
the only warning is about it. -/
structure DropsOnly (source : Text) (style : Style) (edits : List Edit) (k : Nat) (e o : Edit) : Prop where
  place : edits[k]? = some e
  dropped : (nest (separateBlanks source edits)).2 = [(e, o)]
  applied : applyEdits source style edits =
    { applyEdits source style (edits.eraseIdx k) with diagnostics := [overlapWarning source e o] }

theorem separateBlanks_of_not_isDelete (source : Text) (h : ∀ e ∈ edits, e.isDelete = false) :
    separateBlanks source edits = edits := by
  have hnone : edits.zipIdx.filter (·.1.isDelete) = [] := by
    refine List.filter_eq_nil_iff.mpr fun p hp => ?_
    simp [h p.1 (List.fst_mem_of_mem_zipIdx hp)]
  simp [separateBlanks, deletionOrder, hnone, separateDeletions]

namespace OnlyConflict

theorem eq_of_overlaps (h : OnlyConflict edits i j a b) {c d : Edit} (hc : c ∈ edits) (hd : d ∈ edits)
    (hoverlaps : c.span.Overlaps d.span) : c = a ∧ d = b := by
  obtain ⟨k, hk⟩ := List.mem_iff_getElem?.mp hc
  obtain ⟨l, hl⟩ := List.mem_iff_getElem?.mp hd
  obtain ⟨rfl, rfl⟩ := h.only k l c hk d hl hoverlaps
  exact ⟨Option.some.inj (hk.symm.trans h.left), Option.some.inj (hl.symm.trans h.right)⟩

theorem not_mem_eraseIdx (h : OnlyConflict edits i j a b) : b ∉ edits.eraseIdx j := by
  intro hb
  obtain ⟨l, hne, hl⟩ := List.mem_eraseIdx_iff_getElem?.mp hb
  exact hne (h.only i l a h.left b hl h.overlaps).2

theorem nest_eraseIdx (h : OnlyConflict edits i j a b) : (nest (edits.eraseIdx j)).2 = [] := by
  refine List.eq_nil_iff_forall_not_mem.mpr fun d hd => ?_
  have hperm := nest_perm (edits.eraseIdx j)
  have hdropped : d.1 ∈ edits.eraseIdx j :=
    hperm.mem_iff.mp (List.mem_append_right _ (List.mem_map_of_mem hd))
  have hkept : d.2 ∈ edits.eraseIdx j := hperm.mem_iff.mp (List.mem_append_left _ (nest_dropped hd))
  obtain ⟨-, hb⟩ := h.eq_of_overlaps (List.mem_of_mem_eraseIdx hkept) (List.mem_of_mem_eraseIdx hdropped)
    (nest_dropped_overlaps hd)
  exact h.not_mem_eraseIdx (hb ▸ hdropped)

/-- The edit that begins later is dropped, and all others are nested as without it. -/
theorem nest_eq (h : OnlyConflict edits i j a b) : nest edits = ((nest (edits.eraseIdx j)).1, [(b, a)]) := by
  obtain ⟨before, behind, hwith, hwithout⟩ := sortByPosition_eraseIdx h.right
  have hsorted := sortByPosition_sorted edits
  rw [hwith] at hsorted
  obtain ⟨-, hbehind, hcross⟩ := List.pairwise_append.mp hsorted
  have hbehind := (List.pairwise_cons.mp hbehind).1
  have ha : a ∈ before := by
    have ha := (sortByPosition_perm edits).mem_iff.mpr (List.mem_of_getElem? h.left)
    have hstart := h.overlaps.1
    rw [hwith] at ha
    rcases List.mem_append.mp ha with ha | ha
    · exact ha
    · rcases List.mem_cons.mp ha with rfl | ha
      · omega
      · have hprecedes := precedes_iff.mp (hbehind a ha)
        omega
  -- without the later edit nothing is dropped, so nothing is dropped before it
  have hnone : (behind.foldl place (before.foldl place {})).dropped = [] := by
    have hnest := h.nest_eraseIdx
    rw [nest, hwithout, List.foldl_append] at hnest
    simpa using hnest
  have hdropped := dropped_of_foldl hnone
  have hopen := mem_openEdits_of_overlaps
    (hsorted.sublist ((List.singleton_sublist.mpr List.mem_cons_self).append_left before)) hdropped ha h.overlaps
  obtain ⟨o, ho⟩ := dropped_place_of_overlaps (nested_foldl_place _) hopen h.overlaps
  rw [hdropped] at ho
  have hplain : b.isInsert = false := by
    obtain ⟨-, hbegins, hstop⟩ := h.overlaps
    simp only [isInsert, Span.isEmpty, decide_eq_false_iff_not]
    omega
  obtain ⟨hfinish, hlast⟩ := foldl_place_dropping (l := behind) hdropped ho fun f hf o hopens => by
    have hbf := precedes_iff.mp (hbehind f hf)
    unfold opensInside at hopens ⊢
    cases hf : f.isInsert <;> simp [hf, hplain] at hopens hbf ⊢ <;> omega
  have hnest : nest edits = ((nest (edits.eraseIdx j)).1, [(b, o)]) := by
    simp only [nest, hwith, hwithout, List.foldl_append, List.foldl_cons, hfinish, hlast, hnone]
    rfl
  -- what it is dropped for overlaps it
  have hmem : (b, o) ∈ (nest edits).2 := by simp [hnest]
  have hkept := (nest_perm edits).mem_iff.mp (List.mem_append_left _ (nest_dropped hmem))
  obtain ⟨rfl, -⟩ := h.eq_of_overlaps hkept (List.mem_of_getElem? h.right) (nest_dropped_overlaps hmem)
  exact hnest

/-- The edit that begins later in the file is dropped and reported, and no other. -/
theorem dropsOnly (h : OnlyConflict edits i j a b) (hplain : ∀ e ∈ edits, e.isDelete = false) (source : Text)
    (style : Style) : DropsOnly source style edits j b a := by
  have hnest := h.nest_eq
  have hseparate := separateBlanks_of_not_isDelete source hplain
  have hseparate' : separateBlanks source (edits.eraseIdx j) = edits.eraseIdx j :=
    separateBlanks_of_not_isDelete source fun e he => hplain e (List.mem_of_mem_eraseIdx he)
  refine ⟨h.right, by rw [hseparate, hnest], ?_⟩
  simp only [applyEdits, hseparate, hseparate', hnest]
  rfl

theorem eq_of_dropsOnly (h : OnlyConflict edits i j a b) (hplain : ∀ e ∈ edits, e.isDelete = false) {source : Text}
    {style : Style} {k : Nat} {e o : Edit} (hdrops : DropsOnly source style edits k e o) : k = j := by
  have heb : (e, o) = (b, a) := by simpa [hdrops.dropped] using (h.dropsOnly hplain source style).dropped
  have hk := hdrops.place
  rw [(Prod.mk.inj heb).1] at hk
  exact (h.only i k a h.left b hk h.overlaps).2

end OnlyConflict

/-- The edit that begins later in the file is dropped and no other; so it is the one found later just if the two were
found in the order of their places. -/
theorem OnlyConflict.dropsOnly_iff (h : OnlyConflict edits i j a b) (hplain : ∀ e ∈ edits, e.isDelete = false)
    (source : Text) (style : Style) :
    DropsOnly source style edits j b a ∧ ((∃ e o, DropsOnly source style edits (max i j) e o) ↔ i < j) := by
  have hdrops := h.dropsOnly hplain source style
  have hne : i ≠ j := by
    rintro rfl
    obtain rfl := Option.some.inj (h.left.symm.trans h.right)
    exact absurd h.overlaps.1 (Nat.lt_irrefl _)
  refine ⟨hdrops, ?_, fun hij => ?_⟩
  · rintro ⟨e, o, he⟩
    have hmax := h.eq_of_dropsOnly hplain he
    omega
  · exact ⟨b, a, by rwa [Nat.max_eq_right (Nat.le_of_lt hij)]⟩

/-- Two edits that overlap, with one inside of both and an insertion inside of the first. -/
theorem OnlyConflict.dropsOnly_nested :
    let edits := [Edit.replaceText ⟨4, 5⟩ "n" "inner", Edit.replaceText ⟨0, 5⟩ "X" "first", Edit.insert 2 "\n" "break",
      Edit.replaceText ⟨3, 8⟩ "Y" "second"]
    let first := Edit.replaceText ⟨0, 5⟩ "X" "first"
    let second := Edit.replaceText ⟨3, 8⟩ "Y" "second"
    OnlyConflict edits 1 3 first second ∧ (∀ e ∈ edits, e.isDelete = false) ∧
      DropsOnly "abcdefgh".toList {} edits 3 second first := by
  intro edits first second
  have honly : ∀ k < 4, ∀ l < 4, ∀ c ∈ edits[k]?, ∀ d ∈ edits[l]?, c.span.Overlaps d.span → k = 1 ∧ l = 3 := by
    decide
  have hlt {k : Nat} {c : Edit} (h : edits[k]? = some c) : k < 4 := (List.getElem?_eq_some_iff.mp h).1
  have hconflict : OnlyConflict edits 1 3 first second :=
    ⟨rfl, rfl, by decide, fun k l c hc d hd => honly k (hlt hc) l (hlt hd) c hc d hd⟩
  have hplain : ∀ e ∈ edits, e.isDelete = false := by decide
  exact ⟨hconflict, hplain, (hconflict.dropsOnly_iff hplain _ _).1⟩

/-- Found from the back to the front, of two overlapping edits the one found first goes. -/
theorem earlier_found_dropped : ¬ ∀ (source : Text) (style : Style) (edits : List Edit) (i j : Nat) (a b : Edit),
    (∀ e ∈ edits, e.Inside source.size) → (∀ e ∈ edits, e.isDelete = false) → OnlyConflict edits i j a b →
      ∃ e o, DropsOnly source style edits (max i j) e o := by
  intro h
  let edits := [Edit.replaceText ⟨2, 6⟩ "Y" "second", Edit.replaceText ⟨0, 4⟩ "X" "first"]
  have honly : ∀ k < 2, ∀ l < 2, ∀ c ∈ edits[k]?, ∀ d ∈ edits[l]?, c.span.Overlaps d.span → k = 1 ∧ l = 0 := by
    decide
  have hlt {k : Nat} {c : Edit} (h : edits[k]? = some c) : k < 2 := (List.getElem?_eq_some_iff.mp h).1
  have hconflict : OnlyConflict edits 1 0 (Edit.replaceText ⟨0, 4⟩ "X" "first")
      (Edit.replaceText ⟨2, 6⟩ "Y" "second") :=
    ⟨rfl, rfl, by decide, fun k l c hc d hd => honly k (hlt hc) l (hlt hd) c hc d hd⟩
  have hplain : ∀ e ∈ edits, e.isDelete = false := by decide
  have hinside : ∀ e ∈ edits, e.Inside (Text.size "abcdef".toList) := by
    have hbounds : ∀ e ∈ edits, e.span.start ≤ e.span.stop ∧ e.span.stop ≤ Text.size "abcdef".toList := by decide
    exact fun e he => ⟨(hbounds e he).1, (hbounds e he).2⟩
  obtain ⟨e, o, hdrops⟩ := h "abcdef".toList {} edits 1 0 _ _ hinside hplain hconflict
  cases hconflict.eq_of_dropsOnly hplain hdrops

end Edit

end TestMigration
