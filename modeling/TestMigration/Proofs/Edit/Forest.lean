import TestMigration.Edit.Forest

/-!
# The forest of edits is laminar

`EditTree.Row lo hi ts`: the trees of `ts` stand one behind the other between the offsets `lo` and `hi`, and
so do the children of every tree inside its span. Whatever edits a file gets, `nest` makes such a row of them
(`nest_row`). No edit is lost: each one is in the forest or dropped (`nest_perm`), and what a dropped edit
overlaps is in the forest (`nest_dropped`).

The pass keeps a stack of open edits. `Nesting.Pending pos` is its invariant at the offset `pos`: the trees
found inside an open edit lie before `pos` and before the next inner one, and open edits nest.
-/

namespace TestMigration

/-! ### Order of positions -/

namespace Edit

variable {a b c : Edit}

/-- `precedes` in words: by start, insertions first, longer spans first. -/
theorem precedes_iff : a.precedes b = true ↔
    a.span.start < b.span.start ∨ a.span.start = b.span.start ∧
      (a.isInsert = true ∧ b.isInsert = false ∨
        a.isInsert = b.isInsert ∧ b.span.stop ≤ a.span.stop) := by
  unfold precedes
  by_cases hstart : a.span.start = b.span.start
  · cases ha : a.isInsert <;> cases hb : b.isInsert <;> simp [hstart]
  · simp [hstart]

theorem precedes_total (h : ¬ a.precedes b = true) : b.precedes a = true := by
  rw [precedes_iff] at h ⊢
  cases ha : a.isInsert <;> cases hb : b.isInsert <;> simp [ha, hb] at h ⊢ <;> omega

theorem precedes_trans (hab : a.precedes b = true) (hbc : b.precedes c = true) :
    a.precedes c = true := by
  rw [precedes_iff] at *
  cases ha : a.isInsert <;> cases hb : b.isInsert <;> cases hc : c.isInsert <;>
    simp [ha, hb, hc] at hab hbc ⊢ <;> omega

theorem insertByPosition_perm (e : Edit) (l : List Edit) : (e.insertByPosition l).Perm (e :: l) := by
  induction l with
  | nil => exact .refl _
  | cons f rest ih =>
    unfold insertByPosition
    split
    · exact .refl _
    · exact (ih.cons f).trans (.swap e f rest)

theorem sortByPosition_perm (edits : List Edit) : (sortByPosition edits).Perm edits := by
  induction edits with
  | nil => exact .refl _
  | cons e rest ih => exact (insertByPosition_perm e _).trans (ih.cons e)

theorem insertByPosition_sorted {e : Edit} {l : List Edit}
    (h : l.Pairwise fun a b => a.precedes b = true) :
    (e.insertByPosition l).Pairwise fun a b => a.precedes b = true := by
  induction l with
  | nil => simp [insertByPosition]
  | cons f rest ih =>
    obtain ⟨hf, hrest⟩ := List.pairwise_cons.mp h
    unfold insertByPosition
    split
    · rename_i hef
      refine List.pairwise_cons.mpr ⟨?_, h⟩
      intro g hg
      rcases List.mem_cons.mp hg with rfl | hg
      · exact hef
      · exact precedes_trans hef (hf g hg)
    · rename_i hef
      refine List.pairwise_cons.mpr ⟨?_, ih hrest⟩
      intro g hg
      rcases List.mem_cons.mp ((insertByPosition_perm e rest).mem_iff.mp hg) with rfl | hg
      · exact precedes_total hef
      · exact hf g hg

theorem sortByPosition_sorted (edits : List Edit) :
    (sortByPosition edits).Pairwise fun a b => a.precedes b = true := by
  induction edits with
  | nil => simp [sortByPosition]
  | cons e rest ih => exact insertByPosition_sorted ih

end Edit

/-! ### Rows of trees -/

namespace EditTree

def span (t : EditTree) : Span := t.edit.span

mutual

/-- The span of the tree is ordered, and its children stand in a row inside. -/
def Laminar : EditTree → Prop
  | node e children => e.span.start ≤ e.span.stop ∧ Row e.span.start e.span.stop children

/-- The trees stand one behind the other between two offsets, and each of them is laminar. -/
def Row (lo hi : Nat) : List EditTree → Prop
  | [] => lo ≤ hi
  | t :: rest => lo ≤ t.span.start ∧ t.Laminar ∧ Row t.span.stop hi rest

end

theorem Laminar.start_le_stop {t : EditTree} (h : t.Laminar) : t.span.start ≤ t.span.stop := by
  cases t
  exact h.1

namespace Row

variable {lo mid hi : Nat} {ts us : List EditTree}

theorem le (h : Row lo hi ts) : lo ≤ hi := by
  induction ts generalizing lo with
  | nil => exact h
  | cons t rest ih =>
    obtain ⟨hlo, ht, hrest⟩ := h
    have := ht.start_le_stop
    have := ih hrest
    omega

theorem append (hts : Row lo mid ts) (hus : Row mid hi us) : Row lo hi (ts ++ us) := by
  induction ts generalizing lo with
  | nil =>
    cases us with
    | nil => exact Nat.le_trans hts hus
    | cons u rest => exact ⟨Nat.le_trans hts hus.1, hus.2⟩
  | cons t rest ih => exact ⟨hts.1, hts.2.1, ih hts.2.2⟩

theorem mono (h : Row lo mid ts) (hle : mid ≤ hi) : Row lo hi ts := by
  simpa using h.append (show Row mid hi [] from hle)

theorem snoc {t : EditTree} (h : Row lo mid ts) (hmid : mid ≤ t.span.start) (ht : t.Laminar)
    (hhi : t.span.stop ≤ hi) : Row lo hi (ts ++ [t]) :=
  h.append (show Row mid hi [t] from ⟨hmid, ht, hhi⟩)

theorem mem {t : EditTree} (h : Row lo hi ts) (ht : t ∈ ts) :
    lo ≤ t.span.start ∧ t.Laminar ∧ t.span.stop ≤ hi := by
  induction ts generalizing lo with
  | nil => cases ht
  | cons first rest ih =>
    obtain ⟨hlo, hfirst, hrest⟩ := h
    have hle := hfirst.start_le_stop
    rcases List.mem_cons.mp ht with rfl | ht
    · exact ⟨hlo, hfirst, hrest.le⟩
    · obtain ⟨hstart, hlaminar, hstop⟩ := ih hrest ht
      exact ⟨by omega, hlaminar, hstop⟩

end Row

/-! ### All edits of a tree -/

mutual

def edits : EditTree → List Edit
  | node e children => e :: editsAll children

def editsAll : List EditTree → List Edit
  | [] => []
  | t :: rest => t.edits ++ editsAll rest

end

theorem editsAll_append (ts us : List EditTree) : editsAll (ts ++ us) = editsAll ts ++ editsAll us := by
  induction ts with
  | nil => rfl
  | cons t rest ih => simp [editsAll, ih]

theorem editsAll_reverse_perm (ts : List EditTree) : (editsAll ts.reverse).Perm (editsAll ts) := by
  induction ts with
  | nil => exact .refl _
  | cons t rest ih =>
    rw [List.reverse_cons, editsAll_append]
    simpa [editsAll] using List.perm_append_comm.trans (ih.append_left t.edits)

theorem mem_editsAll {e : Edit} {ts : List EditTree} : e ∈ editsAll ts ↔ ∃ t ∈ ts, e ∈ t.edits := by
  induction ts with
  | nil => simp [editsAll]
  | cons t rest ih => simp [editsAll, ih]

mutual

theorem Laminar.contains {e : Edit} : ∀ {t : EditTree}, t.Laminar → e ∈ t.edits →
    t.span.start ≤ e.span.start ∧ e.span.stop ≤ t.span.stop
  | node e' children, h, he => by
    rcases List.mem_cons.mp he with rfl | he
    · exact ⟨Nat.le_refl _, Nat.le_refl _⟩
    · exact Row.contains h.2 he

theorem Row.contains {e : Edit} : ∀ {ts : List EditTree} {lo hi : Nat}, Row lo hi ts →
    e ∈ editsAll ts → lo ≤ e.span.start ∧ e.span.stop ≤ hi
  | [], _, _, _, he => absurd he List.not_mem_nil
  | t :: rest, lo, hi, h, he => by
    obtain ⟨hlo, ht, hrest⟩ := h
    have hle := Row.le hrest
    have hspan := ht.start_le_stop
    rcases List.mem_append.mp he with he | he
    · obtain ⟨hstart, hstop⟩ := Laminar.contains ht he
      exact ⟨by omega, by omega⟩
    · obtain ⟨hstart, hstop⟩ := Row.contains hrest he
      exact ⟨by omega, by omega⟩

end

end EditTree

/-! ### The stack of open edits -/

namespace Nesting

open EditTree

/-- What is known at the offset `pos`, with `finished` about to be put into the innermost open edit. -/
def Pending : Nat → List EditTree → List OpenEdit → List EditTree → Prop
  | pos, finished, [], roots => Row 0 pos (finished ++ roots).reverse
  | pos, finished, o :: rest, roots =>
    o.edit.span.start < o.edit.span.stop ∧
      Row o.edit.span.start (min pos o.edit.span.stop) (finished ++ o.inside).reverse ∧
      (∀ outer ∈ rest.head?, o.edit.span.stop ≤ outer.edit.span.stop) ∧
      Pending o.edit.span.start [] rest roots

theorem Pending.mono {pos pos' : Nat} {finished : List EditTree} {opened : List OpenEdit}
    {roots : List EditTree} (h : Pending pos finished opened roots) (hle : pos ≤ pos') :
    Pending pos' finished opened roots := by
  cases opened with
  | nil => exact Row.mono h hle
  | cons o rest =>
    obtain ⟨hlt, hrow, hrest⟩ := h
    exact ⟨hlt, hrow.mono (by omega), hrest⟩

/-- Closing an open edit that ends before `pos` puts its tree where it belongs. -/
theorem Pending.close {pos : Nat} {o : OpenEdit} {rest : List OpenEdit} {roots : List EditTree}
    (h : Pending pos [] (o :: rest) roots) (hstop : o.edit.span.stop ≤ pos) :
    Pending pos [o.close] rest roots := by
  obtain ⟨hlt, hrow, houter, hrest⟩ := h
  have hclosed : o.close.Laminar :=
    ⟨Nat.le_of_lt hlt, by simpa using hrow.mono (Nat.min_le_right ..)⟩
  have hspan : o.close.span = o.edit.span := rfl
  cases rest with
  | nil =>
    have hroots : Row 0 o.edit.span.start roots.reverse := hrest
    simpa [Pending] using hroots.snoc (Nat.le_refl _) hclosed hstop
  | cons outer rest =>
    obtain ⟨hlt', hrow', hrest'⟩ := hrest
    have hle := houter outer rfl
    refine ⟨hlt', ?_, hrest'⟩
    rw [List.nil_append] at hrow'
    rw [List.singleton_append, List.reverse_cons]
    exact hrow'.snoc (by rw [hspan]; omega) hclosed (by rw [hspan]; omega)

/-- Closing until some open edit stays keeps the invariant, if all that is closed ends before `pos`. -/
theorem Pending.closeUntil {pos : Nat} {stays : Edit → Bool} {opened : List OpenEdit}
    {finished roots : List EditTree} (h : Pending pos finished opened roots)
    (hstop : ∀ o ∈ opened, stays o.edit = false → o.edit.span.stop ≤ pos) :
    Pending pos [] (Nesting.closeUntil stays opened finished roots).1
      (Nesting.closeUntil stays opened finished roots).2 := by
  induction opened generalizing finished with
  | nil => simpa [Nesting.closeUntil, Pending] using h
  | cons o rest ih =>
    simp only [Nesting.closeUntil]
    split
    · simpa [Pending] using h
    · rename_i hstays
      have hmerged : Pending pos [] ({ o with inside := finished ++ o.inside } :: rest) roots := by
        simpa [Pending] using h
      have hclosed := hmerged.close (hstop o List.mem_cons_self (by simpa using hstays))
      exact ih hclosed fun o' ho' => hstop o' (List.mem_cons_of_mem _ ho')

theorem closeUntil_stays {stays : Edit → Bool} {opened opened' : List OpenEdit}
    {finished roots roots' : List EditTree} {o : OpenEdit} {rest : List OpenEdit}
    (h : Nesting.closeUntil stays opened finished roots = (opened', roots'))
    (hopened : opened' = o :: rest) : stays o.edit = true := by
  induction opened generalizing finished with
  | nil =>
    cases h
    cases hopened
  | cons o' rest' ih =>
    simp only [Nesting.closeUntil] at h
    split at h
    · rename_i hstays
      cases h
      cases hopened
      exact hstays
    · exact ih h

/-- Putting in the next edit keeps the invariant and moves it on to where that edit starts. -/
theorem Pending.place {pos : Nat} {n : Nesting} {e : Edit} (h : Pending pos [] n.opened n.roots)
    (hpos : pos ≤ e.span.start) (hordered : e.span.start ≤ e.span.stop)
    (hprecedes : ∀ o ∈ n.opened, o.edit.precedes e = true) :
    Pending e.span.start [] (n.place e).opened (n.place e).roots := by
  have hnotInsert {pos : Nat} {opened : List OpenEdit} {roots : List EditTree}
      (h : Pending pos [] opened roots) : ∀ o ∈ opened, o.edit.isInsert = false := by
    induction opened generalizing pos with
    | nil => simp
    | cons o rest ih =>
      intro o' ho'
      rcases List.mem_cons.mp ho' with rfl | ho'
      · simpa [Edit.isInsert, Span.isEmpty] using h.1
      · exact ih h.2.2.2 o' ho'
  -- whatever does not hold the edit has ended before it starts
  have hstop : ∀ o ∈ n.opened, o.edit.opensInside e = false → o.edit.span.stop ≤ e.span.start := by
    intro o ho hopens
    have hplain := hnotInsert h o ho
    have hbefore := Edit.precedes_iff.mp (hprecedes o ho)
    unfold Edit.opensInside at hopens
    cases hinsert : e.isInsert <;> simp [hinsert, hplain] at hopens hbefore <;> omega
  have hclosed := @Pending.closeUntil _ (fun o => o.opensInside e) _ _ _ (h.mono hpos) hstop
  unfold Nesting.place
  generalize hcut : Nesting.closeUntil (·.opensInside e) n.opened [] n.roots = cut at hclosed
  obtain ⟨opened, roots⟩ := cut
  simp only at hclosed ⊢
  cases opened with
  | nil =>
    simp only
    split
    · rename_i hinsert
      have hroots : Row 0 e.span.start roots.reverse := hclosed
      have hempty : e.span.stop ≤ e.span.start := by
        simpa [Edit.isInsert, Span.isEmpty] using hinsert
      simpa [Pending] using hroots.snoc (t := .node e []) (Nat.le_refl _) ⟨hordered, hordered⟩ hempty
    · rename_i hinsert
      have hlt : e.span.start < e.span.stop := by simpa [Edit.isInsert, Span.isEmpty] using hinsert
      exact ⟨hlt, by simp [Row]; omega, by simp, hclosed⟩
  | cons o rest =>
    have hopens := closeUntil_stays hcut rfl
    obtain ⟨hlt, hrow, houter, hrest⟩ := hclosed
    simp only
    split
    · rename_i hinsert
      have hempty : e.span.stop ≤ e.span.start := by
        simpa [Edit.isInsert, Span.isEmpty] using hinsert
      have hinside : o.edit.span.start < e.span.start ∧ e.span.start < o.edit.span.stop := by
        simpa [Edit.opensInside, hinsert] using hopens
      refine ⟨hlt, ?_, houter, hrest⟩
      rw [List.nil_append, List.reverse_cons]
      refine Row.snoc (by simpa using hrow) ?_ ⟨hordered, hordered⟩ ?_
      · exact Nat.min_le_left ..
      · simp only [EditTree.span, EditTree.edit]
        omega
    · rename_i hinsert
      have hlt' : e.span.start < e.span.stop := by simpa [Edit.isInsert, Span.isEmpty] using hinsert
      split
      · exact ⟨hlt, hrow, houter, hrest⟩
      · rename_i hfits
        refine ⟨hlt', ?_, ?_, hlt, hrow, houter, hrest⟩
        · simp [Row]
          omega
        · intro outer ho
          cases ho
          exact Nat.le_of_not_lt hfits

/-! ### No edit is lost -/

def kept (n : Nesting) : List Edit :=
  n.opened.flatMap (fun o => o.edit :: editsAll o.inside) ++ editsAll n.roots

theorem closeUntil_perm (stays : Edit → Bool) (opened : List OpenEdit) (finished roots : List EditTree) :
    (kept ⟨(closeUntil stays opened finished roots).1, (closeUntil stays opened finished roots).2, []⟩).Perm
      (editsAll finished ++ kept ⟨opened, roots, []⟩) := by
  induction opened generalizing finished with
  | nil => simp [closeUntil, kept, editsAll_append]
  | cons o rest ih =>
    simp only [closeUntil]
    split
    · simp only [kept, List.flatMap_cons, editsAll_append, List.cons_append, List.append_assoc]
      exact List.perm_middle.symm
    · refine (ih _).trans ?_
      have hinside := editsAll_reverse_perm (finished ++ o.inside)
      simp only [kept, OpenEdit.close, editsAll, edits, List.flatMap_cons, editsAll_append,
        List.append_nil, List.cons_append, List.append_assoc] at hinside ⊢
      refine ((hinside.append_right _).cons o.edit).trans ?_
      simp only [List.append_assoc]
      exact List.perm_middle.symm

/-- The next edit is kept, or dropped because of one that is kept; all others stay. -/
theorem place_cases (n : Nesting) (e : Edit) :
    ((n.place e).dropped = n.dropped ∧ (n.place e).kept.Perm (e :: n.kept)) ∨
      ∃ o ∈ n.kept, (n.place e).dropped = (e, o) :: n.dropped ∧ (n.place e).kept.Perm n.kept := by
  have hcut := closeUntil_perm (·.opensInside e) n.opened [] n.roots
  unfold place
  generalize closeUntil (·.opensInside e) n.opened [] n.roots = cut at hcut
  obtain ⟨opened, roots⟩ := cut
  have hkept : (kept ⟨opened, roots, []⟩).Perm n.kept := hcut
  cases opened with
  | nil =>
    simp only
    split
    · exact Or.inl ⟨rfl, by simpa [kept, editsAll, edits] using hkept⟩
    · exact Or.inl ⟨rfl, by simpa [kept, editsAll] using hkept⟩
  | cons o rest =>
    simp only
    split
    · refine Or.inl ⟨rfl, List.Perm.trans ?_ (hkept.cons e)⟩
      simp only [kept, editsAll, edits, List.flatMap_cons, List.cons_append, List.append_assoc,
        List.nil_append]
      exact .swap ..
    · split
      · exact Or.inr ⟨o.edit, hkept.mem_iff.mp (by simp [kept]), rfl, hkept⟩
      · exact Or.inl ⟨rfl, by simpa [kept, editsAll] using hkept⟩

theorem foldl_place_perm (l : List Edit) (n : Nesting) :
    ((l.foldl place n).kept ++ (l.foldl place n).dropped.map (·.1)).Perm
      (l ++ (n.kept ++ n.dropped.map (·.1))) := by
  induction l generalizing n with
  | nil => exact .refl _
  | cons e rest ih =>
    refine (ih (n.place e)).trans ?_
    have hplace : ((n.place e).kept ++ (n.place e).dropped.map (·.1)).Perm
        (e :: (n.kept ++ n.dropped.map (·.1))) := by
      rcases place_cases n e with ⟨hdropped, hkept⟩ | ⟨o, -, hdropped, hkept⟩
      · simpa [hdropped] using hkept.append_right _
      · simpa [hdropped] using (hkept.append_right _).trans List.perm_middle
    exact (hplace.append_left rest).trans List.perm_middle

theorem foldl_place_dropped (l : List Edit) (n : Nesting) (h : ∀ p ∈ n.dropped, p.2 ∈ n.kept) :
    ∀ p ∈ (l.foldl place n).dropped, p.2 ∈ (l.foldl place n).kept := by
  induction l generalizing n with
  | nil => exact h
  | cons e rest ih =>
    refine ih (n.place e) ?_
    intro p hp
    rcases place_cases n e with ⟨hdropped, hkept⟩ | ⟨o, ho, hdropped, hkept⟩
    · rw [hdropped] at hp
      exact hkept.mem_iff.mpr (List.mem_cons_of_mem _ (h p hp))
    · rw [hdropped] at hp
      rcases List.mem_cons.mp hp with rfl | hp
      · exact hkept.mem_iff.mpr ho
      · exact hkept.mem_iff.mpr (h p hp)

/-! ### The whole pass -/

theorem mem_kept_of_opened {n : Nesting} {o : OpenEdit} (h : o ∈ n.opened) : o.edit ∈ n.kept := by
  refine List.mem_append_left _ (List.mem_flatMap.mpr ⟨o, h, ?_⟩)
  exact List.mem_cons_self

/-- The invariant at the end of the pass, given that the edits come in the order of positions. -/
theorem Pending.foldl_place {l : List Edit} {pos : Nat} {n : Nesting}
    (h : Pending pos [] n.opened n.roots) (hpos : ∀ e ∈ l, pos ≤ e.span.start)
    (hordered : ∀ e ∈ l, e.span.start ≤ e.span.stop)
    (hsorted : l.Pairwise fun a b => a.precedes b = true)
    (hopened : ∀ a ∈ n.kept, ∀ e ∈ l, a.precedes e = true) :
    ∃ pos', Pending pos' [] (l.foldl Nesting.place n).opened (l.foldl Nesting.place n).roots ∧
      ∀ m, pos ≤ m → (∀ e ∈ l, e.span.stop ≤ m) → pos' ≤ m := by
  induction l generalizing pos n with
  | nil => exact ⟨pos, h, fun m hm _ => hm⟩
  | cons e rest ih =>
    obtain ⟨hfirst, hrest⟩ := List.pairwise_cons.mp hsorted
    have hplace := h.place (hpos e List.mem_cons_self) (hordered e List.mem_cons_self)
      fun o ho => hopened o.edit (mem_kept_of_opened ho) e List.mem_cons_self
    have hstart : ∀ f ∈ rest, e.span.start ≤ f.span.start := by
      intro f hf
      rcases Edit.precedes_iff.mp (hfirst f hf) with hlt | ⟨heq, -⟩
      · exact Nat.le_of_lt hlt
      · exact Nat.le_of_eq heq
    obtain ⟨pos', hpending, hbound⟩ := ih hplace hstart
      (fun f hf => hordered f (List.mem_cons_of_mem _ hf)) hrest (by
        intro a ha f hf
        -- an edit that is kept now was kept before or is the one put in
        have hmem : a = e ∨ a ∈ n.kept := by
          rcases place_cases n e with ⟨-, hkept⟩ | ⟨o, -, -, hkept⟩
          · exact List.mem_cons.mp (hkept.mem_iff.mp ha)
          · exact Or.inr (hkept.mem_iff.mp ha)
        rcases hmem with rfl | ha
        · exact hfirst f hf
        · exact hopened a ha f (List.mem_cons_of_mem _ hf))
    refine ⟨pos', hpending, ?_⟩
    intro m hm hstop
    have he := hordered e List.mem_cons_self
    have he' := hstop e List.mem_cons_self
    exact hbound m (by omega) fun f hf => hstop f (List.mem_cons_of_mem _ hf)

theorem closeUntil_all (opened : List OpenEdit) (finished roots : List EditTree) :
    (closeUntil (fun _ => false) opened finished roots).1 = [] := by
  induction opened generalizing finished with
  | nil => rfl
  | cons o rest ih => simpa [closeUntil] using ih _

theorem finish_perm (n : Nesting) : (editsAll n.finish).Perm n.kept := by
  have hcut := closeUntil_perm (fun _ => false) n.opened [] n.roots
  rw [closeUntil_all] at hcut
  exact (editsAll_reverse_perm _).trans hcut

theorem Pending.finish {pos : Nat} {n : Nesting} (h : Pending pos [] n.opened n.roots)
    (hstop : ∀ o ∈ n.opened, o.edit.span.stop ≤ pos) : Row 0 pos n.finish := by
  have hclosed := @Pending.closeUntil pos (fun _ => false) _ _ _ h fun o ho _ => hstop o ho
  rw [closeUntil_all] at hclosed
  exact hclosed

end Nesting

/-! ### The forest -/

open EditTree

/-- The roots of the forest stand in a row, and so do the children of each of its trees. -/
theorem nest_row {edits : List Edit} {limit : Nat} (hordered : ∀ e ∈ edits, e.span.start ≤ e.span.stop)
    (hlimit : ∀ e ∈ edits, e.span.stop ≤ limit) : Row 0 limit (nest edits).1 := by
  have hmem {e : Edit} : e ∈ Edit.sortByPosition edits ↔ e ∈ edits :=
    (Edit.sortByPosition_perm edits).mem_iff
  have hstart : Nesting.Pending 0 [] ({} : Nesting).opened ({} : Nesting).roots := by
    simp [Nesting.Pending, Row]
  obtain ⟨pos, hpending, hbound⟩ := Nesting.Pending.foldl_place (l := Edit.sortByPosition edits) hstart
    (fun e _ => Nat.zero_le _) (fun e he => hordered e (hmem.mp he))
    (Edit.sortByPosition_sorted edits) (by simp [Nesting.kept, editsAll])
  have hpos := hbound limit (Nat.zero_le _) fun e he => hlimit e (hmem.mp he)
  -- all edits end before the limit, so there everything is closed
  refine (hpending.mono hpos).finish fun o ho => hlimit _ (hmem.mp ?_)
  have hkept := (Nesting.foldl_place_perm (Edit.sortByPosition edits) {}).mem_iff.mp
    (List.mem_append_left _ (Nesting.mem_kept_of_opened ho))
  simpa [Nesting.kept, editsAll] using hkept

theorem nest_perm (edits : List Edit) :
    (editsAll (nest edits).1 ++ (nest edits).2.map (·.1)).Perm edits := by
  have hpass := Nesting.foldl_place_perm (Edit.sortByPosition edits) {}
  have hfinish := Nesting.finish_perm ((Edit.sortByPosition edits).foldl Nesting.place {})
  have hdropped := (List.reverse_perm ((Edit.sortByPosition edits).foldl Nesting.place {}).dropped).map
    (fun p : Edit × Edit => p.1)
  refine ((hfinish.append hdropped).trans hpass).trans ?_
  simpa [Nesting.kept, editsAll] using Edit.sortByPosition_perm edits

/-- What a dropped edit overlaps is in the forest. -/
theorem nest_dropped {edits : List Edit} {p : Edit × Edit} (h : p ∈ (nest edits).2) :
    p.2 ∈ editsAll (nest edits).1 := by
  refine (Nesting.finish_perm _).mem_iff.mpr ?_
  exact Nesting.foldl_place_dropped _ {} (by simp) p (List.mem_reverse.mp h)

theorem eq_nil_of_nest_eq_nil {edits : List Edit} (h : (nest edits).1 = []) : edits = [] := by
  have hdropped : (nest edits).2 = [] := by
    refine List.eq_nil_iff_forall_not_mem.mpr fun p hp => ?_
    have hkept := nest_dropped hp
    rw [h] at hkept
    exact absurd hkept List.not_mem_nil
  have hperm := nest_perm edits
  rw [h, hdropped] at hperm
  exact hperm.nil_eq.symm

end TestMigration
