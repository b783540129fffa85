import Mathlib.Data.List.Nodup
import Mathlib.Data.List.Perm.Subperm
import TestMigration.Proofs.Edit.Compatible
import TestMigration.Proofs.Edit.Copied
import TestMigration.Proofs.Edit.Counts

/-!
# The forest is the containment order

For compatible edits (`Edit.Compatible`) the forest that a single pass with a stack makes is the order of
containment: no edit is dropped, an edit stands at the top exactly when no other encloses it, and otherwise
right below the innermost one that does (`mem_linksAll_forest_iff`). An edit below another one is emitted
exactly when that one is and embeds it (`mem_emittedEdits_iff`). `applyEdits_containment` puts these together.

That the pass goes by containment follows from two facts. The forest is laminar whatever the edits are
(`nest_row`), so only edits above can reach over an edit; and an insertion hangs under an edit only if it lies
strictly inside (`Nesting.Sound`, an invariant of the pass).
-/

namespace TestMigration

/-! ### Links of a forest -/

namespace EditTree

mutual

/-- The pairs of an edit and one right below it in the tree. -/
def links : EditTree → List (Edit × Edit)
  | node e children => children.map (fun c => (e, c.edit)) ++ linksAll children

def linksAll : List EditTree → List (Edit × Edit)
  | [] => []
  | t :: rest => t.links ++ linksAll rest

end

theorem mem_linksAll {l : Edit × Edit} {ts : List EditTree} : l ∈ linksAll ts ↔ ∃ t ∈ ts, l ∈ t.links := by
  induction ts with
  | nil => simp [linksAll]
  | cons t rest ih => simp [linksAll, ih]

theorem mem_links_node {p e e₀ : Edit} {children : List EditTree} :
    (p, e) ∈ (node e₀ children).links ↔
      (p = e₀ ∧ ∃ c ∈ children, c.edit = e) ∨ (p, e) ∈ linksAll children := by
  simp only [links, List.mem_append, List.mem_map, Prod.mk.injEq]
  constructor
  · rintro (⟨c, hc, rfl, rfl⟩ | h)
    · exact .inl ⟨rfl, c, hc, rfl⟩
    · exact .inr h
  · rintro (⟨rfl, c, hc, rfl⟩ | h)
    · exact .inl ⟨c, hc, rfl, rfl⟩
    · exact .inr h

theorem edit_mem_edits (t : EditTree) : t.edit ∈ t.edits := by
  cases t
  exact List.mem_cons_self

mutual

theorem links_sublist {p e : Edit} : ∀ {t : EditTree}, (p, e) ∈ t.links → [p, e].Sublist t.edits
  | node e₀ children, h => by
    rcases mem_links_node.mp h with ⟨rfl, c, hc, rfl⟩ | h
    · exact (List.singleton_sublist.mpr (mem_editsAll.mpr ⟨c, hc, edit_mem_edits c⟩)).cons_cons _
    · exact (linksAll_sublist h).cons _

/-- The two edits of a link are two edits of the forest, the upper one first. -/
theorem linksAll_sublist {p e : Edit} : ∀ {ts : List EditTree}, (p, e) ∈ linksAll ts →
    [p, e].Sublist (editsAll ts)
  | [], h => absurd h List.not_mem_nil
  | t :: rest, h => by
    rcases List.mem_append.mp h with h | h
    · exact (links_sublist h).trans (List.sublist_append_left ..)
    · exact (linksAll_sublist h).trans (List.sublist_append_right ..)

end

theorem mem_edits_of_mem_links {p e : Edit} {t : EditTree} (h : (p, e) ∈ t.links) :
    p ∈ t.edits ∧ e ∈ t.edits := by
  simpa using (links_sublist h).subset

theorem mem_editsAll_of_mem_linksAll {p e : Edit} {ts : List EditTree} (h : (p, e) ∈ linksAll ts) :
    p ∈ editsAll ts ∧ e ∈ editsAll ts := by
  simpa using (linksAll_sublist h).subset

mutual

theorem eq_edit_or_link {e : Edit} : ∀ {t : EditTree}, e ∈ t.edits → t.edit = e ∨ ∃ p, (p, e) ∈ t.links
  | node e₀ children, h => by
    rcases List.mem_cons.mp h with rfl | h
    · exact .inl rfl
    · right
      rcases root_or_link h with ⟨c, hc, rfl⟩ | ⟨p, hp⟩
      · exact ⟨e₀, mem_links_node.mpr (.inl ⟨rfl, c, hc, rfl⟩)⟩
      · exact ⟨p, mem_links_node.mpr (.inr hp)⟩

theorem root_or_link {e : Edit} : ∀ {ts : List EditTree}, e ∈ editsAll ts →
    (∃ t ∈ ts, t.edit = e) ∨ ∃ p, (p, e) ∈ linksAll ts
  | [], h => absurd h List.not_mem_nil
  | t :: rest, h => by
    rcases List.mem_append.mp h with h | h
    · rcases eq_edit_or_link h with rfl | ⟨p, hp⟩
      · exact .inl ⟨t, List.mem_cons_self, rfl⟩
      · exact .inr ⟨p, List.mem_append_left _ hp⟩
    · rcases root_or_link h with ⟨u, hu, rfl⟩ | ⟨p, hp⟩
      · exact .inl ⟨u, List.mem_cons_of_mem _ hu, rfl⟩
      · exact .inr ⟨p, List.mem_append_right _ hp⟩

end

end EditTree

/-! ### Enclosing edits -/

namespace Edit

/-- `o` is no insertion and reaches over `e`, strictly if `e` is an insertion. -/
def Encloses (o e : Edit) : Prop :=
  o.isInsert = false ∧
    if e.isInsert then o.span.start < e.span.start ∧ e.span.stop < o.span.stop
    else o.span.contains e.span = true ∧ o.span ≠ e.span

instance (o e : Edit) : Decidable (o.Encloses e) :=
  inferInstanceAs (Decidable (_ ∧ if e.isInsert then _ ∧ _ else _ ∧ _))

/-- `p` is the smallest of the edits that enclose `e`. -/
structure Innermost (edits : List Edit) (p e : Edit) : Prop where
  mem : p ∈ edits
  encloses : p.Encloses e
  smallest : ∀ o ∈ edits, o.Encloses e → o.span.contains p.span = true

theorem Encloses.meets {o e : Edit} (h : o.Encloses e) (he : e.span.start ≤ e.span.stop) :
    o.span.start < e.span.stop ∧ e.span.start < o.span.stop := by
  obtain ⟨hplain, h⟩ := h
  split at h
  · omega
  · rename_i hinsert
    simp only [isInsert, Span.isEmpty, decide_eq_true_eq, Nat.not_le] at hinsert
    rw [Span.contains_iff] at h
    omega

/-- An edit that begins inside an earlier one and ends behind it overlaps that one. -/
theorem overlaps_of_precedes {o e : Edit} (hprecedes : o.precedes e = true) (ho : o.isInsert = false)
    (he : e.isInsert = false) (hinside : o.opensInside e = true) (hstop : o.span.stop < e.span.stop) :
    o.span.Overlaps e.span := by
  simp only [opensInside, he, Bool.false_eq_true, ↓reduceIte, decide_eq_true_eq] at hinside
  rcases precedes_iff.mp hprecedes with hlt | ⟨-, ⟨hinsert, -⟩ | ⟨-, hle⟩⟩
  · exact ⟨hlt, hinside, hstop⟩
  · rw [ho] at hinsert
    cases hinsert
  · omega

end Edit

namespace EditTree

open Edit

theorem Row.disjoint {lo hi : Nat} {ts : List EditTree} (h : Row lo hi ts) {t u : EditTree} (ht : t ∈ ts)
    (hu : u ∈ ts) : t = u ∨ t.span.stop ≤ u.span.start ∨ u.span.stop ≤ t.span.start := by
  induction ts generalizing lo with
  | nil => cases ht
  | cons first rest ih =>
    obtain ⟨-, -, hrest⟩ := h
    rcases List.mem_cons.mp ht with rfl | ht'
    · rcases List.mem_cons.mp hu with rfl | hu'
      · exact .inl rfl
      · exact .inr (.inl (hrest.mem hu').1)
    · rcases List.mem_cons.mp hu with rfl | hu'
      · exact .inr (.inr (hrest.mem ht').1)
      · exact ih hrest ht' hu'

theorem Row.not_encloses {lo hi : Nat} {ts : List EditTree} (h : Row lo hi ts) {t : EditTree} (ht : t ∈ ts)
    {o : Edit} (ho : o ∈ editsAll ts) : ¬ o.Encloses t.edit := by
  intro hencloses
  obtain ⟨u, hu, ho⟩ := mem_editsAll.mp ho
  obtain ⟨hstart, hstop⟩ := Laminar.contains (h.mem hu).2.1 ho
  obtain ⟨hbefore, hbehind⟩ : o.span.start < t.span.stop ∧ t.span.start < o.span.stop :=
    hencloses.meets (h.mem ht).2.1.start_le_stop
  rcases h.disjoint ht hu with rfl | hle | hle
  · obtain ⟨-, hreach⟩ := hencloses
    have hspan : t.edit.span = t.span := rfl
    rw [hspan] at hreach
    split at hreach
    · omega
    · exact hreach.2 (Span.eq_of_contains hreach.1 (Span.contains_iff.mpr ⟨hstart, hstop⟩))
  · omega
  · omega

mutual

theorem Laminar.contains_link {p e o : Edit} (he : e.span.start ≤ e.span.stop) (hencloses : o.Encloses e) :
    ∀ {t : EditTree}, t.Laminar → (p, e) ∈ t.links → o ∈ t.edits → o.span.contains p.span = true
  | node e₀ children, h, hlink, ho => by
    rcases List.mem_cons.mp ho with rfl | hbelow
    · exact Span.contains_iff.mpr (Laminar.contains h (mem_edits_of_mem_links hlink).1)
    · rcases mem_links_node.mp hlink with ⟨-, c, hc, rfl⟩ | hlink
      · exact absurd hencloses (Row.not_encloses h.2 hc hbelow)
      · exact Row.contains_link he hencloses h.2 hlink hbelow

/-- Whatever encloses an edit below another one reaches over that one. -/
theorem Row.contains_link {p e o : Edit} (he : e.span.start ≤ e.span.stop) (hencloses : o.Encloses e) :
    ∀ {ts : List EditTree} {lo hi : Nat}, Row lo hi ts → (p, e) ∈ linksAll ts → o ∈ editsAll ts →
      o.span.contains p.span = true
  | [], _, _, _, hlink, _ => absurd hlink List.not_mem_nil
  | t :: rest, _, _, h, hlink, ho => by
    obtain ⟨-, ht, hrest⟩ := h
    obtain ⟨hbefore, hbehind⟩ := hencloses.meets he
    rcases List.mem_append.mp hlink with hlink | hlink
    · rcases List.mem_append.mp ho with ho | ho
      · exact Laminar.contains_link he hencloses ht hlink ho
      · -- the two edits stand in different trees
        have hinside := Laminar.contains ht (mem_edits_of_mem_links hlink).2
        have houtside := Row.contains hrest ho
        omega
    · rcases List.mem_append.mp ho with ho | ho
      · have hinside := Laminar.contains ht ho
        have houtside := Row.contains hrest (mem_editsAll_of_mem_linksAll hlink).2
        omega
      · exact Row.contains_link he hencloses hrest hlink ho

end

mutual

theorem Laminar.link_contains {p e : Edit} : ∀ {t : EditTree}, t.Laminar → (p, e) ∈ t.links →
    p.span.contains e.span = true
  | node e₀ children, h, hlink => by
    rcases mem_links_node.mp hlink with ⟨rfl, c, hc, rfl⟩ | hlink
    · obtain ⟨hstart, -, hstop⟩ := Row.mem h.2 hc
      exact Span.contains_iff.mpr ⟨hstart, hstop⟩
    · exact Row.link_contains h.2 hlink

theorem Row.link_contains {p e : Edit} : ∀ {ts : List EditTree} {lo hi : Nat}, Row lo hi ts →
    (p, e) ∈ linksAll ts → p.span.contains e.span = true
  | [], _, _, _, hlink => absurd hlink List.not_mem_nil
  | _ :: _, _, _, h, hlink => by
    rcases List.mem_append.mp hlink with hlink | hlink
    · exact Laminar.link_contains h.2.1 hlink
    · exact Row.link_contains h.2.2 hlink

end

end EditTree

/-! ### The pass -/

namespace Nesting

open EditTree

theorem mem_kept_place {n : Nesting} {a e : Edit} (h : a ∈ (n.place e).kept) : a = e ∨ a ∈ n.kept := by
  rcases place_cases n e with ⟨-, hkept⟩ | ⟨o, -, -, hkept⟩
  · exact List.mem_cons.mp (hkept.mem_iff.mp h)
  · exact .inr (hkept.mem_iff.mp h)

/-- What holds before the pass and is kept when an edit is put in that comes behind all others holds at the
end of the pass. -/
theorem foldl_place_induction {P : Nesting → Prop}
    (hstep : ∀ n e, (∀ a ∈ n.kept, a.precedes e = true) → P n → P (n.place e)) (l : List Edit)
    (hsorted : l.Pairwise fun a b => a.precedes b = true) (n : Nesting)
    (hbefore : ∀ a ∈ n.kept, ∀ e ∈ l, a.precedes e = true) (h : P n) : P (l.foldl place n) := by
  induction l generalizing n with
  | nil => exact h
  | cons e rest ih =>
    obtain ⟨hfirst, hrest⟩ := List.pairwise_cons.mp hsorted
    refine ih hrest (n.place e) ?_ (hstep n e (fun a ha => hbefore a ha e List.mem_cons_self) h)
    intro a ha f hf
    rcases mem_kept_place ha with rfl | ha
    · exact hfirst f hf
    · exact hbefore a ha f (List.mem_cons_of_mem _ hf)

end Nesting

/-- Insertions lie strictly inside the edits that they hang under. -/
def EditTree.Tight (t : EditTree) : Prop :=
  ∀ l ∈ t.links, l.2.isInsert = true → l.1.opensInside l.2 = true

theorem EditTree.tight_node {e : Edit} {children : List EditTree} : (node e children).Tight ↔
    ∀ c ∈ children, (c.edit.isInsert = true → e.opensInside c.edit = true) ∧ c.Tight := by
  constructor
  · intro h c hc
    refine ⟨h (e, c.edit) (mem_links_node.mpr (.inl ⟨rfl, c, hc, rfl⟩)), fun l hl => h l ?_⟩
    exact mem_links_node.mpr (.inr (mem_linksAll.mpr ⟨c, hc, hl⟩))
  · rintro h ⟨p, e'⟩ hl
    rcases mem_links_node.mp hl with ⟨rfl, c, hc, rfl⟩ | hl
    · exact (h c hc).1
    · obtain ⟨c, hc, hl⟩ := mem_linksAll.mp hl
      exact (h c hc).2 _ hl

theorem OpenEdit.tight_close {o : OpenEdit} : o.close.Tight ↔
    ∀ c ∈ o.inside, (c.edit.isInsert = true → o.edit.opensInside c.edit = true) ∧ c.Tight := by
  simp only [close, EditTree.tight_node, List.mem_reverse]

namespace Nesting

open EditTree

/-- What the pass puts under an edit lies inside, and what it drops overlaps. -/
structure Sound (n : Nesting) : Prop where
  opened : ∀ o ∈ n.opened, o.edit.isInsert = false ∧ o.close.Tight
  roots : ∀ t ∈ n.roots, t.Tight
  dropped : ∀ d ∈ n.dropped, d.2.span.Overlaps d.1.span

/-- Closing open edits hangs them under other ones, and they are no insertions. -/
theorem closeUntil_tight (stays : Edit → Bool) {opened : List OpenEdit} (finished : List EditTree)
    {roots : List EditTree}
    (hopened : ∀ o ∈ opened, o.edit.isInsert = false ∧ o.close.Tight)
    (hfinished : ∀ t ∈ finished, t.edit.isInsert = false ∧ t.Tight) (hroots : ∀ t ∈ roots, t.Tight) :
    (∀ o ∈ (closeUntil stays opened finished roots).1, o.edit.isInsert = false ∧ o.close.Tight) ∧
      ∀ t ∈ (closeUntil stays opened finished roots).2, t.Tight := by
  induction opened generalizing finished with
  | nil =>
    refine ⟨by simp [closeUntil], fun t ht => ?_⟩
    rcases List.mem_append.mp ht with ht | ht
    · exact (hfinished t ht).2
    · exact hroots t ht
  | cons o rest ih =>
    obtain ⟨⟨hplain, htight⟩, hrest⟩ := List.forall_mem_cons.mp hopened
    have hmerged : ({ o with inside := finished ++ o.inside } : OpenEdit).close.Tight := by
      rw [OpenEdit.tight_close] at htight ⊢
      intro c hc
      rcases List.mem_append.mp hc with hc | hc
      · exact ⟨by simp [(hfinished c hc).1], (hfinished c hc).2⟩
      · exact htight c hc
    simp only [closeUntil]
    split
    · exact ⟨List.forall_mem_cons.mpr ⟨⟨hplain, hmerged⟩, hrest⟩, hroots⟩
    · exact ih _ hrest (by simpa using ⟨hplain, hmerged⟩)

theorem Sound.place {n : Nesting} {e : Edit} (h : n.Sound) (hbefore : ∀ a ∈ n.kept, a.precedes e = true) :
    (n.place e).Sound := by
  obtain ⟨hopened, hroots⟩ := closeUntil_tight (·.opensInside e) [] h.opened (by simp) h.roots
  have hkept := closeUntil_perm (·.opensInside e) n.opened [] n.roots
  unfold Nesting.place
  generalize hcut : closeUntil (·.opensInside e) n.opened [] n.roots = cut at hopened hroots hkept
  obtain ⟨opened, roots⟩ := cut
  have hleaf : (node e []).Tight := tight_node.mpr (by simp)
  cases opened with
  | nil =>
    simp only
    split
    · exact ⟨by simp, List.forall_mem_cons.mpr ⟨hleaf, hroots⟩, h.dropped⟩
    · rename_i hinsert
      exact ⟨by simpa using ⟨Bool.eq_false_iff.mpr hinsert, hleaf⟩, hroots, h.dropped⟩
  | cons o rest =>
    obtain ⟨⟨hplain, htight⟩, hrest⟩ := List.forall_mem_cons.mp hopened
    have hinside := closeUntil_stays hcut rfl
    simp only
    split
    · refine ⟨List.forall_mem_cons.mpr ⟨⟨hplain, ?_⟩, hrest⟩, hroots, h.dropped⟩
      rw [OpenEdit.tight_close] at htight ⊢
      exact List.forall_mem_cons.mpr ⟨⟨fun _ => hinside, hleaf⟩, htight⟩
    · rename_i hinsert
      have hinsert : e.isInsert = false := Bool.eq_false_iff.mpr hinsert
      split
      · rename_i hbehind
        have hprecedes : o.edit.precedes e = true := hbefore _ (hkept.mem_iff.mp (by simp [kept]))
        have hoverlaps := Edit.overlaps_of_precedes hprecedes hplain hinsert hinside hbehind
        exact ⟨hopened, hroots, List.forall_mem_cons.mpr ⟨hoverlaps, h.dropped⟩⟩
      · exact ⟨List.forall_mem_cons.mpr ⟨⟨hinsert, hleaf⟩, hopened⟩, hroots, h.dropped⟩

theorem sound_foldl_place (edits : List Edit) : ((Edit.sortByPosition edits).foldl place {}).Sound :=
  foldl_place_induction (fun _ _ hbefore h => h.place hbefore) _ (Edit.sortByPosition_sorted edits) {}
    (by simp [kept, editsAll]) ⟨by simp, by simp, by simp⟩

end Nesting

open EditTree Edit

theorem nest_tight {edits : List Edit} {t : EditTree} (h : t ∈ (nest edits).1) : t.Tight := by
  have hsound := Nesting.sound_foldl_place edits
  have hclosed := Nesting.closeUntil_tight (fun _ => false) [] hsound.opened (by simp) hsound.roots
  exact hclosed.2 t (List.mem_reverse.mp h)

theorem nest_dropped_overlaps {edits : List Edit} {d : Edit × Edit} (h : d ∈ (nest edits).2) :
    d.2.span.Overlaps d.1.span :=
  (Nesting.sound_foldl_place edits).dropped d (List.mem_reverse.mp h)

/-! ### Places in the forest -/

namespace Edit.Compatible

variable {source : Text} {edits : List Edit}

theorem nest_dropped_eq_nil (h : Compatible edits) : (nest edits).2 = [] := by
  refine List.eq_nil_iff_forall_not_mem.mpr fun d hd => ?_
  have hdropped : d.1 ∈ edits :=
    (nest_perm edits).mem_iff.mp (List.mem_append_right _ (List.mem_map_of_mem hd))
  have hkept : d.2 ∈ edits := (nest_perm edits).mem_iff.mp (List.mem_append_left _ (nest_dropped hd))
  exact h.not_overlaps hkept hdropped (nest_dropped_overlaps hd)

theorem forest_eq (h : Compatible edits) (source : Text) : forest source edits = (nest edits).1 := by
  rw [forest, h.separateBlanks_eq]

theorem editsAll_forest_perm (h : Compatible edits) (source : Text) :
    (editsAll (forest source edits)).Perm edits := by
  have hperm := nest_perm edits
  rw [h.nest_dropped_eq_nil] at hperm
  rw [h.forest_eq]
  simpa using hperm

theorem link_encloses (h : Compatible edits) (hinside : ∀ e ∈ edits, e.Inside source.size) {p e : Edit}
    (hlink : (p, e) ∈ linksAll (forest source edits)) : p.Encloses e := by
  have hcontains := Span.contains_iff.mp (Row.link_contains (forest_row hinside) hlink)
  have hmem := (h.editsAll_forest_perm source).mem_iff.mp (mem_editsAll_of_mem_linksAll hlink).2
  have hordered := (hinside e hmem).start_le_stop
  cases hinsert : e.isInsert with
  | true =>
    obtain ⟨t, ht, hl⟩ := mem_linksAll.mp hlink
    have htight := nest_tight (h.forest_eq source ▸ ht) _ hl hinsert
    have hstop : e.span.stop ≤ e.span.start := by simpa [isInsert, Span.isEmpty] using hinsert
    simp only [opensInside, hinsert, ↓reduceIte, Bool.and_eq_true, decide_eq_true_eq] at htight
    refine ⟨?_, ?_⟩
    · simp only [isInsert, Span.isEmpty, decide_eq_false_iff_not]
      omega
    · simp only [hinsert, ↓reduceIte]
      omega
  | false =>
    have hlt : e.span.start < e.span.stop := by simpa [isInsert, Span.isEmpty] using hinsert
    have hne : p.span ≠ e.span := by
      have hpair := ((linksAll_sublist hlink).map (·.span)).nodup
        (((h.editsAll_forest_perm source).map _).nodup_iff.mpr h.distinct)
      simpa using hpair
    refine ⟨?_, ?_⟩
    · simp only [isInsert, Span.isEmpty, decide_eq_false_iff_not]
      omega
    · simpa [hinsert, Span.contains_iff] using ⟨hcontains, hne⟩

/-- Nothing encloses a compatible edit exactly when it stands at the top. -/
theorem root_iff (h : Compatible edits) (hinside : ∀ e ∈ edits, e.Inside source.size) {e : Edit}
    (he : e ∈ edits) : (∃ t ∈ forest source edits, t.edit = e) ↔ ∀ o ∈ edits, ¬ o.Encloses e := by
  have hperm := h.editsAll_forest_perm source
  constructor
  · rintro ⟨t, ht, rfl⟩ o ho
    exact (forest_row hinside).not_encloses ht (hperm.mem_iff.mpr ho)
  · intro hfree
    rcases root_or_link (hperm.mem_iff.mpr he) with hroot | ⟨p, hlink⟩
    · exact hroot
    · have hp := hperm.mem_iff.mp (mem_editsAll_of_mem_linksAll hlink).1
      exact absurd (h.link_encloses hinside hlink) (hfree p hp)

/-- A compatible edit hangs under the innermost edit that encloses it. -/
theorem mem_linksAll_forest_iff (h : Compatible edits) (hinside : ∀ e ∈ edits, e.Inside source.size)
    {p e : Edit} (he : e ∈ edits) : (p, e) ∈ linksAll (forest source edits) ↔ Innermost edits p e := by
  have hperm := h.editsAll_forest_perm source
  have hinnermost {p : Edit} (hlink : (p, e) ∈ linksAll (forest source edits)) : Innermost edits p e := by
    refine ⟨hperm.mem_iff.mp (mem_editsAll_of_mem_linksAll hlink).1, h.link_encloses hinside hlink, ?_⟩
    intro o ho hencloses
    exact Row.contains_link (hinside e he).start_le_stop hencloses (forest_row hinside) hlink
      (hperm.mem_iff.mpr ho)
  refine ⟨hinnermost, fun hp => ?_⟩
  rcases root_or_link (hperm.mem_iff.mpr he) with hroot | ⟨q, hlink⟩
  · exact absurd hp.encloses ((h.root_iff hinside he).mp hroot p hp.mem)
  · -- two innermost edits reach over each other
    have hq := hinnermost hlink
    have hspan := Span.eq_of_contains (hq.smallest p hp.mem hp.encloses) (hp.smallest q hq.mem hq.encloses)
    rwa [← h.eq_of_span_eq hp.mem hq.mem hspan] at hlink

end Edit.Compatible

/-! ### Emitted edits -/

/-- The expression that takes the place of `p` copies a piece of the source that holds `span`. -/
def Edit.Embeds (p : Edit) (span : Span) : Prop :=
  ∃ ex, p.replacement = .expr ex ∧ ∃ limit ∈ ex.sources, limit.contains span = true

namespace EditTree

/-- The trees of a row that appear are those inside one of the copied spans. -/
theorem shown_contained {lo hi : Nat} {ts : List EditTree} (h : Row lo hi ts) (limits : List Span) :
    shown limits (spans ts) = ts.map fun t => limits.any (·.contains t.span) := by
  have hfold (f : EditTree → Bool) : limits.foldl (fun mask limit =>
      (mask.zip (spliceable limit limit.start (spans ts))).map fun p => p.1 || p.2) (ts.map f)
      = ts.map fun t => f t || limits.any (·.contains t.span) := by
    induction limits generalizing f with
    | nil => simp
    | cons limit rest ih =>
      rw [List.foldl_cons, spliceable_contained h (Nat.le_max_left _ _), List.zip_map', List.map_map]
      refine (ih _).trans (List.map_congr_left fun t _ => ?_)
      simp [Bool.or_assoc]
  have hstart : (spans ts).map (fun _ => false) = ts.map fun _ => false := by simp [spans]
  rw [shown, hstart, hfold]
  simp

theorem marked_filter {α β : Type} (ts : List β) (p : β → Bool) (f : β → List α) :
    marked (ts.map p) (ts.map f) = (ts.filter p).flatMap f := by
  induction ts with
  | nil => rfl
  | cons t rest ih => cases hp : p t <;> simp [marked, hp, ih]

theorem marked_sublist {α : Type} (marks : List Bool) (ls : List (List α)) :
    (marked marks ls).Sublist ls.flatten := by
  induction ls generalizing marks with
  | nil => cases marks <;> simp [marked]
  | cons l rest ih =>
    cases marks with
    | nil => simp [marked]
    | cons mark marks =>
      cases mark with
      | false => exact (ih marks).trans (List.sublist_append_right ..)
      | true => exact (ih marks).append_left l

/-- The emitted edits of a laminar tree are its own and those of the trees below that its expression embeds. -/
theorem mem_emitted_node {e e₀ : Edit} {children : List EditTree} (h : (node e₀ children).Laminar) :
    e ∈ (node e₀ children).emitted ↔
      e = e₀ ∨ ∃ c ∈ children, e₀.Embeds c.edit.span ∧ e ∈ c.emitted := by
  rw [emitted]
  cases hreplacement : e₀.replacement with
  | expr ex =>
    have hembeds (c : EditTree) : ex.sources.any (·.contains c.span) = true ↔ e₀.Embeds c.edit.span := by
      simp [Edit.Embeds, hreplacement, span]
    simp only [shown_contained h.2, emittedAll_eq_map, marked_filter, List.mem_cons, List.mem_flatMap,
      List.mem_filter, hembeds, and_assoc]
  | text s => simp [Edit.Embeds, hreplacement]
  | delete => simp [Edit.Embeds, hreplacement]

mutual

theorem emitted_sublist : ∀ t : EditTree, t.emitted.Sublist t.edits
  | node e children => by
    rw [emitted]
    split
    · exact ((marked_sublist _ _).trans (emittedAll_sublist children)).cons_cons e
    · exact (List.nil_sublist _).cons_cons e

theorem emittedAll_sublist : ∀ ts : List EditTree, (emittedAll ts).flatten.Sublist (editsAll ts)
  | [] => .slnil
  | t :: rest => (emitted_sublist t).append (emittedAll_sublist rest)

end

theorem eq_of_mem_edits {ts : List EditTree} (h : (editsAll ts).Nodup) {t u : EditTree} (ht : t ∈ ts)
    (hu : u ∈ ts) {e : Edit} (het : e ∈ t.edits) (heu : e ∈ u.edits) : t = u := by
  induction ts with
  | nil => cases ht
  | cons first rest ih =>
    obtain ⟨-, hrest, hdisjoint⟩ := List.nodup_append.mp h
    have hother {v : EditTree} (hv : v ∈ rest) (hev : e ∈ v.edits) : e ∈ editsAll rest :=
      mem_editsAll.mpr ⟨v, hv, hev⟩
    rcases List.mem_cons.mp ht with rfl | ht'
    · rcases List.mem_cons.mp hu with rfl | hu'
      · rfl
      · exact absurd rfl (hdisjoint e het e (hother hu' heu))
    · rcases List.mem_cons.mp hu with rfl | hu'
      · exact absurd rfl (hdisjoint e heu e (hother ht' het))
      · exact ih hrest ht' hu'

mutual

/-- Below the top, what an emitted edit embeds is emitted. -/
theorem mem_emitted_of_link {p e : Edit} (hembeds : p.Embeds e.span) : ∀ {t : EditTree}, t.Laminar →
    t.edits.Nodup → (p, e) ∈ t.links → p ∈ t.emitted → e ∈ t.emitted
  | node e₀ children, h, hnodup, hlink, hp => by
    obtain ⟨hfresh, hnodup⟩ := List.nodup_cons.mp hnodup
    rw [mem_emitted_node h] at hp ⊢
    rcases mem_links_node.mp hlink with ⟨rfl, c, hc, rfl⟩ | hbelow
    · exact .inr ⟨c, hc, hembeds, edit_mem_emitted c⟩
    · rcases hp with rfl | ⟨c, hc, hshown, hp⟩
      · exact absurd (mem_editsAll_of_mem_linksAll hbelow).1 hfresh
      · exact .inr ⟨c, hc, hshown, mem_emitted_of_linksAll hembeds h.2 hnodup hbelow hc hp⟩

theorem mem_emitted_of_linksAll {p e : Edit} (hembeds : p.Embeds e.span) : ∀ {ts : List EditTree}
    {lo hi : Nat}, Row lo hi ts → (editsAll ts).Nodup → (p, e) ∈ linksAll ts → ∀ {t : EditTree}, t ∈ ts →
      p ∈ t.emitted → e ∈ t.emitted
  | [], _, _, _, _, hlink, _, _, _ => absurd hlink List.not_mem_nil
  | first :: rest, _, _, h, hnodup, hlink, t, ht, hp => by
    obtain ⟨hfirst, hrest, hdisjoint⟩ := List.nodup_append.mp hnodup
    have hpt : p ∈ t.edits := (emitted_sublist t).subset hp
    rcases List.mem_append.mp hlink with hlink | hlater
    · obtain rfl := eq_of_mem_edits hnodup ht List.mem_cons_self hpt (mem_edits_of_mem_links hlink).1
      exact mem_emitted_of_link hembeds h.2.1 hfirst hlink hp
    · rcases List.mem_cons.mp ht with rfl | ht
      · exact absurd rfl (hdisjoint p hpt p (mem_editsAll_of_mem_linksAll hlater).1)
      · exact mem_emitted_of_linksAll hembeds h.2.2 hrest hlater ht hp

end

mutual

/-- An emitted edit below the top hangs under an emitted one that embeds it. -/
theorem link_of_mem_emitted {e : Edit} : ∀ {t : EditTree}, t.Laminar → e ∈ t.emitted →
    t.edit = e ∨ ∃ p, (p, e) ∈ t.links ∧ p ∈ t.emitted ∧ p.Embeds e.span
  | node e₀ children, h, he => by
    rcases (mem_emitted_node h).mp he with rfl | ⟨c, hc, hshown, he⟩
    · exact .inl rfl
    · right
      rcases link_of_mem_emitted_of_row h.2 c hc he with rfl | ⟨p, hlink, hp, hembeds⟩
      · exact ⟨e₀, mem_links_node.mpr (.inl ⟨rfl, c, hc, rfl⟩), edit_mem_emitted _, hshown⟩
      · refine ⟨p, mem_links_node.mpr (.inr (mem_linksAll.mpr ⟨c, hc, hlink⟩)), ?_, hembeds⟩
        exact (mem_emitted_node h).mpr (.inr ⟨c, hc, hshown, hp⟩)

theorem link_of_mem_emitted_of_row {e : Edit} : ∀ {ts : List EditTree} {lo hi : Nat}, Row lo hi ts →
    ∀ t ∈ ts, e ∈ t.emitted → t.edit = e ∨ ∃ p, (p, e) ∈ t.links ∧ p ∈ t.emitted ∧ p.Embeds e.span
  | [], _, _, _ => by simp
  | _ :: _, _, _, h =>
    List.forall_mem_cons.mpr ⟨link_of_mem_emitted h.2.1, link_of_mem_emitted_of_row h.2.2⟩

end

end EditTree

def emittedEdits (source : Text) (edits : List Edit) : List Edit :=
  marked (shown [⟨0, source.size⟩] (spans (forest source edits))) (emittedAll (forest source edits))

theorem emittedEdits_eq {source : Text} {edits : List Edit} (hinside : ∀ e ∈ edits, e.Inside source.size) :
    emittedEdits source edits = (forest source edits).flatMap emitted := by
  rw [emittedEdits, shown_row (forest_row hinside), emittedAll_eq_map, marked_all]

namespace Edit.Compatible

variable {source : Text} {edits : List Edit}

theorem emittedEdits_subperm (h : Compatible edits) (source : Text) :
    (emittedEdits source edits).Subperm edits :=
  ((marked_sublist _ _).trans (emittedAll_sublist _)).subperm.trans (h.editsAll_forest_perm source).subperm

/-- The emitted edits are those at the top, and those that an emitted edit right above embeds. -/
theorem mem_emittedEdits_iff (h : Compatible edits) (hinside : ∀ e ∈ edits, e.Inside source.size) {e : Edit} :
    e ∈ emittedEdits source edits ↔ (∃ t ∈ forest source edits, t.edit = e) ∨
      ∃ p, (p, e) ∈ linksAll (forest source edits) ∧ p ∈ emittedEdits source edits ∧ p.Embeds e.span := by
  have hrow := forest_row hinside
  have hnodup : (editsAll (forest source edits)).Nodup :=
    (h.editsAll_forest_perm source).nodup_iff.mpr (List.Nodup.of_map _ h.distinct)
  rw [emittedEdits_eq hinside]
  simp only [List.mem_flatMap]
  constructor
  · rintro ⟨t, ht, he⟩
    rcases link_of_mem_emitted_of_row hrow t ht he with hroot | ⟨p, hlink, hp, hembeds⟩
    · exact .inl ⟨t, ht, hroot⟩
    · exact .inr ⟨p, mem_linksAll.mpr ⟨t, ht, hlink⟩, ⟨t, ht, hp⟩, hembeds⟩
  · rintro (⟨t, ht, rfl⟩ | ⟨p, hlink, ⟨t, ht, hp⟩, hembeds⟩)
    · exact ⟨t, ht, edit_mem_emitted t⟩
    · exact ⟨t, ht, mem_emitted_of_linksAll hembeds hrow hnodup hlink ht hp⟩

end Edit.Compatible

/-! ### The whole file -/

theorem applyEdits_diagnostics (source : Text) (style : Style) (edits : List Edit) :
    (applyEdits source style edits).diagnostics =
      (nest (separateBlanks source edits)).2.map fun d => overlapWarning source d.1 d.2 := rfl

/-- Applying compatible edits drops none of them. The forest is the order of containment: at the top stand
the edits that no other encloses, and each other one hangs under the innermost edit that encloses it. Of the
rewrites of each rule those are counted that stand at the top, or that a counted edit right above embeds. -/
theorem applyEdits_containment {source : Text} {edits : List Edit} (style : Style)
    (hinside : ∀ e ∈ edits, e.Inside source.size) (h : Edit.Compatible edits) :
    ((editsAll (forest source edits)).Perm edits ∧ (applyEdits source style edits).diagnostics = []) ∧
    (∀ e ∈ edits, (∃ t ∈ forest source edits, t.edit = e) ↔ ∀ o ∈ edits, ¬ o.Encloses e) ∧
    (∀ e ∈ edits, ∀ p, (p, e) ∈ linksAll (forest source edits) ↔ Innermost edits p e) ∧
    ((emittedEdits source edits).Subperm edits ∧ ∀ rule, (applyEdits source style edits).counts.get rule =
      ((emittedEdits source edits).map (·.rule)).count rule) ∧
    ∀ e ∈ edits, e ∈ emittedEdits source edits ↔ (∃ t ∈ forest source edits, t.edit = e) ∨
      ∃ p, (p, e) ∈ linksAll (forest source edits) ∧ p ∈ emittedEdits source edits ∧ p.Embeds e.span := by
  refine ⟨⟨h.editsAll_forest_perm source, ?_⟩, fun e he => h.root_iff hinside he,
    fun e he p => h.mem_linksAll_forest_iff hinside he, ⟨h.emittedEdits_subperm source, fun rule => ?_⟩,
    fun e _ => h.mem_emittedEdits_iff hinside⟩
  · rw [applyEdits_diagnostics, h.separateBlanks_eq, h.nest_dropped_eq_nil, List.map_nil]
  · rw [(applyEdits_eq source style edits).2]
    exact Counts.get_ofNames _ rule

/-- In `f(x, y.z);` the call, both arguments and `y` are replaced, and a text is put right behind the `x`. It
hangs under the call, since it does not lie inside the `x`. -/
theorem applyEdits_containment_call :
    let source : Text := "f(x, y.z);".toList
    let call := Edit.replace ⟨0, 9⟩ (.callPath "g" [.source ⟨5, 8⟩ 20]) "call"
    let mark := Edit.insert 3 "!" "mark"
    let edits := [Edit.replaceText ⟨5, 6⟩ "w" "name", Edit.replaceText ⟨2, 3⟩ "v" "name", call, mark,
      Edit.replace ⟨5, 8⟩ (.method (.source ⟨5, 6⟩ 20) "z" []) "access"]
    (∀ e ∈ edits, e.Inside source.size) ∧ Edit.Compatible edits ∧
      (call, mark) ∈ linksAll (forest source edits) ∧
      (applyEdits source {} edits).counts.get "name" =
        ((emittedEdits source edits).map (·.rule)).count "name" := by
  intro source call mark edits
  have hbounds : ∀ e ∈ edits, e.span.start ≤ e.span.stop ∧ e.span.stop ≤ source.size := by decide
  have hinside : ∀ e ∈ edits, e.Inside source.size := fun e he => ⟨(hbounds e he).1, (hbounds e he).2⟩
  have hcompatible : Edit.Compatible edits := ⟨by decide, by decide⟩
  have hinnermost : Innermost edits call mark := ⟨by simp [edits], by decide, by decide⟩
  obtain ⟨-, -, hlinks, ⟨-, hcounts⟩, -⟩ := applyEdits_containment {} hinside hcompatible
  exact ⟨hinside, hcompatible, (hlinks mark (by simp [edits]) call).mpr hinnermost, hcounts "name"⟩

end TestMigration
