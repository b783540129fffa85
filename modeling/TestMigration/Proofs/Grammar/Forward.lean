import Mathlib.Data.List.DropRight
import TestMigration.Grammar.Source
import TestMigration.Proofs.Grammar.Placed
import TestMigration.Proofs.Grammar.Splits
import TestMigration.Proofs.Tree.Orderly

/-!
# Scans move forward

`Scan.Stands source s`: the scan stands in the source where it says it stands, and the comments it passed stand one
behind the other in front of it. A node that begins at an offset is `Ready` to begin there or has `Begun`; it is `Done`
once it ends. Scanning on (`Scan.Leads`) leaves what is done as it is, and passing over blanks and comments
(`Scan.Skips`) leaves the next token where it is.
-/

namespace TestMigration

namespace Scan

def next (s : Scan) : Nat := s.skip.pos

/-- The scan stands where it says. The comments it passed are placed, stand one behind the other and end here at
last. -/
class Stands (source : Text) (s : Scan) : Prop where
  rest : ∃ before, source = before ++ s.rest ∧ Text.size before = s.pos
  comments : ∀ c ∈ s.comments, c.Placed source ∧ c.Remark ∧ c.stop ≤ s.pos
  row : s.comments.Pairwise fun a b => b.stop ≤ a.start

/-- `s'` comes behind `s`. -/
class Leads (s s' : Scan) : Prop where
  pos : s.pos ≤ s'.pos
  comments : ∀ c ∈ s'.comments, c ∈ s.comments ∨ s.pos ≤ c.start

/-- `s'` comes behind `s`, and no token stands between them. -/
structure Skips (source : Text) (s s' : Scan) : Prop where
  stands : s'.Stands source
  leads : s.Leads s'
  next : s'.next = s.next

/-- A node that begins at `k` begins with the next token or has begun before. -/
class Ready (source : Text) (k : Nat) (s : Scan) : Prop where
  boundary : source.Boundary k
  begun : k < s.pos ∨ k = s.next
  comments : ∀ c ∈ s.comments, c.stop ≤ k ∨ k < c.start

/-- A node that begins at `k` has begun. -/
class Begun (source : Text) (k : Nat) (s : Scan) : Prop extends Ready source k s where
  lt : k < s.pos

/-- The node is done: it ends here at last, and the comments passed are clear of it. -/
structure Done (source : Text) (s : Scan) (n : Node) : Prop where
  placed : n.Placed source
  orderly : n.Orderly
  kind : n.kind ≠ .comment
  start_lt_stop : n.start < n.stop
  stop : n.stop ≤ s.pos
  clear : ∀ c ∈ s.comments, c.ClearOf n

variable {source : Text} {s s' s'' : Scan} {k : Nat} {n : Node}

theorem Leads.trans (h : s.Leads s') (h' : s'.Leads s'') : s.Leads s'' where
  pos := Nat.le_trans h.pos h'.pos
  comments := by
    intro c hc
    rcases h'.comments c hc with hc | hc
    · exact h.comments c hc
    · exact .inr (Nat.le_trans h.pos hc)

instance Leads.refl (s : Scan) : s.Leads s := ⟨Nat.le_refl _, fun _ => .inl⟩

theorem Skips.trans (h : s.Skips source s') (h' : s'.Skips source s'') : s.Skips source s'' :=
  ⟨h'.stands, h.leads.trans h'.leads, h'.next.trans h.next⟩

theorem Done.mono (h : s.Done source n) (hs : s.Leads s') : s'.Done source n where
  placed := h.placed
  orderly := h.orderly
  kind := h.kind
  start_lt_stop := h.start_lt_stop
  stop := Nat.le_trans h.stop hs.pos
  clear := by
    intro c hc
    rcases hs.comments c hc with hc | hc
    · exact h.clear c hc
    · exact h.orderly.clearOf_of_le (Nat.le_trans h.stop hc)

theorem Begun.mono (h : s.Begun source k) (hs : s.Leads s') : s'.Begun source k where
  boundary := h.boundary
  begun := .inl (Nat.lt_of_lt_of_le h.lt hs.pos)
  lt := Nat.lt_of_lt_of_le h.lt hs.pos
  comments := by
    intro c hc
    rcases hs.comments c hc with hc | hc
    · exact h.comments c hc
    · exact .inr (Nat.lt_of_lt_of_le h.lt hc)

theorem Done.begun (h : s.Done source n) : s.Begun source n.start where
  boundary := h.placed.start
  begun := .inl (Nat.lt_of_lt_of_le h.start_lt_stop h.stop)
  lt := Nat.lt_of_lt_of_le h.start_lt_stop h.stop
  comments := by
    intro c hc
    have hn := h.start_lt_stop
    rcases (h.clear c hc).outside with hc | hc | hc
    · exact .inl hc
    · exact .inr (Nat.lt_of_lt_of_le hn hc)
    · exact .inr hc.2.1

theorem Done.playing_iff {r : Role} : s.Done source (n.playing r) ↔ s.Done source n := by
  obtain ⟨r', k, span, cs⟩ := n
  constructor
  · rintro ⟨h₁, h₂, h₃, h₄, h₅, h₆⟩
    exact ⟨h₁.playing r', Node.Orderly.playing_iff.mp h₂, h₃, h₄, h₅,
      fun c hc => Node.ClearOf.playing_iff.mp (h₆ c hc)⟩
  · rintro ⟨h₁, h₂, h₃, h₄, h₅, h₆⟩
    exact ⟨h₁.playing r, Node.Orderly.playing_iff.mpr h₂, h₃, h₄, h₅,
      fun c hc => Node.ClearOf.playing_iff.mpr (h₆ c hc)⟩

/-! ### Blanks and comments -/

theorem Stands.boundary (h : s.Stands source) : source.Boundary s.pos := by
  obtain ⟨before, hsource, hsize⟩ := h.rest
  exact ⟨before, s.rest, hsource, hsize⟩

theorem Stands.advance (h : s.Stands source) {taken rest : Text} (hrest : s.rest = taken ++ rest) :
    (s.advance taken rest).Stands source := by
  obtain ⟨before, hsource, hsize⟩ := h.rest
  refine ⟨⟨before ++ taken, ?_, ?_⟩, ?_, h.row⟩
  · rw [hsource, hrest, List.append_assoc]
    rfl
  · rw [Text.size_append, hsize]
    rfl
  · intro c hc
    obtain ⟨hplaced, hremark, hstop⟩ := h.comments c hc
    exact ⟨hplaced, hremark, Nat.le_trans hstop (Nat.le_add_right ..)⟩

theorem leads_advance (s : Scan) (taken rest : Text) : s.Leads (s.advance taken rest) :=
  ⟨Nat.le_add_right .., fun _ => .inl⟩

theorem comment?_eq_some (h : s.comment? = some s') : ∃ taken rest,
    Lexeme.comment s.skipGaps.rest = some (taken, rest) ∧
    s' = { s.skipGaps.advance taken rest with
      comments := .mk .part .comment ⟨s.skipGaps.pos, s.skipGaps.pos + Text.size taken⟩ [] :: s.comments } := by
  unfold comment? at h
  dsimp only at h
  split at h
  · rename_i taken rest htaken
    cases h
    exact ⟨taken, rest, htaken, rfl⟩
  · cases h

theorem skipGaps_skipGaps (s : Scan) : s.skipGaps.skipGaps = s.skipGaps := by
  have hdrop := List.dropWhile_idempotent (p := Lexeme.isGap) (l := s.rest)
  have htake : (s.rest.dropWhile Lexeme.isGap).takeWhile Lexeme.isGap = [] := by
    have happend := List.takeWhile_append_dropWhile (p := Lexeme.isGap) (l := s.rest.dropWhile Lexeme.isGap)
    rw [hdrop] at happend
    simpa using happend
  unfold skipGaps advance
  simp only [htake, hdrop]
  rfl

theorem comment?_skipGaps (s : Scan) : s.skipGaps.comment? = s.comment? := by
  unfold comment?
  rw [skipGaps_skipGaps]

theorem comment?_length (h : s.comment? = some s') : s'.rest.length < s.rest.length := by
  obtain ⟨taken, rest, hcomment, rfl⟩ := comment?_eq_some h
  have hrest : s.skipGaps.rest = taken ++ rest := Lexeme.comment_splits.eq_append hcomment
  have htaken := List.length_pos_iff.mpr (Lexeme.comment_takes.ne_nil hcomment)
  have hgaps : s.skipGaps.rest.length ≤ s.rest.length := (List.dropWhile_sublist _).length_le
  rw [hrest, List.length_append] at hgaps
  show rest.length < s.rest.length
  omega

theorem comment?_eq_none (h : s.rest.length = 0) : s.comment? = none := by
  cases hs : s.comment? with
  | none => rfl
  | some s' => exact absurd (comment?_length hs) (by omega)

theorem skipGo_of_none (h : s.comment? = none) (n : Nat) : skipGo n s = s.skipGaps := by
  cases n with
  | zero => rfl
  | succ n => rw [skipGo, h]

/-- The bound on the comments does not matter as long as it is not reached. -/
theorem skipGo_eq {m n : Nat} (hm : s.rest.length ≤ m) (hn : s.rest.length ≤ n) : skipGo m s = skipGo n s := by
  induction m generalizing s n with
  | zero =>
    have hnone := comment?_eq_none (Nat.le_zero.mp hm)
    rw [skipGo_of_none hnone, skipGo_of_none hnone]
  | succ m ih =>
    cases hs : s.comment? with
    | none => rw [skipGo_of_none hs, skipGo_of_none hs]
    | some s' =>
      have hlength := comment?_length hs
      obtain ⟨n, rfl⟩ : ∃ n', n = n' + 1 := ⟨n - 1, by omega⟩
      rw [skipGo, skipGo, hs]
      exact ih (by omega) (by omega)

theorem next_of_comment? (h : s.comment? = some s') : s'.next = s.next := by
  have hlength := comment?_length h
  obtain ⟨n, hn⟩ : ∃ n, s.rest.length = n + 1 := ⟨s.rest.length - 1, by omega⟩
  unfold next skip
  rw [hn, skipGo, h]
  exact congrArg Scan.pos (skipGo_eq (Nat.le_refl _) (by omega))

theorem next_skipGaps (s : Scan) : s.skipGaps.next = s.next := by
  have hgaps : s.skipGaps.rest.length ≤ s.rest.length := (List.dropWhile_sublist _).length_le
  have hgo (n : Nat) : skipGo n s.skipGaps = skipGo n s := by
    cases n with
    | zero => exact skipGaps_skipGaps s
    | succ n => rw [skipGo, skipGo, comment?_skipGaps, skipGaps_skipGaps]
  unfold next skip
  rw [skipGo_eq (Nat.le_refl _) hgaps, hgo]

namespace Stands

theorem skipGaps (h : s.Stands source) : s.Skips source s.skipGaps :=
  ⟨h.advance (List.takeWhile_append_dropWhile ..).symm, leads_advance .., next_skipGaps s⟩

theorem comment? (h : s.Stands source) (hs : s.comment? = some s') : s.Skips source s' := by
  refine ⟨?_, ?_, next_of_comment? hs⟩
  all_goals obtain ⟨taken, rest, hcomment, rfl⟩ := comment?_eq_some hs
  · have hgaps := h.skipGaps.stands
    have hadvance := hgaps.advance (Lexeme.comment_splits.eq_append hcomment)
    have hsize : 0 < Text.size taken := Text.size_pos_of_ne_nil (Lexeme.comment_takes.ne_nil hcomment)
    refine ⟨hadvance.rest, ?_, ?_⟩
    · intro c hc
      rcases List.mem_cons.mp hc with rfl | hc
      · exact ⟨.mk hgaps.boundary hadvance.boundary (Nat.le_add_right ..) (by simp),
          ⟨rfl, rfl, Nat.lt_add_of_pos_right hsize⟩, Nat.le_refl _⟩
      · exact hadvance.comments c hc
    · refine List.pairwise_cons.mpr ⟨?_, h.row⟩
      intro c hc
      exact (hgaps.comments c hc).2.2
  · have hgaps := h.skipGaps.leads.pos
    refine ⟨Nat.le_trans hgaps (Nat.le_add_right ..), ?_⟩
    intro c hc
    rcases List.mem_cons.mp hc with rfl | hc
    · exact .inr hgaps
    · exact .inl hc

theorem skipGo (n : Nat) (h : s.Stands source) : s.Skips source (Scan.skipGo n s) := by
  induction n generalizing s with
  | zero => exact h.skipGaps
  | succ n ih =>
    unfold Scan.skipGo
    split
    · rename_i hs
      have hcomment := h.comment? hs
      exact hcomment.trans (ih hcomment.stands)
    · exact h.skipGaps

theorem skip (h : s.Stands source) : s.Skips source s.skip := h.skipGo _

theorem pos_le_next (h : s.Stands source) : s.pos ≤ s.next := h.skip.leads.pos

/-- Where a statement ends, the next token is the same as before. -/
theorem endGo {inExpression : Bool} {n : Nat} (h : s.Stands source) (hs : Scan.endGo inExpression n s = some s') :
    s.Skips source s' := by
  induction n generalizing s with
  | zero => cases hs
  | succ n ih =>
    unfold Scan.endGo at hs
    split at hs
    · cases hs
      exact ⟨h, .refl _, rfl⟩
    · split at hs
      · rename_i hcomment
        have hskips := h.comment? hcomment
        exact hskips.trans (ih hskips.stands hs)
      · cases hs

theorem ready (h : s.Stands source) : s.Ready source s.next where
  boundary := h.skip.stands.boundary
  begun := .inr rfl
  comments := by
    intro c hc
    exact .inl (Nat.le_trans (h.comments c hc).2.2 h.pos_le_next)

end Stands

theorem Ready.skips (h : s.Ready source k) (hs : s.Skips source s') : s'.Ready source k where
  boundary := h.boundary
  begun := by
    rcases h.begun with hk | hk
    · exact .inl (Nat.lt_of_lt_of_le hk hs.leads.pos)
    · exact .inr (hk.trans hs.next.symm)
  comments := by
    intro c hc
    rcases hs.leads.comments c hc with hold | hnew
    · exact h.comments c hold
    · rcases h.begun with hk | hk
      · exact .inr (Nat.lt_of_lt_of_le hk hnew)
      · have hstop := Nat.le_trans (hs.stands.comments c hc).2.2 hs.stands.pos_le_next
        exact .inl (by rw [hk, ← hs.next]; exact hstop)

theorem Stands.token (h : s.Stands source) {taken rest : Text} (hrest : s.skip.rest = taken ++ rest) :
    (s.skip.advance taken rest).Ready source s.next := by
  have hskip := h.ready.skips h.skip
  by_cases htaken : taken = []
  · subst htaken
    rw [List.nil_append] at hrest
    rwa [← hrest]
  · exact ⟨hskip.boundary, .inl (Nat.lt_add_of_pos_right (Text.size_pos_of_ne_nil htaken)), hskip.comments⟩

/-! ### Flags -/

def flagged (s : Scan) (markup endable bareArrows : Bool) : Scan := { s with markup, endable, bareArrows }

/-- `s'` is `s` with other flags. -/
def Alike (s s' : Scan) : Prop := ∃ markup endable bareArrows, s' = s.flagged markup endable bareArrows

section
variable {markup endable bareArrows : Bool}

theorem comment?_flagged :
    (s.flagged markup endable bareArrows).comment? = s.comment?.map (·.flagged markup endable bareArrows) := by
  have hgaps : (s.flagged markup endable bareArrows).skipGaps = s.skipGaps.flagged markup endable bareArrows := rfl
  unfold comment?
  rw [hgaps]
  dsimp only [flagged]
  rcases Lexeme.comment s.skipGaps.rest with _ | ⟨taken, rest⟩ <;> rfl

theorem skipGo_flagged (n : Nat) :
    skipGo n (s.flagged markup endable bareArrows) = (skipGo n s).flagged markup endable bareArrows := by
  induction n generalizing s with
  | zero => rfl
  | succ n ih =>
    rw [skipGo, skipGo, comment?_flagged]
    cases s.comment? with
    | none => rfl
    | some s' => exact ih

end

namespace Alike

theorem next (h : s.Alike s') : s'.next = s.next := by
  obtain ⟨markup, endable, bareArrows, rfl⟩ := h
  have hskip : (s.flagged markup endable bareArrows).skip = s.skip.flagged markup endable bareArrows :=
    skipGo_flagged _
  unfold Scan.next
  rw [hskip]
  rfl

theorem stands (h : s.Alike s') (hs : s.Stands source) : s'.Stands source := by
  obtain ⟨markup, endable, bareArrows, rfl⟩ := h
  exact ⟨hs.rest, hs.comments, hs.row⟩

theorem leads (h : s.Alike s') : s.Leads s' := by
  obtain ⟨markup, endable, bareArrows, rfl⟩ := h
  exact ⟨Nat.le_refl _, fun _ => .inl⟩

theorem ready (h : s.Alike s') (hk : s.Ready source k) : s'.Ready source k := by
  have hnext := h.next
  obtain ⟨markup, endable, bareArrows, rfl⟩ := h
  exact ⟨hk.boundary, hk.begun.imp_right (·.trans hnext.symm), hk.comments⟩

end Alike

end Scan

end TestMigration
