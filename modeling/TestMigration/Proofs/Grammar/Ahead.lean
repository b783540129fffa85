import TestMigration.Proofs.Grammar.Forward

/-!
# The same text ahead

Two scans that read the same text may stand at different offsets and come from different texts. `Scan.Matches` says
that the same text lies behind them, and `Scan.Meets` that it does so behind blanks and comments; the offsets are
compared after adding a distance to each. What is read from such scans is the same up to these distances (`Like`).
-/

namespace TestMigration

/-! ### Values that are moved -/

mutual

/-- The node with all offsets so much greater. -/
def Node.moved (d : Nat) : Node → Node
  | .mk r k s cs => .mk r k ⟨s.start + d, s.stop + d⟩ (Node.movedAll d cs)

def Node.movedAll (d : Nat) : List Node → List Node
  | [] => []
  | n :: rest => n.moved d :: Node.movedAll d rest

end

/-- Values that scanners return, with the offsets in them. -/
class Movable (α : Type) where
  moved : Nat → α → α

export Movable (moved)

namespace Movable

instance : Movable Node := ⟨Node.moved⟩
instance : Movable Span := ⟨fun d s => ⟨s.start + d, s.stop + d⟩⟩
instance : Movable Nat := ⟨fun d n => n + d⟩
instance : Movable Unit := ⟨fun _ => id⟩
instance : Movable Char := ⟨fun _ => id⟩
instance : Movable String := ⟨fun _ => id⟩
-- the number that comes with an operator is no offset
instance : Movable (String × Nat) := ⟨fun _ => id⟩

instance {α : Type} : Movable (α × Span) := ⟨fun d p => (p.1, moved d p.2)⟩
instance {α : Type} [Movable α] : Movable (List α) := ⟨fun d l => l.map (moved d)⟩
instance {α : Type} [Movable α] : Movable (Option α) := ⟨fun d o => o.map (moved d)⟩

/-- Values without offsets. -/
class Fixed (α : Type) [Movable α] : Prop where
  moved_eq : ∀ (d : Nat) (a : α), moved d a = a

instance : Fixed Unit := ⟨fun _ _ => rfl⟩
instance : Fixed Char := ⟨fun _ _ => rfl⟩
instance : Fixed String := ⟨fun _ _ => rfl⟩
instance : Fixed (String × Nat) := ⟨fun _ _ => rfl⟩

instance {α : Type} [Movable α] [h : Fixed α] : Fixed (List α) :=
  ⟨fun d l => by simp [moved, (funext (h.moved_eq d) : Movable.moved d = id)]⟩

instance {α : Type} [Movable α] [h : Fixed α] : Fixed (Option α) :=
  ⟨fun d o => by simp [moved, (funext (h.moved_eq d) : Movable.moved d = id)]⟩

end Movable

open Movable

/-- What two scans of the same text have in front of it: the distances that make their offsets the same, and the
comments that each of them had passed before. -/
structure Frame where
  left : Nat
  right : Nat
  before : List Node
  before' : List Node

/-- The values differ by the distances of the frame. -/
class Like (F : Frame) {α : Type} [Movable α] (a a' : α) : Prop where
  out : moved F.left a = moved F.right a'

/-- Two values that differ by the distances of the frame. -/
structure Twin (F : Frame) (α : Type) [Movable α] where
  fst : α
  snd : α
  like : moved F.left fst = moved F.right snd

namespace Like

section
variable {F : Frame} {α : Type} [Movable α]

instance (q : Twin F α) : Like F q.fst q.snd := ⟨q.like⟩
instance (a : α) [h : Fixed α] : Like F a a := ⟨by rw [h.moved_eq, h.moved_eq]⟩

instance : Like F ([] : List α) [] := ⟨rfl⟩
instance : Like F (none : Option α) none := ⟨rfl⟩
instance (a a' : α) [h : Like F a a'] : Like F (some a) (some a') := ⟨congrArg some h.out⟩

instance (a a' : α) (l l' : List α) [h : Like F a a'] [hl : Like F l l'] : Like F (a :: l) (a' :: l') :=
  ⟨congrArg₂ List.cons h.out hl.out⟩

instance (l₁ l₁' l₂ l₂' : List α) [h₁ : Like F l₁ l₁'] [h₂ : Like F l₂ l₂'] :
    Like F (l₁ ++ l₂) (l₁' ++ l₂') where
  out := by
    have h₁ := h₁.out
    have h₂ := h₂.out
    simp only [moved] at h₁ h₂ ⊢
    rw [List.map_append, List.map_append, h₁, h₂]

instance (o o' : Option α) [h : Like F o o'] : Like F o.toList o'.toList where
  out := by
    have h := h.out
    cases o <;> cases o' <;> simp_all [moved]

instance (o o' : Option (List α)) [h : Like F o o'] : Like F (o.getD []) (o'.getD []) where
  out := by
    have h := h.out
    cases o <;> cases o' <;> simp_all [moved]

instance (l l' : List (List α)) [h : Like F l l'] : Like F l.flatten l'.flatten where
  out := by
    have h := congrArg List.flatten h.out
    simpa only [moved, List.map_flatten] using h

instance (l l' : List (Option α)) [h : Like F l l'] : Like F (l.filterMap id) (l'.filterMap id) where
  out := by
    have h := congrArg (List.filterMap id) h.out
    simpa [moved, List.filterMap_map, List.map_filterMap, Function.comp_def] using h

theorem isEmpty {l l' : List α} (h : moved F.left l = moved F.right l') : l.isEmpty = l'.isEmpty := by
  have h := congrArg List.isEmpty h
  simpa [moved] using h

theorem option_cases {o o' : Option α} (h : moved F.left o = moved F.right o') :
    (o = none ∧ o' = none) ∨ ∃ a a', o = some a ∧ o' = some a' ∧ moved F.left a = moved F.right a' := by
  cases o with
  | none =>
    cases o' with
    | none => exact .inl ⟨rfl, rfl⟩
    | some a' => cases h
  | some a =>
    cases o' with
    | none => cases h
    | some a' => exact .inr ⟨a, a', rfl, rfl, Option.some.inj h⟩

theorem isSome {o o' : Option α} (h : moved F.left o = moved F.right o') : o.isSome = o'.isSome := by
  have h := congrArg Option.isSome h
  simpa [moved] using h

instance {β : Type} [Movable β] (l l' : List β) (a a' b b' : α) [hl : Like F l l'] [ha : Like F a a']
    [hb : Like F b b'] : Like F (if l.isEmpty then a else b) (if l'.isEmpty then a' else b') where
  out := by
    rw [isEmpty hl.out]
    split
    · exact ha.out
    · exact hb.out

end

section
variable {F : Frame}

theorem Node.movedAll_eq (d : Nat) (l : List Node) : Node.movedAll d l = moved d l := by
  induction l with
  | nil => rfl
  | cons n rest ih => rw [Node.movedAll, ih]; rfl

theorem moved_mk (d : Nat) (r : Role) (k : Kind) (s : Span) (cs : List Node) :
    moved d (Node.mk r k s cs) = .mk r k (moved d s) (moved d cs) := by
  rw [← Node.movedAll_eq]
  rfl

theorem Node.moved_injEq {r r' : Role} {k k' : Kind} {s s' : Span} {cs cs' : List Node} :
    moved F.left (Node.mk r k s cs) = moved F.right (Node.mk r' k' s' cs') ↔
      r = r' ∧ k = k' ∧ moved F.left s = moved F.right s' ∧ moved F.left cs = moved F.right cs' := by
  rw [moved_mk, moved_mk, Node.mk.injEq]

theorem kind {n n' : Node} (h : moved F.left n = moved F.right n') : n.kind = n'.kind := by
  obtain ⟨r, k, s, cs⟩ := n
  obtain ⟨r', k', s', cs'⟩ := n'
  exact (Node.moved_injEq.mp h).2.1

theorem role_moved (d : Nat) (n : Node) : (moved d n).role = n.role := by
  cases n
  rw [moved_mk]
  rfl

theorem child?_moved (d : Nat) (n : Node) (r : Role) : (moved d n).child? r = moved d (n.child? r) := by
  obtain ⟨r', k, s, cs⟩ := n
  let plays (n : Node) : Bool := n.role == r
  have hfind : (cs.map (moved d)).find? plays = (cs.find? (plays ∘ moved d)).map (moved d) := List.find?_map
  have hplays : plays ∘ moved d = plays := funext fun n => by simp only [plays, Function.comp, role_moved]
  rw [hplays] at hfind
  rw [moved_mk]
  exact hfind

/-- The last of the nodes has a child that plays the role, in both lists. -/
theorem getLast?_child?_isSome {l l' : List Node} (h : moved F.left l = moved F.right l') (r : Role) :
    (l.getLast?.bind (·.child? r)).isSome = (l'.getLast?.bind (·.child? r)).isSome := by
  have hlast : moved F.left l.getLast? = moved F.right l'.getLast? := by
    simpa only [moved, List.getLast?_map] using congrArg List.getLast? h
  rcases option_cases hlast with ⟨hl, hl'⟩ | ⟨n, n', hl, hl', hn⟩
  · rw [hl, hl']
  · rw [hl, hl', Option.bind_some, Option.bind_some]
    exact isSome (by rw [← child?_moved, ← child?_moved, hn])

instance (r : Role) (k : Kind) (s s' : Span) (cs cs' : List Node) [h : Like F s s'] [hcs : Like F cs cs'] :
    Like F (Node.mk r k s cs) (.mk r k s' cs') :=
  ⟨Node.moved_injEq.mpr ⟨rfl, rfl, h.out, hcs.out⟩⟩

instance (r : Role) (n n' : Node) [h : Like F n n'] : Like F (n.playing r) (n'.playing r) := by
  obtain ⟨r, k, s, cs⟩ := n
  obtain ⟨r', k', s', cs'⟩ := n'
  obtain ⟨-, hkind, hspan, hparts⟩ := Node.moved_injEq.mp h.out
  exact ⟨Node.moved_injEq.mpr ⟨rfl, hkind, hspan, hparts⟩⟩

instance (r : Role) (o o' : Option Node) [h : Like F o o'] :
    Like F (o.map (·.playing r)) (o'.map (·.playing r)) := by
  rcases option_cases h.out with ⟨rfl, rfl⟩ | ⟨n, n', rfl, rfl, hn⟩
  · exact inferInstanceAs (Like F (none : Option Node) none)
  · have hn : Like F n n' := ⟨hn⟩
    exact inferInstanceAs (Like F (some (n.playing r)) (some (n'.playing r)))

instance (n n' : Node) [h : Like F n n'] : Like F n.start n'.start := by
  obtain ⟨r, k, s, cs⟩ := n
  obtain ⟨r', k', s', cs'⟩ := n'
  exact ⟨(Span.mk.inj (Node.moved_injEq.mp h.out).2.2.1).1⟩

instance (s s' : Span) [h : Like F s s'] : Like F s.start s'.start := ⟨(Span.mk.inj h.out).1⟩

instance {α : Type} (a : α) (s s' : Span) [h : Like F s s'] : Like F (a, s) (a, s') := ⟨congrArg (a, ·) h.out⟩

end

end Like

namespace Scan

/-! ### Scans with the same text ahead -/

/-- The flags of the scans are the same. -/
structure SameFlags (s s' : Scan) : Prop where
  markup : s.markup = s'.markup
  endable : s.endable = s'.endable
  bareArrows : s.bareArrows = s'.bareArrows

/-- Since the comments of the frame the same ones were passed. -/
def SameComments (F : Frame) (s s' : Scan) : Prop :=
  ∃ passed passed' : List Node, moved F.left passed = moved F.right passed' ∧
    s.comments = passed ++ F.before ∧ s'.comments = passed' ++ F.before'

/-- The same text follows. -/
structure Matches (F : Frame) (s s' : Scan) : Prop extends SameFlags s s' where
  rest : s.rest = s'.rest
  pos : s.pos + F.left = s'.pos + F.right
  comments : SameComments F s s'

/-- The same text follows behind blanks and comments. -/
structure Meets (F : Frame) (s s' : Scan) : Prop extends SameFlags s s' where
  rest : s.skip.rest = s'.skip.rest
  pos : s.skip.pos + F.left = s'.skip.pos + F.right
  comments : SameComments F s.skip s'.skip

variable {F : Frame} {s s' t t' : Scan}

namespace SameFlags

theorem symm (h : s.SameFlags s') : s'.SameFlags s := ⟨h.markup.symm, h.endable.symm, h.bareArrows.symm⟩

theorem trans (h : s.SameFlags t) (h' : t.SameFlags t') : s.SameFlags t' :=
  ⟨h.markup.trans h'.markup, h.endable.trans h'.endable, h.bareArrows.trans h'.bareArrows⟩

theorem comment? (h : s.comment? = some t) : t.SameFlags s := by
  obtain ⟨taken, rest, -, rfl⟩ := comment?_eq_some h
  exact ⟨rfl, rfl, rfl⟩

theorem skipGo (n : Nat) (s : Scan) : (Scan.skipGo n s).SameFlags s := by
  induction n generalizing s with
  | zero => exact ⟨rfl, rfl, rfl⟩
  | succ n ih =>
    unfold Scan.skipGo
    split
    · rename_i next hnext
      exact (ih next).trans (.comment? hnext)
    · exact ⟨rfl, rfl, rfl⟩

theorem skip (s : Scan) : s.skip.SameFlags s := .skipGo ..

end SameFlags

theorem SameComments.cons {c c' : Node} (h : SameComments F s s') (hc : moved F.left c = moved F.right c')
    (ht : t.comments = c :: s.comments) (ht' : t'.comments = c' :: s'.comments) : SameComments F t t' := by
  obtain ⟨passed, passed', hpassed, hs, hs'⟩ := h
  exact ⟨c :: passed, c' :: passed', congrArg₂ List.cons hc hpassed, by rw [ht, hs]; rfl, by rw [ht', hs']; rfl⟩

namespace Matches

theorem advance (h : s.Matches F s') (taken rest : Text) :
    (s.advance taken rest).Matches F (s'.advance taken rest) where
  toSameFlags := ⟨h.markup, h.endable, h.bareArrows⟩
  rest := rfl
  pos := by
    have hpos := h.pos
    simp only [Scan.advance]
    omega
  comments := h.comments

theorem skipGaps (h : s.Matches F s') : s.skipGaps.Matches F s'.skipGaps := by
  unfold Scan.skipGaps
  rw [h.rest]
  exact h.advance ..

theorem comment? (h : s.Matches F s') : Option.Rel (Matches F) s.comment? s'.comment? := by
  have hgaps := h.skipGaps
  unfold Scan.comment?
  dsimp only
  rw [hgaps.rest]
  cases Lexeme.comment s'.skipGaps.rest with
  | none => exact .none
  | some r =>
    have hnext := hgaps.advance r.1 r.2
    have hspan : moved F.left (Span.mk s.skipGaps.pos (s.skipGaps.advance r.1 r.2).pos) =
        moved F.right (Span.mk s'.skipGaps.pos (s'.skipGaps.advance r.1 r.2).pos) := by
      simp only [moved, hgaps.pos, hnext.pos]
    refine .some { hnext with comments := hgaps.comments.cons ?_ rfl rfl }
    exact Like.Node.moved_injEq.mpr ⟨rfl, rfl, hspan, rfl⟩

theorem skipGo (h : s.Matches F s') (n : Nat) : (Scan.skipGo n s).Matches F (Scan.skipGo n s') := by
  induction n generalizing s s' with
  | zero => exact h.skipGaps
  | succ n ih =>
    have hcomment := h.comment?
    unfold Scan.skipGo
    generalize s.comment? = next at hcomment ⊢
    generalize s'.comment? = next' at hcomment ⊢
    cases hcomment with
    | none => exact h.skipGaps
    | some hnext => exact ih hnext

theorem skip (h : s.Matches F s') : s.skip.Matches F s'.skip := by
  unfold Scan.skip
  rw [h.rest]
  exact h.skipGo _

theorem meets (h : s.Matches F s') : s.Meets F s' :=
  ⟨h.toSameFlags, h.skip.rest, h.skip.pos, h.skip.comments⟩

theorem endGo (h : s.Matches F s') (inExpression : Bool) (n : Nat) :
    Option.Rel (Matches F) (Scan.endGo inExpression n s) (Scan.endGo inExpression n s') := by
  induction n generalizing s s' with
  | zero => exact .none
  | succ n ih =>
    have hcomment := h.comment?
    unfold Scan.endGo
    rw [h.rest]
    split
    · exact .some h
    · generalize s.comment? = next at hcomment ⊢
      generalize s'.comment? = next' at hcomment ⊢
      cases hcomment with
      | none => exact .none
      | some hnext => exact ih hnext

theorem statementEnd? (h : s.Matches F s') (inExpression : Bool) :
    Option.Rel (Matches F) (s.statementEnd? inExpression) (s'.statementEnd? inExpression) := by
  unfold Scan.statementEnd?
  rw [h.rest]
  exact h.endGo ..

theorem statementEnd?_isSome (h : s.Matches F s') (inExpression : Bool) :
    (s.statementEnd? inExpression).isSome = (s'.statementEnd? inExpression).isSome := by
  have hend := h.statementEnd? inExpression
  generalize s.statementEnd? inExpression = o at hend
  generalize s'.statementEnd? inExpression = o' at hend
  cases hend <;> rfl

theorem flagged (h : s.Matches F s') (markup endable bareArrows : Bool) :
    (s.flagged markup endable bareArrows).Matches F (s'.flagged markup endable bareArrows) :=
  ⟨⟨rfl, rfl, rfl⟩, h.rest, h.pos, h.comments⟩

end Matches

theorem skip_flagged (s : Scan) (markup endable bareArrows : Bool) :
    (s.flagged markup endable bareArrows).skip = s.skip.flagged markup endable bareArrows := skipGo_flagged _

namespace Meets

theorem skip (h : s.Meets F s') : s.skip.Matches F s'.skip where
  toSameFlags := (SameFlags.skip s).trans (h.toSameFlags.trans (SameFlags.skip s').symm)
  rest := h.rest
  pos := h.pos
  comments := h.comments

theorem flagged (h : s.Meets F s') (markup endable bareArrows : Bool) :
    (s.flagged markup endable bareArrows).Meets F (s'.flagged markup endable bareArrows) := by
  have hskip := h.skip.flagged markup endable bareArrows
  rw [← skip_flagged, ← skip_flagged] at hskip
  exact ⟨⟨rfl, rfl, rfl⟩, hskip.rest, hskip.pos, hskip.comments⟩

end Meets

/-! ### How much is ahead -/

theorem skipGo_length_le (n : Nat) (s : Scan) : (skipGo n s).rest.length ≤ s.rest.length := by
  induction n generalizing s with
  | zero => exact (List.dropWhile_sublist _).length_le
  | succ n ih =>
    unfold skipGo
    split
    · rename_i next hnext
      exact Nat.le_trans (ih next) (Nat.le_of_lt (comment?_length hnext))
    · exact (List.dropWhile_sublist _).length_le

theorem skip_length_le (s : Scan) : s.skip.rest.length ≤ s.rest.length := skipGo_length_le ..

theorem endGo_length_le {inExpression : Bool} {n : Nat} (h : endGo inExpression n s = some t) :
    t.rest.length ≤ s.rest.length := by
  induction n generalizing s with
  | zero => cases h
  | succ n ih =>
    unfold endGo at h
    split at h
    · cases h
      exact Nat.le_refl _
    · split at h
      · rename_i hnext
        exact Nat.le_trans (ih h) (Nat.le_of_lt (comment?_length hnext))
      · cases h

end Scan

end TestMigration
