import TestMigration.Proofs.Grammar.Productions

/-!
# Parsed files

What is known of every tree that a file is read as. Main statements: `Grammar.parse_placed`, `Grammar.parse_orderly`.
-/

namespace TestMigration

namespace Grammar

open Scan Scanner Tracked

variable {source : Text}

instance rules_tidy (n : Nat) (goal : Goal) : Tidy source (rules n goal) true := by
  induction n generalizing goal with
  | zero =>
    unfold rules
    infer_instance
  | succ n ih =>
    unfold rules production
    split <;> infer_instance

instance hashBang_splits : Lexeme.Splits fun t =>
    if Text.startsWith t "#!" then some (t.takeWhile (· != '\n'), t.dropWhile (· != '\n')) else none where
  eq_append := by
    intro t taken rest h
    split at h
    · cases h
      exact (List.takeWhile_append_dropWhile ..).symm
    · cases h

instance hashBang_loose : Loose source hashBang where
  out := by
    intro s s' n hs h
    obtain ⟨⟨⟨taken, span⟩, s₁⟩, htoken, h⟩ := Option.bind_eq_some_iff.mp h
    cases h
    obtain ⟨hstands, hleads⟩ := immediate_advance hs htoken
    obtain ⟨rest, htaken, -, rfl⟩ := immediate_eq htoken
    have hbegun := immediate_begun hs htoken (by
      split at htaken
      · rename_i hstart
        cases htaken
        obtain ⟨line, hline⟩ := List.isPrefixOf_iff_prefix.mp hstart
        rw [← hline]
        simp
      · cases htaken)
    have hdone : s'.Done source (.mk .part .hashBang ⟨s.pos, s'.pos⟩ []) :=
      done_close hstands hbegun inferInstance inferInstance inferInstance inferInstance
    refine ⟨hstands, hleads, ?_, ?_, List.pairwise_singleton ..⟩
    · intro m hm
      obtain rfl := List.mem_singleton.mp hm
      exact Nat.le_refl _
    · intro m hm
      obtain rfl := List.mem_singleton.mp hm
      exact hdone

theorem sourceFile_passes (g : Rules) [∀ goal, Tidy source (g goal) true] {s s' : Scan} {tree : Node}
    (hs : s.Stands source) (h : sourceFile g s = some (tree, s')) : ∃ children,
      tree = .mk .part .program ⟨0, s'.pos⟩ children ∧ Passes source s children s' := by
  obtain ⟨⟨first, s₁⟩, hfirst, h⟩ := Option.bind_eq_some_iff.mp h
  obtain ⟨⟨ss, s₂⟩, hss, h⟩ := Option.bind_eq_some_iff.mp h
  obtain ⟨⟨_, s₃⟩, hguard, h⟩ := Option.bind_eq_some_iff.mp h
  unfold guard at hguard
  split at hguard
  · cases hguard
    cases h
    have hpassed : Passes source s first s₁ := (optional_loose hashBang).out hs hfirst
    have hstatements : Passes source s₁ ss s₂ := (loose_of_tidy _).out hpassed.stands hss
    have hfirst : Passes source s first.toList s₁ := hpassed.same rfl
    exact ⟨first.toList ++ ss, rfl, (hfirst.append hstatements).skips hstatements.stands.skip⟩
  · cases hguard

/-- What a file is read as before the comments are put into the tree. -/
theorem exists_sourceFile {grammar : Grammar} {tree : Node} (h : Grammar.parse grammar source = some tree) :
    ∃ (s s' : Scan) (children : List Node), s.pos = 0 ∧ Passes source s children s' ∧
      tree = s'.comments.foldr Node.insertComment (.mk .part .program ⟨0, s'.pos⟩ children) := by
  unfold Grammar.parse at h
  split at h
  · rename_i program last hfile
    cases h
    have hstart : Scan.Stands source (Grammar.start grammar source) := ⟨⟨[], rfl, rfl⟩, nofun, .nil⟩
    obtain ⟨children, rfl, hpasses⟩ := sourceFile_passes _ hstart hfile
    exact ⟨_, last, children, rfl, hpasses, rfl⟩
  · cases h

/-- Every node of a parsed tree spans whole characters of the source. -/
theorem parse_placed {grammar : Grammar} {tree : Node} (h : Grammar.parse grammar source = some tree) :
    tree.Placed source := by
  obtain ⟨s, s', children, -, hpasses, rfl⟩ := exists_sourceFile h
  refine Node.Placed.insertComments (fun c hc => (hpasses.stands.comments c hc).1) ?_
  exact .mk (.zero source) hpasses.stands.boundary (Nat.zero_le _) fun c hc => (done_of_mem hpasses.done hc).placed

/-- The nodes of a parsed tree are not empty and stand in order, comments included. -/
theorem parse_orderly {grammar : Grammar} {tree : Node} (h : Grammar.parse grammar source = some tree) :
    tree.Orderly := by
  obtain ⟨s, s', children, -, hpasses, rfl⟩ := exists_sourceFile h
  have hprogram : (Node.mk .part .program ⟨0, s'.pos⟩ children).Orderly :=
    orderly_close (fun _ _ => Nat.zero_le _) hpasses.done hpasses.row inferInstance
  refine hprogram.insertComments nofun ?_ hpasses.stands.row ?_
  · intro c hc
    obtain ⟨-, hremark, hstop⟩ := hpasses.stands.comments c hc
    exact ⟨hremark, Nat.zero_le _, hstop⟩
  · intro c hc n hn
    exact (done_of_mem hpasses.done hn).clear c hc

end Grammar

end TestMigration
