import TestMigration.Proofs.Edit.Deletion
import TestMigration.Proofs.Registration.Settled

/-!
# Where registrations are edited

Every edit of the pass over registrations lies in the file.

Main statement: `RegistrationPass.ofTree_inside`.
-/

namespace TestMigration

namespace Registration

variable {source : Text} {call callback : Site} {callee : Callee}

theorem rename_inside (h : call.Placed source) :
    ∀ e ∈ (rename call callee).edits, e.Inside source.size := by
  unfold rename
  split
  · rename_i f hmodifier hf
    split
    · simp
    · exact List.forall_mem_singleton.mpr ((h.child? hf).inside _ _)
  · simp

theorem contextParameter_inside (h : callback.Placed source) :
    ∀ e ∈ (contextParameter source callback).edits, e.Inside source.size := by
  unfold contextParameter
  split
  · rename_i parameter hparameter
    have hplaced := h.functionParameters (by rw [hparameter]; exact List.mem_singleton_self _)
    dsimp only
    split
    · exact List.forall_mem_singleton.mpr (hplaced.inside _ _)
    · exact List.forall_mem_singleton.mpr (hplaced.start.insert_inside _ _)
  · simp

theorem timeoutEdits_inside {registers : Registration} {hasOptions : Bool} {statement : Site}
    {value : String} (h : callback.Placed source) (hstatement : statement.Placed source) :
    ∀ e ∈ timeoutEdits source registers callback hasOptions statement value, e.Inside source.size := by
  have hdeletion := hstatement.deleteStatement_inside "timeout-option"
  unfold timeoutEdits
  dsimp only
  split
  · simpa using hdeletion
  · split
    · simpa using ⟨hdeletion, h.stop.insert_inside _ _⟩
    · simpa using ⟨hdeletion, h.start.insert_inside _ _⟩

theorem callChange_inside (h : call.Placed source) :
    ∀ e ∈ (callChange source call callee).edits, e.Inside source.size := by
  intro e he
  rcases mem_callChange_iff.mp he with he | ⟨callback, hcallback, ⟨-, he⟩ | ⟨-, statement, hstatement, he⟩⟩
  · exact rename_inside h e he
  · have hplaced := h.callArguments (List.mem_reverse.mp (List.mem_of_find?_eq_some hcallback))
    exact contextParameter_inside hplaced e he
  · have hplaced := h.callArguments (List.mem_reverse.mp (List.mem_of_find?_eq_some hcallback))
    exact timeoutEdits_inside hplaced (hplaced.bodyStatements (List.mem_of_find?_eq_some hstatement)) e he

end Registration

theorem RegistrationPass.ofTree_inside {source : Text} {tree : Node} {edits : List Edit}
    (htree : tree.Placed source) (h : ∀ e ∈ edits, e.Inside source.size) :
    ∀ e ∈ (RegistrationPass.ofTree source tree edits).edits, e.Inside source.size := by
  have hfold (calls : List Site) (hcalls : ∀ s ∈ calls, s.Placed source) (p : RegistrationPass)
      (hp : ∀ e ∈ p.edits, e.Inside source.size) :
      ∀ e ∈ (calls.foldl (addCall source) p).edits, e.Inside source.size := by
    induction calls generalizing p with
    | nil => exact hp
    | cons call rest ih =>
      obtain ⟨hcall, hrest⟩ := List.forall_mem_cons.mp hcalls
      refine ih hrest _ ?_
      unfold addCall
      split
      · exact hp
      · split
        · exact hp
        · exact List.forall_mem_append.mpr ⟨hp, Registration.callChange_inside hcall⟩
  exact hfold _ (fun s hs => Site.Placed.of_sites htree (List.mem_filter.mp hs).1) _ h

end TestMigration
