import TestMigration.Grammar.Scan
import TestMigration.Proofs.Text.Boundary

/-!
# Trees placed in a source

`Node.Placed source n`: every node of the tree begins and ends between two characters of `source`, and
does not end before it begins.
-/

namespace TestMigration

/-- Every node of the tree spans whole characters of the source. -/
inductive Node.Placed (source : Text) : Node → Prop where
  | mk {role : Role} {kind : Kind} {span : Span} {children : List Node} :
    source.Boundary span.start → source.Boundary span.stop → span.start ≤ span.stop →
    (∀ c ∈ children, c.Placed source) →
    Node.Placed source (.mk role kind span children)

namespace Node.Placed

variable {source : Text} {n : Node}

theorem start (h : n.Placed source) : source.Boundary n.span.start := by
  cases h with
  | mk h _ _ _ => exact h

theorem stop (h : n.Placed source) : source.Boundary n.span.stop := by
  cases h with
  | mk _ h _ _ => exact h

theorem start_le_stop (h : n.Placed source) : n.span.start ≤ n.span.stop := by
  cases h with
  | mk _ _ h _ => exact h

theorem child (h : n.Placed source) {c : Node} (hc : c ∈ n.children) : c.Placed source := by
  cases h with
  | mk _ _ _ h => exact h c hc

theorem playing (h : n.Placed source) (r : Role) : (n.playing r).Placed source := by
  cases h with
  | mk h₁ h₂ h₃ h₄ => exact .mk h₁ h₂ h₃ h₄

end Node.Placed

/-! ### Comments -/

mutual

theorem Node.Placed.insertComment {source : Text} {c : Node} (hc : c.Placed source) :
    ∀ n : Node, n.Placed source → (c.insertComment n).Placed source
  | .mk r k s cs, h => by
    cases h with
    | mk hstart hstop hle hcs => exact .mk hstart hstop hle (Node.Placed.insertAmong hc cs hcs)

theorem Node.Placed.insertAmong {source : Text} {c : Node} (hc : c.Placed source) :
    ∀ cs : List Node, (∀ n ∈ cs, n.Placed source) → ∀ n ∈ Node.insertAmong c cs, n.Placed source
  | [], _, n, hn => by
    obtain rfl := List.mem_singleton.mp hn
    exact hc
  | n :: rest, hcs, m, hm => by
    have hn := hcs n List.mem_cons_self
    have hrest : ∀ n ∈ rest, n.Placed source := fun n hn => hcs n (List.mem_cons_of_mem _ hn)
    unfold Node.insertAmong at hm
    split at hm
    · rcases List.mem_cons.mp hm with rfl | hm
      · exact Node.Placed.insertComment hc n hn
      · exact hrest m hm
    · split at hm
      · rcases List.mem_cons.mp hm with rfl | hm
        · exact hc
        · exact hcs m hm
      · rcases List.mem_cons.mp hm with rfl | hm
        · exact hn
        · exact Node.Placed.insertAmong hc rest hrest m hm

end

theorem Node.Placed.insertComments {source : Text} {tree : Node} {comments : List Node}
    (hcomments : ∀ c ∈ comments, c.Placed source) (htree : tree.Placed source) :
    (comments.foldr Node.insertComment tree).Placed source := by
  induction comments with
  | nil => exact htree
  | cons c cs ih =>
    have hrest := ih fun d hd => hcomments d (List.mem_cons_of_mem _ hd)
    exact Node.Placed.insertComment (hcomments c List.mem_cons_self) _ hrest

end TestMigration
