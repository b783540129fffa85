import Mathlib.Data.List.Pairwise
import TestMigration.Tree.Site

/-!
# Orderly trees

`Node.Orderly`: the nodes below each node are not empty and stand in it one behind the other, comments included, and
a call begins with its callee, a member with its object.

A comment is put into a finished tree by its place alone. The tree stays orderly if the comment is clear of all its
nodes (`Node.ClearOf`), which means that it lies outside of a node or, behind its first byte, inside. Main statement:
`Node.Orderly.insertComments`.
-/

namespace TestMigration

/-- The role of the part that a node of the kind begins with. -/
def Kind.head? : Kind → Option Role
  | .call => some .callee
  | .member => some .object
  | _ => none

namespace Node

/-- A comment as the scanner leaves it. -/
structure Remark (c : Node) : Prop where
  isComment : c.isComment = true
  children : c.children = []
  start_lt_stop : c.start < c.stop

/-- What the kind of a node says about its parts. -/
structure Shaped (kind : Kind) (start : Nat) (parts : List Node) : Prop where
  head : ∀ r ∈ kind.head?, ∃ n ∈ parts.head?, n.role = r ∧ n.start = start
  bare : kind = .identifier → parts = []

/-- The nodes below are not empty and stand in the node one behind the other. -/
inductive Orderly : Node → Prop where
  | mk {role : Role} {kind : Kind} {span : Span} {children : List Node}
    (remark : kind = .comment → children = [])
    (shaped : Shaped kind span.start (children.filter (!·.isComment)))
    (within : ∀ c ∈ children, span.start ≤ c.start ∧ c.start < c.stop ∧ c.stop ≤ span.stop)
    (row : children.Pairwise fun a b => a.stop ≤ b.start)
    (below : ∀ c ∈ children, c.Orderly) : Orderly (.mk role kind span children)

/-- The comment lies outside of the node or inside behind its first byte, and so for all nodes below. Nothing lies
inside of another comment. -/
inductive ClearOf (c : Node) : Node → Prop where
  | mk {role : Role} {kind : Kind} {span : Span} {children : List Node}
    (here : c.stop ≤ span.start ∨ span.stop ≤ c.start ∨
      kind ≠ .comment ∧ span.start < c.start ∧ c.stop ≤ span.stop)
    (below : ∀ n ∈ children, c.ClearOf n) : ClearOf c (.mk role kind span children)

variable {n c d : Node} {cs : List Node}

@[simp] theorem playing_span (n : Node) (r : Role) : (n.playing r).span = n.span := by
  cases n
  rfl

@[simp] theorem playing_start (n : Node) (r : Role) : (n.playing r).start = n.start :=
  congrArg Span.start (playing_span n r)

@[simp] theorem playing_stop (n : Node) (r : Role) : (n.playing r).stop = n.stop :=
  congrArg Span.stop (playing_span n r)

namespace Orderly

theorem remark_children (h : n.Orderly) (hn : n.isComment = true) : n.children = [] := by
  cases h with
  | mk remark => exact remark (by simpa [isComment, Node.kind] using hn)

theorem parts_shaped (h : n.Orderly) : Shaped n.kind n.start n.parts := by
  cases h with
  | mk _ shaped => exact shaped

theorem child (h : n.Orderly) (hc : c ∈ n.children) : n.start ≤ c.start ∧ c.start < c.stop ∧ c.stop ≤ n.stop := by
  cases h with
  | mk _ _ within => exact within c hc

theorem children_row (h : n.Orderly) : n.children.Pairwise fun a b => a.stop ≤ b.start := by
  cases h with
  | mk _ _ _ row => exact row

theorem child_orderly (h : n.Orderly) (hc : c ∈ n.children) : c.Orderly := by
  cases h with
  | mk _ _ _ _ below => exact below c hc

theorem playing_iff {r : Role} : (n.playing r).Orderly ↔ n.Orderly := by
  obtain ⟨r', k, span, cs⟩ := n
  constructor
  · rintro ⟨h₁, h₂, h₃, h₄, h₅⟩
    exact ⟨h₁, h₂, h₃, h₄, h₅⟩
  · rintro ⟨h₁, h₂, h₃, h₄, h₅⟩
    exact ⟨h₁, h₂, h₃, h₄, h₅⟩

theorem child_unique (h : n.Orderly) (hc : c ∈ n.children) (hd : d ∈ n.children) (hcd : c.start < d.stop)
    (hdc : d.start < c.stop) : c = d := by
  by_contra hne
  -- one of the two stands in front of the other
  have happart : ∀ a ∈ n.children, ∀ b ∈ n.children, a ≠ b → a.stop ≤ b.start ∨ b.stop ≤ a.start := by
    intro a ha b hb hab
    have hrow : n.children.Pairwise fun a b => a.stop ≤ b.start ∨ b.stop ≤ a.start := h.children_row.imp .inl
    have : Std.Symm fun a b : Node => a.stop ≤ b.start ∨ b.stop ≤ a.start := ⟨fun _ _ => Or.symm⟩
    exact hrow.forall ha hb hab
  rcases happart c hc d hd hne with h | h <;> omega

/-- A node that ends in front of a comment is clear of it, with all nodes below. -/
theorem clearOf_of_le (h : n.Orderly) (hc : n.stop ≤ c.start) : c.ClearOf n := by
  induction h with
  | mk _ _ within _ _ ih =>
    refine .mk (.inr (.inl hc)) ?_
    intro m hm
    exact ih m hm (Nat.le_trans (within m hm).2.2 hc)

end Orderly

theorem Remark.orderly (h : c.Remark) : c.Orderly := by
  obtain ⟨hc, hchildren, hlt⟩ := h
  obtain ⟨r, k, span, cs⟩ := c
  obtain rfl : k = .comment := by simpa [Node.isComment, Node.kind] using hc
  obtain rfl : cs = [] := hchildren
  exact .mk (fun _ => rfl) ⟨by simp [Kind.head?], fun _ => rfl⟩ (by simp) .nil (by simp)

namespace ClearOf

theorem outside (h : c.ClearOf n) :
    c.stop ≤ n.start ∨ n.stop ≤ c.start ∨ n.kind ≠ .comment ∧ n.start < c.start ∧ c.stop ≤ n.stop := by
  cases h with
  | mk here => exact here

theorem child (h : c.ClearOf n) {m : Node} (hm : m ∈ n.children) : c.ClearOf m := by
  cases h with
  | mk _ below => exact below m hm

theorem playing_iff {r : Role} : c.ClearOf (n.playing r) ↔ c.ClearOf n := by
  obtain ⟨r', k, span, cs⟩ := n
  constructor
  · rintro ⟨here, below⟩
    exact ⟨here, below⟩
  · rintro ⟨here, below⟩
    exact ⟨here, below⟩

end ClearOf

/-! ### Comments -/

theorem kind_insertComment (c n : Node) : (c.insertComment n).kind = n.kind := by
  cases n
  rfl

theorem insertComment_role (c n : Node) : (c.insertComment n).role = n.role := by
  cases n
  rfl

theorem insertComment_span (c n : Node) : (c.insertComment n).span = n.span := by
  cases n
  rfl

theorem insertComment_isComment (c n : Node) : (c.insertComment n).isComment = n.isComment := by
  cases n
  rfl

@[simp] theorem insertComment_start (c n : Node) : (c.insertComment n).start = n.start :=
  congrArg Span.start (insertComment_span c n)

@[simp] theorem insertComment_stop (c n : Node) : (c.insertComment n).stop = n.stop :=
  congrArg Span.stop (insertComment_span c n)

theorem kind_insertComments (comments : List Node) (n : Node) :
    (comments.foldr Node.insertComment n).kind = n.kind := by
  induction comments with
  | nil => rfl
  | cons c rest ih => rw [List.foldr_cons, kind_insertComment, ih]

theorem span_insertComments (comments : List Node) (n : Node) :
    (comments.foldr Node.insertComment n).span = n.span := by
  induction comments with
  | nil => rfl
  | cons c rest ih => rw [List.foldr_cons, insertComment_span, ih]

theorem mem_insertAmong {m : Node} (hm : m ∈ insertAmong c cs) :
    m = c ∨ m ∈ cs ∨ ∃ n ∈ cs, m = insertComment c n ∧ n.start < c.start ∧ c.stop ≤ n.stop := by
  induction cs with
  | nil => exact .inl (List.mem_singleton.mp hm)
  | cons n rest ih =>
    unfold insertAmong at hm
    split at hm
    · rename_i hin
      rcases List.mem_cons.mp hm with rfl | hm
      · exact .inr (.inr ⟨n, List.mem_cons_self, rfl, by simpa using hin⟩)
      · exact .inr (.inl (List.mem_cons_of_mem _ hm))
    · split at hm
      · exact (List.mem_cons.mp hm).imp_right .inl
      · rcases List.mem_cons.mp hm with rfl | hm
        · exact .inr (.inl List.mem_cons_self)
        · rcases ih hm with rfl | hm | ⟨n', hn', h⟩
          · exact .inl rfl
          · exact .inr (.inl (List.mem_cons_of_mem _ hm))
          · exact .inr (.inr ⟨n', List.mem_cons_of_mem _ hn', h⟩)

/-- A comment changes no role and no span of the other nodes. -/
theorem insertAmong_parts (hc : c.isComment = true) : ((insertAmong c cs).filter (!·.isComment)).map
    (fun n => (n.role, n.span)) = (cs.filter (!·.isComment)).map fun n => (n.role, n.span) := by
  induction cs with
  | nil => simp [insertAmong, hc]
  | cons n rest ih =>
    unfold insertAmong
    split
    · simp only [List.filter_cons, insertComment_isComment]
      split <;> simp [insertComment_role, insertComment_span]
    · split
      · simp [List.filter_cons, hc]
      · simp only [List.filter_cons]
        split
        · rw [List.map_cons, List.map_cons, ih]
        · exact ih

theorem Shaped.congr {k : Kind} {start : Nat} {ps qs : List Node} (h : Shaped k start ps)
    (hmap : qs.map (fun n => (n.role, n.span)) = ps.map fun n => (n.role, n.span)) : Shaped k start qs := by
  refine ⟨fun r hr => ?_, fun hk => ?_⟩
  · obtain ⟨n, hn, hrole, hstart⟩ := h.head r hr
    have hhead := congrArg List.head? hmap
    rw [List.head?_map, List.head?_map, Option.mem_def.mp hn] at hhead
    obtain ⟨m, hm, heq⟩ := Option.map_eq_some_iff.mp hhead
    obtain ⟨hr', hs'⟩ := Prod.mk.injEq .. ▸ heq
    exact ⟨m, hm, hr'.trans hrole, (congrArg Span.start hs').trans hstart⟩
  · rw [h.bare hk] at hmap
    exact List.map_eq_nil_iff.mp hmap

/-- The row with a comment in it, as long as the comment is clear of its nodes. -/
theorem insertAmong_row (hc : c.start < c.stop) (hcs : ∀ n ∈ cs, n.start < n.stop)
    (hrow : cs.Pairwise fun a b => a.stop ≤ b.start) (hclear : ∀ n ∈ cs, c.ClearOf n) :
    (insertAmong c cs).Pairwise fun a b => a.stop ≤ b.start := by
  induction cs with
  | nil => exact List.pairwise_singleton ..
  | cons n rest ih =>
    obtain ⟨hhead, htail⟩ := List.pairwise_cons.mp hrow
    have hn := hcs n List.mem_cons_self
    have hout := (hclear n List.mem_cons_self).outside
    unfold insertAmong
    split
    · refine List.pairwise_cons.mpr ⟨fun m hm => ?_, htail⟩
      rw [insertComment_stop]
      exact hhead m hm
    · rename_i hin
      have hin : ¬ (n.start < c.start ∧ c.stop ≤ n.stop) := by simpa using hin
      split
      · refine List.pairwise_cons.mpr ⟨fun m hm => ?_, hrow⟩
        rcases List.mem_cons.mp hm with rfl | hm
        · omega
        · have := hhead m hm
          omega
      · have hrest := ih (fun m hm => hcs m (List.mem_cons_of_mem _ hm)) htail
          fun m hm => hclear m (List.mem_cons_of_mem _ hm)
        refine List.pairwise_cons.mpr ⟨fun m hm => ?_, hrest⟩
        rcases mem_insertAmong hm with rfl | hm | ⟨m', hm', rfl, -⟩
        · omega
        · exact hhead m hm
        · rw [insertComment_start]
          exact hhead m' hm'

mutual

theorem Orderly.insertComment (hc : c.Remark) : ∀ n : Node, n.Orderly → (∀ m ∈ n.children, c.ClearOf m) →
    n.kind ≠ .comment → n.start ≤ c.start → c.stop ≤ n.stop → (c.insertComment n).Orderly
  | .mk r k span cs, h, hclear, hkind, hstart, hstop => by
    cases h with
    | mk remark shaped within row below =>
      refine .mk ?_ (shaped.congr (insertAmong_parts hc.isComment)) ?_
        (insertAmong_row hc.start_lt_stop (fun n hn => (within n hn).2.1) row hclear) ?_
      · intro hk
        exact absurd hk hkind
      · intro m hm
        rcases mem_insertAmong hm with rfl | hm | ⟨n, hn, rfl, -⟩
        · exact ⟨hstart, hc.start_lt_stop, hstop⟩
        · exact within m hm
        · simpa using within n hn
      · exact Orderly.insertAmong hc cs below hclear

theorem Orderly.insertAmong (hc : c.Remark) : ∀ cs : List Node, (∀ n ∈ cs, n.Orderly) → (∀ n ∈ cs, c.ClearOf n) →
    ∀ n ∈ insertAmong c cs, n.Orderly
  | [], _, _, n, hn => by
    obtain rfl := List.mem_singleton.mp hn
    exact hc.orderly
  | n :: rest, hcs, hclear, m, hm => by
    have hrest := Orderly.insertAmong hc rest (fun n hn => hcs n (List.mem_cons_of_mem _ hn))
      fun n hn => hclear n (List.mem_cons_of_mem _ hn)
    have hn := hcs n List.mem_cons_self
    unfold Node.insertAmong at hm
    split at hm
    · rename_i hin
      rcases List.mem_cons.mp hm with rfl | hm
      · have hin : n.start < c.start ∧ c.stop ≤ n.stop := by simpa using hin
        have hclear := hclear n List.mem_cons_self
        have hlt := hc.start_lt_stop
        have hkind : n.kind ≠ .comment := by
          rcases hclear.outside with h | h | h
          · omega
          · omega
          · exact h.1
        exact Orderly.insertComment hc n hn (fun m hm => hclear.child hm) hkind (Nat.le_of_lt hin.1) hin.2
      · exact hcs m (List.mem_cons_of_mem _ hm)
    · split at hm
      · rcases List.mem_cons.mp hm with rfl | hm
        · exact hc.orderly
        · exact hcs m hm
      · rcases List.mem_cons.mp hm with rfl | hm
        · exact hn
        · exact hrest m hm

end

mutual

theorem ClearOf.insertComment (hd : d.ClearOf c) : ∀ n : Node, d.ClearOf n → d.ClearOf (c.insertComment n)
  | .mk _ _ _ cs, h => by
    cases h with
    | mk here below => exact .mk here (ClearOf.insertAmong hd cs below)

theorem ClearOf.insertAmong (hd : d.ClearOf c) : ∀ cs : List Node, (∀ n ∈ cs, d.ClearOf n) →
    ∀ n ∈ insertAmong c cs, d.ClearOf n
  | [], _, n, hn => by
    obtain rfl := List.mem_singleton.mp hn
    exact hd
  | n :: rest, hcs, m, hm => by
    have hrest := ClearOf.insertAmong hd rest fun n hn => hcs n (List.mem_cons_of_mem _ hn)
    have hn := hcs n List.mem_cons_self
    unfold Node.insertAmong at hm
    split at hm
    · rcases List.mem_cons.mp hm with rfl | hm
      · exact ClearOf.insertComment hd n hn
      · exact hcs m (List.mem_cons_of_mem _ hm)
    · split at hm
      · rcases List.mem_cons.mp hm with rfl | hm
        · exact hd
        · exact hcs m hm
      · rcases List.mem_cons.mp hm with rfl | hm
        · exact hn
        · exact hrest m hm

end

theorem ClearOf.insertComments {tree : Node} {comments : List Node} (htree : ∀ n ∈ tree.children, d.ClearOf n)
    (hcomments : ∀ c ∈ comments, d.ClearOf c) :
    ∀ n ∈ (comments.foldr Node.insertComment tree).children, d.ClearOf n := by
  induction comments with
  | nil => exact htree
  | cons c rest ih =>
    have hrest := ih fun c hc => hcomments c (List.mem_cons_of_mem _ hc)
    rw [List.foldr_cons]
    revert hrest
    cases rest.foldr Node.insertComment tree with
    | mk r k span cs => exact fun hrest => ClearOf.insertAmong (hcomments c List.mem_cons_self) cs hrest

/-- Comments that stand one behind the other are put into a tree, the first of the file first. -/
theorem Orderly.insertComments {tree : Node} {comments : List Node} (h : tree.Orderly) (hkind : tree.kind ≠ .comment)
    (hcomments : ∀ c ∈ comments, c.Remark ∧ tree.start ≤ c.start ∧ c.stop ≤ tree.stop)
    (hrow : comments.Pairwise fun a b => b.stop ≤ a.start)
    (hclear : ∀ c ∈ comments, ∀ n ∈ tree.children, c.ClearOf n) :
    (comments.foldr Node.insertComment tree).Orderly := by
  induction comments with
  | nil => exact h
  | cons c rest ih =>
    obtain ⟨hc, hstart, hstop⟩ := hcomments c List.mem_cons_self
    obtain ⟨hbefore, hrow⟩ := List.pairwise_cons.mp hrow
    have hrest : ∀ d ∈ rest, d.Remark ∧ tree.start ≤ d.start ∧ d.stop ≤ tree.stop :=
      fun d hd => hcomments d (List.mem_cons_of_mem _ hd)
    refine Orderly.insertComment hc _ (ih hrest hrow fun d hd => hclear d (List.mem_cons_of_mem _ hd)) ?_ ?_ ?_ ?_
    · refine ClearOf.insertComments (hclear c List.mem_cons_self) ?_
      intro d hd
      exact (hrest d hd).1.orderly.clearOf_of_le (hbefore d hd)
    · rwa [kind_insertComments]
    · exact Nat.le_trans (Nat.le_of_eq (congrArg Span.start (span_insertComments rest tree))) hstart
    · exact Nat.le_trans hstop (Nat.le_of_eq (congrArg Span.stop (span_insertComments rest tree).symm))

end Node

end TestMigration
