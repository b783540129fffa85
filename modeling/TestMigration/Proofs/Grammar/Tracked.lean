import TestMigration.Proofs.Grammar.Forward

/-!
# Values on the way to a tree

What scanners return has nodes in it (`Tracked`). A production puts values together that came one behind the other:
`After` is a value with the scan behind it, and the classes say where the nodes of a value begin (`From`, `Starts`),
where they are done (`DoneAt`, `Ended`) and that they stand in a row (`Rowed`). They are found for a value as soon as
they are known of the values it is made of. A node made of such values is done (`Scan.done_close`).
-/

namespace TestMigration

open Scan

/-! ### Values with nodes in them -/

/-- Values that scanners return, with the nodes in them. The roles of the nodes do not matter here. -/
class Tracked (α : Type) where
  nodes : α → List Node

export Tracked (nodes)

namespace Tracked

instance : Tracked Node := ⟨fun n => [n.playing .part]⟩
-- a span stands for the node that will be made of it
instance : Tracked Span := ⟨fun s => [.mk .part .expression s []]⟩
instance : Tracked Nat := ⟨fun _ => []⟩
instance : Tracked Unit := ⟨fun _ => []⟩
instance : Tracked String := ⟨fun _ => []⟩
instance : Tracked Scan := ⟨fun _ => []⟩
instance : Tracked Char := ⟨fun _ => []⟩

instance {α : Type} [Tracked α] : Tracked (List α) := ⟨fun l => l.flatMap nodes⟩
instance {α : Type} [Tracked α] : Tracked (Option α) := ⟨fun o => o.toList.flatMap nodes⟩
-- the first part of a pair is a text
instance {α β : Type} [Tracked β] : Tracked (α × β) := ⟨fun p => nodes p.2⟩

/-- What is known of a value and the scan behind it. A node that begins at `k` may still take in the value, and has
begun if the flag is set. -/
structure Come {α : Type} [Tracked α] (source : Text) (k : Nat) (s : Scan) (takes : Bool) (a : α) (s' : Scan) :
    Prop where
  stands : s'.Stands source
  leads : s.Leads s'
  ready : s'.Ready source k
  takes : takes = true → k < s'.pos
  start : ∀ n ∈ nodes a, k ≤ n.start
  done : ∀ n ∈ nodes a, s'.Done source n
  row : (nodes a).Pairwise fun m n => m.stop ≤ n.start

/-- A value and the scan behind it, with an offset at which the nodes of the value begin at first. -/
structure After (source : Text) (k lo : Nat) (s : Scan) (takes : Bool) (α : Type) [Tracked α] where
  value : α
  scan : Scan
  come : Come source k s takes value scan
  start : ∀ n ∈ nodes value, lo ≤ n.start

/-- The flag is set. -/
class Holds (b : Bool) : Prop where
  out : b = true

/-- One offset is not behind the other. -/
class Le (a b : Nat) : Prop where
  out : a ≤ b

instance : Holds true := ⟨rfl⟩
instance (b c : Bool) [h : Holds c] : Holds (b || c) := ⟨by simp [h.out]⟩
instance (b c : Bool) [h : Holds b] : Holds (b || c) := ⟨by simp [h.out]⟩
instance (b c : Bool) [hb : Holds b] [hc : Holds c] : Holds (b && c) := ⟨by simp [hb.out, hc.out]⟩

section
variable {source : Text} {α β : Type} [Tracked α] {k lo lo' : Nat} {s t hi hi' : Scan} {b : Bool}

/-- The nodes of the value begin at `k` or behind it. -/
class From (k : Nat) (a : α) : Prop where
  out : ∀ n ∈ nodes a, k ≤ n.start

/-- The offset at which the nodes of the value begin at first. -/
class Starts (lo : outParam Nat) (a : α) : Prop where
  out : ∀ n ∈ nodes a, lo ≤ n.start

/-- The scan at which the nodes of the value are done. -/
class DoneAt (source : Text) (hi : outParam Scan) (a : α) : Prop where
  out : ∀ n ∈ nodes a, hi.Done source n

/-- The nodes of the value are done. -/
class Ended (source : Text) (s : Scan) (a : α) : Prop where
  out : ∀ n ∈ nodes a, s.Done source n

/-- The nodes of the value stand one behind the other in the source. -/
class Rowed (source : Text) (a : α) : Prop where
  out : (nodes a).Pairwise fun m n => m.stop ≤ n.start

/-- The values have the same nodes. -/
class Same (a : α) (β : outParam Type) (inst : outParam (Tracked β)) (b : outParam β) : Prop where
  out : nodes a = nodes b

/-- Values of the type have no nodes. -/
class Bare (α : Type) [Tracked α] : Prop where
  out : ∀ a : α, nodes a = []

/-- The parts are as the kind says. -/
class Shape (kind : Kind) (start : Nat) (parts : List Node) : Prop where
  ne_comment : kind ≠ .comment
  shaped : Node.Shaped kind start parts

/-! ### Offsets and scans -/

instance (a : Nat) : Le a a := ⟨Nat.le_refl a⟩
instance [h : s.Leads t] : Le s.pos t.pos := ⟨h.pos⟩
instance (n : Node) [h : From k n] : Le k n.start := ⟨by simpa using h.out _ (List.mem_singleton_self _)⟩

instance (s : { s : Scan // s.Stands source }) : s.val.Stands source := s.property
instance (s : { s : Scan // s.Stands source }) : s.val.Ready source s.val.next := s.property.ready

instance (r : After source k lo s b α) : r.scan.Stands source := r.come.stands
instance (r : After source k lo s b α) : r.scan.Ready source k := r.come.ready
instance (r : After source k lo s b α) [h : t.Leads s] : t.Leads r.scan := h.trans r.come.leads

instance (r : After source k lo s b α) [h : Holds b] : r.scan.Begun source k :=
  { r.come.ready with lt := r.come.takes h.out }

instance (r : After source k lo s b α) {k' : Nat} [h : s.Begun source k'] : r.scan.Begun source k' :=
  h.mono r.come.leads

-- a node that is done has begun
instance (n : Node) [h : DoneAt source hi n] [hs : hi.Leads s] : s.Begun source n.start := by
  have hn := (h.out _ (List.mem_singleton_self _)).begun.mono hs
  rwa [Node.playing_start] at hn

/-! ### Values that have come -/

instance (r : After source k lo s b α) : From k r.value := ⟨r.come.start⟩
instance (r : After source k lo s b α) : Starts lo r.value := ⟨r.start⟩
instance (r : After source k lo s b α) : DoneAt source r.scan r.value := ⟨r.come.done⟩
instance (r : After source k lo s b α) : Rowed source r.value := ⟨r.come.row⟩

-- what comes behind a node begins behind its beginning
instance (n : Node) (r : After source k lo s b α) [h : DoneAt source hi n] [hle : Le hi.pos lo] :
    From n.start r.value where
  out := by
    intro m hm
    have hn := h.out _ (List.mem_singleton_self _)
    have hlt := hn.start_lt_stop
    have hstop := hn.stop
    have hlo := hle.out
    have hm := r.start m hm
    rw [Node.playing_start, Node.playing_stop] at hlt
    rw [Node.playing_stop] at hstop
    omega

instance (n : Node) : From n.start n := ⟨by simp [nodes]⟩

instance (priority := low) (a : α) [h : DoneAt source hi a] [hs : hi.Leads s] : Ended source s a :=
  ⟨fun n hn => (h.out n hn).mono hs⟩

/-! ### Single nodes, and values with the same nodes -/

instance (n : Node) : Rowed source n := ⟨List.pairwise_singleton ..⟩
instance (span : Span) : Rowed source span := ⟨List.pairwise_singleton ..⟩

section
variable {inst : Tracked β} (a : α) (b : β) [h : Same a β inst b]

instance [hb : From k b] : From k a := ⟨by rw [h.out]; exact hb.out⟩
instance [hb : Starts lo b] : Starts lo a := ⟨by rw [h.out]; exact hb.out⟩
instance [hb : DoneAt source hi b] : DoneAt source hi a := ⟨by rw [h.out]; exact hb.out⟩
instance [hb : Ended source s b] : Ended source s a := ⟨by rw [h.out]; exact hb.out⟩
instance [hb : Rowed source b] : Rowed source a := ⟨by rw [h.out]; exact hb.out⟩

end

theorem nodes_cons (a : α) (l : List α) : nodes (a :: l) = nodes a ++ nodes l := rfl

theorem nodes_append (l₁ l₂ : List α) : nodes (l₁ ++ l₂) = nodes l₁ ++ nodes l₂ := List.flatMap_append

theorem nodes_singleton (a : α) : nodes [a] = nodes a := List.append_nil _

theorem nodes_playing (n : Node) (r : Role) : nodes (n.playing r) = nodes n := by
  cases n
  rfl

instance (n : Node) (r : Role) : Same (n.playing r) Node inferInstance n := ⟨nodes_playing n r⟩
instance {γ : Type} (p : γ × α) : Same p.2 (γ × α) inferInstance p := ⟨rfl⟩
instance : Same (none : Option α) (List α) inferInstance [] := ⟨rfl⟩
instance {γ : Type} (x : γ) (a : α) : Same (x, a) α inferInstance a := ⟨rfl⟩
instance (o : Option α) : Same o.toList (Option α) inferInstance o := ⟨rfl⟩

instance (o : Option Node) (r : Role) : Same (o.map fun n => n.playing r) (Option Node) inferInstance o where
  out := by
    cases o with
    | none => rfl
    | some n => cases n; rfl

instance (l : List (Option α)) : Same (l.filterMap id) (List (Option α)) inferInstance l where
  out := by
    induction l with
    | nil => rfl
    | cons o l ih =>
      cases o with
      | none => exact ih
      | some a =>
        show nodes a ++ nodes (l.filterMap id) = nodes [a] ++ nodes l
        rw [ih, nodes_singleton]

theorem nodes_flatten (l : List (List α)) : nodes l.flatten = nodes l := by
  induction l with
  | nil => rfl
  | cons l' l ih => rw [List.flatten_cons, nodes_append, ih, nodes_cons]

instance (l : List (List α)) : Same l.flatten (List (List α)) inferInstance l := ⟨nodes_flatten l⟩

instance (o : Option (List α)) : Same (o.getD []) (Option (List α)) inferInstance o where
  out := by
    cases o with
    | none => rfl
    | some l => exact (List.append_nil _).symm

instance : Bare Unit := ⟨fun _ => rfl⟩
instance : Bare String := ⟨fun _ => rfl⟩
instance : Bare Nat := ⟨fun _ => rfl⟩

instance (a : α) [h : Bare α] : From k a := ⟨by simp [h.out]⟩
instance (a : α) [h : Bare α] : Ended source s a := ⟨by simp [h.out]⟩
instance (a : α) [h : Bare α] : Rowed source a := ⟨by simp [h.out]⟩

/-! ### Lists -/

theorem row_append {l₁ l₂ : List Node} (h₁ : l₁.Pairwise fun m n => m.stop ≤ n.start)
    (h₂ : l₂.Pairwise fun m n => m.stop ≤ n.start) (hends : ∀ n ∈ l₁, hi.Done source n)
    (hstarts : ∀ n ∈ l₂, lo ≤ n.start) (hle : hi.pos ≤ lo) :
    (l₁ ++ l₂).Pairwise fun m n => m.stop ≤ n.start := by
  refine List.pairwise_append.mpr ⟨h₁, h₂, ?_⟩
  intro m hm n hn
  exact Nat.le_trans (hends m hm).stop (Nat.le_trans hle (hstarts n hn))

instance : From k ([] : List α) := ⟨fun _ h => absurd h List.not_mem_nil⟩
instance : Ended source s ([] : List α) := ⟨fun _ h => absurd h List.not_mem_nil⟩
instance : Rowed source ([] : List α) := ⟨.nil⟩

instance (a : α) : Same [a] α inferInstance a := ⟨nodes_singleton a⟩

instance (a : α) (l : List α) [ha : From k a] [hl : From k l] : From k (a :: l) :=
  ⟨List.forall_mem_append.mpr ⟨ha.out, hl.out⟩⟩

instance (a : α) (l : List α) [ha : Ended source s a] [hl : Ended source s l] : Ended source s (a :: l) :=
  ⟨List.forall_mem_append.mpr ⟨ha.out, hl.out⟩⟩

instance (a : α) (l : List α) [ha : Rowed source a] [hl : Rowed source l] [hends : DoneAt source hi a]
    [hstarts : Starts lo l] [hle : Le hi.pos lo] : Rowed source (a :: l) :=
  ⟨row_append ha.out hl.out hends.out hstarts.out hle.out⟩

instance (a : α) (l : List α) [ha : Starts lo a] [hl : Starts lo' l] [hle : Le lo lo'] : Starts lo (a :: l) :=
  ⟨List.forall_mem_append.mpr ⟨ha.out, fun n hn => Nat.le_trans hle.out (hl.out n hn)⟩⟩

instance (a : α) (l : List α) [ha : DoneAt source hi a] [hl : DoneAt source hi' l] [hle : hi.Leads hi'] :
    DoneAt source hi' (a :: l) :=
  ⟨List.forall_mem_append.mpr ⟨fun n hn => (ha.out n hn).mono hle, hl.out⟩⟩

instance (l₁ l₂ : List α) [h₁ : From k l₁] [h₂ : From k l₂] : From k (l₁ ++ l₂) where
  out := by
    rw [nodes_append]
    exact List.forall_mem_append.mpr ⟨h₁.out, h₂.out⟩

instance (l₁ l₂ : List α) [h₁ : Ended source s l₁] [h₂ : Ended source s l₂] : Ended source s (l₁ ++ l₂) where
  out := by
    rw [nodes_append]
    exact List.forall_mem_append.mpr ⟨h₁.out, h₂.out⟩

instance (l₁ l₂ : List α) [h₁ : Rowed source l₁] [h₂ : Rowed source l₂] [hends : DoneAt source hi l₁]
    [hstarts : Starts lo l₂] [hle : Le hi.pos lo] : Rowed source (l₁ ++ l₂) where
  out := by
    rw [nodes_append]
    exact row_append h₁.out h₂.out hends.out hstarts.out hle.out

instance (l₁ l₂ : List α) [h₁ : DoneAt source hi l₁] [h₂ : DoneAt source hi' l₂] [hle : hi.Leads hi'] :
    DoneAt source hi' (l₁ ++ l₂) where
  out := by
    rw [nodes_append]
    exact List.forall_mem_append.mpr ⟨fun n hn => (h₁.out n hn).mono hle, h₂.out⟩

instance (c : Prop) [Decidable c] (l₁ l₂ : List α) [h₁ : From k l₁] [h₂ : From k l₂] :
    From k (if c then l₁ else l₂) where
  out := by
    split
    · exact h₁.out
    · exact h₂.out

instance (c : Prop) [Decidable c] (l₁ l₂ : List α) [h₁ : Ended source s l₁] [h₂ : Ended source s l₂] :
    Ended source s (if c then l₁ else l₂) where
  out := by
    split
    · exact h₁.out
    · exact h₂.out

instance (c : Prop) [Decidable c] (l₁ l₂ : List α) [h₁ : Rowed source l₁] [h₂ : Rowed source l₂] :
    Rowed source (if c then l₁ else l₂) where
  out := by
    split
    · exact h₁.out
    · exact h₂.out

instance (c : Prop) [Decidable c] (l : List α) [h : DoneAt source hi l] : DoneAt source hi (if c then [] else l) where
  out := by
    split
    · exact fun _ h => absurd h List.not_mem_nil
    · exact h.out

end

end Tracked

open Tracked

/-! ### Kinds -/

/-- Kinds that say nothing about the parts. -/
@[reducible] def Kind.isFree : Kind → Bool
  | .call | .member | .identifier | .comment => false
  | _ => true

section
variable {kind : Kind} {k : Nat} {parts more : List Node} {e : Node}

theorem Kind.head?_of_isFree (h : kind.isFree = true) : kind.head? = none := by
  cases kind <;> first | rfl | cases h

theorem Kind.isFree_shape (h : kind.isFree = true) : Shape kind k parts := by
  refine ⟨?_, ?_, ?_⟩
  · rintro rfl
    cases h
  · intro r hr
    rw [Kind.head?_of_isFree h] at hr
    cases hr
  · rintro rfl
    cases h

instance [h : Holds kind.isFree] : Shape kind k parts := Kind.isFree_shape h.out

instance : Shape .identifier k [] := ⟨by decide, by simp [Kind.head?], fun _ => rfl⟩

instance : Shape .call e.start (e.playing .callee :: parts) where
  ne_comment := by decide
  shaped := by
    refine ⟨?_, fun h => by cases h⟩
    rintro _ ⟨⟩
    exact ⟨e.playing .callee, rfl, by cases e; rfl, Node.playing_start e _⟩

instance : Shape .member e.start (e.playing .object :: parts) where
  ne_comment := by decide
  shaped := by
    refine ⟨?_, fun h => by cases h⟩
    rintro _ ⟨⟩
    exact ⟨e.playing .object, rfl, by cases e; rfl, Node.playing_start e _⟩

instance [h : Shape .call k parts] : Shape .call k (parts ++ more) where
  ne_comment := by decide
  shaped := by
    refine ⟨?_, fun h => by cases h⟩
    intro r hr
    obtain ⟨n, hn, hrole⟩ := h.shaped.head r hr
    exact ⟨n, List.mem_head?_append_of_mem_head? hn, hrole⟩

instance (c : Prop) [Decidable c] (kind₁ kind₂ : Kind) [h₁ : Holds kind₁.isFree] [h₂ : Holds kind₂.isFree] :
    Shape (if c then kind₁ else kind₂) k parts := by
  split
  · exact Kind.isFree_shape h₁.out
  · exact Kind.isFree_shape h₂.out

end

section
variable {source : Text} {kind : Kind} {span : Span} {k lo : Nat} {hi : Scan}

/-! ### Nodes for single lexemes -/

theorem Scan.Done.leaf {kind kind' : Kind} (h : hi.Done source (.mk .part kind' span []))
    (hkind : Shape kind span.start []) : hi.Done source (.mk .part kind span []) where
  placed := by
    cases h.placed with
    | mk h₁ h₂ h₃ h₄ => exact .mk h₁ h₂ h₃ h₄
  orderly := .mk (fun _ => rfl) hkind.shaped (by simp) .nil (by simp)
  kind := hkind.ne_comment
  start_lt_stop := h.start_lt_stop
  stop := h.stop
  clear := by
    intro c hc
    refine .mk ?_ (by simp)
    rcases (h.clear c hc).outside with hc | hc | hc
    · exact .inl hc
    · exact .inr (.inl hc)
    · exact .inr (.inr ⟨hkind.ne_comment, hc.2⟩)

instance [h : From k span] : From k (Node.mk .part kind span []) where
  out := by
    intro n hn
    obtain rfl := List.mem_singleton.mp hn
    exact h.out (.mk .part .expression span []) (List.mem_singleton_self _)

instance [h : DoneAt source hi span] [hkind : Shape kind span.start []] :
    DoneAt source hi (Node.mk .part kind span []) where
  out := by
    intro n hn
    obtain rfl := List.mem_singleton.mp hn
    exact (h.out (.mk .part .expression span []) (List.mem_singleton_self _)).leaf hkind

end

/-! ### Nodes made of values -/

namespace Scan

variable {source : Text} {s : Scan} {kind : Kind} {start : Nat} {children : List Node}

theorem done_of_mem (hended : ∀ n ∈ nodes children, s.Done source n) {c : Node} (hc : c ∈ children) :
    s.Done source c :=
  Done.playing_iff.mp (hended _ (List.mem_flatMap.mpr ⟨c, hc, List.mem_singleton_self _⟩))

theorem orderly_close (hfrom : ∀ n ∈ nodes children, start ≤ n.start) (hended : ∀ n ∈ nodes children, s.Done source n)
    (hrow : (nodes children).Pairwise fun m n => m.stop ≤ n.start) (hshape : Shape kind start children) :
    (Node.mk .part kind ⟨start, s.pos⟩ children).Orderly := by
  have hnodes : nodes children = children.map (·.playing .part) := (List.map_eq_flatMap ..).symm
  have hparts : children.filter (!·.isComment) = children := by
    refine List.filter_eq_self.mpr fun c hc => ?_
    simpa [Node.isComment] using (done_of_mem hended hc).kind
  have hpairs : children.Pairwise fun a b => a.stop ≤ b.start := by
    rw [hnodes, List.pairwise_map] at hrow
    simpa using hrow
  refine .mk (absurd · hshape.ne_comment) (by rw [hparts]; exact hshape.shaped) ?_ hpairs
    fun c hc => (done_of_mem hended hc).orderly
  intro c hc
  have hdone := done_of_mem hended hc
  have hstart := hfrom (c.playing .part) (by rw [hnodes]; exact List.mem_map_of_mem hc)
  rw [Node.playing_start] at hstart
  exact ⟨hstart, hdone.start_lt_stop, hdone.stop⟩

theorem done_close (hs : s.Stands source) (hstart : s.Begun source start) (hfrom : From start children)
    (hended : Ended source s children) (hrow : Rowed source children) (hshape : Shape kind start children) :
    s.Done source (.mk .part kind ⟨start, s.pos⟩ children) where
  placed := .mk hstart.boundary hs.boundary (Nat.le_of_lt hstart.lt) fun _ hc => (done_of_mem hended.out hc).placed
  orderly := orderly_close hfrom.out hended.out hrow.out hshape
  kind := hshape.ne_comment
  start_lt_stop := hstart.lt
  stop := Nat.le_refl _
  clear := by
    intro c hc
    refine .mk ?_ fun n hn => (done_of_mem hended.out hn).clear c hc
    rcases hstart.comments c hc with hbefore | hbehind
    · exact .inl hbefore
    · exact .inr (.inr ⟨hshape.ne_comment, hbehind, (hs.comments c hc).2.2⟩)

end Scan

end TestMigration
