import TestMigration.Proofs.Grammar.Tracked

/-!
# Tidy scanners

`Scanner.Tidy source p takes`: from a scan that stands where it says it stands, `p` comes to such a scan behind it, and
the nodes of what it returns stand one behind the other, at the next token or behind it, and are done. The flag says
that `p` takes at least one token. What a production does after its first token is a matter of the scan it has come
to: `Scanner.TidyIn source k s p takes` says the same of `p` from the scan `s` alone, for nodes at the offset `k` or
behind it. Both are classes, and so are the properties of the values on the way, so a production is tidy as soon as
its parts are.
-/

namespace TestMigration

open Scan Tracked

section
variable {source : Text} {α β : Type} [Tracked α] [Tracked β] {k : Nat} {s s' s'' : Scan} {a : α} {b c : Bool}

theorem Tracked.Come.trans {a' : β} (h : Come source k s b a s') (h' : Come source k s' c a' s'') :
    Come source k s (b || c) a' s'' where
  stands := h'.stands
  leads := h.leads.trans h'.leads
  ready := h'.ready
  takes := by
    intro htakes
    rcases Bool.or_eq_true_iff.mp htakes with hb | hc
    · exact Nat.lt_of_lt_of_le (h.takes hb) h'.leads.pos
    · exact h'.takes hc
  start := h'.start
  done := h'.done
  row := h'.row

end

namespace Scanner

/-- From a scan that stands where it says, the scanner comes to such a scan behind it. What it returns begins with
the next token. -/
class Tidy (source : Text) {α : Type} [Tracked α] (p : Scanner α) (takes : outParam Bool) : Prop where
  out : ∀ {s s' : Scan} {a : α}, s.Stands source → p s = some (a, s') → Come source s.next s takes a s'

/-- The scanner is tidy from the scan `s`, for nodes at `k` or behind it. -/
class TidyIn (source : Text) {α : Type} [Tracked α] (k : Nat) (s : Scan) (p : Scanner α) (takes : outParam Bool) :
    Prop where
  out : ∀ {s' : Scan} {a : α}, p s = some (a, s') → Come source k s takes a s'

section
variable {source : Text} {α β : Type} [Tracked α] [Tracked β] {k : Nat} {s s' s'' : Scan} {a : α} {b c : Bool}

/-- A node that has begun before takes in what comes now. -/
theorem Tidy.come {p : Scanner α} (h : Tidy source p b) (hs : s.Stands source) (hk : s.Ready source k)
    (hp : p s = some (a, s')) : Come source k s b a s' ∧ ∀ n ∈ nodes a, s.pos ≤ n.start := by
  have hcome := h.out hs hp
  have hstart : ∀ n ∈ nodes a, s.pos ≤ n.start := fun n hn => Nat.le_trans hs.pos_le_next (hcome.start n hn)
  refine ⟨?_, hstart⟩
  rcases hk.begun with hlt | rfl
  · have hbegun : s'.Begun source k := Begun.mono { hk with lt := hlt } hcome.leads
    exact { hcome with
      ready := hbegun.toReady
      takes := fun _ => hbegun.lt
      start := fun n hn => Nat.le_trans (Nat.le_of_lt hlt) (hstart n hn) }
  · exact hcome

/-! ### Sequences and choices -/

theorem Tidy.of_in {p : Scanner α} (hb : b = c)
    (h : ∀ s : { s : Scan // s.Stands source }, TidyIn source s.val.next s.val p b) : Tidy source p c := by
  subst hb
  exact ⟨fun {s} _ _ hs hp => (h ⟨s, hs⟩).out hp⟩

instance tidy_of_tidyIn (p : Scanner α)
    [h : ∀ s : { s : Scan // s.Stands source }, TidyIn source s.val.next s.val p b] : Tidy source p b := .of_in rfl h

instance (priority := low) tidyIn_of_tidy (p : Scanner α) [hs : s.Stands source] [hk : s.Ready source k]
    [h : Tidy source p b] : TidyIn source k s p b :=
  ⟨fun hp => (h.come hs hk hp).1⟩

/-- Whether a scanner takes something can be said at once. -/
theorem Tidy.takes {p : Scanner α} [h : Tidy source p b] [hb : Holds b] : Tidy source p true := by
  rw [← hb.out]
  exact h

theorem Tidy.weaken {p : Scanner α} [h : Tidy source p b] : Tidy source p false where
  out := by
    intro s s' a hs hp
    exact { h.out hs hp with takes := nofun }

theorem TidyIn.takes {p : Scanner α} [h : TidyIn source k s p b] [hb : Holds b] : TidyIn source k s p true := by
  rw [← hb.out]
  exact h

theorem TidyIn.imp {p : Scanner α} (h : TidyIn source k s p b) (hc : c = true → b = true) : TidyIn source k s p c where
  out := by
    intro s' a hp
    exact { h.out hp with takes := fun htakes => (h.out hp).takes (hc htakes) }

theorem TidyIn.weaken {p : Scanner α} [h : TidyIn source k s p b] : TidyIn source k s p false := h.imp nofun

theorem Tidy.bind {p : Scanner α} {f : α → Scanner β} (hp : Tidy source p b) [hs : s.Stands source]
    [hk : s.Ready source k] (hf : ∀ r : After source k s.pos s b α, TidyIn source k r.scan (f r.value) c) :
    TidyIn source k s (p >>= f) (b || c) where
  out := by
    intro s'' a' h
    obtain ⟨⟨a, s'⟩, hp', hf'⟩ := Option.bind_eq_some_iff.mp h
    obtain ⟨hcome, hstart⟩ := hp.come hs hk hp'
    exact hcome.trans ((hf ⟨a, s', hcome, hstart⟩).out hf')

instance bind_tidyIn (p : Scanner α) (f : α → Scanner β) [s.Stands source] [s.Ready source k] [hp : Tidy source p b]
    [hf : ∀ r : After source k s.pos s b α, TidyIn source k r.scan (f r.value) c] :
    TidyIn source k s (p >>= f) (b || c) := hp.bind hf

instance bind_pair_tidyIn {γ : Type} (p : Scanner (γ × α)) (f : γ × α → Scanner β) [s.Stands source]
    [s.Ready source k] [hp : Tidy source p b]
    [hf : ∀ r : After source k s.pos s b (γ × α), TidyIn source k r.scan (f (r.value.1, r.value.2)) c] :
    TidyIn source k s (p >>= f) (b || c) := hp.bind hf

/-- A step that goes on with a node that has begun before. -/
instance (priority := low) bind_within_tidyIn (p : Scanner α) (f : α → Scanner β) [hp : TidyIn source k s p b]
    [hf : ∀ r : After source k k s b α, TidyIn source k r.scan (f r.value) c] :
    TidyIn source k s (p >>= f) (b || c) where
  out := by
    intro s'' a' h
    obtain ⟨⟨a, s'⟩, hp', hf'⟩ := Option.bind_eq_some_iff.mp h
    have hcome := hp.out hp'
    exact hcome.trans ((hf ⟨a, s', hcome, hcome.start⟩).out hf')

instance nextStart_tidyIn (f : Nat → Scanner α) [h : TidyIn source s.next s (f s.next) b] :
    TidyIn source s.next s (nextStart >>= f) b :=
  ⟨fun hp => h.out hp⟩

instance pure_tidyIn (a : α) [hs : s.Stands source] [hk : s.Ready source k] [hfrom : From k a]
    [hended : Ended source s a] [hrow : Rowed source a] : TidyIn source k s (pure a : Scanner α) false where
  out := by
    intro s' a' h
    cases h
    exact ⟨hs, .refl _, hk, nofun, hfrom.out, hended.out, hrow.out⟩

instance orElse_tidyIn (p q : Scanner α) [hp : TidyIn source k s p b] [hq : TidyIn source k s q c] :
    TidyIn source k s (p <|> q) (b && c) where
  out := by
    intro s' a h
    have hchoice : (p s <|> q s) = some (a, s') := h
    cases hps : p s with
    | none =>
      have hcome := hq.out (by simpa [hps] using hchoice)
      exact { hcome with takes := fun htakes => hcome.takes (Bool.and_eq_true_iff.mp htakes).2 }
    | some r =>
      have hcome := hp.out (by simpa [hps] using hchoice)
      exact { hcome with takes := fun htakes => hcome.takes (Bool.and_eq_true_iff.mp htakes).1 }

instance ite_tidyIn (c' : Prop) [Decidable c'] (p q : Scanner α) [hp : TidyIn source k s p b]
    [hq : TidyIn source k s q c] : TidyIn source k s (if c' then p else q) (b && c) := by
  split
  · exact hp.imp fun htakes => (Bool.and_eq_true_iff.mp htakes).1
  · exact hq.imp fun htakes => (Bool.and_eq_true_iff.mp htakes).2

instance failure_tidy : Tidy source (failure : Scanner α) true where
  out := by
    intro s s' a hs h
    cases h

theorem come_of_stays (hs : s.Stands source) (hk : s.Ready source k) (ha : nodes a = []) :
    Come source k s false a s where
  stands := hs
  leads := .refl s
  ready := hk
  takes := nofun
  start := by simp [ha]
  done := by simp [ha]
  row := by simp [ha]

instance guard_tidy (c' : Prop) [Decidable c'] : Tidy source (guard c' : Scanner Unit) false where
  out := by
    intro s s' a hs h
    unfold guard at h
    split at h
    · cases h
      exact come_of_stays hs hs.ready rfl
    · cases h

instance map_some_tidy (p : Scanner α) [hp : Tidy source p b] : Tidy source (some <$> p : Scanner (Option α)) b where
  out := by
    intro s s' o hs h
    obtain ⟨⟨a, s''⟩, hp', heq⟩ := Option.bind_eq_some_iff.mp h
    cases heq
    have hcome := hp.out hs hp'
    have hnodes : nodes (some a) = nodes a := nodes_singleton a
    exact { hcome with
      start := by rw [hnodes]; exact hcome.start
      done := by rw [hnodes]; exact hcome.done
      row := by rw [hnodes]; exact hcome.row }

instance seqRight_tidy (p : Scanner α) (q : Scanner β) [hp : Tidy source p b] [hq : Tidy source q c] :
    Tidy source (p *> q) (b || c) where
  out := by
    intro s s' a hs h
    have hbind : TidyIn source s.next s (p >>= fun _ => q) (b || c) :=
      @Tidy.bind source _ _ _ _ _ _ _ _ _ _ hp hs hs.ready fun r => inferInstance
    exact hbind.out h

instance get_tidy : Tidy source (get : Scanner Scan) false where
  out := by
    intro s s' a hs h
    cases h
    exact come_of_stays hs hs.ready rfl

/-! ### Tokens -/

instance lexeme_tidy (lex : Lexeme) [hsplits : lex.Splits] [htakes : lex.Takes] : Tidy source (lexeme lex) true where
  out := by
    intro s s' a hs h
    unfold lexeme at h
    dsimp only at h
    split at h
    · rename_i taken rest htaken
      cases h
      have hstands := hs.skip.stands.advance (hsplits.eq_append htaken)
      have hready := hs.token (hsplits.eq_append htaken)
      have hlt : s.next < s.next + Text.size taken :=
        Nat.lt_add_of_pos_right (Text.size_pos_of_ne_nil (htakes.ne_nil htaken))
      refine ⟨hstands, hs.skip.leads.trans (leads_advance ..), hready, fun _ => hlt, ?_, ?_, ?_⟩
      · intro n hn
        obtain rfl := List.mem_singleton.mp hn
        exact Nat.le_refl _
      · intro n hn
        obtain rfl := List.mem_singleton.mp hn
        refine ⟨.mk hready.boundary hstands.boundary (Nat.le_of_lt hlt) (by simp), ?_, nofun, hlt, Nat.le_refl _, ?_⟩
        · exact .mk (fun _ => rfl) (Kind.isFree_shape rfl).shaped (by simp) .nil (by simp)
        · intro c hc
          -- a comment that was passed ends before the token
          exact .mk (.inl (hs.skip.stands.comments c hc).2.2) (by simp)
      · exact List.pairwise_singleton ..
    · cases h

instance op_tidy (w : String) : Tidy source (op w) true := by
  unfold op
  exact .takes

theorem come_mark {w : String} {u : Unit} (hs : s.Stands source) (h : mark w s = some (u, s')) :
    Come source s.next s (w.toList != []) u s' := by
  obtain ⟨⟨token, s₁⟩, hlexeme, heq⟩ := Option.bind_eq_some_iff.mp h
  cases heq
  unfold lexeme at hlexeme
  dsimp only at hlexeme
  split at hlexeme
  · rename_i taken rest htaken
    cases hlexeme
    have hrest := (Lexeme.exactly_splits w).eq_append htaken
    have hleads := hs.skip.leads.trans (leads_advance s.skip taken rest)
    refine ⟨hs.skip.stands.advance hrest, hleads, hs.token hrest, ?_, nofun, nofun, .nil⟩
    intro hw
    obtain rfl := Lexeme.exactly_taken htaken
    exact Nat.lt_add_of_pos_right (Text.size_pos_of_ne_nil (by simpa using hw))
  · cases hlexeme

-- nothing says that the mark is not empty
instance mark_tidy (w : String) : Tidy source (mark w) false where
  out := by
    intro s s' u hs h
    exact { come_mark hs h with takes := nofun }

theorem mark_takes {w : String} (hw : w.toList ≠ []) : Tidy source (mark w) true where
  out := by
    intro s s' u hs h
    exact { come_mark hs h with takes := fun _ => (come_mark hs h).takes (by simpa using hw) }

instance anyWord_tidy : Tidy source anyWord true := by
  unfold anyWord
  exact .takes

instance keyword_tidy (w : String) : Tidy source (keyword w) true := by
  unfold keyword
  exact .takes

instance oneOf_tidy (ws : List String) : Tidy source (oneOf ws) true := by
  unfold oneOf
  exact .takes

instance peekChar_tidy : Tidy source peekChar false where
  out := by
    intro s s' a hs h
    cases h
    exact come_of_stays hs hs.ready (by cases s.skip.rest.head? <;> rfl)

theorem exists_peekWord (s : Scan) : ∃ w, Scanner.peekWord s = some (w, s) := by
  unfold peekWord
  simp only [get, getThe, MonadStateOf.get, bind, StateT.bind, StateT.get, pure, Option.bind_some]
  rcases Lexeme.word s.skip.rest with _ | ⟨taken, rest⟩ <;> exact ⟨_, rfl⟩

instance peekWord_tidy : Tidy source peekWord false where
  out := by
    intro s s' a hs h
    obtain ⟨w, hstays⟩ := exists_peekWord s
    rw [hstays] at h
    cases h
    exact come_of_stays hs hs.ready rfl

/-- What comes behind a look at the next token does not depend on the look. -/
theorem Tidy.peekChar {f : Option Char → Scanner α} (h : ∀ c, Tidy source (f c) b) :
    Tidy source (peekChar >>= f) b :=
  ⟨fun hs hp => (h _).out hs hp⟩

theorem Tidy.peekWord {f : String → Scanner α} (h : ∀ w, Tidy source (f w) b) : Tidy source (peekWord >>= f) b where
  out := by
    intro s s' a hs hp
    obtain ⟨⟨w, s₁⟩, hword, hf⟩ := Option.bind_eq_some_iff.mp hp
    obtain ⟨w', hstays⟩ := exists_peekWord s
    rw [hstays] at hword
    cases hword
    exact (h w).out hs hf

/-! ### Combinators -/

instance ahead_tidy {γ : Type} (p : Scanner γ) : Tidy source (ahead p) false where
  out := by
    intro s s' a hs h
    obtain ⟨_, -, heq⟩ := Option.map_eq_some_iff.mp h
    cases heq
    exact come_of_stays hs hs.ready rfl

instance notAhead_tidy {γ : Type} (p : Scanner γ) : Tidy source (notAhead p) false where
  out := by
    intro s s' a hs h
    unfold notAhead at h
    split at h
    · cases h
    · cases h
      exact come_of_stays hs hs.ready rfl

instance optional_tidy (p : Scanner α) [Tidy source p b] : Tidy source (optional p) false := by
  unfold optional
  exact .weaken

instance manyGo_tidy (p : Scanner α) [hp : Tidy source p b] (n : Nat) : Tidy source (manyGo p n) false := by
  induction n with
  | zero =>
    unfold manyGo
    infer_instance
  | succ n ih =>
    unfold manyGo
    exact .weaken

instance many_tidy (p : Scanner α) [hp : Tidy source p b] : Tidy source (many p) false := by
  unfold many
  exact .weaken

/-- The flag of a list of which the first item takes something. -/
instance sepBy1_tidy (sep : Scanner Unit) (p : Scanner α) [Tidy source sep c] [Tidy source p b] :
    Tidy source (sepBy1 sep p) (b || (false || false)) := by
  unfold sepBy1
  infer_instance

theorem Tidy.flagged {p : Scanner α} (hp : Tidy source p b) {t t' : Scan} (hs : s.Stands source) (ht : s.Alike t)
    (h : p t = some (a, t')) (ht' : t'.Alike s') : Come source s.next s b a s' := by
  have hcome := hp.out (ht.stands hs) h
  rw [ht.next] at hcome
  exact ⟨ht'.stands hcome.stands, (ht.leads.trans hcome.leads).trans ht'.leads, ht'.ready hcome.ready,
    fun htakes => Nat.lt_of_lt_of_le (hcome.takes htakes) ht'.leads.pos, hcome.start,
    fun n hn => (hcome.done n hn).mono ht'.leads, hcome.row⟩

instance ending_tidy (endable : Bool) (p : Scanner α) [hp : Tidy source p b] : Tidy source (ending endable p) b where
  out := by
    intro s s' a hs h
    have hrun : ending endable p s =
        (p { s with endable }).bind fun (a, t) => some (a, { t with endable := s.endable }) := rfl
    obtain ⟨⟨a', t⟩, hp', heq⟩ := Option.bind_eq_some_iff.mp (hrun ▸ h)
    cases heq
    exact hp.flagged hs ⟨_, _, _, rfl⟩ hp' ⟨_, _, _, rfl⟩

/-! ### Nodes and ends of statements -/

theorem come_of_done {e : Node} (hs : s.Stands source) (hk : s.Ready source k) (he : s.Done source e)
    (hle : k ≤ e.start) : Come source k s true e s := by
  refine ⟨hs, .refl s, hk, fun _ => Nat.lt_of_le_of_lt hle he.begun.lt, ?_, ?_, List.pairwise_singleton ..⟩
  · intro n hn
    obtain rfl := List.mem_singleton.mp hn
    rwa [Node.playing_start]
  · intro n hn
    obtain rfl := List.mem_singleton.mp hn
    exact Done.playing_iff.mpr he

instance close_tidyIn (kind : Kind) (start : Nat) (children : List Node) [hs : s.Stands source]
    [hk : s.Ready source k] [hstart : s.Begun source start] [hle : Le k start] [hfrom : From start children]
    [hended : Ended source s children] [hrow : Rowed source children] [hshape : Shape kind start children] :
    TidyIn source k s (close kind start children) true where
  out := by
    intro s' n h
    cases h
    have hdone := done_close hs hstart hfrom hended hrow hshape
    rw [← Nat.max_eq_right (Nat.le_of_lt hstart.lt)] at hdone
    exact come_of_done hs hk hdone hle.out

instance node_tidy (kind : Kind) (p : Scanner (List Node)) [hp : Tidy source p b] [hb : Holds b]
    [hkind : Holds kind.isFree] : Tidy source (node kind p) true := by
  unfold node
  exact .takes

instance leaf_tidy (kind : Kind) (lex : Lexeme) [lex.Splits] [lex.Takes] [hkind : ∀ start, Shape kind start []] :
    Tidy source (leaf kind lex) true := by
  unfold leaf
  exact .takes

instance keywordLeaf_tidy (kind : Kind) (w : String) [hkind : ∀ start, Shape kind start []] :
    Tidy source (keywordLeaf kind w) true := by
  have hleaf : keywordLeaf kind w = (do
      let start ← nextStart
      keyword w
      close kind start []) := by
    simp [keywordLeaf, node]
  rw [hleaf]
  exact .takes

/-- A node that is done, and a scan behind it. -/
structure Before (source : Text) where
  node : Node
  scan : Scan
  stands : scan.Stands source
  done : scan.Done source node

instance (e : Before source) : e.scan.Stands source := e.stands

instance (e : Before source) : DoneAt source e.scan e.node where
  out := by
    intro n hn
    obtain rfl := List.mem_singleton.mp hn
    exact Done.playing_iff.mpr e.done

/-- Replacing a node step by step, each time by one that begins where it begins or behind. -/
theorem come_extendGo {step : Node → Scanner Node}
    (hstep : ∀ e : Before source, TidyIn source e.node.start e.scan (step e.node) b) {n : Nat} {e e' : Node}
    (hs : s.Stands source) (hk : s.Ready source k) (he : s.Done source e) (hle : k ≤ e.start)
    (h : extendGo step n e s = some (e', s')) : Come source k s true e' s' := by
  induction n generalizing e s with
  | zero =>
    cases h
    exact come_of_done hs hk he hle
  | succ n ih =>
    have hchoice : ((step e >>= extendGo step n) s <|> (pure e : Scanner Node) s) = some (e', s') := h
    cases hgo : (step e >>= extendGo step n) s with
    | none =>
      have hstays : (pure e : Scanner Node) s = some (e', s') := by simpa [hgo] using hchoice
      cases hstays
      exact come_of_done hs hk he hle
    | some r =>
      obtain rfl : r = (e', s') := by simpa [hgo] using hchoice
      obtain ⟨⟨e₁, s₁⟩, hstepped, hgo⟩ := Option.bind_eq_some_iff.mp hgo
      have hcome := (hstep ⟨e, s, hs, he⟩).out hstepped
      have hbegun : s.Begun source k := { hk with lt := Nat.lt_of_le_of_lt hle he.begun.lt }
      have he₁ : s₁.Done source e₁ := Done.playing_iff.mp (hcome.done _ (List.mem_singleton_self _))
      have hle₁ : e.start ≤ e₁.start := by simpa using hcome.start _ (List.mem_singleton_self _)
      have hrest := ih hcome.stands (hbegun.mono hcome.leads).toReady he₁ (Nat.le_trans hle hle₁) hgo
      exact { hrest with leads := hcome.leads.trans hrest.leads }

instance extend_tidyIn (step : Node → Scanner Node) (e : Node) [hs : s.Stands source] [hk : s.Ready source k]
    [hfrom : From k e] [hended : Ended source s e]
    [hstep : ∀ e : Before source, TidyIn source e.node.start e.scan (step e.node) b] :
    TidyIn source k s (extend step e) true where
  out := by
    intro s' e' h
    have he : s.Done source e := Done.playing_iff.mp (hended.out _ (List.mem_singleton_self _))
    have hle : k ≤ e.start := by simpa using hfrom.out _ (List.mem_singleton_self _)
    exact come_extendGo hstep hs hk he hle h

instance goesOn_tidy (inExpression : Bool) : Tidy source (goesOn inExpression) false := by
  unfold goesOn
  exact .weaken

instance lineEnd_tidy (inExpression : Bool) : Tidy source (lineEnd inExpression) false where
  out := by
    intro s s' a hs h
    obtain ⟨next, hnext, heq⟩ := Option.map_eq_some_iff.mp h
    cases heq
    have hskips := hs.endGo hnext
    exact ⟨hskips.stands, hskips.leads, hs.ready.skips hskips, nofun, nofun, nofun, .nil⟩

instance semicolon_tidy (inExpression : Bool) : Tidy source (semicolon inExpression) false := by
  unfold semicolon
  exact .weaken

instance optionalEnd_tidy : Tidy source optionalEnd false := by
  unfold optionalEnd
  exact .weaken


/-! ### Text taken as it stands -/

/-- What is known of a value that may begin with a blank, as pieces of templates and of markup do. -/
structure Passes (source : Text) (s : Scan) (a : α) (s' : Scan) : Prop where
  stands : s'.Stands source
  leads : s.Leads s'
  start : ∀ n ∈ nodes a, s.pos ≤ n.start
  done : ∀ n ∈ nodes a, s'.Done source n
  row : (nodes a).Pairwise fun m n => m.stop ≤ n.start

/-- The scanner may begin with a blank. -/
class Loose (source : Text) (p : Scanner α) : Prop where
  out : ∀ {s s' : Scan} {a : α}, s.Stands source → p s = some (a, s') → Passes source s a s'

theorem Passes.of_come (hs : s.Stands source) (h : Come source s.next s b a s') : Passes source s a s' :=
  ⟨h.stands, h.leads, fun n hn => Nat.le_trans hs.pos_le_next (h.start n hn), h.done, h.row⟩

instance (priority := low) loose_of_tidy (p : Scanner α) [h : Tidy source p b] : Loose source p :=
  ⟨fun hs hp => .of_come hs (h.out hs hp)⟩

instance orElse_loose (p q : Scanner α) [hp : Loose source p] [hq : Loose source q] : Loose source (p <|> q) where
  out := by
    intro s s' a hs h
    have hchoice : (p s <|> q s) = some (a, s') := h
    cases hps : p s with
    | none => exact hq.out hs (by simpa [hps] using hchoice)
    | some r => exact hp.out hs (by simpa [hps] using hchoice)

theorem Passes.skips (h : Passes source s a s') (hs : s'.Skips source s'') : Passes source s a s'' :=
  ⟨hs.stands, h.leads.trans hs.leads, h.start, fun n hn => (h.done n hn).mono hs.leads, h.row⟩

theorem Passes.same {a' : β} (h : Passes source s a s') (ha : nodes a' = nodes a) : Passes source s a' s' :=
  ⟨h.stands, h.leads, by rw [ha]; exact h.start, by rw [ha]; exact h.done, by rw [ha]; exact h.row⟩

theorem Passes.append {l l' : List α} (h : Passes source s l s') (h' : Passes source s' l' s'') :
    Passes source s (l ++ l') s'' where
  stands := h'.stands
  leads := h.leads.trans h'.leads
  start := by
    rw [nodes_append]
    exact List.forall_mem_append.mpr ⟨h.start, fun n hn => Nat.le_trans h.leads.pos (h'.start n hn)⟩
  done := by
    rw [nodes_append]
    exact List.forall_mem_append.mpr ⟨fun n hn => (h.done n hn).mono h'.leads, h'.done⟩
  row := by
    rw [nodes_append]
    exact row_append h.row h'.row h.done h'.start (Nat.le_refl _)

instance map_some_loose (p : Scanner α) [hp : Loose source p] : Loose source (some <$> p : Scanner (Option α)) where
  out := by
    intro s s' o hs h
    obtain ⟨⟨a, s''⟩, ha, heq⟩ := Option.bind_eq_some_iff.mp h
    cases heq
    exact (hp.out hs ha).same (nodes_singleton a)

instance optional_loose (p : Scanner α) [Loose source p] : Loose source (optional p) := by
  unfold optional
  infer_instance

instance cons_loose (p : Scanner α) (q : Scanner (List α)) [hp : Loose source p] [hq : Loose source q] :
    Loose source (p >>= fun a => q >>= fun rest => pure (a :: rest) : Scanner (List α)) where
  out := by
    intro s s' l hs h
    obtain ⟨⟨a, s₁⟩, ha, h⟩ := Option.bind_eq_some_iff.mp h
    obtain ⟨⟨rest, s₂⟩, hrest, h⟩ := Option.bind_eq_some_iff.mp h
    cases h
    have hpasses := hp.out hs ha
    exact (hpasses.same (nodes_singleton a)).append (hq.out hpasses.stands hrest)

instance manyGo_loose (p : Scanner α) [Loose source p] (n : Nat) : Loose source (manyGo p n) := by
  induction n with
  | zero =>
    unfold manyGo
    infer_instance
  | succ n ih =>
    unfold manyGo
    infer_instance

instance many_loose (p : Scanner α) [Loose source p] : Loose source (many p) where
  out := by
    intro s s' l hs h
    have hrun : many p s = manyGo p (s.rest.length + 1) s := rfl
    exact (manyGo_loose p _).out hs (hrun ▸ h)

instance singleton_loose (p : Scanner α) [hp : Loose source p] :
    Loose source (p >>= fun a => pure [a] : Scanner (List α)) where
  out := by
    intro s s' l hs h
    obtain ⟨⟨a, s₁⟩, ha, h⟩ := Option.bind_eq_some_iff.mp h
    cases h
    exact (hp.out hs ha).same (nodes_singleton a)

theorem immediate_eq {lex : Lexeme} {taken : Text} {span : Span} (h : immediate lex s = some ((taken, span), s')) :
    ∃ rest, lex s.rest = some (taken, rest) ∧ s' = s.advance taken rest ∧ span = ⟨s.pos, s'.pos⟩ := by
  unfold immediate at h
  split at h
  · rename_i taken' rest htaken
    cases h
    exact ⟨rest, htaken, rfl, rfl⟩
  · cases h

theorem immediate_advance {lex : Lexeme} [hlex : lex.Splits] {token : Text × Span} (hs : s.Stands source)
    (h : immediate lex s = some (token, s')) : s'.Stands source ∧ s.Leads s' := by
  obtain ⟨rest, htaken, rfl, -⟩ := immediate_eq h
  exact ⟨hs.advance (hlex.eq_append htaken), leads_advance ..⟩

/-- A node for the text taken has begun, if there is any. -/
theorem immediate_begun {lex : Lexeme} {taken : Text} {span : Span} (hs : s.Stands source)
    (h : immediate lex s = some ((taken, span), s')) (htaken : taken ≠ []) : s'.Begun source s.pos := by
  obtain ⟨rest, -, rfl, -⟩ := immediate_eq h
  have hlt : s.pos < s.pos + Text.size taken := Nat.lt_add_of_pos_right (Text.size_pos_of_ne_nil htaken)
  have hready : (s.advance taken rest).Ready source s.pos :=
    ⟨hs.boundary, .inl hlt, fun c hc => .inl (hs.comments c hc).2.2⟩
  exact { hready with lt := hlt }

instance flatten_loose (p : Scanner (List (List α))) [hp : Loose source p] :
    Loose source (p >>= fun l => pure l.flatten) where
  out := by
    intro s s' l hs h
    obtain ⟨⟨pieces, s₁⟩, hpieces, h⟩ := Option.bind_eq_some_iff.mp h
    cases h
    exact (hp.out hs hpieces).same (nodes_flatten pieces)

instance immediate_loose (lex : Lexeme) [lex.Splits] :
    Loose source (immediate lex >>= fun _ => pure [] : Scanner (List Node)) where
  out := by
    intro s s' l hs h
    obtain ⟨⟨token, s₁⟩, htoken, h⟩ := Option.bind_eq_some_iff.mp h
    cases h
    obtain ⟨hstands, hleads⟩ := immediate_advance hs htoken
    exact ⟨hstands, hleads, nofun, nofun, .nil⟩

/-- A node that has begun takes in what comes, blank or not. -/
instance bind_loose_tidyIn (p : Scanner α) (f : α → Scanner β) [hs : s.Stands source] [hk : s.Begun source k]
    [hp : Loose source p] [hf : ∀ r : After source k s.pos s true α, TidyIn source k r.scan (f r.value) c] :
    TidyIn source k s (p >>= f) true where
  out := by
    intro s'' a' h
    obtain ⟨⟨a, s'⟩, hp', hf'⟩ := Option.bind_eq_some_iff.mp h
    obtain ⟨hstands, hleads, hstart, hdone, hrow⟩ := hp.out hs hp'
    have hbegun := hk.mono hleads
    have hcome : Come source k s true a s' := ⟨hstands, hleads, hbegun.toReady, fun _ => hbegun.lt,
      fun n hn => Nat.le_trans (Nat.le_of_lt hk.lt) (hstart n hn), hdone, hrow⟩
    exact hcome.trans ((hf ⟨a, s', hcome, hstart⟩).out hf')

instance bind_immediate_tidyIn (lex : Lexeme) (q : Scanner α) [lex.Splits] [hs : s.Stands source]
    [hk : s.Begun source k] [hq : ∀ r : After source k s.pos s true Unit, TidyIn source k r.scan q c] :
    TidyIn source k s (immediate lex >>= fun _ => q) true where
  out := by
    intro s'' a h
    obtain ⟨⟨token, s'⟩, htoken, hq'⟩ := Option.bind_eq_some_iff.mp h
    obtain ⟨hstands, hleads⟩ := immediate_advance hs htoken
    have hbegun := hk.mono hleads
    have hcome : Come source k s true () s' :=
      ⟨hstands, hleads, hbegun.toReady, fun _ => hbegun.lt, nofun, nofun, .nil⟩
    exact hcome.trans ((hq ⟨(), s', hcome, nofun⟩).out hq')

end

end Scanner

end TestMigration
