import TestMigration.Proofs.Grammar.Ahead
import TestMigration.Proofs.Grammar.Tracked

/-!
# Scanners that agree

Two scanners agree if they come to the same from scans with the same text ahead: both fail, or both take the same
text, and what they return differs by the distances between the scans (`Scanner.Agrees`). The scanners are those of a
production with two assignments of scanners to goals, so what they ask of the goals has to agree as well. It does as
long as the text ahead is short enough; `Progress` says how much that is, and whether a token was taken since the
production began.
-/

namespace TestMigration

open Movable

/-! ### Progress of a production -/

/-- How far a production has come. -/
inductive Progress where
  /-- No token was taken. The goals of lower rank may be asked for. -/
  | fresh (rank : Nat)
  /-- A token was taken, and all goals may be asked for. -/
  | free

namespace Progress

/-- How far it has come behind a scanner that takes a token or need not take one. -/
@[reducible] def after (st : Progress) : Bool → Progress
  | true => free
  | false => st

/-- The rank of the goals that may be asked for. All ranks are less than 16. -/
def rank : Progress → Nat
  | fresh r => r
  | free => 16

/-- The text that may still be taken. -/
def ahead : Progress → Scan → Text
  | fresh _, s => s.skip.rest
  | free, s => s.rest

/-- The same text is ahead of the scans. -/
def Joins (F : Frame) : Progress → Scan → Scan → Prop
  | fresh _ => Scan.Meets F
  | free => Scan.Matches F

/-- A token was taken. -/
class Free (st : Progress) : Prop where
  out : st = free

/-- A goal of the rank may be asked for. -/
class Below (st : Progress) (k : Nat) : Prop where
  out : st = free ∨ k < st.rank

instance : Free free := ⟨rfl⟩
instance (b : Bool) [h : Tracked.Holds b] (st : Progress) : Free (st.after b) := ⟨by rw [h.out]⟩
instance (b : Bool) (st : Progress) [h : Free st] : Free (st.after b) := ⟨by rw [h.out]; cases b <;> rfl⟩

instance (k : Nat) (st : Progress) [h : Free st] : Below st k := ⟨.inl h.out⟩
instance (r : Nat) : Below (fresh (r + 1)) 0 := ⟨.inr (Nat.zero_lt_succ r)⟩

instance (k r : Nat) [h : Below (fresh r) k] : Below (fresh (r + 1)) (k + 1) where
  out := by
    rcases h.out with h | h
    · cases h
    · exact .inr (Nat.succ_lt_succ h)

instance (k : Nat) (b : Bool) (st : Progress) [h : Below st k] : Below (st.after b) k := by
  cases b with
  | false => exact h
  | true => exact ⟨.inl rfl⟩

variable {F : Frame} {st : Progress} {s s' : Scan}

theorem Joins.meets (h : st.Joins F s s') : s.Meets F s' := by
  cases st with
  | fresh r => exact h
  | free => exact Scan.Matches.meets h

theorem Joins.matches [hst : st.Free] (h : st.Joins F s s') : s.Matches F s' := by
  rw [hst.out] at h
  exact h

theorem Joins.of_matches (h : s.Matches F s') : st.Joins F s s' := by
  cases st with
  | fresh r => exact h.meets
  | free => exact h

theorem Joins.sameFlags (h : st.Joins F s s') : s.SameFlags s' := h.meets.toSameFlags

theorem skip_length_le (st : Progress) (s : Scan) : s.skip.rest.length ≤ (st.ahead s).length := by
  cases st with
  | fresh r => exact Nat.le_refl _
  | free => exact s.skip_length_le

theorem ahead_length_le (st : Progress) (s : Scan) : (st.ahead s).length ≤ s.rest.length := by
  cases st with
  | fresh r => exact s.skip_length_le
  | free => exact Nat.le_refl _

theorem free_after (b : Bool) : free.after b = free := by
  cases b <;> rfl

theorem Joins.flagged (h : st.Joins F s s') (markup endable bareArrows : Bool) :
    st.Joins F (s.flagged markup endable bareArrows) (s'.flagged markup endable bareArrows) := by
  cases st with
  | fresh r => exact Scan.Meets.flagged h _ _ _
  | free => exact Scan.Matches.flagged h _ _ _

theorem ahead_flagged (st : Progress) (s : Scan) (markup endable bareArrows : Bool) :
    st.ahead (s.flagged markup endable bareArrows) = st.ahead s := by
  cases st with
  | fresh r =>
    have hskip := congrArg Scan.rest (s.skip_flagged markup endable bareArrows)
    exact hskip
  | free => rfl

theorem after_after (st : Progress) (b c : Bool) : (st.after b).after c = st.after (b || c) := by
  cases b <;> cases c <;> rfl

end Progress

namespace Scanner

variable {α β : Type} [Movable α] [Movable β]

/-- What two scanners come to that agree; the second number is at least as much text as they had ahead. -/
inductive Outcome (F : Frame) (st : Progress) (takes : Bool) (s : Scan) :
    Option (α × Scan) → Option (α × Scan) → Prop where
  | fails : Outcome F st takes s none none
  | comes {a a' : α} {t t' : Scan} (like : moved F.left a = moved F.right a') (joins : (st.after takes).Joins F t t')
    (length : ((st.after takes).ahead t).length + takes.toNat ≤ (st.ahead s).length) :
    Outcome F st takes s (some (a, t)) (some (a', t'))

/-- From scans with the same text ahead, of which there is not too much, the scanners come to the same. -/
class Agrees (M : Nat) (F : Frame) (st : Progress) (p p' : Scanner α) (takes : outParam Bool) : Prop where
  out : ∀ {s s' : Scan}, st.Joins F s s' → 16 * (st.ahead s).length + st.rank ≤ M →
    Outcome F st takes s (p s) (p' s')

section
variable {M : Nat} {F : Frame} {st : Progress} {s s' t t' : Scan} {b c : Bool} {p p' q q' : Scanner α}

theorem Outcome.bind {r r' : Option (α × Scan)} {f f' : α → Scanner β} (h : Outcome F st b s r r')
    (hM : 16 * (st.ahead s).length + st.rank ≤ M)
    (hf : ∀ {a a' : α} {t t' : Scan}, moved F.left a = moved F.right a' → (st.after b).Joins F t t' →
      16 * ((st.after b).ahead t).length + (st.after b).rank ≤ M →
      Outcome F (st.after b) c t (f a t) (f' a' t')) :
    Outcome F st (b || c) s (r.bind fun x => f x.1 x.2) (r'.bind fun x => f' x.1 x.2) := by
  cases h with
  | fails => exact .fails
  | @comes a a' t t' like joins length =>
    have hroom : 16 * ((st.after b).ahead t).length + (st.after b).rank ≤ M := by
      cases b with
      | false =>
        simp only [Progress.after, Bool.toNat_false] at length ⊢
        omega
      | true =>
        simp only [Progress.after, Progress.rank, Bool.toNat_true] at length ⊢
        omega
    show Outcome F st (b || c) s (f a t) (f' a' t')
    have hthen := hf like joins hroom
    generalize f a t = r at hthen
    generalize f' a' t' = r' at hthen
    cases hthen with
    | fails => exact .fails
    | comes like joins' length' =>
      rw [Progress.after_after] at joins' length'
      refine .comes like joins' ?_
      cases b <;> cases c <;> simp at length length' ⊢ <;> omega

theorem Outcome.weaken {r r' : Option (α × Scan)} (h : Outcome F st b s r r') : Outcome F st false s r r' := by
  cases h with
  | fails => exact .fails
  | comes like joins length =>
    cases b with
    | false => exact .comes like joins length
    | true =>
      exact .comes like (.of_matches joins) (Nat.le_trans (Progress.ahead_length_le ..) (Nat.le_of_succ_le length))

/-! ### Sequences and choices -/

theorem Agrees.takes [h : Agrees M F st p p' b] [hb : Tracked.Holds b] : Agrees M F st p p' true := by
  rw [← hb.out]
  exact h

theorem Agrees.weaken [h : Agrees M F st p p' b] : Agrees M F st p p' false :=
  ⟨fun hs hM => (h.out hs hM).weaken⟩

theorem Agrees.bind {f f' : α → Scanner β} (hp : Agrees M F st p p' b)
    (hf : ∀ q : Twin F α, Agrees M F (st.after b) (f q.fst) (f' q.snd) c) :
    Agrees M F st (p >>= f) (p' >>= f') (b || c) :=
  ⟨fun hs hM => (hp.out hs hM).bind hM fun like joins hroom => (hf ⟨_, _, like⟩).out joins hroom⟩

instance (priority := low) bind_agrees (p p' : Scanner α) (f f' : α → Scanner β) [hp : Agrees M F st p p' b]
    [hf : ∀ q : Twin F α, Agrees M F (st.after b) (f q.fst) (f' q.snd) c] :
    Agrees M F st (p >>= f) (p' >>= f') (b || c) := hp.bind hf

/-- Without offsets the values are the same. -/
theorem Agrees.bind_fixed [hfixed : Fixed α] {f f' : α → Scanner β} (hp : Agrees M F st p p' b)
    (hf : ∀ a, Agrees M F (st.after b) (f a) (f' a) c) : Agrees M F st (p >>= f) (p' >>= f') (b || c) := by
  refine hp.bind fun q => ?_
  have hsame : q.fst = q.snd := by simpa only [hfixed.moved_eq] using q.like
  rw [hsame]
  exact hf q.snd

instance bind_fixed_agrees [Fixed α] (p p' : Scanner α) (f f' : α → Scanner β) [hp : Agrees M F st p p' b]
    [hf : ∀ a, Agrees M F (st.after b) (f a) (f' a) c] : Agrees M F st (p >>= f) (p' >>= f') (b || c) :=
  hp.bind_fixed hf

instance bind_token_agrees {γ : Type} (p p' : Scanner (γ × Span)) (f f' : γ × Span → Scanner β)
    [hp : Agrees M F st p p' b]
    [hf : ∀ (a : γ) (q : Twin F Span), Agrees M F (st.after b) (f (a, q.fst)) (f' (a, q.snd)) c] :
    Agrees M F st (p >>= f) (p' >>= f') (b || c) := by
  refine hp.bind fun q => ?_
  obtain ⟨⟨a, span⟩, ⟨a', span'⟩, hlike⟩ := q
  obtain ⟨rfl, hspan⟩ := Prod.mk.inj hlike
  exact hf a ⟨span, span', hspan⟩

theorem Outcome.stays {a a' : α} (hs : st.Joins F s s') (ha : moved F.left a = moved F.right a') :
    Outcome F st false s (some (a, s)) (some (a', s')) := .comes ha hs (Nat.le_refl _)

instance pure_agrees (a a' : α) [ha : Like F a a'] :
    Agrees M F st (pure a : Scanner α) (pure a') false := ⟨fun hs _ => .stays hs ha.out⟩

instance orElse_agrees [hp : Agrees M F st p p' b] [hq : Agrees M F st q q' c] :
    Agrees M F st (p <|> q) (p' <|> q') (b && c) where
  out := by
    intro s s' hs hM
    have hp := hp.out hs hM
    have hq := hq.out hs hM
    show Outcome F st (b && c) s ((p s).orElse fun _ => q s) ((p' s').orElse fun _ => q' s')
    generalize p s = r at hp
    generalize p' s' = r' at hp
    cases hp with
    | fails =>
      cases b with
      | true => exact hq
      | false => exact hq.weaken
    | comes like joins length =>
      have hcomes := Outcome.comes (s := s) like joins length
      cases c with
      | true => rwa [Bool.and_true]
      | false =>
        rw [Bool.and_false]
        exact hcomes.weaken

instance failure_agrees : Agrees M F st (failure : Scanner α) failure true := ⟨fun _ _ => .fails⟩

instance ite_agrees (c' : Prop) [Decidable c'] [hp : Agrees M F st p p' b] [hq : Agrees M F st q q' c] :
    Agrees M F st (if c' then p else q) (if c' then p' else q') (b && c) := by
  split
  · cases c with
    | true => rwa [Bool.and_true]
    | false =>
      rw [Bool.and_false]
      exact .weaken
  · cases b with
    | true => exact hq
    | false => exact .weaken

instance ite_isEmpty_agrees (l l' : List β) [hl : Like F l l'] [hp : Agrees M F st p p' b]
    [hq : Agrees M F st q q' c] :
    Agrees M F st (if l.isEmpty then p else q) (if l'.isEmpty then p' else q') (b && c) := by
  rw [Like.isEmpty hl.out]
  infer_instance

theorem guard_run (c : Prop) [Decidable c] (s : Scan) : (guard c : Scanner Unit) s = if c then some ((), s) else none := by
  unfold guard
  split <;> rfl

instance guard_agrees (c' : Prop) [Decidable c'] : Agrees M F st (guard c' : Scanner Unit) (guard c') false where
  out := by
    intro s s' hs _
    rw [guard_run, guard_run]
    split
    · exact .stays hs rfl
    · exact .fails

instance guard_isSome_agrees (o o' : Option Node) (b : Bool) [ho : Like F o o'] :
    Agrees M F st (guard (o.isSome == b) : Scanner Unit) (guard (o'.isSome == b)) false := by
  rw [Like.isSome ho.out]
  infer_instance

instance map_some_agrees [hp : Agrees M F st p p' b] :
    Agrees M F st (some <$> p : Scanner (Option α)) (some <$> p') b := by
  have hbind : Agrees M F st (p >>= fun a => pure (some a)) (p' >>= fun a => pure (some a)) (b || false) :=
    hp.bind fun q => inferInstance
  rwa [Bool.or_false] at hbind

instance seqRight_agrees (p p' : Scanner α) (q q' : Scanner β) [hp : Agrees M F st p p' b]
    [hq : Agrees M F (st.after b) q q' c] : Agrees M F st (p *> q) (p' *> q') (b || c) :=
  hp.bind fun _ => hq

/-! ### Tokens -/

instance lexeme_agrees (lex : Lexeme) [hsplits : lex.Splits] [htakes : lex.Takes] :
    Agrees M F st (lexeme lex) (lexeme lex) true where
  out := by
    intro s s' hs _
    have hmeets := hs.meets
    unfold lexeme
    dsimp only
    rw [← hmeets.rest]
    split
    · rename_i taken rest htaken
      have hnext := hmeets.skip.advance taken rest
      refine .comes ?_ hnext ?_
      · simp only [moved, hmeets.pos, hnext.pos]
      · have hlength := congrArg List.length (hsplits.eq_append htaken)
        have htaken := List.length_pos_iff.mpr (htakes.ne_nil htaken)
        rw [List.length_append] at hlength
        have hahead := Progress.skip_length_le st s
        show rest.length + 1 ≤ (st.ahead s).length
        omega
    · exact .fails

instance immediate_agrees (lex : Lexeme) [hsplits : lex.Splits] [hst : st.Free] :
    Agrees M F st (immediate lex) (immediate lex) false where
  out := by
    intro s s' hs _
    have hmatches := hs.matches
    unfold immediate
    rw [← hmatches.rest]
    split
    · rename_i taken rest htaken
      have hnext := hmatches.advance taken rest
      refine .comes ?_ (.of_matches hnext) ?_
      · simp only [moved, hmatches.pos, hnext.pos]
      · have hlength := congrArg List.length (hsplits.eq_append htaken)
        rw [List.length_append] at hlength
        rw [hst.out]
        show rest.length + 0 ≤ s.rest.length
        omega
    · exact .fails

theorem Agrees.get {f f' : Scan → Scanner α}
    (hf : ∀ s s' : Scan, st.Joins F s s' → Agrees M F st (f s) (f' s') b) :
    Agrees M F st (get >>= f) (get >>= f') b :=
  ⟨fun hs hM => (hf _ _ hs).out hs hM⟩

instance modify_agrees (bareArrows : Bool) : Agrees M F st
    (modify fun s => { s with bareArrows } : Scanner Unit) (modify fun s => { s with bareArrows }) false where
  out := by
    intro s s' hs _
    have hrun (s : Scan) : (modify fun s => { s with bareArrows } : Scanner Unit) s =
        some ((), s.flagged s.markup s.endable bareArrows) := rfl
    have hflags := hs.sameFlags
    rw [hrun, hrun, ← hflags.markup, ← hflags.endable]
    exact .comes rfl (hs.flagged ..) (Nat.le_of_eq (congrArg List.length (Progress.ahead_flagged ..)))

instance op_agrees (w : String) : Agrees M F st (op w) (op w) true := by
  unfold op
  exact .takes

/-- The mark is not empty. -/
class Marked (w : String) : Prop where
  ne_nil : w.toList ≠ []

instance : Marked ":" := ⟨by decide⟩
instance : Marked ">" := ⟨by decide⟩
instance : Marked "?" := ⟨by decide⟩
instance : Marked "\x60" := ⟨by decide⟩

instance mark_agrees (w : String) [hw : Marked w] : Agrees M F st (mark w) (mark w) true := by
  have htakes : (Lexeme.exactly w).Takes := ⟨fun htaken => by rw [Lexeme.exactly_taken htaken]; exact hw.ne_nil⟩
  unfold mark
  exact .takes

instance anyWord_agrees : Agrees M F st anyWord anyWord true := by
  unfold anyWord
  exact .takes

instance keyword_agrees (w : String) : Agrees M F st (keyword w) (keyword w) true := by
  unfold keyword
  exact .takes

instance oneOf_agrees (ws : List String) : Agrees M F st (oneOf ws) (oneOf ws) true := by
  unfold oneOf
  exact .takes

instance nextStart_agrees : Agrees M F st nextStart nextStart false :=
  ⟨fun hs _ => .stays hs hs.meets.pos⟩

instance peekChar_agrees : Agrees M F st peekChar peekChar false where
  out := by
    intro s s' hs _
    refine .stays hs ?_
    rw [hs.meets.rest, Fixed.moved_eq, Fixed.moved_eq]

theorem peekWord_run (s : Scan) :
    peekWord s = some ((Lexeme.word s.skip.rest).elim "" (fun r => String.ofList r.1), s) := by
  unfold peekWord
  simp only [get, getThe, MonadStateOf.get, bind, StateT.bind, StateT.get, pure, Option.bind_some]
  rcases Lexeme.word s.skip.rest with _ | ⟨taken, rest⟩ <;> rfl

instance peekWord_agrees : Agrees M F st peekWord peekWord false where
  out := by
    intro s s' hs _
    rw [peekWord_run, peekWord_run, hs.meets.rest]
    exact .stays hs rfl

/-! ### Combinators -/

instance ahead_agrees {γ : Type} [Movable γ] (p p' : Scanner γ) [hp : Agrees M F st p p' b] :
    Agrees M F st (ahead p) (ahead p') false where
  out := by
    intro s s' hs hM
    have hp := hp.out hs hM
    unfold ahead
    generalize p s = r at hp
    generalize p' s' = r' at hp
    cases hp with
    | fails => exact .fails
    | comes _ _ _ => exact .stays hs rfl

instance notAhead_agrees {γ : Type} [Movable γ] (p p' : Scanner γ) [hp : Agrees M F st p p' b] :
    Agrees M F st (notAhead p) (notAhead p') false where
  out := by
    intro s s' hs hM
    have hp := hp.out hs hM
    unfold notAhead
    generalize p s = r at hp
    generalize p' s' = r' at hp
    cases hp with
    | fails => exact .stays hs rfl
    | comes _ _ _ => exact .fails

instance optional_agrees (p p' : Scanner α) [hp : Agrees M F st p p' b] :
    Agrees M F st (optional p) (optional p') false := by
  unfold optional
  exact .weaken

theorem manyGo_outcome (hp : Agrees M F st p p' true) {n n' : Nat} (hs : st.Joins F s s')
    (hM : 16 * (st.ahead s).length + st.rank ≤ M) (hn : (st.ahead s).length < n) (hn' : (st.ahead s).length < n') :
    Outcome F st false s (manyGo p n s) (manyGo p' n' s') := by
  induction n generalizing s s' n' with
  | zero => omega
  | succ n ih =>
    obtain ⟨n', rfl⟩ : ∃ m, n' = m + 1 := ⟨n' - 1, by omega⟩
    have hfirst := hp.out hs hM
    have hrun (p : Scanner α) (n : Nat) (s : Scan) : manyGo p (n + 1) s =
        ((p s).bind fun x => (manyGo p n x.2).bind fun y => some (x.1 :: y.1, y.2)).orElse
          fun _ => some ([], s) := rfl
    rw [hrun, hrun]
    generalize p s = r at hfirst
    generalize p' s' = r' at hfirst
    cases hfirst with
    | fails => exact .stays hs rfl
    | @comes a a' t t' like joins length =>
      -- with every item there is less text ahead, and so enough of the bound is left
      have hjoins : st.Joins F t t' := .of_matches joins
      have hahead := st.ahead_length_le t
      have hlength : (st.ahead t).length < (st.ahead s).length := Nat.lt_of_le_of_lt hahead length
      have hrest : Outcome F st false t (manyGo p n t) (manyGo p' n' t') :=
        ih hjoins (by omega) (by omega) (by omega)
      rw [Option.bind_some, Option.bind_some]
      generalize manyGo p n t = r at hrest
      generalize manyGo p' n' t' = r' at hrest
      cases hrest with
      | fails => exact .stays hs rfl
      | comes likes joins length =>
        exact .comes (congrArg₂ List.cons like likes) joins (Nat.le_trans length (Nat.le_of_lt hlength))

omit [Movable α] in
theorem many_run (p : Scanner α) (s : Scan) : many p s = manyGo p (s.rest.length + 1) s := rfl

instance many_agrees [hp : Agrees M F st p p' b] [hb : Tracked.Holds b] :
    Agrees M F st (many p) (many p') false where
  out := by
    intro s s' hs hM
    have hahead := st.ahead_length_le s
    have hahead' : (st.ahead s).length ≤ s'.rest.length := by
      cases st with
      | fresh r =>
        have hrest : s.skip.rest = s'.skip.rest := hs.rest
        show s.skip.rest.length ≤ s'.rest.length
        rw [hrest]
        exact s'.skip_length_le
      | free =>
        have hrest : s.rest = s'.rest := hs.rest
        rw [← hrest]
        exact Nat.le_refl _
    exact manyGo_outcome (.takes) hs hM (by omega) (by omega)

theorem manyGo_agrees (hp : Agrees M F .free p p' b) (n : Nat) :
    Agrees M F .free (manyGo p n) (manyGo p' n) false := by
  induction n with
  | zero =>
    unfold manyGo
    infer_instance
  | succ n ih =>
    have hrest : Agrees M F (Progress.free.after b) (manyGo p n) (manyGo p' n) false := by
      rwa [Progress.free_after]
    unfold manyGo
    exact .weaken

instance many_free_agrees [hst : st.Free] [hp : Agrees M F .free p p' b] :
    Agrees M F st (many p) (many p') false where
  out := by
    intro s s' hs hM
    obtain rfl := hst.out
    rw [many_run, many_run, ← Scan.Matches.rest hs]
    exact (manyGo_agrees hp _).out hs hM

instance sepBy1_agrees (sep sep' : Scanner Unit) [hp : Agrees M F st p p' b]
    [hsep : Agrees M F (st.after b) sep sep' true] [hp' : Agrees M F ((st.after b).after true) p p' c] :
    Agrees M F st (sepBy1 sep p) (sepBy1 sep' p') (b || (false || false)) := by
  unfold sepBy1
  infer_instance

theorem extendGo_agrees {step step' : Node → Scanner Node}
    (hstep : ∀ q : Twin F Node, Agrees M F .free (step q.fst) (step' q.snd) b) (n : Nat) (e e' : Node)
    [he : Like F e e'] : Agrees M F .free (extendGo step n e) (extendGo step' n e') false := by
  induction n generalizing e e' with
  | zero =>
    unfold extendGo
    infer_instance
  | succ n ih =>
    have hfirst : Agrees M F .free (step e) (step' e') b := hstep ⟨e, e', he.out⟩
    have hrest (q : Twin F Node) :
        Agrees M F (Progress.free.after b) (extendGo step n q.fst) (extendGo step' n q.snd) false := by
      rw [Progress.free_after]
      exact ih _ _
    unfold extendGo
    exact .weaken

instance extend_agrees (step step' : Node → Scanner Node) (e e' : Node) [hst : st.Free] [he : Like F e e']
    [hstep : ∀ q : Twin F Node, Agrees M F .free (step q.fst) (step' q.snd) b] :
    Agrees M F st (extend step e) (extend step' e') false where
  out := by
    intro s s' hs hM
    obtain rfl := hst.out
    have hrun (step : Node → Scanner Node) (e : Node) (s : Scan) :
        extend step e s = extendGo step (s.rest.length + 1) e s := rfl
    rw [hrun, hrun, ← Scan.Matches.rest hs]
    exact (extendGo_agrees hstep _ e e').out hs hM

instance ending_agrees (endable : Bool) [hp : Agrees M F st p p' b] :
    Agrees M F st (ending endable p) (ending endable p') b where
  out := by
    intro s s' hs hM
    have hrun (p : Scanner α) (s : Scan) : ending endable p s =
        (p (s.flagged s.markup endable s.bareArrows)).bind fun (a, t) =>
          some (a, t.flagged t.markup s.endable t.bareArrows) := rfl
    have hflags := hs.sameFlags
    rw [hrun, hrun, ← hflags.markup, ← hflags.bareArrows, ← hflags.endable]
    have hin := hp.out (hs.flagged s.markup endable s.bareArrows) (by rwa [Progress.ahead_flagged])
    generalize p _ = r at hin
    generalize p' _ = r' at hin
    cases hin with
    | fails => exact .fails
    | @comes a a' t t' like joins length =>
      rw [Progress.ahead_flagged] at length
      have hback := joins.flagged t.markup s.endable t.bareArrows
      have hflags := joins.sameFlags
      refine .comes like ?_ (by rwa [Progress.ahead_flagged])
      rwa [hflags.markup, hflags.bareArrows] at hback ⊢

/-! ### Nodes and ends of statements -/

instance close_agrees (kind : Kind) (start start' : Nat) (children children' : List Node) [hst : st.Free]
    [hstart : Like F start start'] [hchildren : Like F children children'] :
    Agrees M F st (close kind start children) (close kind start' children') false where
  out := by
    intro s s' hs _
    have hpos := hs.matches.pos
    have hstart : start + F.left = start' + F.right := hstart.out
    refine .stays hs (Like.Node.moved_injEq.mpr ⟨rfl, rfl, ?_, hchildren.out⟩)
    simp only [moved, hstart, ← Nat.add_max_add_right, hpos]

instance node_agrees (kind : Kind) (p p' : Scanner (List Node)) [h : Agrees M F st p p' b]
    [hb : Tracked.Holds b] : Agrees M F st (node kind p) (node kind p') true := by
  unfold node
  exact .takes

instance leaf_agrees (kind : Kind) (lex : Lexeme) [lex.Splits] [lex.Takes] :
    Agrees M F st (leaf kind lex) (leaf kind lex) true := by
  unfold leaf
  exact .takes

instance keywordLeaf_agrees (kind : Kind) (w : String) :
    Agrees M F st (keywordLeaf kind w) (keywordLeaf kind w) true := by
  unfold keywordLeaf
  exact .takes

instance goesOn_agrees (inExpression : Bool) [st.Free] :
    Agrees M F st (goesOn inExpression) (goesOn inExpression) false := by
  unfold goesOn
  refine .get fun s s' hs => ?_
  rw [hs.sameFlags.endable, hs.matches.statementEnd?_isSome]
  infer_instance

instance lineEnd_agrees (inExpression : Bool) [hst : st.Free] :
    Agrees M F st (lineEnd inExpression) (lineEnd inExpression) false where
  out := by
    intro s s' hs _
    have hend := hs.matches.statementEnd? inExpression
    unfold lineEnd
    cases hnext : s.statementEnd? inExpression with
    | none =>
      rw [hnext] at hend
      generalize s'.statementEnd? inExpression = o' at hend
      cases hend
      exact .fails
    | some next =>
      have hlength := Scan.endGo_length_le hnext
      rw [hnext] at hend
      generalize s'.statementEnd? inExpression = o' at hend
      cases hend with
      | some hnext =>
        refine .comes rfl (.of_matches hnext) ?_
        rw [hst.out]
        exact hlength

instance semicolon_agrees (inExpression : Bool) [st.Free] :
    Agrees M F st (semicolon inExpression) (semicolon inExpression) false := by
  unfold semicolon
  exact .weaken

instance semicolon_isSome_agrees (o o' : Option Node) [st.Free] [ho : Like F o o'] :
    Agrees M F st (semicolon o.isSome) (semicolon o'.isSome) false := by
  rw [Like.isSome ho.out]
  infer_instance

instance optionalEnd_agrees [st.Free] : Agrees M F st optionalEnd optionalEnd false := by
  unfold optionalEnd
  exact .weaken

end

end Scanner

/-! ### Goals -/

/-- How early a goal is asked for: before a token is taken, a production only asks for goals of lower rank. -/
@[reducible] def Goal.rank : Goal → Nat
  | .statement => 6
  | .expressions => 5
  | .expression => 4
  | .binary _ => 3
  | .operand => 2
  | .chained | .constructed | .type => 1
  | _ => 0

/-- For every goal the scanners agree if there is not too much text ahead. -/
class Rules.Agree (M : Nat) (F : Frame) (g g' : Rules) : Prop where
  out : ∀ (goal : Goal) {s s' : Scan}, s.Meets F s' → 16 * s.skip.rest.length + goal.rank < M →
    Scanner.Outcome F (.fresh goal.rank) true s (g goal s) (g' goal s')

namespace Scanner

instance rule_agrees {M : Nat} {F : Frame} {st : Progress} (g g' : Rules) (goal : Goal) [hg : Rules.Agree M F g g']
    [hgoal : st.Below goal.rank] : Agrees M F st (g goal) (g' goal) true where
  out := by
    intro s s' hs hM
    have hrank : goal.rank < 16 := by cases goal <;> simp [Goal.rank]
    have hahead := st.skip_length_le s
    have hbound : 16 * s.skip.rest.length + goal.rank < M := by
      rcases hgoal.out with rfl | hlt
      · have hM : 16 * s.rest.length + 16 ≤ M := hM
        have hahead : s.skip.rest.length ≤ s.rest.length := hahead
        omega
      · omega
    have hout := hg.out goal hs.meets hbound
    generalize g goal s = r at hout
    generalize g' goal s' = r' at hout
    cases hout with
    | fails => exact .fails
    | comes like joins length => exact .comes like joins (Nat.le_trans length hahead)

end Scanner

end TestMigration
