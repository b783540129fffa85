import TestMigration.Proofs.Expr.Token
import TestMigration.Proofs.Grammar.Depth

/-!
# Texts that scanners accept

`Scanner.Accepts p t rest`: in front of `rest` the scanner takes exactly `t`, whatever came before. `Scanner.Rejects p t`:
it fails in front of `t`. What follows is part of both, since it decides where a word or an operator ends.
-/

namespace TestMigration

theorem Lexeme.all_isGap_nil : List.all [] isGap = true := rfl

theorem Lexeme.all_isGap_blank : List.all [' '] isGap = true := by decide

/-- A token stands at the beginning of the text, and neither a blank nor a comment. -/
structure Text.Ready (t : Text) : Prop where
  head : ∃ c ∈ t.head?, Lexeme.isGap c = false
  comment : Lexeme.comment t = none

namespace Text.Ready

theorem cons {c : Char} (hgap : Lexeme.isGap c = false) (hslash : c ≠ '/') (t : Text) : Text.Ready (c :: t) where
  head := ⟨c, rfl, hgap⟩
  comment := by
    unfold Lexeme.comment
    split
    · rename_i heq
      exact absurd (List.cons.inj heq).1 hslash
    · rename_i heq
      exact absurd (List.cons.inj heq).1 hslash
    · rfl

theorem of_isWord {w : String} (h : isWord w) (rest : Text) : Text.Ready (w.toList ++ rest) := by
  obtain ⟨c, t, hw, hmark, hgap, -⟩ := exists_head_of_isWord h
  rw [hw]
  exact cons hgap (hmark '/' (by decide) (by decide)) (t ++ rest)

end Text.Ready

namespace Scan

variable {s : Scan} {gaps t rest : Text}

theorem skip_of_ready (hgaps : gaps.all Lexeme.isGap = true) (ht : Text.Ready t) (h : s.rest = gaps ++ t) :
    s.skip = s.advance gaps t := by
  obtain ⟨c, hc, hgap⟩ := ht.head
  obtain ⟨t', rfl⟩ := List.head?_eq_some_iff.mp hc
  have hskip : s.skipGaps = s.advance gaps (c :: t') := by
    unfold Scan.skipGaps
    rw [h, Lexeme.takeWhile_append_stop hgaps hgap, Lexeme.dropWhile_append_stop hgaps hgap]
  have hcomment : s.comment? = none := by
    unfold Scan.comment?
    dsimp only
    rw [hskip, show (s.advance gaps (c :: t')).rest = c :: t' from rfl, ht.comment]
  unfold Scan.skip
  cases s.rest.length with
  | zero => exact hskip
  | succ n => rw [skipGo, hcomment, hskip]

theorem advance_advance (s : Scan) (a b t u : Text) : (s.advance a t).advance b u = s.advance (a ++ b) u := by
  unfold Scan.advance
  rw [Text.size_append, Nat.add_assoc]

end Scan

namespace Scanner

/-- In front of `rest` the scanner takes `t`. -/
def Accepts {α : Type} (p : Scanner α) (t rest : Text) : Prop :=
  ∀ s : Scan, s.rest = t ++ rest → ∃ a, p s = some (a, s.advance t rest)

/-- The scanner takes nothing in front of the text. -/
def Rejects {α : Type} (p : Scanner α) (t : Text) : Prop := ∀ s : Scan, s.rest = t → p s = none

section
variable {α β : Type} {p q : Scanner α} {f : α → Scanner β} {t u rest gaps : Text}

/-! ### Sequences and choices -/

theorem Accepts.stays (h : ∀ s : Scan, s.rest = rest → ∃ a, p s = some (a, s)) : Accepts p [] rest := by
  intro s hs
  obtain rfl : s.rest = rest := hs
  exact h s rfl

theorem reads_pure (a : α) (rest : Text) : Accepts (pure a : Scanner α) [] rest := .stays fun _ _ => ⟨a, rfl⟩

theorem Accepts.bind (hp : Accepts p t (u ++ rest)) (hf : ∀ a, Accepts (f a) u rest) :
    Accepts (p >>= f) (t ++ u) rest := by
  intro s hs
  obtain ⟨a, ha⟩ := hp s (by rw [hs, List.append_assoc])
  obtain ⟨b, hb⟩ := hf a (s.advance t (u ++ rest)) rfl
  refine ⟨b, ?_⟩
  have hrun : (p >>= f) s = (p s).bind fun r => f r.1 r.2 := rfl
  rw [hrun, ha, Option.bind_some, hb, Scan.advance_advance]

theorem Accepts.bind_pure (hp : Accepts p t rest) {f : α → β} : Accepts (p >>= fun a => pure (f a)) t rest := by
  have hbind : Accepts (p >>= fun a => pure (f a)) (t ++ []) rest :=
    Accepts.bind hp fun a => reads_pure (f a) rest
  rwa [List.append_nil] at hbind

theorem Rejects.bind (hp : Rejects p t) : Rejects (p >>= f) t := by
  intro s hs
  have hrun : (p >>= f) s = (p s).bind fun r => f r.1 r.2 := rfl
  rw [hrun, hp s hs]
  rfl

theorem Accepts.bind_rejects (hp : Accepts p t rest) (hf : ∀ a, Rejects (f a) rest) : Rejects (p >>= f) (t ++ rest) := by
  intro s hs
  obtain ⟨a, ha⟩ := hp s hs
  have hrun : (p >>= f) s = (p s).bind fun r => f r.1 r.2 := rfl
  rw [hrun, ha, Option.bind_some]
  exact hf a _ rfl

theorem Accepts.orElse (hp : Accepts p t rest) : Accepts (p <|> q) t rest := by
  intro s hs
  obtain ⟨a, ha⟩ := hp s hs
  have hrun : (p <|> q) s = (p s).orElse fun _ => q s := rfl
  exact ⟨a, by rw [hrun, ha]; rfl⟩

theorem Rejects.orElse (hp : Rejects p (t ++ rest)) (hq : Accepts q t rest) : Accepts (p <|> q) t rest := by
  intro s hs
  obtain ⟨a, ha⟩ := hq s hs
  have hrun : (p <|> q) s = (p s).orElse fun _ => q s := rfl
  exact ⟨a, by rw [hrun, hp s hs, ← ha]; rfl⟩

theorem Rejects.orElse_rejects (hp : Rejects p t) (hq : Rejects q t) : Rejects (p <|> q) t := by
  intro s hs
  have hrun : (p <|> q) s = (p s).orElse fun _ => q s := rfl
  rw [hrun, hp s hs]
  exact hq s hs

theorem Accepts.optional (hp : Accepts p t rest) : Accepts (optional p) t rest := by
  intro s hs
  obtain ⟨a, ha⟩ := hp s hs
  exact ⟨some a, by rw [Grammar.optional_run, ha]; rfl⟩

theorem Rejects.optional (hp : Rejects p rest) : Accepts (optional p) [] rest :=
  .stays fun s hs => ⟨none, by rw [Grammar.optional_run, hp s hs]; rfl⟩

/-- Texts are read one behind the other if each of them is read in front of the others. -/
theorem manyGo_accepts {l : List Text} {Follows : Text → Prop} (hp : Rejects p rest) (hrest : Follows rest)
    (hts : ∀ t ∈ l, t ≠ [] ∧ ∀ u, Follows (t ++ u) ∧ (Follows u → Accepts p t u)) {n : Nat}
    (hn : l.flatten.length < n) : Accepts (manyGo p n) l.flatten rest ∧ Follows (l.flatten ++ rest) := by
  induction l generalizing n with
  | nil =>
    obtain ⟨n, rfl⟩ : ∃ m, n = m + 1 := ⟨n - 1, by omega⟩
    unfold manyGo
    exact ⟨Rejects.orElse (Rejects.bind hp) (reads_pure [] rest), hrest⟩
  | cons t l ih =>
    obtain ⟨⟨hne, hfirst⟩, hts⟩ := List.forall_mem_cons.mp hts
    obtain ⟨n, rfl⟩ : ∃ m, n = m + 1 := ⟨n - 1, by omega⟩
    have hlength := List.length_pos_iff.mpr hne
    rw [List.flatten_cons, List.length_append] at hn
    obtain ⟨hreads, hfollows⟩ := ih (n := n) hts (by omega)
    unfold manyGo
    rw [List.flatten_cons, List.append_assoc]
    exact ⟨Accepts.orElse (Accepts.bind ((hfirst _).2 hfollows) fun a => hreads.bind_pure), (hfirst _).1⟩

theorem many_accepts {l : List Text} {Follows : Text → Prop} (hp : Rejects p rest) (hrest : Follows rest)
    (hts : ∀ t ∈ l, t ≠ [] ∧ ∀ u, Follows (t ++ u) ∧ (Follows u → Accepts p t u)) :
    Accepts (many p) l.flatten rest ∧ Follows (l.flatten ++ rest) := by
  refine ⟨fun s hs => ?_, (manyGo_accepts hp hrest hts (Nat.lt_succ_self _)).2⟩
  rw [many_run]
  refine (manyGo_accepts hp hrest hts ?_).1 s hs
  rw [hs, List.length_append]
  omega

theorem Accepts.ending (hp : Accepts p t rest) (endable : Bool) : Accepts (ending endable p) t rest := by
  intro s hs
  obtain ⟨a, ha⟩ := hp (s.flagged s.markup endable s.bareArrows) hs
  have hrun : Scanner.ending endable p s = (p (s.flagged s.markup endable s.bareArrows)).bind fun r =>
      some (r.1, r.2.flagged r.2.markup s.endable r.2.bareArrows) := rfl
  exact ⟨a, by rw [hrun, ha]; rfl⟩

theorem nextStart_accepts (rest : Text) : Accepts nextStart [] rest := .stays fun s _ => ⟨s.skip.pos, rfl⟩

theorem close_accepts (kind : Kind) (start : Nat) (children : List Node) (rest : Text) :
    Accepts (close kind start children) [] rest :=
  .stays fun s _ => ⟨.mk .part kind ⟨start, max start s.pos⟩ children, rfl⟩

theorem Accepts.node {p : Scanner (List Node)} (hp : Accepts p t rest) (kind : Kind) : Accepts (node kind p) t rest := by
  have hclose : Accepts (nextStart >>= fun start => p >>= fun children => close kind start children)
      ([] ++ (t ++ [])) rest :=
    Accepts.bind (nextStart_accepts _) fun start => Accepts.bind hp fun children => close_accepts kind start children rest
  rwa [List.append_nil] at hclose

theorem Rejects.node {p : Scanner (List Node)} (hp : Rejects p t) (kind : Kind) : Rejects (node kind p) t :=
  Accepts.bind_rejects (nextStart_accepts t) fun _ => Rejects.bind hp

/-! ### Tokens -/

theorem lexeme_run {lex : Lexeme} {s : Scan} (hgaps : gaps.all Lexeme.isGap = true) (ht : Text.Ready t)
    (h : s.rest = gaps ++ t) : lexeme lex s = (lex t).map fun (taken, rest) =>
      let begun := s.advance gaps t
      let next := begun.advance taken rest
      ((taken, ⟨begun.pos, next.pos⟩), next) := by
  unfold lexeme
  rw [Scan.skip_of_ready hgaps ht h]
  dsimp only
  rw [show (s.advance gaps t).rest = t from rfl]
  cases lex t <;> rfl

/-- The token that a recogniser takes, if it is the given one. -/
def token (lex : Lexeme) (w : String) : Scanner Unit := do
  let (taken, _) ← lexeme lex
  guard (taken == w.toList)

theorem lexeme_accepts {lex : Lexeme} (hgaps : gaps.all Lexeme.isGap = true) (ht : Text.Ready (t ++ rest))
    (hlex : lex (t ++ rest) = some (t, rest)) : Accepts (lexeme lex) (gaps ++ t) rest := by
  intro s hs
  rw [List.append_assoc] at hs
  rw [lexeme_run hgaps ht hs, hlex, ← Scan.advance_advance s gaps t (t ++ rest) rest]
  exact ⟨_, rfl⟩

theorem lexeme_rejects {lex : Lexeme} (hgaps : gaps.all Lexeme.isGap = true) (ht : Text.Ready t)
    (hlex : lex t = none) : Rejects (lexeme lex) (gaps ++ t) := by
  intro s hs
  rw [lexeme_run hgaps ht hs, hlex]
  rfl

theorem token_accepts {lex : Lexeme} {w : String} (hgaps : gaps.all Lexeme.isGap = true)
    (ht : Text.Ready (w.toList ++ rest)) (hlex : lex (w.toList ++ rest) = some (w.toList, rest)) :
    Accepts (token lex w) (gaps ++ w.toList) rest := by
  intro s hs
  rw [List.append_assoc] at hs
  refine ⟨(), ?_⟩
  have hrun : token lex w s = (lexeme lex s).bind fun r => (guard (r.1.1 == w.toList) : Scanner Unit) r.2 := rfl
  rw [hrun, lexeme_run hgaps ht hs, hlex, ← Scan.advance_advance s gaps w.toList (w.toList ++ rest) rest]
  rw [Option.map_some, Option.bind_some, guard_run, if_pos (beq_self_eq_true w.toList)]

theorem token_rejects {lex : Lexeme} {w : String} (hgaps : gaps.all Lexeme.isGap = true) (ht : Text.Ready t)
    (hlex : ∀ r ∈ lex t, r.1 ≠ w.toList) : Rejects (token lex w) (gaps ++ t) := by
  intro s hs
  have hrun : token lex w s = (lexeme lex s).bind fun r => (guard (r.1.1 == w.toList) : Scanner Unit) r.2 := rfl
  rw [hrun, lexeme_run hgaps ht hs]
  cases hread : lex t with
  | none => rfl
  | some r =>
    rw [Option.map_some, Option.bind_some, guard_run, if_neg]
    simpa using hlex r hread

end

end Scanner

end TestMigration
