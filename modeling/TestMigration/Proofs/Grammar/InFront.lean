import TestMigration.Proofs.Grammar.Accepts

/-!
# Statements in front of a file

Statements that are read whatever stands behind them can be put in front of a file without making it unreadable or
readable. They may stand behind blanks and comments that the file begins with.

Main statement: `Grammar.parse_isSome_inFront`.
-/

namespace TestMigration

/-- Blanks and comments; a line comment is ended by a line break. -/
inductive Text.Vacant : Text → Prop where
  | nil : Vacant []
  | gap {c : Char} {t : Text} (hc : Lexeme.isGap c = true) (ht : Vacant t) : Vacant (c :: t)
  | comment {taken t : Text} (htaken : ∀ rest, Lexeme.comment (taken ++ (t ++ rest)) = some (taken, t ++ rest))
    (ht : Vacant t) : Vacant (taken ++ t)

theorem Text.Vacant.of_all {t : Text} (h : t.all Lexeme.isGap = true) : t.Vacant := by
  induction t with
  | nil => exact .nil
  | cons c t ih =>
    obtain ⟨hc, ht⟩ := Bool.and_eq_true_iff.mp h
    exact .gap hc (ih ht)

theorem Text.Vacant.head_ne {t : Text} (h : t.Vacant) : ∀ c ∈ t.head?, c ≠ '#' := by
  rintro c hc rfl
  cases h with
  | nil => cases hc
  | gap hgap ht =>
    obtain rfl := Option.some.inj hc
    exact absurd hgap (by decide)
  | @comment taken t htaken ht =>
    have htaken := htaken []
    cases taken with
    | nil => exact absurd rfl (Lexeme.comment_takes.ne_nil htaken)
    | cons d taken =>
      obtain rfl := Option.some.inj hc
      cases htaken

/-- No line that names an interpreter comes of a text that does not begin like one. -/
theorem Text.startsWith_hashBang_append {t u : Text} (ht : ∀ c ∈ t.head?, c ≠ '#') (hu : u.startsWith "#!" = false) :
    Text.startsWith (t ++ u) "#!" = false := by
  cases t with
  | nil => exact hu
  | cons c t =>
    have hc : '#' ≠ c := (ht c rfl).symm
    simp [Text.startsWith, List.isPrefixOf, hc]

namespace Scan

variable {s t : Scan} {front rest : Text}

theorem skip_of_comment? (h : s.comment? = some t) : t.skip = s.skip := by
  have hlength := comment?_length h
  obtain ⟨n, hn⟩ : ∃ n, s.rest.length = n + 1 := ⟨s.rest.length - 1, by omega⟩
  unfold Scan.skip
  rw [hn, skipGo, h]
  exact skipGo_eq (Nat.le_refl _) (by omega)

theorem skip_congr (h : s.skipGaps = t.skipGaps) : s.skip = t.skip := by
  have hcomment : s.comment? = t.comment? := by rw [← comment?_skipGaps s, h, comment?_skipGaps]
  cases hnext : s.comment? with
  | none =>
    unfold Scan.skip
    rw [skipGo_of_none hnext, skipGo_of_none (hcomment.symm.trans hnext), h]
  | some next => rw [← skip_of_comment? hnext, skip_of_comment? (hcomment.symm.trans hnext)]

theorem comment?_of_taken {taken : Text} (h : s.rest = taken ++ rest)
    (htaken : Lexeme.comment (taken ++ rest) = some (taken, rest)) :
    ∃ t : Scan, s.comment? = some t ∧ t.rest = rest ∧ t.pos = s.pos + Text.size taken := by
  obtain ⟨u, hu⟩ : ∃ u, taken ++ rest = '/' :: u := by
    generalize taken ++ rest = u at htaken
    unfold Lexeme.comment at htaken
    split at htaken
    · exact ⟨_, rfl⟩
    · exact ⟨_, rfl⟩
    · cases htaken
  have hgaps : s.skipGaps = s.advance [] (taken ++ rest) := by
    unfold Scan.skipGaps
    rw [h, hu]
    rfl
  unfold Scan.comment?
  dsimp only
  rw [hgaps, show (s.advance [] (taken ++ rest)).rest = taken ++ rest from rfl, htaken]
  exact ⟨_, rfl, rfl, rfl⟩

theorem skip_advance_gap {c : Char} (hc : Lexeme.isGap c = true) (h : s.rest = c :: rest) :
    (s.advance [c] rest).skip = s.skip := by
  refine skip_congr ?_
  unfold Scan.skipGaps
  rw [h, List.takeWhile_cons_of_pos hc, List.dropWhile_cons_of_pos hc]
  exact advance_advance s [c] _ rest _

/-- What is skipped in front of a text is skipped alike when the front is passed over before. -/
theorem skip_vacant (hfront : Text.Vacant front) (h : s.rest = front ++ rest) :
    ∃ s' : Scan, s'.rest = rest ∧ s'.pos = s.pos + Text.size front ∧ s'.SameFlags s ∧ s'.skip = s.skip := by
  induction hfront generalizing s with
  | nil => exact ⟨s, h, rfl, ⟨rfl, rfl, rfl⟩, rfl⟩
  | @gap c t hc ht ih =>
    obtain ⟨s', hrest, hpos, hflags, hskip⟩ := ih (s := s.advance [c] (t ++ rest)) rfl
    refine ⟨s', hrest, ?_, hflags.trans ⟨rfl, rfl, rfl⟩, hskip.trans (skip_advance_gap hc h)⟩
    rw [hpos, show c :: t = [c] ++ t from rfl, Text.size_append, ← Nat.add_assoc]
    rfl
  | @comment taken t htaken ht ih =>
    rw [List.append_assoc] at h
    obtain ⟨next, hcomment, hrest, hpos⟩ := comment?_of_taken h (htaken rest)
    obtain ⟨s', hrest', hpos', hflags, hskip⟩ := ih hrest
    refine ⟨s', hrest', ?_, hflags.trans (.comment? hcomment), hskip.trans (skip_of_comment? hcomment)⟩
    rw [hpos', hpos, Text.size_append, Nat.add_assoc]

theorem Meets.of_skip {F : Frame} {s' : Scan} (hskip : s.skip = t.skip) (hflags : s.SameFlags t) (h : t.Meets F s') :
    s.Meets F s' :=
  ⟨hflags.trans h.toSameFlags, by rw [hskip, h.rest], by rw [hskip, h.pos], by rw [hskip]; exact h.comments⟩

end Scan

namespace Grammar

open Scanner

variable {F : Frame} {front gaps rest t : Text} {ts : List Text} {s s' : Scan} {m n k l : Nat}

/-- At most so many statements follow, and nothing behind them. -/
def Complete (n k : Nat) (s : Scan) : Prop :=
  ∃ ss s', manyGo (rules n .statement) k s = some (ss, s') ∧ s'.skip.rest = []

theorem parse_isSome_iff {grammar : Grammar} {source : Text} (hn : 16 * source.length + 7 ≤ n)
    (h : Text.startsWith source "#!" = false) :
    (parse grammar source).isSome = true ↔ Complete n (source.length + 1) (start grammar source) := by
  have hstart : optional hashBang (start grammar source) = some (none, start grammar source) := by
    rw [hashBang_run, if_neg]
    rw [show (start grammar source).rest = source from rfl, h]
    exact Bool.false_ne_true
  rw [parse_eq_parseWithin grammar hn, parseWithin_run, hstart, Option.bind_some, many_run]
  unfold Complete
  constructor
  · intro h
    obtain ⟨tree, htree⟩ := Option.isSome_iff_exists.mp h
    obtain ⟨⟨ss, s'⟩, hmany, hfinished⟩ := Option.bind_eq_some_iff.mp htree
    unfold finished at hfinished
    split at hfinished
    · rename_i hempty
      exact ⟨ss, s', hmany, List.isEmpty_iff.mp hempty⟩
    · cases hfinished
  · rintro ⟨ss, s', hmany, hempty⟩
    rw [show (start grammar source).rest.length = source.length from rfl, hmany, Option.bind_some, finished,
      if_pos (List.isEmpty_iff.mpr hempty)]
    rfl

/-- Whether only statements follow depends on the text ahead only. -/
theorem complete_congr (hs : s.Meets F s') (hn : 16 * s.skip.rest.length + 7 ≤ n)
    (hm : 16 * s.skip.rest.length + 7 ≤ m) (hk : s.skip.rest.length < k) (hl : s.skip.rest.length < l) :
    Complete n k s ↔ Complete m l s' := by
  have hg := rules_agree F hn hm
  have hout : Scanner.Outcome F (.fresh 7) false s (manyGo (rules n .statement) k s)
      (manyGo (rules m .statement) l s') :=
    manyGo_outcome (M := 16 * s.skip.rest.length + 7) inferInstance hs (Nat.le_refl _) hk hl
  unfold Complete
  generalize manyGo (rules n .statement) k s = r at hout
  generalize manyGo (rules m .statement) l s' = r' at hout
  cases hout with
  | fails => simp
  | @comes ss ss' t t' like joins length =>
    have hrest : t.skip.rest = t'.skip.rest := joins.rest
    simp [hrest]

theorem manyGo_isSome {α : Type} (p : Scanner α) (k : Nat) (s : Scan) : (manyGo p k s).isSome = true := by
  cases k with
  | zero => rfl
  | succ k =>
    have hrun : manyGo p (k + 1) s = ((p s).bind fun x => (manyGo p k x.2).bind fun y => some (x.1 :: y.1, y.2)).orElse
        fun _ => some ([], s) := rfl
    rw [hrun]
    generalize (p s).bind _ = r
    cases r <;> rfl

theorem complete_statement (ht : Accepts (rules n .statement) t rest) (hs : s.rest = t ++ rest) :
    Complete n (k + 1) s ↔ Complete n k (s.advance t rest) := by
  obtain ⟨a, ha⟩ := ht s hs
  have hrun (p : Scanner Node) : manyGo p (k + 1) s =
      ((p s).bind fun x => (manyGo p k x.2).bind fun y => some (x.1 :: y.1, y.2)).orElse fun _ => some ([], s) := rfl
  obtain ⟨⟨ss, s'⟩, hss⟩ := Option.isSome_iff_exists.mp (manyGo_isSome (rules n .statement) k (s.advance t rest))
  unfold Complete
  rw [hrun, ha, Option.bind_some, hss, Option.bind_some]
  simp

theorem complete_statements (hts : ∀ t ∈ ts, ∀ rest, Accepts (rules n .statement) t rest)
    (hs : s.rest = ts.flatten ++ rest) : Complete n (k + ts.length) s ↔ Complete n k (s.advance ts.flatten rest) := by
  induction ts generalizing s with
  | nil =>
    obtain rfl : s.rest = rest := hs
    exact Iff.rfl
  | cons t ts ih =>
    obtain ⟨ht, hts⟩ := List.forall_mem_cons.mp hts
    rw [List.flatten_cons, List.append_assoc] at hs
    rw [List.length_cons, ← Nat.add_assoc, complete_statement (ht _) hs, ih hts rfl, List.flatten_cons,
      Scan.advance_advance]

/-- The scan behind the blanks and comments that a file begins with, from which the same statements follow. -/
theorem complete_vacant (grammar : Grammar) (rest : Text) (hfront : Text.Vacant front)
    (hn : 16 * (front ++ rest).length + 7 ≤ n) (hk : (front ++ rest).length < k) (hl : (front ++ rest).length < l) :
    ∃ s : Scan, s.rest = rest ∧ s.pos = Text.size front ∧ s.SameFlags (start grammar []) ∧
      (Complete n k (start grammar (front ++ rest)) ↔ Complete n l s) := by
  obtain ⟨s, hrest, hpos, hflags, hskip⟩ := Scan.skip_vacant (s := start grammar (front ++ rest)) hfront rfl
  have hahead : (start grammar (front ++ rest)).skip.rest.length ≤ (front ++ rest).length := Scan.skip_length_le _
  let F : Frame := ⟨0, 0, s.skip.comments, s.skip.comments⟩
  have hmeets : (start grammar (front ++ rest)).Meets F s :=
    ⟨hflags.symm, by rw [hskip], by rw [hskip], [], [], rfl, by rw [← hskip]; rfl, rfl⟩
  refine ⟨s, hrest, by rw [hpos]; exact Nat.zero_add _, hflags.trans ⟨rfl, rfl, rfl⟩, ?_⟩
  exact complete_congr hmeets (by omega) (by omega) (by omega) (by omega)

/-- Statements in front of a file, or behind the blanks and comments that it begins with, do not matter for whether
it can be read. -/
theorem parse_isSome_inFront (grammar : Grammar) (hfront : Text.Vacant front)
    (hts : ∀ t ∈ ts, ∀ (g : Rules) (rest : Text), Accepts (statement g) t rest) (hgaps : Text.Vacant gaps)
    (hhead : ∀ c ∈ (ts.flatten ++ gaps).head?, c ≠ '#') (hbefore : Text.startsWith (front ++ rest) "#!" = false) :
    (parse grammar (front ++ (ts.flatten ++ (gaps ++ rest)))).isSome = (parse grammar (front ++ rest)).isSome := by
  have hafter : Text.startsWith (front ++ (ts.flatten ++ (gaps ++ rest))) "#!" = false := by
    cases front with
    | nil =>
      rw [List.nil_append, ← List.append_assoc]
      exact Text.startsWith_hashBang_append hhead hbefore
    | cons c front =>
      have hc : '#' ≠ c := (hfront.head_ne c rfl).symm
      simp [Text.startsWith, List.isPrefixOf, hc]
  obtain ⟨n, hn⟩ : ∃ n, n = 16 * (front ++ (ts.flatten ++ (gaps ++ rest))).length + 7 := ⟨_, rfl⟩
  have hlength : (front ++ rest).length ≤ (front ++ (ts.flatten ++ (gaps ++ rest))).length := by
    simp only [List.length_append]
    omega
  have hahead : (gaps ++ rest).length ≤ (front ++ (ts.flatten ++ (gaps ++ rest))).length := by
    simp only [List.length_append]
    omega
  have hstatements : ∀ t ∈ ts, ∀ rest, Accepts (rules (n + 1) .statement) t rest := fun t ht => hts t ht (rules n)
  obtain ⟨s, hrest, hpos, hflags, hcomplete⟩ := complete_vacant grammar (ts.flatten ++ (gaps ++ rest)) (n := n + 1)
    (k := (front ++ (ts.flatten ++ (gaps ++ rest))).length + 1)
    (l := (front ++ (ts.flatten ++ (gaps ++ rest))).length + 1 + ts.length) hfront (by omega) (Nat.lt_succ_self _)
    (by omega)
  obtain ⟨s', hrest', hpos', hflags', hcomplete'⟩ := complete_vacant grammar rest (n := n + 1)
    (k := (front ++ rest).length + 1) (l := (front ++ rest).length + 1) hfront (by omega) (Nat.lt_succ_self _)
    (Nat.lt_succ_self _)
  obtain ⟨t, ht, htpos, htflags, htskip⟩ :=
    Scan.skip_vacant hgaps (show (s.advance ts.flatten (gaps ++ rest)).rest = gaps ++ rest from rfl)
  -- behind the statements the scan has the rest ahead, as it has when they do not stand there
  let F : Frame := ⟨0, Text.size ts.flatten + Text.size gaps, t.comments, s'.comments⟩
  have hsame : s.SameFlags s' := hflags.trans hflags'.symm
  have hadvance : s.SameFlags (s.advance ts.flatten (gaps ++ rest)) := ⟨rfl, rfl, rfl⟩
  have hmatches : t.Matches F s' := by
    refine ⟨(htflags.trans hadvance.symm).trans hsame, by rw [ht, hrest'], ?_, [], [], rfl, rfl, rfl⟩
    show t.pos + 0 = s'.pos + (Text.size ts.flatten + Text.size gaps)
    have hadvanced : (s.advance ts.flatten (gaps ++ rest)).pos = s.pos + Text.size ts.flatten := rfl
    omega
  have hmeets : (s.advance ts.flatten (gaps ++ rest)).Meets F s' := .of_skip htskip.symm htflags.symm hmatches.meets
  have hbehind : (s.advance ts.flatten (gaps ++ rest)).skip.rest.length ≤ rest.length := by
    have hle := t.skip_length_le
    rwa [htskip, ht] at hle
  have hle : rest.length ≤ (front ++ rest).length := by
    rw [List.length_append]
    exact Nat.le_add_left ..
  have hcongr := complete_congr (n := n + 1) (m := n + 1)
    (k := (front ++ (ts.flatten ++ (gaps ++ rest))).length + 1) (l := (front ++ rest).length + 1) hmeets (by omega)
    (by omega) (by omega) (by omega)
  rw [Bool.eq_iff_iff, parse_isSome_iff (n := n + 1) (by omega) hafter, parse_isSome_iff (n := n + 1) (by omega) hbefore,
    hcomplete, hcomplete', complete_statements hstatements hrest, hcongr]

end Grammar

end TestMigration
