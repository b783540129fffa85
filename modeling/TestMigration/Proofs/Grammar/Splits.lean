import TestMigration.Grammar.Markup

/-!
# Recognisers split their text

What a recogniser takes and what it leaves make up the text it looked at. `Lexeme.Splits` says so, with
an instance for every recogniser of the grammar, so a scan never loses its place in the file. `Lexeme.Takes`
says that a recogniser of tokens takes something, so no token is empty.
-/

namespace TestMigration

namespace Lexeme

/-- The taken part and the rest are the text. -/
class Splits (lex : Lexeme) : Prop where
  eq_append : ∀ {t taken rest : Text}, lex t = some (taken, rest) → t = taken ++ rest

/-! ### Words -/

instance unicodeEscape_splits : Splits unicodeEscape where
  eq_append := by
    intro t taken rest h
    unfold unicodeEscape at h
    split at h
    · rename_i t
      split at h
      · rename_i rest' hdrop
        dsimp only at h
        split at h
        · cases h
        · obtain ⟨rfl, rfl⟩ := by simpa using h
          simp [← hdrop, List.takeWhile_append_dropWhile]
      · cases h
    · split at h
      · obtain ⟨rfl, rfl⟩ := by simpa using h
        rfl
      · cases h
    · cases h

theorem unicodeEscape_ne_nil {t rest : Text} : unicodeEscape t ≠ some ([], rest) := by
  intro h
  unfold unicodeEscape at h
  split at h
  · split at h
    · dsimp only at h
      split at h <;> cases h
    · cases h
  · split at h <;> cases h
  · cases h

theorem wordTail_append (n : Nat) (t : Text) : (wordTail n t).1 ++ (wordTail n t).2 = t := by
  fun_induction wordTail n t with
  | case1 t => rfl
  | case2 n => rfl
  | case3 n c t hc taken rest heq ih => simpa [heq] using ih
  | case4 n c t hc escape rest hesc taken rest' heq ih =>
    rw [heq] at ih
    simp only at ih ⊢
    rw [List.append_assoc, ih, unicodeEscape_splits.eq_append hesc]
  | case5 n c t hc hesc => rfl

instance word_splits : Splits word where
  eq_append := by
    intro t taken rest h
    unfold word at h
    split at h
    · cases h
    · rename_i c t
      split at h
      · obtain ⟨rfl, rfl⟩ := by simpa using h
        simp [wordTail_append]
      · split at h
        · rename_i escape rest' hesc
          obtain ⟨rfl, rfl⟩ := by simpa using h
          rw [List.append_assoc, wordTail_append, unicodeEscape_splits.eq_append hesc]
        · cases h

instance privateWord_splits : Splits privateWord where
  eq_append := by
    intro t taken rest h
    unfold privateWord at h
    split at h
    · obtain ⟨⟨taken', rest'⟩, hw, heq⟩ := Option.map_eq_some_iff.mp h
      obtain ⟨rfl, rfl⟩ := by simpa using heq
      simp [word_splits.eq_append hw]
    · cases h

/-! ### Numbers -/

theorem digitsGo_append (isDigit : Char → Bool) (after : Bool) (t : Text) :
    (digitsGo isDigit after t).1 ++ (digitsGo isDigit after t).2 = t := by
  induction t generalizing after with
  | nil => rfl
  | cons c t ih =>
    unfold digitsGo
    split
    · simp [ih]
    · split
      · split
        · split
          · simp [ih]
          · rfl
        · rfl
      · rfl

instance digits_splits (isDigit : Char → Bool) : Splits (digits isDigit) where
  eq_append := by
    intro t taken rest h
    unfold digits at h
    split at h
    · cases h
    · have heq : digitsGo isDigit false t = (taken, rest) := by simpa using h
      simpa [heq] using (digitsGo_append isDigit false t).symm

theorem bigMark_append (r : Text × Text) : (bigMark r).1 ++ (bigMark r).2 = r.1 ++ r.2 := by
  unfold bigMark
  split
  · simp_all
  · rfl

theorem exponent_append (r : Text × Text) : (exponent r).1 ++ (exponent r).2 = r.1 ++ r.2 := by
  obtain ⟨taken, t⟩ := r
  unfold exponent
  split
  · rename_i e t heq
    obtain rfl : _ = e :: t := heq
    split
    · split
      rename_i sign t' hsign
      have hsplit : t = sign ++ t' := by
        split at hsign
        · split at hsign <;> cases hsign <;> rfl
        · cases hsign
          rfl
      split
      · rename_i hds
        simp [hsplit, (digits_splits Char.isDigit).eq_append hds]
      · rfl
    · rfl
  · rfl

theorem basedNumber_append {isDigit : Char → Bool} {mark : Char} {t taken rest : Text}
    (h : basedNumber isDigit mark t = some (taken, rest)) : '0' :: mark :: t = taken ++ rest := by
  obtain ⟨⟨ds, rest'⟩, hds, heq⟩ := Option.map_eq_some_iff.mp h
  have hbig := bigMark_append ('0' :: mark :: ds, rest')
  dsimp only at heq
  rw [heq] at hbig
  simpa [(digits_splits isDigit).eq_append hds] using hbig.symm

instance decimal_splits : Splits number.decimal where
  eq_append := by
    intro t taken rest h
    unfold number.decimal at h
    split at h
    · obtain ⟨⟨ds, rest'⟩, hds, heq⟩ := Option.map_eq_some_iff.mp h
      have hexp := exponent_append ('.' :: ds, rest')
      dsimp only at heq
      rw [heq] at hexp
      simpa [(digits_splits _).eq_append hds] using hexp.symm
    · split at h
      · cases h
      · rename_i ds rest' hds
        have ht := (digits_splits _).eq_append hds
        split at h
        · rename_i fraction rest'' hfraction
          have hexp := exponent_append (ds ++ '.' :: fraction, rest'')
          rw [Option.some.inj h] at hexp
          simpa [ht, (digits_splits _).eq_append hfraction] using hexp.symm
        · have hexp := exponent_append (ds ++ ['.'], rest')
          rw [Option.some.inj h] at hexp
          simpa [ht] using hexp.symm
      · rename_i ds rest' hds
        obtain ⟨rfl, rfl⟩ := by simpa using h
        simp [(digits_splits _).eq_append hds]
      · rename_i r hr _ hds
        have hexp := exponent_append r
        rw [Option.some.inj h] at hexp
        rw [(digits_splits _).eq_append hds, hexp]

instance number_splits : Splits number where
  eq_append := by
    intro t taken rest h
    unfold number at h
    split at h
    · split at h
      · exact basedNumber_append h
      · split at h
        · exact basedNumber_append h
        · split at h
          · exact basedNumber_append h
          · exact decimal_splits.eq_append h
    · exact decimal_splits.eq_append h

/-! ### Strings and regular expressions -/

instance escaped_splits : Splits escaped where
  eq_append := by
    intro t taken rest h
    unfold escaped at h
    split at h
    · cases h
      rfl
    · split at h
      · cases h
        rfl
      · cases h
    · obtain ⟨⟨escape, rest'⟩, hescape, heq⟩ := Option.map_eq_some_iff.mp h
      obtain ⟨rfl, rfl⟩ := by simpa using heq
      have hsplit := unicodeEscape_splits.eq_append hescape
      -- the backslash that was put back in front is the first character of the escape
      cases escape with
      | nil => exact absurd hescape unicodeEscape_ne_nil
      | cons c escape => simpa using (List.cons.inj hsplit).2
    · cases h
    · cases h
      rfl
    · cases h

theorem stringTail_append {quote : Char} {n : Nat} {t taken rest : Text}
    (h : stringTail quote n t = some (taken, rest)) : t = taken ++ rest := by
  induction n generalizing t taken rest with
  | zero => cases h
  | succ n ih =>
    cases t with
    | nil => cases h
    | cons c t =>
      unfold stringTail at h
      split at h
      · cases h
        rfl
      · split at h
        · split at h
          · rename_i escape rest' hescape
            obtain ⟨⟨more, rest''⟩, htail, heq⟩ := Option.map_eq_some_iff.mp h
            cases heq
            simp [escaped_splits.eq_append hescape, ih htail]
          · cases h
        · split at h
          · dsimp only at h
            split at h
            · rename_i q rest' hdrop
              split at h
              · cases h
                rw [List.append_assoc, List.singleton_append, ← hdrop,
                  List.takeWhile_append_dropWhile]
              · cases h
            · cases h
          · obtain ⟨⟨more, rest''⟩, htail, heq⟩ := Option.map_eq_some_iff.mp h
            cases heq
            simp [ih htail]

instance string_splits : Splits string where
  eq_append := by
    intro t taken rest h
    unfold string at h
    split at h
    · split at h
      · obtain ⟨⟨more, rest'⟩, htail, heq⟩ := Option.map_eq_some_iff.mp h
        cases heq
        simp [stringTail_append htail]
      · cases h
    · cases h

theorem regexTail_append {n : Nat} {inClass : Bool} {t taken rest : Text}
    (h : regexTail n inClass t = some (taken, rest)) : t = taken ++ rest := by
  induction n generalizing inClass t taken rest with
  | zero => simp [regexTail] at h
  | succ n ih =>
    cases t with
    | nil => simp [regexTail] at h
    | cons c t =>
      unfold regexTail at h
      split at h
      · cases h
      · split at h
        · split at h
          · split at h
            · cases h
            · obtain ⟨⟨more, rest'⟩, htail, heq⟩ := Option.map_eq_some_iff.mp h
              cases heq
              simp [ih htail]
          · cases h
        · split at h
          · obtain ⟨⟨more, rest'⟩, htail, heq⟩ := Option.map_eq_some_iff.mp h
            cases heq
            simp [ih htail]
          · split at h
            · cases h
              rfl
            · obtain ⟨⟨more, rest'⟩, htail, heq⟩ := Option.map_eq_some_iff.mp h
              cases heq
              simp [ih htail]

instance regex_splits : Splits regex where
  eq_append := by
    intro t taken rest h
    unfold regex at h
    split at h
    · split at h
      · cases h
      · split at h
        · rename_i body rest' hbody
          cases h
          simp [regexTail_append hbody, List.takeWhile_append_dropWhile]
        · cases h
    · cases h

/-! ### Operators and comments -/

theorem prefix_append_drop {p t : Text} (h : p.isPrefixOf t = true) : t = p ++ t.drop p.length := by
  obtain ⟨rest, rfl⟩ := List.isPrefixOf_iff_prefix.mp h
  simp

instance operator_splits : Splits operator where
  eq_append := by
    intro t taken rest h
    unfold operator at h
    split at h
    · split at h <;> cases h <;> rfl
    · obtain ⟨op, hop, heq⟩ := Option.map_eq_some_iff.mp h
      cases heq
      have hprefix := List.find?_some hop
      exact prefix_append_drop hprefix

instance exactly_splits (s : String) : Splits (exactly s) where
  eq_append := by
    intro t taken rest h
    unfold exactly at h
    split at h
    · rename_i hs
      cases h
      exact prefix_append_drop hs
    · cases h

theorem exactly_taken {s : String} {t taken rest : Text} (h : exactly s t = some (taken, rest)) : taken = s.toList := by
  unfold exactly at h
  split at h
  · cases h
    rfl
  · cases h

theorem blockTail_append {t taken rest : Text} (h : blockTail t = some (taken, rest)) :
    t = taken ++ rest := by
  induction t generalizing taken rest with
  | nil => simp [blockTail] at h
  | cons c t ih =>
    unfold blockTail at h
    split at h
    · cases h
      simp_all
    · rename_i c' t' _ heq
      obtain ⟨⟨more, rest'⟩, htail, heq'⟩ := Option.map_eq_some_iff.mp h
      cases heq'
      cases heq
      simp [ih htail]
    · cases h

instance comment_splits : Splits comment where
  eq_append := by
    intro t taken rest h
    unfold comment at h
    split at h
    · cases h
      simp [List.takeWhile_append_dropWhile]
    · obtain ⟨⟨more, rest'⟩, htail, heq⟩ := Option.map_eq_some_iff.mp h
      cases heq
      simp [blockTail_append htail]
    · cases h

/-! ### Something is taken -/

/-- What is taken is not empty. -/
class Takes (lex : Lexeme) : Prop where
  ne_nil : ∀ {t taken rest : Text}, lex t = some (taken, rest) → taken ≠ []

instance word_takes : Takes word where
  ne_nil := by
    intro t taken rest h
    unfold word at h
    split at h
    · cases h
    · split at h
      · obtain ⟨rfl, rfl⟩ := by simpa using h
        simp
      · split at h
        · rename_i escape rest' hesc
          obtain ⟨rfl, rfl⟩ := by simpa using h
          have : escape ≠ [] := by
            rintro rfl
            exact unicodeEscape_ne_nil hesc
          simp [this]
        · cases h

instance privateWord_takes : Takes privateWord where
  ne_nil := by
    intro t taken rest h
    unfold privateWord at h
    split at h
    · obtain ⟨r, -, heq⟩ := Option.map_eq_some_iff.mp h
      cases heq
      simp
    · cases h

theorem exponent_ne_nil {r : Text × Text} (h : r.1 ≠ []) : (exponent r).1 ≠ [] := by
  unfold exponent
  split
  · split
    · split
      split <;> simp [h]
    · exact h
  · exact h

theorem digits_ne_nil {isDigit : Char → Bool} {t taken rest : Text} (h : digits isDigit t = some (taken, rest)) :
    taken ≠ [] := by
  unfold digits at h
  split at h
  · cases h
  · rename_i r hr
    rintro rfl
    exact hr rest (Option.some.inj h)

theorem bigMark_ne_nil {r : Text × Text} (h : r.1 ≠ []) : (bigMark r).1 ≠ [] := by
  unfold bigMark
  split <;> simp [h]

theorem basedNumber_ne_nil {isDigit : Char → Bool} {mark : Char} {t taken rest : Text}
    (h : basedNumber isDigit mark t = some (taken, rest)) : taken ≠ [] := by
  obtain ⟨r, -, heq⟩ := Option.map_eq_some_iff.mp h
  have hbig := bigMark_ne_nil (r := ('0' :: mark :: r.1, r.2)) (by simp)
  dsimp only at heq
  rwa [heq] at hbig

instance decimal_takes : Takes number.decimal where
  ne_nil := by
    intro t taken rest h
    unfold number.decimal at h
    split at h
    · obtain ⟨r, -, heq⟩ := Option.map_eq_some_iff.mp h
      have hexp := exponent_ne_nil (r := ('.' :: r.1, r.2)) (by simp)
      dsimp only at heq
      rwa [heq] at hexp
    · split at h
      · cases h
      · rename_i ds rest' hds
        split at h
        · rename_i fraction rest'' hfraction
          have hexp := exponent_ne_nil (r := (ds ++ '.' :: fraction, rest'')) (by simp)
          rwa [Option.some.inj h] at hexp
        · have hexp := exponent_ne_nil (r := (ds ++ ['.'], rest')) (by simp)
          rwa [Option.some.inj h] at hexp
      · obtain ⟨rfl, rfl⟩ := by simpa using h
        simp
      · rename_i r hr _ hds
        have hexp := exponent_ne_nil (digits_ne_nil hds)
        rwa [Option.some.inj h] at hexp

instance number_takes : Takes number where
  ne_nil := by
    intro t taken rest h
    unfold number at h
    split at h
    · split at h
      · exact basedNumber_ne_nil h
      · split at h
        · exact basedNumber_ne_nil h
        · split at h
          · exact basedNumber_ne_nil h
          · exact decimal_takes.ne_nil h
    · exact decimal_takes.ne_nil h

instance string_takes : Takes string where
  ne_nil := by
    intro t taken rest h
    unfold string at h
    split at h
    · split at h
      · obtain ⟨r, -, heq⟩ := Option.map_eq_some_iff.mp h
        cases heq
        simp
      · cases h
    · cases h

instance regex_takes : Takes regex where
  ne_nil := by
    intro t taken rest h
    unfold regex at h
    split at h
    · split at h
      · cases h
      · split at h
        · cases h
          simp
        · cases h
    · cases h

theorem operators_ne_nil : ∀ op ∈ operators, op ≠ [] := by decide

instance operator_takes : Takes operator where
  ne_nil := by
    intro t taken rest h
    unfold operator at h
    split at h
    · split at h <;> cases h <;> simp
    · obtain ⟨op, hop, heq⟩ := Option.map_eq_some_iff.mp h
      cases heq
      exact operators_ne_nil _ (List.mem_of_find?_eq_some hop)

instance comment_takes : Takes comment where
  ne_nil := by
    intro t taken rest h
    unfold comment at h
    split at h
    · cases h
      simp
    · obtain ⟨r, -, heq⟩ := Option.map_eq_some_iff.mp h
      cases heq
      simp
    · cases h

end Lexeme

namespace Grammar

open Lexeme

/-! ### Templates and markup -/

theorem templateChars_append (t : Text) : (templateChars t).1 ++ (templateChars t).2 = t := by
  fun_induction templateChars t <;> simp_all

instance templatePlain_splits : Splits templatePlain where
  eq_append := by
    intro t taken rest h
    unfold templatePlain at h
    split at h
    · obtain ⟨⟨taken', rest'⟩, hescaped, heq⟩ := Option.map_eq_some_iff.mp h
      cases heq
      simp [escaped_splits.eq_append hescaped]
    · split at h
      · cases h
      · have heq : templateChars t = (taken, rest) := by simpa using h
        simpa [heq] using (templateChars_append t).symm

instance markupWord_splits : Splits markupWord where
  eq_append := by
    intro t taken rest h
    unfold markupWord at h
    split at h
    · rename_i hword
      cases h
      simp [word_splits.eq_append hword, List.takeWhile_append_dropWhile]
    · cases h

instance markupString_splits : Splits markupString where
  eq_append := by
    intro t taken rest h
    unfold markupString at h
    split at h
    · rename_i q t
      split at h
      · split at h
        · rename_i c rest' hdrop
          cases h
          have hc : c = q := by
            have hnot := List.head_dropWhile_not (p := (· != q)) (l := t) (by simp [hdrop])
            simpa [hdrop] using hnot
          obtain rfl := hc
          simp only [List.cons_append, List.append_assoc, List.nil_append, ← hdrop,
            List.takeWhile_append_dropWhile]
        · cases h
      · cases h
    · cases h

instance markupText_splits : Splits markupText where
  eq_append := by
    intro t taken rest h
    unfold markupText at h
    dsimp only at h
    split at h
    · cases h
    · obtain ⟨rfl, rfl⟩ := by simpa using h
      exact (List.takeWhile_append_dropWhile ..).symm

instance markupWord_takes : Takes markupWord where
  ne_nil := by
    intro t taken rest h
    unfold markupWord at h
    split at h
    · rename_i hword
      cases h
      simp [word_takes.ne_nil hword]
    · cases h

instance markupString_takes : Takes markupString where
  ne_nil := by
    intro t taken rest h
    unfold markupString at h
    split at h
    · split at h
      · split at h
        · cases h
          simp
        · cases h
      · cases h
    · cases h

end Grammar

end TestMigration
