import TestMigration.Expr.Printer
import TestMigration.Proofs.Grammar.Splits

/-!
# String literals

What can stand between the quotes of a string literal is `Closed`: its last backslash has something to escape, and a
line break in it is followed by blanks only. The printer puts backslashes in front of bare quotes, so that a closed
content is read back as one string in either quote, and no other content is.

Main statements: `string_quoteLiteral_iff` and `bareQuotes_escapeQuote`.
-/

namespace TestMigration

/-! ### Escapes -/

namespace Lexeme

theorem takeWhile_append_stop {p : Char → Bool} {a : Text} {c : Char} (ha : a.all p = true) (hc : p c = false)
    (rest : Text) : (a ++ c :: rest).takeWhile p = a := by
  rw [List.takeWhile_append_of_pos fun x hx => List.all_eq_true.mp ha x hx,
    List.takeWhile_cons_of_neg (by simp [hc]), List.append_nil]

theorem dropWhile_append_stop {p : Char → Bool} {a : Text} {c : Char} (ha : a.all p = true) (hc : p c = false)
    (rest : Text) : (a ++ c :: rest).dropWhile p = c :: rest := by
  rw [List.dropWhile_append_of_pos fun x hx => List.all_eq_true.mp ha x hx,
    List.dropWhile_cons_of_neg (by simp [hc])]

theorem unicodeEscape_append {t taken left : Text} (h : unicodeEscape t = some (taken, left)) (rest : Text) :
    unicodeEscape (t ++ rest) = some (taken, left ++ rest) := by
  unfold unicodeEscape at h
  split at h
  · rename_i t
    dsimp only at h
    split at h
    · rename_i left' hdrop
      split at h
      · cases h
      · obtain ⟨rfl, rfl⟩ := by simpa using h
        have ht : t = t.takeWhile isHex ++ '\x7d' :: left' := by rw [← hdrop, List.takeWhile_append_dropWhile]
        have hall : (t.takeWhile isHex).all isHex = true := List.all_takeWhile
        have hcut : t ++ rest = t.takeWhile isHex ++ '\x7d' :: (left' ++ rest) := by
          rw [← List.cons_append, ← List.append_assoc, ← ht]
        have hstop : isHex '\x7d' = false := by decide
        simp only [List.cons_append, unicodeEscape, hcut, takeWhile_append_stop hall hstop,
          dropWhile_append_stop hall hstop]
        rw [if_neg ‹_›]
    · cases h
  · rename_i a b c d left' hbrace
    split at h
    · rename_i hhex
      obtain ⟨rfl, rfl⟩ := by simpa using h
      simp [unicodeEscape, hhex]
    · cases h
  · cases h

end Lexeme

/-! ### Escaping quotes -/

section
variable {quote c : Char} {t w : Text}

theorem escapeQuote_cons_of_ne (hc : c ≠ quote) (hslash : c ≠ '\\') :
    escapeQuote quote false (c :: t) = c :: escapeQuote quote false t := by
  simp [escapeQuote, hc, beq_false_of_ne hslash]

theorem escapeQuote_quote_cons (hquote : quote ≠ '\\') :
    escapeQuote quote false (quote :: t) = '\\' :: quote :: escapeQuote quote false t := by
  simp [escapeQuote, beq_false_of_ne hquote]

/-- A backslash that stands there keeps what it escapes. -/
theorem escapeQuote_slash_cons (hquote : quote ≠ '\\') :
    escapeQuote quote false ('\\' :: t) = '\\' :: escapeQuote quote true t := by
  simp [escapeQuote, beq_false_of_ne hquote.symm]

theorem eq_nil_of_escapeQuote (h : escapeQuote quote false t = []) : t = [] := by
  cases t with
  | nil => rfl
  | cons c t =>
    rw [escapeQuote] at h
    split at h <;> cases h

/-- Where the first character that is written comes from. -/
theorem escapeQuote_eq_cons (hquote : quote ≠ '\\') (h : escapeQuote quote false t = c :: w) :
    (c = '\\' ∧ ∃ t', t = quote :: t' ∧ w = quote :: escapeQuote quote false t') ∨
    (c = '\\' ∧ ∃ t', t = '\\' :: t' ∧ w = escapeQuote quote true t') ∨
    c ≠ '\\' ∧ ∃ t', t = c :: t' ∧ w = escapeQuote quote false t' := by
  obtain _ | ⟨d, t⟩ := t
  · cases h
  by_cases hd : d = quote
  · subst hd
    obtain ⟨rfl, rfl⟩ := List.cons.inj ((escapeQuote_quote_cons hquote).symm.trans h)
    exact .inl ⟨rfl, t, rfl, rfl⟩
  by_cases hslash : d = '\\'
  · subst hslash
    obtain ⟨rfl, rfl⟩ := List.cons.inj ((escapeQuote_slash_cons hquote).symm.trans h)
    exact .inr (.inl ⟨rfl, t, rfl, rfl⟩)
  · obtain ⟨rfl, rfl⟩ := List.cons.inj ((escapeQuote_cons_of_ne hd hslash).symm.trans h)
    exact .inr (.inr ⟨hslash, t, rfl, rfl⟩)

end

/-- Neither a quote nor a backslash. -/
def isPlain (c : Char) : Bool := c != '\'' && c != '"' && c != '\\'

theorem escapeQuote_append_plain {quote : Char} (hq : quote = '\'' ∨ quote = '"') {plain : Text}
    (h : plain.all isPlain = true) (t : Text) :
    escapeQuote quote false (plain ++ t) = plain ++ escapeQuote quote false t := by
  induction plain with
  | nil => rfl
  | cons c plain ih =>
    simp only [List.all_cons, Bool.and_eq_true] at h
    have hc : c ≠ quote ∧ c ≠ '\\' := by
      rcases hq with rfl | rfl <;> simp_all [isPlain]
    rw [List.cons_append, escapeQuote_cons_of_ne hc.1 hc.2, ih h.2, List.cons_append]

/-- The character behind a backslash is passed over, and so are plain ones after it. -/
theorem escapeQuote_append_escaped {quote : Char} (hq : quote = '\'' ∨ quote = '"') (d : Char) {plain : Text}
    (h : plain.all isPlain = true) (t : Text) :
    escapeQuote quote true (d :: plain ++ t) = d :: plain ++ escapeQuote quote false t := by
  have hplain := escapeQuote_append_plain hq h t
  simp [escapeQuote, hplain]

namespace Lexeme

theorem isPlain_of_isHex {c : Char} (h : isHex c = true) : isPlain c = true := by
  by_cases hc : c = '\'' ∨ c = '"' ∨ c = '\\'
  · rcases hc with rfl | rfl | rfl <;> exact absurd h (by decide)
  · simp_all [isPlain]

/-- The shape of an escape by code: it is plain behind its mark and read alike before any text. -/
theorem unicodeEscape_cases {t taken left : Text} (h : unicodeEscape t = some (taken, left)) :
    ∃ code, taken = '\\' :: 'u' :: code ∧ code.all isPlain = true
      ∧ ∀ left', unicodeEscape (taken ++ left') = some (taken, left') := by
  suffices ∃ code, taken = '\\' :: 'u' :: code ∧ code.all isPlain = true
      ∧ unicodeEscape taken = some (taken, []) by
    obtain ⟨code, htaken, hplain, hself⟩ := this
    exact ⟨code, htaken, hplain, fun left' => unicodeEscape_append hself left'⟩
  unfold unicodeEscape at h
  split at h
  · rename_i t
    dsimp only at h
    split at h
    · rename_i left' hdrop
      split at h
      · cases h
      · rename_i hne
        obtain ⟨rfl, rfl⟩ := by simpa using h
        have hall : (t.takeWhile isHex).all isHex = true := List.all_takeWhile
        generalize t.takeWhile isHex = digits at hall hne
        refine ⟨'\x7b' :: digits ++ ['\x7d'], rfl, ?_, ?_⟩
        · have hdigits : digits.all isPlain = true := by
            simp only [List.all_eq_true] at hall ⊢
            exact fun c hc => isPlain_of_isHex (hall c hc)
          simp [hdigits, isPlain]
        · have hstop : isHex '\x7d' = false := by decide
          simp only [List.cons_append, unicodeEscape, takeWhile_append_stop hall hstop,
            dropWhile_append_stop hall hstop]
          rw [if_neg hne]
    · cases h
  · rename_i a b c d left' hbrace
    split at h
    · rename_i hhex
      obtain ⟨rfl, rfl⟩ := by simpa using h
      refine ⟨[a, b, c, d], rfl, ?_, by simp [unicodeEscape, hhex]⟩
      simp only [List.all_eq_true] at hhex ⊢
      exact fun x hx => isPlain_of_isHex (hhex x hx)
    · cases h
  · cases h

/-- The shape of what follows a backslash: one character and plain ones. It is read alike before other
text, unless that makes a line break of two characters out of a carriage return. -/
theorem escaped_cases {t taken left : Text} (h : escaped t = some (taken, left)) :
    ∃ d plain, taken = d :: plain ∧ plain.all isPlain = true
      ∧ ∀ left', (d = '\r' → left'.head? = some '\n' → left.head? = some '\n') →
          escaped (taken ++ left') = some (taken, left') := by
  unfold escaped at h
  split at h
  · obtain ⟨rfl, rfl⟩ := by simpa using h
    exact ⟨'\r', ['\n'], rfl, by decide, fun left' _ => rfl⟩
  · rename_i a b left'
    split at h
    · rename_i hhex
      obtain ⟨rfl, rfl⟩ := by simpa using h
      have hab : isHex a = true ∧ isHex b = true := by simpa using hhex
      refine ⟨'x', [a, b], rfl, ?_, fun left' _ => by simp [escaped, hab]⟩
      simp [isPlain_of_isHex hab.1, isPlain_of_isHex hab.2]
    · cases h
  · rename_i t
    obtain ⟨⟨taken', left'⟩, hesc, heq⟩ := Option.map_eq_some_iff.mp h
    obtain ⟨rfl, rfl⟩ := by simpa using heq
    obtain ⟨code, rfl, hplain, hread⟩ := unicodeEscape_cases hesc
    refine ⟨'u', code, rfl, hplain, fun left' _ => ?_⟩
    have hread := hread left'
    simp only [List.cons_append] at hread
    simp [escaped, hread]
  · cases h
  · rename_i c left' hcr hx hu hx'
    obtain ⟨rfl, rfl⟩ := by simpa using h
    refine ⟨c, [], rfl, rfl, fun left'' hnl => ?_⟩
    show escaped (c :: left'') = some ([c], left'')
    unfold escaped
    split
    · rename_i heq
      obtain ⟨rfl, rfl⟩ := by simpa using heq
      obtain ⟨rest, hrest⟩ := List.head?_eq_some_iff.mp (hnl rfl rfl)
      exact (hcr rest rfl hrest).elim
    all_goals simp_all
  · cases h

theorem isPlain_of_isGap {c : Char} (h : isGap c = true) : isPlain c = true := by
  by_cases hc : c = '\'' ∨ c = '"' ∨ c = '\\'
  · rcases hc with rfl | rfl | rfl <;> exact absurd h (by decide)
  · simp_all [isPlain]

theorem all_isPlain_of_isGap {t : Text} (h : t.all isGap = true) : t.all isPlain = true :=
  List.all_eq_true.mpr fun c hc => isPlain_of_isGap (List.all_eq_true.mp h c hc)

theorem head_escapeQuote {quote : Char} {t rest : Text} (hq : quote ≠ '\n')
    (h : (escapeQuote quote false t ++ quote :: rest).head? = some '\n') : t.head? = some '\n' := by
  obtain _ | ⟨c, t⟩ := t
  · simp [escapeQuote, hq] at h
  · simp only [escapeQuote] at h
    split at h <;> simp_all

/-- The text can stand between the quotes of a string literal, apart from bare quotes in it. -/
inductive Closed : Text → Prop
  | nil : Closed []
  | escape {t taken rest : Text} (hescaped : escaped t = some (taken, rest)) (hrest : Closed rest) : Closed ('\\' :: t)
  /-- Blanks may stand behind a line break. -/
  | blanks {c : Char} {t : Text} (hbreak : c = '\n' ∨ c = '\r') (hgap : (c :: t).all isGap = true) : Closed (c :: t)
  | char {c : Char} {t : Text} (hslash : c ≠ '\\') (hnl : c ≠ '\n') (hcr : c ≠ '\r') (hrest : Closed t) :
    Closed (c :: t)

/-- The rest of a string literal that is its whole text begins with an escape, or is made of blanks with a
line break in front, or begins with a character that stands for itself. -/
theorem stringTail_cases {quote c : Char} {n : Nat} {t : Text}
    (h : stringTail quote (n + 1) (c :: t ++ [quote]) = some (c :: t ++ [quote], [])) :
    (∃ taken t', c = '\\' ∧ t = taken ++ t' ∧ escaped (t ++ [quote]) = some (taken, t' ++ [quote])
      ∧ stringTail quote n (t' ++ [quote]) = some (t' ++ [quote], []))
    ∨ ((c = '\n' ∨ c = '\r') ∧ (c :: t).all isGap = true)
    ∨ (c ≠ '\\' ∧ c ≠ '\n' ∧ c ≠ '\r' ∧ stringTail quote n (t ++ [quote]) = some (t ++ [quote], [])) := by
  rw [List.cons_append] at h
  unfold stringTail at h
  split at h
  · simp at h
  split at h
  · rename_i hslash
    split at h
    · rename_i taken left hesc
      obtain ⟨⟨more, left'⟩, htail, heq⟩ := Option.map_eq_some_iff.mp h
      obtain ⟨hmore, rfl⟩ : taken ++ more = t ++ [quote] ∧ left' = [] := by simpa using heq
      obtain rfl : left = more := by simpa using stringTail_append htail
      obtain rfl | ⟨t', last, rfl⟩ := List.eq_nil_or_concat left
      · cases n <;> cases htail
      rw [List.concat_eq_append] at *
      rw [← List.append_assoc] at hmore
      obtain ⟨rfl, hlast⟩ := List.append_inj' hmore rfl
      obtain rfl : last = quote := by simpa using hlast
      exact .inl ⟨taken, t', by simpa using hslash, rfl, hesc, htail⟩
    · cases h
  rename_i hslash
  split at h
  · rename_i hbreak
    dsimp only at h
    split at h
    · rename_i last left hdrop
      split at h
      · obtain ⟨hblanks, rfl⟩ : (c :: (t ++ [quote])).takeWhile isGap ++ [last] = c :: t ++ [quote] ∧ left = [] := by
          simpa using h
        obtain ⟨hblanks, -⟩ := List.append_inj' hblanks rfl
        refine .inr (.inl ⟨by simpa using hbreak, ?_⟩)
        rw [← hblanks]
        exact List.all_takeWhile
      · cases h
    · cases h
  · rename_i hbreak
    obtain ⟨⟨more, left⟩, htail, heq⟩ := Option.map_eq_some_iff.mp h
    obtain ⟨rfl, rfl⟩ : more = t ++ [quote] ∧ left = [] := by simpa using heq
    have hbreak : c ≠ '\n' ∧ c ≠ '\r' := by simpa using hbreak
    exact .inr (.inr ⟨by simpa using hslash, hbreak.1, hbreak.2, htail⟩)

section
variable {quote : Char} {m : Nat} {left more rest : Text}

theorem stringTail_escape (hq : quote = '\'' ∨ quote = '"') {taken : Text}
    (hesc : escaped (taken ++ left) = some (taken, left)) (h : stringTail quote m left = some (more, rest)) :
    stringTail quote (m + 1) ('\\' :: (taken ++ left)) = some ('\\' :: (taken ++ more), rest) := by
  have hslash : ('\\' == quote) = false := by rcases hq with rfl | rfl <;> decide
  unfold stringTail
  simp [hslash, hesc, h]

theorem stringTail_blanks (hq : quote = '\'' ∨ quote = '"') {c : Char} {t : Text} (hc : c = '\n' ∨ c = '\r')
    (hall : (c :: t).all isGap = true) (rest : Text) :
    stringTail quote (m + 1) (c :: (t ++ quote :: rest)) = some (c :: (t ++ [quote]), rest) := by
  have hquote : isGap quote = false ∧ (c == quote) = false ∧ (c == '\\') = false := by
    rcases hq with rfl | rfl <;> rcases hc with rfl | rfl <;> decide
  have htake := takeWhile_append_stop hall hquote.1 rest
  have hdrop := dropWhile_append_stop hall hquote.1 rest
  rw [List.cons_append] at htake hdrop
  have hbreak : (c == '\n' || c == '\r') = true := by simpa using hc
  unfold stringTail
  simp [hquote.2.1, hquote.2.2, hbreak, htake, hdrop]

theorem stringTail_char {c : Char} (hne : c ≠ quote) (hslash : c ≠ '\\') (hnl : c ≠ '\n') (hcr : c ≠ '\r')
    (h : stringTail quote m left = some (more, rest)) :
    stringTail quote (m + 1) (c :: left) = some (c :: more, rest) := by
  unfold stringTail
  simp [hne, hslash, hnl, hcr, h]

end

theorem closed_of_stringTail {quote : Char} {n : Nat} {t : Text}
    (h : stringTail quote n (t ++ [quote]) = some (t ++ [quote], [])) : Closed t := by
  induction n generalizing t with
  | zero => cases h
  | succ n ih =>
    obtain _ | ⟨c, t⟩ := t
    · exact .nil
    obtain ⟨taken, t', rfl, rfl, hesc, htail⟩ | ⟨hbreak, hall⟩ | ⟨hslash, hnl, hcr, htail⟩ := stringTail_cases h
    · obtain ⟨d, plain, rfl, hplain, hread⟩ := escaped_cases hesc
      exact .escape (hread t' fun _ hnl => by rw [List.head?_append, hnl, Option.some_or]) (ih htail)
    · exact .blanks hbreak hall
    · exact .char hslash hnl hcr (ih htail)

theorem Closed.stringTail {quote : Char} (hq : quote = '\'' ∨ quote = '"') {t : Text} (h : Closed t) (rest : Text)
    {m : Nat} (hm : (escapeQuote quote false t).length < m) :
    Lexeme.stringTail quote m (escapeQuote quote false t ++ quote :: rest)
      = some (escapeQuote quote false t ++ [quote], rest) := by
  have hquote : quote ≠ '\\' := by rcases hq with rfl | rfl <;> decide
  induction h generalizing m with
  | nil =>
    obtain _ | m := m
    · simp at hm
    · unfold Lexeme.stringTail
      simp [escapeQuote]
  | @escape t taken t' hesc htail ih =>
    -- an escape of the literal stays as it is, also before a quote
    obtain rfl := escaped_splits.eq_append hesc
    obtain ⟨d, plain, rfl, hplain, hread⟩ := escaped_cases hesc
    have hwritten : escapeQuote quote false ('\\' :: (d :: plain ++ t'))
        = '\\' :: (d :: plain ++ escapeQuote quote false t') := by
      rw [escapeQuote_slash_cons hquote, escapeQuote_append_escaped hq d hplain]
    obtain _ | m := m
    · simp at hm
    rw [hwritten] at hm ⊢
    have hlen : (escapeQuote quote false t').length < m := by
      simp only [List.length_cons, List.length_append] at hm
      omega
    have hread := hread (escapeQuote quote false t' ++ quote :: rest) fun _ =>
      head_escapeQuote (by rcases hq with rfl | rfl <;> decide)
    simpa using stringTail_escape hq hread (ih hlen)
  | @blanks c t hbreak hall =>
    obtain _ | m := m
    · simp at hm
    have hwritten : escapeQuote quote false (c :: t) = c :: t := by
      simpa [escapeQuote] using escapeQuote_append_plain hq (all_isPlain_of_isGap hall) []
    rw [hwritten]
    exact stringTail_blanks hq hbreak hall rest
  | @char c t hne hnl hcr htail ih =>
    obtain _ | m := m
    · simp at hm
    by_cases hc : c = quote
    · -- the quote stood bare in the literal and gets its backslash
      subst hc
      have hwritten : escapeQuote c false (c :: t) = '\\' :: ([c] ++ escapeQuote c false t) :=
        escapeQuote_quote_cons hne
      rw [hwritten] at hm ⊢
      have hesc : escaped ([c] ++ (escapeQuote c false t ++ c :: rest))
          = some ([c], escapeQuote c false t ++ c :: rest) := by rcases hq with rfl | rfl <;> rfl
      have hlen : (escapeQuote c false t).length < m := by
        simp only [List.length_cons, List.length_append] at hm
        omega
      simpa using stringTail_escape hq hesc (ih hlen)
    · rw [escapeQuote_cons_of_ne hc hne] at hm ⊢
      exact stringTail_char hc hne hnl hcr (ih (by simpa using hm))

/-- Plain characters in front of what is written stood there before. -/
theorem eq_append_of_escapeQuote {quote : Char} (hquote : quote ≠ '\\') {plain : Text}
    (hplain : plain.all isPlain = true) {t rest : Text} (h : escapeQuote quote false t = plain ++ rest) :
    ∃ t', t = plain ++ t' ∧ rest = escapeQuote quote false t' := by
  induction plain generalizing t with
  | nil => exact ⟨t, rfl, h.symm⟩
  | cons c plain ih =>
    rw [List.all_cons, Bool.and_eq_true] at hplain
    obtain ⟨hc, hplain⟩ := hplain
    have hslash : c ≠ '\\' := by
      rintro rfl
      exact absurd hc (by decide)
    obtain ⟨hc, -⟩ | ⟨hc, -⟩ | ⟨-, t, rfl, hbehind⟩ := escapeQuote_eq_cons hquote h
    · exact absurd hc hslash
    · exact absurd hc hslash
    · obtain ⟨t', rfl, hrest⟩ := ih hplain hbehind.symm
      exact ⟨t', rfl, hrest⟩

/-- An escape in what is written behind a backslash of the text was an escape of the text. -/
theorem escaped_of_escapeQuote {quote : Char} (hquote : quote ≠ '\\') (hnl : quote ≠ '\n') {t taken rest : Text}
    (h : escaped (escapeQuote quote true t) = some (taken, rest)) :
    ∃ t', escaped t = some (taken, t') ∧ rest = escapeQuote quote false t' := by
  obtain _ | ⟨d, t⟩ := t
  · cases h
  have hwritten : escapeQuote quote true (d :: t) = d :: escapeQuote quote false t := by simp [escapeQuote]
  have happend := escaped_splits.eq_append h
  obtain ⟨d', plain, rfl, hplain, hread⟩ := escaped_cases h
  obtain ⟨rfl, hbehind⟩ := List.cons.inj (hwritten.symm.trans happend)
  obtain ⟨t', rfl, rfl⟩ := eq_append_of_escapeQuote hquote hplain hbehind
  refine ⟨t', hread t' fun _ hbreak => ?_, rfl⟩
  obtain ⟨left, rfl⟩ := List.head?_eq_some_iff.mp hbreak
  rw [escapeQuote_cons_of_ne hnl.symm (by decide)]
  rfl

theorem closed_of_escapeQuote {quote : Char} (hq : quote = '\'' ∨ quote = '"') {t : Text}
    (h : Closed (escapeQuote quote false t)) : Closed t := by
  have hquote : quote ≠ '\\' ∧ quote ≠ '\n' ∧ quote ≠ '\r' := by rcases hq with rfl | rfl <;> decide
  generalize hwritten : escapeQuote quote false t = written at h
  induction h generalizing t with
  | nil => exact eq_nil_of_escapeQuote hwritten ▸ .nil
  | @escape w taken rest hesc htail ih =>
    obtain ⟨-, t, rfl, rfl⟩ | ⟨-, t, rfl, rfl⟩ | ⟨hslash, -⟩ := escapeQuote_eq_cons hquote.1 hwritten
    · -- the backslash was put in front of a bare quote
      have hself : escaped (quote :: escapeQuote quote false t) = some ([quote], escapeQuote quote false t) := by
        rcases hq with rfl | rfl <;> rfl
      obtain ⟨-, rfl⟩ := Prod.mk.inj (Option.some.inj (hself.symm.trans hesc))
      exact .char hquote.1 hquote.2.1 hquote.2.2 (ih rfl)
    · -- the escape stood there before
      obtain ⟨t', hbefore, rfl⟩ := escaped_of_escapeQuote hquote.1 hquote.2.1 hesc
      exact .escape hbefore (ih rfl)
    · exact absurd rfl hslash
  | @blanks c w hbreak hall =>
    obtain ⟨t', rfl, hrest⟩ :=
      eq_append_of_escapeQuote hquote.1 (all_isPlain_of_isGap hall) (hwritten.trans (List.append_nil _).symm)
    rw [eq_nil_of_escapeQuote hrest.symm, List.append_nil]
    exact .blanks hbreak hall
  | @char c w hslash hnl hcr htail ih =>
    obtain ⟨hc, -⟩ | ⟨hc, -⟩ | ⟨-, t, rfl, rfl⟩ := escapeQuote_eq_cons hquote.1 hwritten
    · exact absurd hc hslash
    · exact absurd hc hslash
    · exact .char hslash hnl hcr (ih rfl)

/-- What is written for a text is read to its closing quote exactly when the text is closed. -/
theorem stringTail_escapeQuote_iff {quote : Char} (hq : quote = '\'' ∨ quote = '"') {t : Text} :
    stringTail quote ((escapeQuote quote false t ++ [quote]).length + 1) (escapeQuote quote false t ++ [quote])
      = some (escapeQuote quote false t ++ [quote], []) ↔ Closed t :=
  ⟨fun h => closed_of_escapeQuote hq (closed_of_stringTail h),
    fun h => h.stringTail hq [] (by simp only [List.length_append]; omega)⟩

instance (t : Text) : Decidable (Closed t) := decidable_of_iff _ (stringTail_escapeQuote_iff (.inl rfl))

end Lexeme

/-- A printed string literal is read as one string, whatever stands behind it, exactly when its content is closed. -/
theorem string_quoteLiteral_iff {quote : Char} (hq : quote = '\'' ∨ quote = '"') {content : String} :
    (∀ rest, Lexeme.string ((quoteLiteral quote content).toList ++ rest)
      = some ((quoteLiteral quote content).toList, rest)) ↔ Lexeme.Closed content.toList := by
  have hquote : (quote == '\'' || quote == '"') = true := by simpa using hq
  rw [quoteLiteral, String.toList_ofList]
  constructor
  · intro h
    have hself := h []
    rw [List.append_nil, Lexeme.string, if_pos hquote] at hself
    obtain ⟨⟨more, left⟩, htail, heq⟩ := Option.map_eq_some_iff.mp hself
    obtain ⟨rfl, rfl⟩ : more = escapeQuote quote false content.toList ++ [quote] ∧ left = [] := by simpa using heq
    exact (Lexeme.stringTail_escapeQuote_iff hq).mp htail
  · intro h rest
    rw [List.cons_append, List.append_assoc, Lexeme.string, if_pos hquote]
    have hwritten := h.stringTail hq rest
      (m := (escapeQuote quote false content.toList ++ ([quote] ++ rest)).length + 1)
      (by simp only [List.length_append, List.length_cons]; omega)
    simp only [List.singleton_append] at hwritten ⊢
    rw [hwritten]
    rfl

/-- A content without the backslashes before quotes, which do not count. -/
def bareQuotes : Text → Text
  | '\\' :: c :: t => if c == '\'' || c == '"' then c :: bareQuotes t else '\\' :: c :: bareQuotes t
  | c :: t => c :: bareQuotes t
  | [] => []

theorem bareQuotes_escapeQuote {quote : Char} (hq : quote = '\'' ∨ quote = '"') (t : Text) :
    bareQuotes (escapeQuote quote false t) = bareQuotes t := by
  have hslash : ('\\' == quote) = false := by rcases hq with rfl | rfl <;> decide
  have hquote : (quote == '\'' || quote == '"') = true := by simpa using hq
  fun_induction bareQuotes t with
  | case1 c t hc ih => simp [escapeQuote, hslash, bareQuotes, hc, ih]
  | case2 c t hc ih => simp [escapeQuote, hslash, bareQuotes, hc, ih]
  | case3 c t hpair ih =>
    by_cases hc : c = quote
    · subst hc
      simp [escapeQuote, BEq.comm.trans hslash, bareQuotes, hquote, ih]
    · by_cases hc' : c = '\\'
      · obtain rfl : t = [] := List.eq_nil_iff_forall_not_mem.mpr fun d hd => by
          obtain ⟨d', t', ht⟩ := List.exists_cons_of_ne_nil (List.ne_nil_of_mem hd)
          exact hpair d' t' hc' ht
        simp [escapeQuote, hc, bareQuotes]
      · simp [escapeQuote, hc, beq_false_of_ne hc', bareQuotes, hc', ih]
  | case4 => rfl

end TestMigration
