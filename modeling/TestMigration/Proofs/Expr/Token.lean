import TestMigration.Proofs.Expr.Literal

/-!
# Tokens of printed code

`tokenize` splits a text into tokens with the recognisers of the grammar: the longest word, string or
operator is taken each time and blanks are skipped. An embedded span counts as one token; in a text it
is written as `Span.mark`.

A token is read back from the text it is printed as, whatever comes behind it, provided that a word is not
followed by a character that would go on it (`Stops`). For strings this needs that the printer's
escapes keep the literal in one piece (`Proofs/Expr/Literal.lean`).
-/

namespace TestMigration

/-- A token. Words and string contents stand as they are written. -/
inductive Token where
  | word (text : String)
  | string (content : String)
  | piece (span : Span)
  | dot
  | optionalDot
  | leftParen
  | rightParen
  | leftBracket
  | rightBracket
  | leftBrace
  | rightBrace
  | comma
  | colon
  | arrow
  | spread
  /-- Any other operator. -/
  | operator (text : String)
deriving DecidableEq

/-- The text that stands for an embedded span: its two offsets between number signs. -/
def Span.mark (s : Span) : String := "#" ++ toString s.start ++ "-" ++ toString s.stop ++ "#"

namespace Token

def ofOperator (text : Text) : Token :=
  match text with
  | ['.'] => dot
  | ['?', '.'] => optionalDot
  | ['('] => leftParen
  | [')'] => rightParen
  | ['['] => leftBracket
  | [']'] => rightBracket
  | ['\x7b'] => leftBrace
  | ['\x7d'] => rightBrace
  | [','] => comma
  | [':'] => colon
  | ['=', '>'] => arrow
  | ['.', '.', '.'] => spread
  | _ => operator (String.ofList text)

/-- The rest of an embedded span behind the number sign. -/
def pieceTail (t : Text) : Option (Token × Text) :=
  match t.dropWhile Char.isDigit with
  | '-' :: t' =>
    match t'.dropWhile Char.isDigit with
    | '#' :: rest =>
      some (piece ⟨Nat.ofDigitChars 10 (t.takeWhile Char.isDigit) 0,
        Nat.ofDigitChars 10 (t'.takeWhile Char.isDigit) 0⟩, rest)
    | _ => none
  | _ => none

/-- The token at the beginning of a text, and the rest. -/
def next? : Text → Option (Token × Text)
  | [] => none
  | c :: t =>
    if c == '#' then pieceTail t
    else if c == '\'' || c == '"' then
      (Lexeme.string (c :: t)).map fun (taken, rest) =>
        (string (String.ofList (taken.drop 1).dropLast), rest)
    else
      match Lexeme.word (c :: t) with
      | some (taken, rest) => some (word (String.ofList taken), rest)
      | none => (Lexeme.operator (c :: t)).map fun (taken, rest) => (ofOperator taken, rest)

end Token

/-- The tokens of a text of at most the given number of characters. -/
def tokenizeGo : Nat → Text → Option (List Token)
  | _, [] => some []
  | 0, _ :: _ => none
  | n + 1, c :: t =>
    if Lexeme.isGap c then tokenizeGo n t
    else
      match Token.next? (c :: t) with
      | some (token, rest) => (tokenizeGo n rest).map (token :: ·)
      | none => none

/-- The tokens of a text, if there is nothing else in it but blanks. -/
def tokenize (t : Text) : Option (List Token) := tokenizeGo t.length t

/-- The text splits into these tokens. -/
def Scans (t : Text) (ts : List Token) : Prop := ∀ n, t.length ≤ n → tokenizeGo n t = some ts

namespace Scans

variable {t rest : Text} {ts : List Token}

theorem nil : Scans [] [] := by
  intro n _
  cases n <;> rfl

theorem gap {c : Char} (hc : Lexeme.isGap c) (h : Scans t ts) : Scans (c :: t) ts := by
  intro n hn
  obtain _ | n := n
  · simp at hn
  · rw [tokenizeGo, if_pos hc]
    exact h n (by simpa using hn)

theorem blank (h : Scans t ts) : Scans (' ' :: t) ts := gap (by decide) h

theorem token {c : Char} {token : Token} (hc : Lexeme.isGap c = false)
    (hnext : Token.next? (c :: t) = some (token, rest)) (hshort : rest.length ≤ t.length)
    (h : Scans rest ts) : Scans (c :: t) (token :: ts) := by
  intro n hn
  obtain _ | n := n
  · simp at hn
  · have hn : t.length ≤ n := by simpa using hn
    rw [tokenizeGo, hc, if_neg Bool.false_ne_true, hnext]
    simp only [h n (by omega), Option.map_some]

end Scans

/-! ### Words -/

namespace Lexeme

/-- Nothing that would go on a word stands at the beginning of the text. -/
def Stops (t : Text) : Prop := ∀ c ∈ t.head?, isWordPart c = false ∧ c ≠ '\\'

theorem stops_nil : Stops [] := by simp [Stops]

theorem stops_cons {c : Char} {t : Text} (hc : isWordPart c = false) (hne : c ≠ '\\') : Stops (c :: t) := by
  intro d hd
  obtain rfl : c = d := by simpa using hd
  exact ⟨hc, hne⟩

theorem unicodeEscape_eq_none {c : Char} (h : c ≠ '\\') (t : Text) : unicodeEscape (c :: t) = none := by
  unfold unicodeEscape
  split <;> simp_all

theorem wordTail_stops {rest : Text} (h : Stops rest) (n : Nat) : wordTail n rest = ([], rest) := by
  obtain _ | n := n
  · rfl
  obtain _ | ⟨c, rest⟩ := rest
  · rfl
  · obtain ⟨hc, hne⟩ := h c rfl
    rw [wordTail, hc, if_neg Bool.false_ne_true, unicodeEscape_eq_none hne]

/-- A continuation that takes its whole text takes the same when the text goes on and stops it. -/
theorem wordTail_append_stops {n : Nat} {t rest : Text} (h : wordTail n t = (t, [])) (hstop : Stops rest)
    (k : Nat) : wordTail (n + k) (t ++ rest) = (t, rest) := by
  fun_induction wordTail n t with
  | case1 t =>
    obtain rfl : [] = t := by simpa using h
    simpa using wordTail_stops hstop k
  | case2 n => simpa using wordTail_stops hstop _
  | case3 n c t hc taken left heq ih =>
    obtain ⟨rfl, rfl⟩ := by simpa using h
    rw [Nat.succ_add, List.cons_append, wordTail, if_pos hc, ih heq]
  | case4 n c t hc escape left hesc taken left' heq ih =>
    have hsplit := unicodeEscape_splits.eq_append hesc
    simp only [Prod.mk.injEq] at h
    obtain ⟨htaken, rfl⟩ := h
    obtain rfl : taken = left := List.append_cancel_left (htaken.trans hsplit)
    have hesc' := unicodeEscape_append hesc rest
    rw [List.cons_append] at hesc'
    rw [Nat.succ_add, List.cons_append, wordTail, if_neg hc, hesc']
    simp only [ih heq, htaken]
  | case5 n c t hc hesc => simp at h

end Lexeme

/-- The text is a word from its first character to its last. -/
def isWord (w : String) : Bool := Lexeme.word w.toList == some (w.toList, [])

theorem word_append {w : String} (h : isWord w) {rest : Text} (hstop : Lexeme.Stops rest) :
    Lexeme.word (w.toList ++ rest) = some (w.toList, rest) := by
  have h : Lexeme.word w.toList = some (w.toList, []) := by simpa [isWord] using h
  generalize w.toList = t at h
  unfold Lexeme.word at h
  split at h
  · cases h
  · rename_i c t
    split at h
    · rename_i hc
      have htail : Lexeme.wordTail t.length t = (t, []) := by
        obtain ⟨htaken, hrest⟩ := by simpa using h
        exact Prod.ext htaken hrest
      rw [List.cons_append, Lexeme.word, if_pos hc, List.length_append,
        Lexeme.wordTail_append_stops htail hstop]
    · rename_i hc
      split at h
      · rename_i escape left hesc
        have hsplit := Lexeme.unicodeEscape_splits.eq_append hesc
        obtain ⟨htaken, hrest⟩ := by simpa using h
        have htail : Lexeme.wordTail left.length left = (left, []) :=
          Prod.ext (List.append_cancel_left (htaken.trans hsplit)) hrest
        have hesc' := Lexeme.unicodeEscape_append hesc rest
        rw [List.cons_append] at hesc'
        rw [List.cons_append, Lexeme.word, if_neg hc, hesc']
        simp only [List.length_append, Lexeme.wordTail_append_stops htail hstop, ← hsplit]
      · cases h

/-- A word begins with a character that is no punctuation, or with the backslash of an escape. -/
theorem exists_head_of_isWord {w : String} (h : isWord w) :
    ∃ c t, w.toList = c :: t ∧ (∀ d ∈ Lexeme.punctuation, d ≠ '\\' → c ≠ d) ∧ Lexeme.isGap c = false
      ∧ c.isDigit = false := by
  have h : Lexeme.word w.toList = some (w.toList, []) := by simpa [isWord] using h
  generalize w.toList = t at h
  obtain _ | ⟨c, t⟩ := t
  · cases h
  refine ⟨c, t, rfl, ?_⟩
  by_cases hc : Lexeme.isWordStart c = true
  · simp only [Lexeme.isWordStart, Lexeme.isWordPart, Bool.and_eq_true, Bool.not_eq_true',
      List.contains_eq_mem, decide_eq_false_iff_not] at hc
    exact ⟨fun d hd _ heq => hc.1.2 (heq ▸ hd), hc.1.1.2, hc.2⟩
  · by_cases hne : c = '\\'
    · subst hne
      exact ⟨fun d _ hd => hd.symm, rfl, rfl⟩
    · rw [Lexeme.word, if_neg hc, Lexeme.unicodeEscape_eq_none hne] at h
      cases h

/-! ### Scanning what is printed -/

namespace Scans

variable {rest : Text} {ts : List Token}

theorem word {w : String} (hw : isWord w) (hstop : Lexeme.Stops rest) (h : Scans rest ts) :
    Scans (w.toList ++ rest) (.word w :: ts) := by
  have hread := word_append hw hstop
  obtain ⟨c, t, ht, hmark, hgap, -⟩ := exists_head_of_isWord hw
  have hclass : Lexeme.isGap c = false ∧ (c == '#') = false ∧ (c == '\'' || c == '"') = false := by
    rw [beq_false_of_ne (hmark '\'' (by decide) (by decide)), beq_false_of_ne (hmark '"' (by decide) (by decide))]
    exact ⟨hgap, beq_false_of_ne (hmark '#' (by decide) (by decide)), rfl⟩
  rw [ht, List.cons_append] at hread ⊢
  refine token hclass.1 ?_ (by simp) h
  rw [Token.next?, hclass.2.1, if_neg Bool.false_ne_true, hclass.2.2, if_neg Bool.false_ne_true, hread]
  simp [← ht]

theorem string {quote : Char} (hq : quote = '\'' ∨ quote = '"') {content : String}
    (hc : Lexeme.Closed content.toList) (h : Scans rest ts) :
    Scans ((quoteLiteral quote content).toList ++ rest)
      (.string (String.ofList (escapeQuote quote false content.toList)) :: ts) := by
  have hread := (string_quoteLiteral_iff hq).mpr hc rest
  rw [quoteLiteral, String.toList_ofList, List.cons_append] at hread ⊢
  have hclass : Lexeme.isGap quote = false ∧ (quote == '#') = false ∧ (quote == '\'' || quote == '"') = true := by
    rcases hq with rfl | rfl <;> decide
  refine token hclass.1 ?_ (by simp only [List.length_append, List.length_cons]; omega) h
  rw [Token.next?, hclass.2.1, if_neg Bool.false_ne_true, hclass.2.2, if_pos rfl, hread]
  simp

theorem piece (s : Span) (h : Scans rest ts) : Scans (s.mark.toList ++ rest) (.piece s :: ts) := by
  have hall (n : Nat) : (Nat.toDigits 10 n).all Char.isDigit = true :=
    List.all_eq_true.mpr fun c hc => Nat.isDigit_of_mem_toDigits (by omega) (by omega) hc
  have hmark : s.mark.toList ++ rest
      = '#' :: (Nat.toDigits 10 s.start ++ '-' :: (Nat.toDigits 10 s.stop ++ '#' :: rest)) := by
    simp [Span.mark, String.toList_append]
  rw [hmark]
  refine token (by decide) ?_ (by simp only [List.length_append, List.length_cons]; omega) h
  have hminus : Char.isDigit '-' = false := by decide
  have hsign : Char.isDigit '#' = false := by decide
  rw [Token.next?, if_pos (by decide), Token.pieceTail]
  simp only [Lexeme.takeWhile_append_stop (hall _) hminus, Lexeme.dropWhile_append_stop (hall _) hminus,
    Lexeme.takeWhile_append_stop (hall _) hsign, Lexeme.dropWhile_append_stop (hall _) hsign,
    Nat.ofDigitChars_toDigits (b := 10) (by omega) (by omega)]

/-- Operators and brackets begin with a character that begins nothing else. -/
theorem mark {c : Char} {t : Text} (hc : c ∈ Lexeme.punctuation)
    (hne : (c == '#' || c == '\'' || c == '"' || c == '\\') = false)
    (hread : Lexeme.operator (c :: (t ++ rest)) = some (c :: t, rest)) (h : Scans rest ts) :
    Scans (c :: (t ++ rest)) (Token.ofOperator (c :: t) :: ts) := by
  have hall : Lexeme.punctuation.all (fun d => !Lexeme.isGap d) = true := by decide
  have hgap : Lexeme.isGap c = false := by simpa using List.all_eq_true.mp hall c hc
  simp only [Bool.or_eq_false_iff] at hne
  have hword : Lexeme.word (c :: (t ++ rest)) = none := by
    have hstart : ¬ Lexeme.isWordStart c = true := by simp [Lexeme.isWordStart, Lexeme.isWordPart, hc]
    rw [Lexeme.word, if_neg hstart, Lexeme.unicodeEscape_eq_none (ne_of_beq_false hne.2)]
  refine token hgap ?_ (by simp) h
  rw [Token.next?, hne.1.1.1, hne.1.1.2, hne.1.2, hword, hread]
  rfl

theorem leftParen (h : Scans rest ts) : Scans ('(' :: rest) (.leftParen :: ts) :=
  mark (t := []) (by decide) rfl rfl h

theorem rightParen (h : Scans rest ts) : Scans (')' :: rest) (.rightParen :: ts) :=
  mark (t := []) (by decide) rfl rfl h

theorem leftBracket (h : Scans rest ts) : Scans ('[' :: rest) (.leftBracket :: ts) :=
  mark (t := []) (by decide) rfl rfl h

theorem rightBracket (h : Scans rest ts) : Scans (']' :: rest) (.rightBracket :: ts) :=
  mark (t := []) (by decide) rfl rfl h

theorem leftBrace (h : Scans rest ts) : Scans ('\x7b' :: rest) (.leftBrace :: ts) :=
  mark (t := []) (by decide) rfl rfl h

theorem rightBrace (h : Scans rest ts) : Scans ('\x7d' :: rest) (.rightBrace :: ts) :=
  mark (t := []) (by decide) rfl rfl h

theorem comma (h : Scans rest ts) : Scans (',' :: rest) (.comma :: ts) :=
  mark (t := []) (by decide) rfl rfl h

theorem colon (h : Scans rest ts) : Scans (':' :: rest) (.colon :: ts) :=
  mark (t := []) (by decide) rfl rfl h

theorem arrow (h : Scans rest ts) : Scans ('=' :: '>' :: rest) (.arrow :: ts) :=
  mark (t := ['>']) (by decide) rfl rfl h

theorem spread (h : Scans rest ts) : Scans ('.' :: '.' :: '.' :: rest) (.spread :: ts) :=
  mark (t := ['.', '.']) (by decide) rfl rfl h

theorem dot {c : Char} {t : Text} (hc : c ≠ '.') (h : Scans (c :: t) ts) : Scans ('.' :: c :: t) (.dot :: ts) := by
  have hdots : ('.' == c) = false := beq_false_of_ne (Ne.symm hc)
  refine mark (t := []) (by decide) rfl ?_ h
  simp [Lexeme.operator, Lexeme.operators, List.isPrefixOf, hdots]

theorem optionalDot {c : Char} {t : Text} (hc : c.isDigit = false) (h : Scans (c :: t) ts) :
    Scans ('?' :: '.' :: c :: t) (.optionalDot :: ts) := by
  refine mark (t := ['.']) (by decide) rfl ?_ h
  simp [Lexeme.operator, hc]

theorem bang {c : Char} {t : Text} (hc : c ≠ '=') (h : Scans (c :: t) ts) :
    Scans ('!' :: c :: t) (.operator "!" :: ts) := by
  have hequals : ('=' == c) = false := beq_false_of_ne (Ne.symm hc)
  refine mark (t := []) (by decide) rfl ?_ h
  simp [Lexeme.operator, Lexeme.operators, List.isPrefixOf, hequals]

end Scans

end TestMigration
