import TestMigration.Json.Parser
import TestMigration.Proofs.Expr.Literal

/-!
# Values of string literals

A string literal ends at the first quote of its kind that no backslash escapes (`literal?`). What stands between the
quotes is a value, a row of units of 16 bits (`contentValue?`), in which a quote counts alike with and without a
backslash. The printer puts backslashes in front of bare quotes only, so that the literal ends where it should and has
the value of its content.

Main statement: `quoteLiteral_value`.
-/

namespace TestMigration

/-! ### Literals -/

/-- Every backslash has a character that it escapes, and other line breaks than escaped ones do not occur. -/
def isUnbroken : Text → Bool
  | '\\' :: _ :: t => isUnbroken t
  | c :: t => c != '\\' && c != '\n' && c != '\r' && isUnbroken t
  | [] => true

/-- The content of a string literal behind its opening quote, and what follows its closing quote. A backslash goes with
the character behind it. -/
def literalTail? (quote : Char) : Text → Option (Text × Text)
  | '\\' :: c :: t => (literalTail? quote t).map fun (content, rest) => ('\\' :: c :: content, rest)
  | c :: t =>
    if c = quote then some ([], t)
    else if c = '\\' ∨ c = '\n' ∨ c = '\r' then none
    else (literalTail? quote t).map fun (content, rest) => (c :: content, rest)
  | [] => none

/-- The quote and the content of a string literal, and what follows it. -/
def literal? : Text → Option (Char × Text × Text)
  | c :: t => if c = '\'' ∨ c = '"' then (literalTail? c t).map (c, ·) else none
  | [] => none

/-! ### Values -/

/-- The units of 16 bits that write a code point. -/
def codeUnits (point : Nat) : List Nat :=
  if point < 0x10000 then [point]
  else [0xD800 + (point - 0x10000) / 0x400, 0xDC00 + (point - 0x10000) % 0x400]

def numberIn (base : Nat) (digits : Text) : Nat :=
  digits.foldl (fun n d => base * n + (JsonValue.hexValue? d).getD 0) 0

def isOctal (c : Char) : Bool := '0' ≤ c && c ≤ '7'

/-- The octal digits at the front of a text, at most so many, and what follows them. -/
def octalDigits : Nat → Text → Text × Text
  | n + 1, c :: t =>
    if isOctal c then
      let (digits, rest) := octalDigits n t
      (c :: digits, rest)
    else ([], c :: t)
  | _, t => ([], t)

/-- What a single character behind a backslash stands for; a line break goes on the line. -/
def escapedUnits (c : Char) : List Nat :=
  match c with
  | 'b' => [0x8]
  | 't' => [0x9]
  | 'n' => [0xA]
  | 'v' => [0xB]
  | 'f' => [0xC]
  | 'r' => [0xD]
  | c => if Lexeme.isLineBreak c then [] else codeUnits c.toNat

/-- What an escape stands for that is no octal number; the backslash is left out. -/
def escapeUnits? : Text → Option (List Nat)
  | 'x' :: digits => some [numberIn 16 digits]
  | 'u' :: '\x7b' :: digits =>
    let point := numberIn 16 digits.dropLast
    if point ≤ 0x10FFFF then some (codeUnits point) else none
  | 'u' :: digits => some [numberIn 16 digits]
  | c :: _ => some (escapedUnits c)
  | [] => none

/-- What the escape behind a backslash stands for, and what follows it. An octal number ends at 255. -/
def escape? : Text → Option (List Nat × Text)
  | c :: t =>
    if isOctal c then
      let (digits, rest) := octalDigits (if c ≤ '3' then 2 else 1) t
      some ([numberIn 8 (c :: digits)], rest)
    else
      (Lexeme.escaped (c :: t)).bind fun (taken, rest) => (escapeUnits? taken).map (·, rest)
  | [] => none

theorem octalDigits_append (n : Nat) (t : Text) : (octalDigits n t).1 ++ (octalDigits n t).2 = t := by
  fun_induction octalDigits n t with
  | case1 n c t hc digits rest hdigits ih =>
    rw [hdigits] at ih
    rw [List.cons_append, ih]
  | case2 n c t hc => rfl
  | case3 n t => rfl

/-- An escape with a value is an octal number or one of the grammar's escapes. -/
theorem escape?_cases {t rest : Text} {units : List Nat} (h : escape? t = some (units, rest)) :
    (∃ c t' n, t = c :: t' ∧ isOctal c = true ∧ rest = (octalDigits n t').2) ∨
      ∃ taken, Lexeme.escaped t = some (taken, rest) := by
  obtain _ | ⟨c, t⟩ := t
  · cases h
  rw [escape?] at h
  split at h
  · rename_i hc
    exact .inl ⟨c, t, _, rfl, hc, (Prod.mk.inj (Option.some.inj h)).2.symm⟩
  · obtain ⟨⟨taken, rest'⟩, hescaped, hunits⟩ := Option.bind_eq_some_iff.mp h
    obtain ⟨units', -, heq⟩ := Option.map_eq_some_iff.mp hunits
    cases heq
    exact .inr ⟨taken, hescaped⟩

theorem length_of_escape? {t rest : Text} {units : List Nat} (h : escape? t = some (units, rest)) :
    rest.length < t.length := by
  obtain ⟨c, t, n, rfl, -, rfl⟩ | ⟨taken, hescaped⟩ := escape?_cases h
  · have happend := congrArg List.length (octalDigits_append n t)
    rw [List.length_append] at happend
    rw [List.length_cons]
    omega
  · obtain ⟨d, plain, rfl, -⟩ := Lexeme.escaped_cases hescaped
    rw [Lexeme.escaped_splits.eq_append hescaped, List.length_append, List.length_cons]
    omega

/-- The value of what stands between the quotes of a string literal. A content that cannot stand there has none. -/
def contentValue? : Text → Option (List Nat)
  | '\\' :: t =>
    match _ : escape? t with
    | some (units, rest) => (contentValue? rest).map (units ++ ·)
    | none => none
  | c :: t => if c = '\n' ∨ c = '\r' then none else (contentValue? t).map (codeUnits c.toNat ++ ·)
  | [] => some []
termination_by t => t.length
decreasing_by
  · exact Nat.lt_succ_of_lt (length_of_escape? ‹_›)
  · exact Nat.lt_succ_self _

theorem contentValue?_slash (t : Text) : contentValue? ('\\' :: t) =
    (escape? t).bind fun (units, rest) => (contentValue? rest).map (units ++ ·) := by
  rw [contentValue?]
  split
  · rename_i units rest h
    rw [h]
    rfl
  · rename_i h
    rw [h]
    rfl

theorem contentValue?_char {c : Char} (hslash : c ≠ '\\') (hnl : c ≠ '\n') (hcr : c ≠ '\r') (t : Text) :
    contentValue? (c :: t) = (contentValue? t).map (codeUnits c.toNat ++ ·) := by
  rw [contentValue?, if_neg (not_or.mpr ⟨hnl, hcr⟩)]
  exact fun h => absurd h hslash

theorem contentValue?_break {c : Char} (hbreak : c = '\n' ∨ c = '\r') (t : Text) : contentValue? (c :: t) = none := by
  rw [contentValue?, if_pos hbreak]
  rcases hbreak with rfl | rfl <;> exact fun h => absurd h (by decide)

example : contentValue? "it\\'s \\x41\\u\x7b1F600\x7d\\101".toList =
    some [0x69, 0x74, 0x27, 0x73, 0x20, 0x41, 0xD83D, 0xDE00, 0x41] := by cbv

theorem escaped_of_isOctal {c : Char} (h : isOctal c = true) (t : Text) :
    Lexeme.escaped (c :: t) = some ([c], t) := by
  have hne : c ≠ '\r' ∧ c ≠ 'x' ∧ c ≠ 'u' := by
    refine ⟨?_, ?_, ?_⟩ <;> rintro rfl <;> exact absurd h (by decide)
  unfold Lexeme.escaped
  split <;> simp_all

theorem closed_of_octalDigits {n : Nat} {t : Text} (h : Lexeme.Closed (octalDigits n t).2) : Lexeme.Closed t := by
  fun_induction octalDigits n t with
  | case1 n c t hc digits rest hdigits ih =>
    rw [hdigits] at ih
    refine .char ?_ ?_ ?_ (ih h) <;> rintro rfl <;> exact absurd hc (by decide)
  | case2 => exact h
  | case3 => exact h

theorem closed_of_escape? {t rest : Text} {units : List Nat} (h : escape? t = some (units, rest))
    (hrest : Lexeme.Closed rest) : Lexeme.Closed ('\\' :: t) := by
  obtain ⟨c, t, n, rfl, hc, rfl⟩ | ⟨taken, hescaped⟩ := escape?_cases h
  · exact .escape (escaped_of_isOctal hc t) (closed_of_octalDigits hrest)
  · exact .escape hescaped hrest

/-- A content with a value can stand between the quotes of a string literal. -/
theorem closed_of_contentValue? {t : Text} (h : (contentValue? t).isSome = true) : Lexeme.Closed t := by
  fun_induction contentValue? t with
  | case1 t units rest hescape ih => exact closed_of_escape? hescape (ih (by simpa using h))
  | case2 t hescape => cases h
  | case3 c t hslash hbreak => cases h
  | case4 c t hslash hbreak ih =>
    obtain ⟨hnl, hcr⟩ := not_or.mp hbreak
    exact .char hslash hnl hcr (ih (by simpa using h))
  | case5 => exact .nil

/-! ### Escaping quotes -/

section
variable {quote : Char} (hq : quote = '\'' ∨ quote = '"')
include hq

theorem octalDigits_escapeQuote (n : Nat) (t : Text) : octalDigits n (escapeQuote quote false t) =
    ((octalDigits n t).1, escapeQuote quote false (octalDigits n t).2) := by
  have hquote : quote ≠ '\\' ∧ isOctal quote = false := by rcases hq with rfl | rfl <;> decide
  fun_induction octalDigits n t with
  | case1 n c t hc digits rest hdigits ih =>
    have hne : c ≠ quote ∧ c ≠ '\\' := by
      rcases hq with rfl | rfl <;> constructor <;> rintro rfl <;> exact absurd hc (by decide)
    rw [escapeQuote_cons_of_ne hne.1 hne.2, octalDigits, if_pos hc, ih, hdigits]
  | case2 n c t hc =>
    obtain ⟨d, w, hwritten, hd⟩ : ∃ d w, escapeQuote quote false (c :: t) = d :: w ∧ isOctal d = false := by
      cases hwritten : escapeQuote quote false (c :: t) with
      | nil => cases eq_nil_of_escapeQuote hwritten
      | cons d w =>
        refine ⟨d, w, rfl, ?_⟩
        obtain ⟨rfl, -⟩ | ⟨rfl, -⟩ | ⟨-, t', ht, -⟩ := escapeQuote_eq_cons hquote.1 hwritten
        · rfl
        · rfl
        · obtain ⟨rfl, -⟩ := List.cons.inj ht
          simpa using hc
    rw [hwritten, octalDigits, if_neg (by simp [hd])]
  | case3 n t hend =>
    obtain _ | n := n
    · rw [octalDigits]
      exact fun _ _ _ h => absurd h (Nat.succ_ne_zero _).symm
    · obtain _ | ⟨c, t⟩ := t
      · rfl
      · exact (hend n c t rfl rfl).elim

theorem escaped_escapeQuote (t : Text) : Lexeme.escaped (escapeQuote quote true t) =
    (Lexeme.escaped t).map fun (taken, rest) => (taken, escapeQuote quote false rest) := by
  have hquote : quote ≠ '\\' ∧ quote ≠ '\n' := by rcases hq with rfl | rfl <;> decide
  cases h : Lexeme.escaped t with
  | none =>
    rw [Option.map_none, Option.eq_none_iff_forall_ne_some]
    intro ⟨taken, rest⟩ hwritten
    obtain ⟨t', hbefore, -⟩ := Lexeme.escaped_of_escapeQuote hquote.1 hquote.2 hwritten
    cases h.symm.trans hbefore
  | some p =>
    obtain ⟨taken, rest⟩ := p
    obtain rfl := Lexeme.escaped_splits.eq_append h
    obtain ⟨d, plain, rfl, hplain, hread⟩ := Lexeme.escaped_cases h
    rw [escapeQuote_append_escaped hq d hplain]
    refine hread _ fun _ hnl => ?_
    have hbehind : (escapeQuote quote false rest ++ [quote]).head? = some '\n' := by
      rw [List.head?_append, hnl, Option.some_or]
    exact Lexeme.head_escapeQuote hquote.2 hbehind

theorem escape?_escapeQuote (t : Text) : escape? (escapeQuote quote true t) =
    (escape? t).map fun (units, rest) => (units, escapeQuote quote false rest) := by
  obtain _ | ⟨c, t⟩ := t
  · rfl
  have hwritten : escapeQuote quote true (c :: t) = c :: escapeQuote quote false t := by simp [escapeQuote]
  have hescaped := escaped_escapeQuote hq (c :: t)
  rw [hwritten] at hescaped ⊢
  rw [escape?, escape?]
  split
  · rw [octalDigits_escapeQuote hq]
    rfl
  · rw [hescaped]
    cases Lexeme.escaped (c :: t) with
    | none => rfl
    | some p =>
      obtain ⟨taken, rest⟩ := p
      simp only [Option.map_some, Option.bind_some]
      cases escapeUnits? taken <;> rfl

theorem contentValue?_escapeQuote (t : Text) : contentValue? (escapeQuote quote false t) = contentValue? t := by
  have hquote : quote ≠ '\\' := by rcases hq with rfl | rfl <;> decide
  fun_induction contentValue? t with
  | case1 t units rest hescape ih =>
    rw [escapeQuote_slash_cons hquote, contentValue?_slash, escape?_escapeQuote hq, hescape]
    simp [ih]
  | case2 t hescape =>
    rw [escapeQuote_slash_cons hquote, contentValue?_slash, escape?_escapeQuote hq, hescape]
    rfl
  | case3 c t hslash hbreak =>
    have hc : c ≠ quote ∧ c ≠ '\\' := by
      rcases hq with rfl | rfl <;> rcases hbreak with rfl | rfl <;> decide
    rw [escapeQuote_cons_of_ne hc.1 hc.2, contentValue?_break hbreak]
  | case4 c t hslash hbreak ih =>
    obtain ⟨hnl, hcr⟩ := not_or.mp hbreak
    by_cases hc : c = quote
    · subst hc
      have hescape : escape? (c :: escapeQuote c false t) = some (codeUnits c.toNat, escapeQuote c false t) := by
        rcases hq with rfl | rfl <;> rfl
      rw [escapeQuote_quote_cons hquote, contentValue?_slash, hescape, ← ih]
      rfl
    · rw [escapeQuote_cons_of_ne hc hslash, contentValue?_char hslash hnl hcr, ih]
  | case5 => rw [escapeQuote, contentValue?]

/-- A printed literal ends with the quote that is printed last. -/
theorem literalTail?_escapeQuote {t : Text} (h : isUnbroken t = true) (rest : Text) :
    literalTail? quote (escapeQuote quote false t ++ quote :: rest) = some (escapeQuote quote false t, rest) := by
  have hquote : quote ≠ '\\' := by rcases hq with rfl | rfl <;> decide
  fun_induction isUnbroken t with
  | case1 c t ih =>
    rw [escapeQuote_slash_cons hquote]
    simp [escapeQuote, literalTail?, ih h]
  | case2 c t hpair ih =>
    obtain ⟨⟨⟨hslash, hnl⟩, hcr⟩, ht⟩ : ((c ≠ '\\' ∧ c ≠ '\n') ∧ c ≠ '\r') ∧ isUnbroken t = true := by simpa using h
    by_cases hc : c = quote
    · subst hc
      rw [escapeQuote_quote_cons hquote]
      simp [literalTail?, ih ht]
    · rw [escapeQuote_cons_of_ne hc hslash]
      simp [literalTail?, hc, hslash, hnl, hcr, ih ht]
  | case3 => simp [escapeQuote, literalTail?, hquote]

/-- A literal that ends with the quote that is printed last has all of its backslashes and line breaks in escapes. -/
theorem isUnbroken_of_literalTail? {t : Text}
    (h : literalTail? quote (escapeQuote quote false t ++ [quote]) = some (escapeQuote quote false t, [])) :
    isUnbroken t = true := by
  have hquote : quote ≠ '\\' := by rcases hq with rfl | rfl <;> decide
  fun_induction isUnbroken t with
  | case1 c t ih =>
    rw [escapeQuote_slash_cons hquote] at h
    exact ih (by simpa [escapeQuote, literalTail?] using h)
  | case2 c t hpair ih =>
    by_cases hc : c = quote
    · subst hc
      rw [escapeQuote_quote_cons hquote] at h
      have ht := ih (by simpa [literalTail?] using h)
      rcases hq with rfl | rfl <;> simpa using ht
    · by_cases hslash : c = '\\'
      · -- a last backslash takes the quote that should end the literal
        subst hslash
        obtain _ | ⟨d, t⟩ := t
        · simp [escapeQuote, literalTail?, beq_false_of_ne hquote.symm] at h
        · exact (hpair d t rfl rfl).elim
      · rw [escapeQuote_cons_of_ne hc hslash] at h
        by_cases hbreak : c = '\n' ∨ c = '\r'
        · rcases hbreak with rfl | rfl <;> simp [literalTail?, hc] at h
        · obtain ⟨hnl, hcr⟩ := not_or.mp hbreak
          have ht := ih (by simpa [literalTail?, hc, hslash, hnl, hcr] using h)
          simpa [hslash, hnl, hcr] using ht
  | case3 => rfl

end

/-- A printed string literal ends with the quote that is printed last, whatever stands behind it, exactly when all
backslashes and line breaks of its content are in escapes, and it has the value of its content. The grammar reads it as
one string exactly when the content is closed, as it is when it has a value. -/
theorem quoteLiteral_value {quote : Char} (hq : quote = '\'' ∨ quote = '"') (content : String) :
    ∃ written, (quoteLiteral quote content).toList = quote :: (written ++ [quote]) ∧
      ((∀ rest, literal? ((quoteLiteral quote content).toList ++ rest) = some (quote, written, rest)) ↔
        isUnbroken content.toList = true) ∧
      contentValue? written = contentValue? content.toList ∧
      ((∀ rest, Lexeme.string ((quoteLiteral quote content).toList ++ rest)
        = some ((quoteLiteral quote content).toList, rest)) ↔ Lexeme.Closed content.toList) ∧
      ((contentValue? content.toList).isSome = true → Lexeme.Closed content.toList) := by
  have hliteral : (quoteLiteral quote content).toList =
      quote :: (escapeQuote quote false content.toList ++ [quote]) := by rw [quoteLiteral, String.toList_ofList]
  have hread (rest : Text) : literal? ((quoteLiteral quote content).toList ++ rest) =
      (literalTail? quote (escapeQuote quote false content.toList ++ quote :: rest)).map (quote, ·) := by
    rw [hliteral, List.cons_append, List.append_assoc, literal?, if_pos hq, List.singleton_append]
  refine ⟨escapeQuote quote false content.toList, hliteral, ⟨fun h => ?_, fun h rest => ?_⟩,
    contentValue?_escapeQuote hq _, string_quoteLiteral_iff hq, closed_of_contentValue?⟩
  · obtain ⟨tail, htail, heq⟩ := Option.map_eq_some_iff.mp ((hread []).symm.trans (h []))
    obtain rfl := (Prod.mk.inj heq).2
    exact isUnbroken_of_literalTail? hq htail
  · rw [hread, literalTail?_escapeQuote hq h]
    rfl

/-- Both quotes stand in the content, one bare and one behind a backslash, and the last backslash is escaped. -/
theorem quoteLiteral_value_mixed :
    isUnbroken "it's \\\"\\x41\\\\".toList = true ∧
      contentValue? "it's \\\"\\x41\\\\".toList = some [0x69, 0x74, 0x27, 0x73, 0x20, 0x22, 0x41, 0x5C] ∧
      (∀ rest, Lexeme.string ("'it\\'s \\\"\\x41\\\\'".toList ++ rest) =
        some ("'it\\'s \\\"\\x41\\\\'".toList, rest)) ∧
      ∃ written, (∀ rest, literal? ("'it\\'s \\\"\\x41\\\\'".toList ++ rest) = some ('\'', written, rest)) ∧
        contentValue? written = some [0x69, 0x74, 0x27, 0x73, 0x20, 0x22, 0x41, 0x5C] := by
  have hcontent : isUnbroken "it's \\\"\\x41\\\\".toList = true := by decide
  have hvalue : contentValue? "it's \\\"\\x41\\\\".toList =
      some [0x69, 0x74, 0x27, 0x73, 0x20, 0x22, 0x41, 0x5C] := by cbv
  have hquote : '\'' = '\'' ∨ '\'' = '"' := .inl rfl
  obtain ⟨written, -, hliteral, hsame, hread, hclosed⟩ := quoteLiteral_value hquote "it's \\\"\\x41\\\\"
  have hprinted : quoteLiteral '\'' "it's \\\"\\x41\\\\" = "'it\\'s \\\"\\x41\\\\'" := by decide
  rw [hprinted] at hliteral hread
  exact ⟨hcontent, hvalue, hread.mpr (hclosed (by rw [hvalue]; rfl)), written, hliteral.mpr hcontent, hsame.trans hvalue⟩

end TestMigration
