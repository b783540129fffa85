import Mathlib.Data.List.Forall2
import Mathlib.Data.Option.Basic
import TestMigration.Json.Parser
import TestMigration.Json.Printer

/-!
# Written values are read back

Readers take what stands at the front of a text and return what follows, so each lemma lets any text follow that
cannot go on what was written: for numbers that is `Delimited`, while strings and brackets close themselves. A reader
is given twice as many steps as the text has characters; an entry takes two steps and has a character of its own.

Main statement: `Exact.parse?_print`.
-/

namespace TestMigration.JsonValue

open Layout

/-! ### Gaps -/

theorem skipGap_append {gap : Text} (h : gap.all isGap = true) (t : Text) : skipGap (gap ++ t) = skipGap t :=
  List.dropWhile_append_of_pos (List.all_eq_true.mp h)

theorem skipGap_cons {c : Char} (h : isGap c = false) (t : Text) : skipGap (c :: t) = c :: t :=
  List.dropWhile_cons_of_neg (by simp [h])

theorem all_isGap_newline (l : Layout) (level : Nat) : (l.newline level).all isGap = true := by
  cases l with
  | compact => rfl
  | pretty =>
    have hspaces : (List.replicate (2 * level) ' ').all isGap = true := by
      refine List.all_eq_true.mpr fun c hc => ?_
      rw [List.eq_of_mem_replicate hc]
      rfl
    rw [newline, List.all_cons, hspaces]
    rfl

theorem skipGap_newline {c : Char} (h : isGap c = false) (l : Layout) (level : Nat) (t : Text) :
    skipGap (l.newline level ++ c :: t) = c :: t := by
  rw [skipGap_append (all_isGap_newline l level), skipGap_cons h]

theorem valueAt_append {gap : Text} (h : gap.all isGap = true) (n : Nat) (t : Text) :
    valueAt n (gap ++ t) = valueAt n t := by
  cases n with
  | zero => rfl
  | succ n => rw [valueAt, valueAt, skipGap_append h]

theorem itemsAt_append {gap : Text} (h : gap.all isGap = true) (n : Nat) (t : Text) :
    itemsAt n (gap ++ t) = itemsAt n t := by
  cases n with
  | zero => rfl
  | succ n => rw [itemsAt, itemsAt, valueAt_append h]

theorem fieldsAt_append {gap : Text} (h : gap.all isGap = true) (n : Nat) (t : Text) :
    fieldsAt n (gap ++ t) = fieldsAt n t := by
  cases n with
  | zero => rfl
  | succ n => rw [fieldsAt, fieldsAt, skipGap_append h]

/-! ### Numbers -/

/-- A number in front of the text does not go on into it. -/
def Delimited (rest : Text) : Prop :=
  ∀ c ∈ rest.head?, c.isDigit = false ∧ c ≠ '.' ∧ c ≠ 'e' ∧ c ≠ 'E'

theorem delimited_cons {c : Char} (h : c.isDigit = false ∧ c ≠ '.' ∧ c ≠ 'e' ∧ c ≠ 'E') (rest : Text) :
    Delimited (c :: rest) := by
  intro d hd
  obtain rfl : c = d := by simpa using hd
  exact h

theorem Delimited.of_newline {rest : Text} (h : Delimited rest) (l : Layout) (level : Nat) :
    Delimited (l.newline level ++ rest) := by
  cases l with
  | compact => exact h
  | pretty => exact delimited_cons (by decide) _

theorem Delimited.takeWhile_eq {rest : Text} (h : Delimited rest) : rest.takeWhile Char.isDigit = [] := by
  cases rest with
  | nil => rfl
  | cons c rest => exact List.takeWhile_cons_of_neg (by simp [(h c rfl).1])

theorem Delimited.dropWhile_eq {rest : Text} (h : Delimited rest) : rest.dropWhile Char.isDigit = rest := by
  cases rest with
  | nil => rfl
  | cons c rest => exact List.dropWhile_cons_of_neg (by simp [(h c rfl).1])

theorem Delimited.fractionPart_eq {rest : Text} (h : Delimited rest) : fractionPart rest = some ([], rest) := by
  cases rest with
  | nil => rfl
  | cons c rest =>
    have hc := (h c rfl).2.1
    unfold fractionPart
    split <;> simp_all

theorem Delimited.exponentPart_eq {rest : Text} (h : Delimited rest) : exponentPart rest = some ([], rest) := by
  cases rest with
  | nil => rfl
  | cons c rest =>
    obtain ⟨-, -, he, hE⟩ := h c rfl
    simp [exponentPart, he, hE]

theorem isDigit_of_mem_toDigits {n : Nat} {c : Char} (h : c ∈ Nat.toDigits 10 n) : c.isDigit = true :=
  Nat.isDigit_of_mem_toDigits (by decide) (by decide) h

theorem exists_toDigits_eq (n : Nat) : ∃ d ds, Nat.toDigits 10 n = d :: ds ∧ d.isDigit = true := by
  obtain ⟨d, ds, h⟩ := List.exists_cons_of_ne_nil (Nat.toDigits_ne_nil (n := n) (b := 10))
  exact ⟨d, ds, h, isDigit_of_mem_toDigits (h ▸ List.mem_cons_self)⟩

/-- Only zero is written with a leading zero. -/
theorem eq_zero_of_toDigits {n : Nat} {ds : Text} (h : Nat.toDigits 10 n = '0' :: ds) : n = 0 := by
  induction n using Nat.strongRecOn generalizing ds with
  | ind n ih =>
    by_cases hn : n < 10
    · rw [Nat.toDigits_of_lt_base hn] at h
      have hdigit : ∀ n < 10, n.digitChar = '0' → n = 0 := by decide
      exact hdigit n hn (List.cons.inj h).1
    · -- the front of the number is the number without its last digit
      obtain ⟨d, ds', hfront, -⟩ := exists_toDigits_eq (n / 10)
      rw [Nat.toDigits_of_base_le (by decide) (by omega), hfront, List.cons_append] at h
      obtain ⟨rfl, -⟩ := List.cons.inj h
      have := ih (n / 10) (by omega) hfront
      omega

theorem integerPart_toDigits {rest : Text} (h : Delimited rest) (n : Nat) :
    integerPart (Nat.toDigits 10 n ++ rest) = some (Nat.toDigits 10 n, rest) := by
  have htake : (Nat.toDigits 10 n ++ rest).takeWhile Char.isDigit = Nat.toDigits 10 n := by
    rw [List.takeWhile_append_of_pos fun c => isDigit_of_mem_toDigits, h.takeWhile_eq, List.append_nil]
  have hdrop : (Nat.toDigits 10 n ++ rest).dropWhile Char.isDigit = rest := by
    rw [List.dropWhile_append_of_pos fun c => isDigit_of_mem_toDigits, h.dropWhile_eq]
  rw [integerPart, htake, hdrop]
  split
  · exact absurd ‹_› Nat.toDigits_ne_nil
  · rename_i d ds heq
    obtain rfl := eq_zero_of_toDigits heq
    cases heq
  · rfl

theorem naturalOf_toDigits (n : Nat) : naturalOf (Nat.toDigits 10 n) = n :=
  Nat.ofDigitChars_toDigits (by decide) (by decide)

theorem unsigned_toDigits {n : Nat} (hn : n < naturalLimit) {rest : Text} (h : Delimited rest) :
    unsigned [] (Nat.toDigits 10 n ++ rest) = some (.natural n, rest) := by
  simp [unsigned, integerPart_toDigits h, h.fractionPart_eq, h.exponentPart_eq, naturalOf_toDigits, hn]

/-! ### Strings -/

/-- The piece is read for the character. -/
def Piece.Reads : Piece → Char → Prop
  | .char d, c => d = c
  | .unit n, c => n = c.toNat ∧ n < 0x20

theorem pieces_short {e c : Char} (hu : e ≠ 'u') (hc : shortEscape? e = some c) (t : Text) :
    pieces ('\\' :: e :: t) = (pieces t).map fun (ps, rest) => (.char c :: ps, rest) := by
  rw [pieces.eq_4 _ _ fun _ _ _ _ _ h => absurd h hu, hc]
  cases pieces t <;> rfl

theorem pieces_unit {a b c d : Char} {n : Nat} (hn : unitOf? a b c d = some n) (t : Text) :
    pieces ('\\' :: 'u' :: a :: b :: c :: d :: t) = (pieces t).map fun (ps, rest) => (.unit n :: ps, rest) := by
  rw [pieces, hn]
  cases pieces t <;> rfl

theorem pieces_plain {c : Char} (hquote : c ≠ '"') (hslash : c ≠ '\\') (hlow : 0x20 ≤ c.toNat) (t : Text) :
    pieces (c :: t) = (pieces t).map fun (ps, rest) => (.char c :: ps, rest) := by
  rw [pieces.eq_5 _ _ hquote (fun _ _ _ _ _ h => absurd h hslash) fun _ _ h => absurd h hslash]
  have hguard : (c != '\\' && decide (0x20 ≤ c.toNat)) = true := by simp [hslash, hlow]
  rw [hguard]
  cases pieces t <;> rfl

theorem unitOf?_hexDigit : ∀ n < 0x20, unitOf? '0' '0' (hexDigit (n / 16)) (hexDigit (n % 16)) = some n := by
  decide

theorem pieces_escape (c : Char) :
    ∃ p : Piece, p.Reads c ∧
      ∀ t, pieces (escape c ++ t) = (pieces t).map fun (ps, rest) => (p :: ps, rest) := by
  unfold escape
  split
  case h_8 hquote hslash _ _ _ _ _ =>
    split
    · rename_i hlow
      exact ⟨.unit c.toNat, ⟨rfl, hlow⟩, fun t => pieces_unit (unitOf?_hexDigit _ hlow) t⟩
    · rename_i hlow
      exact ⟨.char c, rfl, fun t => pieces_plain hquote hslash (by omega) t⟩
  all_goals exact ⟨.char _, rfl, fun t => pieces_short (by decide) rfl t⟩

theorem pieces_flatMap_escape (s rest : Text) :
    ∃ ps : List Piece, List.Forall₂ Piece.Reads ps s ∧
      pieces (s.flatMap escape ++ '"' :: rest) = some (ps, rest) := by
  induction s with
  | nil => exact ⟨[], .nil, rfl⟩
  | cons c s ih =>
    obtain ⟨p, hp, hread⟩ := pieces_escape c
    obtain ⟨ps, hps, hreads⟩ := ih
    refine ⟨p :: ps, .cons hp hps, ?_⟩
    rw [List.flatMap_cons, List.append_assoc, hread, hreads]
    rfl

/-- Units below the surrogates are characters on their own, whatever stands behind them. -/
theorem joined_unit {n : Nat} (h : n < 0x20) (ps : List Piece) :
    joined (.unit n :: ps) = (joined ps).map (Char.ofNat n :: ·) := by
  have hhigh : isHalf 0xD800 n = false := by simp [isHalf]; omega
  have hlow : isHalf 0xDC00 n = false := by simp [isHalf]; omega
  rcases ps with _ | ⟨_ | _, ps⟩ <;> simp [joined, hhigh, hlow]

theorem joined_of_reads {ps : List Piece} {s : Text} (h : List.Forall₂ Piece.Reads ps s) :
    joined ps = some s := by
  induction h with
  | nil => rfl
  | @cons p c ps s hp _ ih =>
    cases p with
    | char d =>
      obtain rfl : d = c := hp
      rw [joined, ih]
      rfl
    | unit n =>
      obtain ⟨rfl, hlow⟩ := hp
      rw [joined_unit hlow, ih, Char.ofNat_toNat]
      rfl

theorem stringAt_escaped (s : String) (rest : Text) :
    stringAt (s.toList.flatMap escape ++ '"' :: rest) = some (some s, rest) := by
  obtain ⟨ps, hps, hread⟩ := pieces_flatMap_escape s.toList rest
  simp [stringAt, hread, joined_of_reads hps]

theorem quoted_append (s : String) (rest : Text) :
    quoted s ++ rest = '"' :: (s.toList.flatMap escape ++ '"' :: rest) := by
  simp [quoted]

/-! ### Words -/

theorem wordAt_eq_none (word : String) {c d : Char} {cs : Text} (hword : word.toList = c :: cs) (h : c ≠ d)
    (v : JsonValue) (t : Text) : wordAt word v (d :: t) = none := by
  simp [wordAt, Text.startsWith, hword, h]

/-! ### Values -/

/-- The value is what its text is read as: its numbers are naturals of at most 64 bits, and all of it can be read. -/
inductive Exact : JsonValue → Prop where
  | null : Exact .null
  | bool (b : Bool) : Exact (.bool b)
  | natural {n : Nat} (h : n < naturalLimit) : Exact (.natural n)
  | string (s : String) : Exact (.string s)
  | array {items : List JsonValue} (h : ∀ v ∈ items, Exact v) : Exact (.array items)
  | object {fields : List (String × JsonValue)} (h : ∀ f ∈ fields, Exact f.2) : Exact (.object fields)

/-- The text of the value is read as the value wherever it stands. -/
def ReadBack (l : Layout) (v : JsonValue) : Prop :=
  ∀ {level n : Nat} {rest : Text}, 2 * (v.write l level).length ≤ n → Delimited rest →
    valueAt (n + 1) (v.write l level ++ rest) = some (v, rest)

theorem ne_of_isDigit {d c : Char} (hd : d.isDigit = true) (hc : c.isDigit = false) : d ≠ c := by
  rintro rfl
  rw [hd] at hc
  cases hc

theorem isGap_of_isDigit {d : Char} (hd : d.isDigit = true) : isGap d = false := by
  simp [isGap, ne_of_isDigit hd]

theorem Exact.exists_write_eq {v : JsonValue} (h : v.Exact) (l : Layout) (level : Nat) :
    ∃ c t, v.write l level = c :: t ∧ isGap c = false ∧ c ≠ ']' := by
  cases h with
  | null => exact ⟨_, _, rfl, by decide, by decide⟩
  | bool b => cases b <;> exact ⟨_, _, rfl, by decide, by decide⟩
  | @natural n h =>
    obtain ⟨d, ds, heq, hd⟩ := exists_toDigits_eq n
    exact ⟨d, ds, by rw [write, heq], isGap_of_isDigit hd, ne_of_isDigit hd rfl⟩
  | string s => exact ⟨_, _, rfl, by decide, by decide⟩
  | @array items h => cases items <;> exact ⟨_, _, rfl, by decide, by decide⟩
  | @object fields h => rcases fields with _ | ⟨⟨key, v⟩, rest⟩ <;> exact ⟨_, _, rfl, by decide, by decide⟩

theorem readBack_null (l : Layout) : ReadBack l .null := by
  intro level n rest _ _
  rfl

theorem readBack_bool (l : Layout) (b : Bool) : ReadBack l (.bool b) := by
  intro level n rest _ _
  cases b <;> rfl

theorem readBack_natural (l : Layout) {m : Nat} (hm : m < naturalLimit) : ReadBack l (.natural m) := by
  intro level n rest _ hrest
  obtain ⟨d, ds, heq, hd⟩ := exists_toDigits_eq m
  have hread := unsigned_toDigits hm hrest
  rw [heq, List.cons_append] at hread
  rw [write, heq, List.cons_append, valueAt, skipGap_cons (isGap_of_isDigit hd)]
  have hnull := wordAt_eq_none "null" rfl (ne_of_isDigit hd rfl).symm .null (ds ++ rest)
  have htrue := wordAt_eq_none "true" rfl (ne_of_isDigit hd rfl).symm (.bool true) (ds ++ rest)
  have hfalse := wordAt_eq_none "false" rfl (ne_of_isDigit hd rfl).symm (.bool false) (ds ++ rest)
  simp [ne_of_isDigit hd, hnull, htrue, hfalse, numberAt, hread]

theorem readBack_string (l : Layout) (s : String) : ReadBack l (.string s) := by
  intro level n rest _ _
  rw [write, quoted_append, valueAt, skipGap_cons (by decide)]
  simp [stringAt_escaped]

/-- Items are read one after the other up to the bracket; what stands between them is skipped. -/
theorem itemsAt_write {l : Layout} {item : JsonValue} {items : List JsonValue} (hitem : ReadBack l item)
    (hitems : ∀ v ∈ items, ReadBack l v) (level close : Nat) (rest : Text) {n : Nat}
    (hn : 2 * ((write l level item).length + (writeItems l level items).length) ≤ n) :
    itemsAt (n + 2) (write l level item ++ (writeItems l level items ++ (l.newline close ++ ']' :: rest)))
      = some (item :: items, rest) := by
  induction items generalizing item n with
  | nil =>
    have hrest : Delimited (l.newline close ++ ']' :: rest) := (delimited_cons (by decide) rest).of_newline l close
    rw [writeItems, List.nil_append, itemsAt, hitem (by omega) hrest]
    simp [skipGap_newline (c := ']') rfl]
  | cons next items ih =>
    obtain ⟨hnext, hitems⟩ := List.forall_mem_cons.mp hitems
    simp only [writeItems, List.cons_append, List.append_assoc, List.length_cons, List.length_append] at hn ⊢
    -- the comma of the next item pays for its two steps
    obtain ⟨n, rfl⟩ : ∃ m, n = m + 1 := Nat.exists_eq_add_one.mpr (by omega)
    have hmore := ih hnext hitems (n := n) (by omega)
    rw [itemsAt, hitem (by omega) (delimited_cons (by decide) _)]
    simp [skipGap_cons (c := ',') rfl, itemsAt_append (all_isGap_newline l level), hmore]

theorem readBack_array {l : Layout} {items : List JsonValue} (hexact : ∀ v ∈ items, v.Exact)
    (hread : ∀ v ∈ items, ReadBack l v) : ReadBack l (.array items) := by
  intro level n rest hn _
  cases items with
  | nil => rfl
  | cons item items =>
    obtain ⟨hitem, hitems⟩ := List.forall_mem_cons.mp hread
    obtain ⟨c, t, heq, hgap, hclose⟩ := (hexact item List.mem_cons_self).exists_write_eq l (level + 1)
    simp only [write, List.cons_append, List.append_assoc, List.nil_append, List.length_cons,
      List.length_append] at hn ⊢
    obtain ⟨n, rfl⟩ : ∃ m, n = m + 2 := ⟨n - 2, by omega⟩
    have hread := itemsAt_write hitem hitems (level + 1) level rest (n := n) (by omega)
    rw [valueAt, skipGap_cons (by decide)]
    simp only [heq, List.cons_append] at hread ⊢
    simp [skipGap_newline hgap, hclose, hread]

theorem exists_colon_append (l : Layout) (t : Text) :
    ∃ gap : Text, gap.all isGap = true ∧ l.colon ++ t = ':' :: (gap ++ t) := by
  cases l with
  | compact => exact ⟨[], rfl, rfl⟩
  | pretty => exact ⟨[' '], rfl, rfl⟩

section
variable {key : String} {value : JsonValue} {n : Nat} {t after rest : Text}

theorem fieldsAt_last (hvalue : valueAt n t = some (value, after)) (hafter : skipGap after = '\x7d' :: rest)
    (l : Layout) : fieldsAt (n + 1) (quoted key ++ (l.colon ++ t)) = some ([(some key, value)], rest) := by
  obtain ⟨gap, hgap, heq⟩ := exists_colon_append l t
  rw [quoted_append, heq, fieldsAt, skipGap_cons (by decide)]
  simp [stringAt_escaped, skipGap_cons (c := ':') rfl, valueAt_append hgap, hvalue, hafter]

theorem fieldsAt_next (hvalue : valueAt n t = some (value, after)) (hafter : skipGap after = ',' :: rest)
    {more : List (Option String × JsonValue)} {last : Text} (hmore : fieldsAt n rest = some (more, last))
    (l : Layout) : fieldsAt (n + 1) (quoted key ++ (l.colon ++ t)) = some ((some key, value) :: more, last) := by
  obtain ⟨gap, hgap, heq⟩ := exists_colon_append l t
  rw [quoted_append, heq, fieldsAt, skipGap_cons (by decide)]
  simp [stringAt_escaped, skipGap_cons (c := ':') rfl, valueAt_append hgap, hvalue, hafter, hmore]

end

/-- Fields are read one after the other up to the brace. -/
theorem fieldsAt_write {l : Layout} (key : String) {value : JsonValue} {fields : List (String × JsonValue)}
    (hvalue : ReadBack l value) (hfields : ∀ f ∈ fields, ReadBack l f.2) (level close : Nat) (rest : Text) {n : Nat}
    (hn : 2 * ((write l level value).length + (writeFields l level fields).length) ≤ n) :
    fieldsAt (n + 2) (quoted key ++ (l.colon ++ (write l level value ++ (writeFields l level fields ++
        (l.newline close ++ '\x7d' :: rest)))))
      = some (((key, value) :: fields).map (fun f => (some f.1, f.2)), rest) := by
  induction fields generalizing key value n with
  | nil =>
    have hrest : Delimited (l.newline close ++ '\x7d' :: rest) := (delimited_cons (by decide) rest).of_newline l close
    rw [writeFields, List.nil_append]
    exact fieldsAt_last (hvalue (by omega) hrest) (skipGap_newline rfl l close rest) l
  | cons next fields ih =>
    obtain ⟨nextKey, nextValue⟩ := next
    obtain ⟨hnext, hfields⟩ := List.forall_mem_cons.mp hfields
    simp only [writeFields, List.cons_append, List.append_assoc, List.length_cons, List.length_append] at hn ⊢
    obtain ⟨n, rfl⟩ : ∃ m, n = m + 1 := Nat.exists_eq_add_one.mpr (by omega)
    have hmore := ih nextKey hnext hfields (n := n) (by dsimp only; omega)
    rw [← fieldsAt_append (all_isGap_newline l level)] at hmore
    exact fieldsAt_next (hvalue (by omega) (delimited_cons (by decide) _)) (skipGap_cons rfl _) hmore l

theorem objectOf_readable (fields : List (String × JsonValue)) :
    objectOf (fields.map fun f => (some f.1, f.2)) = .object fields := by
  simp [objectOf, Function.comp_def]

theorem readBack_object {l : Layout} {fields : List (String × JsonValue)} (hread : ∀ f ∈ fields, ReadBack l f.2) :
    ReadBack l (.object fields) := by
  intro level n rest hn _
  rcases fields with _ | ⟨⟨key, value⟩, fields⟩
  · rfl
  · obtain ⟨hvalue, hfields⟩ := List.forall_mem_cons.mp hread
    simp only [write, List.cons_append, List.append_assoc, List.nil_append, List.length_cons,
      List.length_append] at hn ⊢
    obtain ⟨n, rfl⟩ : ∃ m, n = m + 2 := ⟨n - 2, by omega⟩
    have hread := fieldsAt_write key hvalue hfields (level + 1) level rest (n := n) (by dsimp only; omega)
    rw [valueAt, skipGap_cons (by decide)]
    dsimp only at hread
    rw [quoted_append] at hread ⊢
    simp [-List.map_cons, skipGap_newline (c := '"') rfl, hread, objectOf_readable]

theorem Exact.readBack {v : JsonValue} (h : v.Exact) (l : Layout) : ReadBack l v := by
  induction h with
  | null => exact readBack_null l
  | bool b => exact readBack_bool l b
  | natural h => exact readBack_natural l h
  | string s => exact readBack_string l s
  | array h ih => exact readBack_array h ih
  | object h ih => exact readBack_object ih

/-- A value is what its text is read as, also with blanks behind it. -/
theorem Exact.parse?_write {v : JsonValue} (h : v.Exact) (l : Layout) {gap : Text} (hgap : gap.all isGap = true) :
    parse? (v.write l 0 ++ gap) = some v := by
  have hrest : Delimited gap := by
    intro c hc
    have hc := List.all_eq_true.mp hgap c (List.mem_of_mem_head? hc)
    simp only [isGap, Bool.or_eq_true, beq_iff_eq] at hc
    rcases hc with ((rfl | rfl) | rfl) | rfl <;> decide
  have hskip : skipGap gap = [] := by
    rw [← List.append_nil gap, skipGap_append hgap]
    rfl
  rw [parse?, h.readBack l (by simp; omega) hrest]
  simp [hskip]

theorem Exact.parse?_print {v : JsonValue} (h : v.Exact) (l : Layout) : parse? (v.print l).toList = some v := by
  rw [print, String.toList_ofList, ← List.append_nil (v.write l 0)]
  exact h.parse?_write l rfl

end TestMigration.JsonValue
