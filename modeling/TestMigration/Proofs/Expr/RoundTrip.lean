import TestMigration.Proofs.Expr.Reading

/-!
# Printed expressions read back

`Expr.readable` describes the expressions in question: names, literals, strings and embedded spans under
accesses, calls, operators, arrays and objects, and functions whose body is an expression. The printed text
of such an expression has the tokens `Expr.tokens`, and the grammar gives these tokens one tree: the
expression itself, with the quotes in its strings escaped as they were printed (`printed_reads_back`).
-/

namespace TestMigration

/-! ### The tokens of an expression -/

def bracketIf (wrap : Bool) (ts : List Token) : List Token :=
  if wrap then .leftParen :: (ts ++ [.rightParen]) else ts

@[simp] theorem bracketIf_false (ts : List Token) : bracketIf false ts = ts := rfl

def binaryToken (op : String) : Token := if isWord op then .word op else .operator op

/-- The content of a string as it stands in the printed literal. -/
def printedContent (quote : Char) (content : String) : String :=
  String.ofList (escapeQuote quote false content.toList)

mutual

/-- The tokens of an expression without parentheses around it. -/
def Expr.tokens (quote : Char) : Expr → List Token
  | .source span _ => [.piece span]
  | .ident name => [.word name]
  | .lit token => [.word token]
  | .str content => [.string (printedContent quote content)]
  | .member e name => bracketIf (e.precedence < Precedence.member) (e.tokens quote) ++ [.dot, .word name]
  | .optionalMember e name =>
    bracketIf (e.precedence < Precedence.member) (e.tokens quote) ++ [.optionalDot, .word name]
  | .index e i =>
    bracketIf (e.precedence < Precedence.member) (e.tokens quote)
      ++ .leftBracket :: (i.tokens quote ++ [.rightBracket])
  | .optionalIndex e i =>
    bracketIf (e.precedence < Precedence.member) (e.tokens quote)
      ++ .optionalDot :: .leftBracket :: (i.tokens quote ++ [.rightBracket])
  | .call e args =>
    bracketIf (e.precedence < Precedence.member) (e.tokens quote)
      ++ .leftParen :: (Expr.tokensAll quote args ++ [.rightParen])
  | .unary op e =>
    (if op = "!" then .operator "!" else .word "typeof")
      :: bracketIf (e.precedence < Precedence.unary) (e.tokens quote)
  | .binary l op r =>
    bracketIf (l.precedence < binaryPrecedence op) (l.tokens quote)
      ++ binaryToken op :: bracketIf (r.precedence < binaryPrecedence op + 1) (r.tokens quote)
  | .arrow params body =>
    .leftParen :: (paramsTokens params ++ .rightParen :: .arrow
      :: bracketIf (body.isObject || body.precedence < Precedence.assignment) (body.tokens quote))
  | .array items => .leftBracket :: (Expr.tokensAll quote items ++ [.rightBracket])
  | .object fields => .leftBrace :: (Property.tokensAll quote fields ++ [.rightBrace])
  | .new _ _ | .arrowBlock _ _ => []

def Expr.tokensAll (quote : Char) : List Expr → List Token
  | [] => []
  | [e] => bracketIf (e.precedence < Precedence.assignment) (e.tokens quote)
  | e :: rest =>
    bracketIf (e.precedence < Precedence.assignment) (e.tokens quote) ++ .comma :: Expr.tokensAll quote rest

def Property.tokens (quote : Char) : Property → List Token
  | .mk key value =>
    .word key :: .colon :: bracketIf (value.precedence < Precedence.assignment) (value.tokens quote)

def Property.tokensAll (quote : Char) : List Property → List Token
  | [] => []
  | [p] => p.tokens quote
  | p :: rest => p.tokens quote ++ .comma :: Property.tokensAll quote rest

end

section
variable (level : Span → Nat) (quote : Char)

mutual

/-- The expression is made of what reads back: embedded spans have their declared level, names, literals
and string contents are well formed, and the body of a function begins with a brace only as an object. -/
def Expr.readable : Expr → Bool
  | .source span prec => prec == level span
  | .ident name => isName name
  | .lit token => literalWords.contains token
  | .str content => decide (Lexeme.Closed content.toList)
  | .member e name | .optionalMember e name => e.readable && isWord name
  | .index e i | .optionalIndex e i => e.readable && i.readable
  | .call e args => e.readable && Expr.readableAll args
  | .unary op e => ["!", "typeof "].contains op && e.readable
  | .binary l op r => isLeftBinary op && l.readable && r.readable
  | .arrow params body =>
    isParams params && body.readable && (body.isObject || (body.tokens quote).head? != some .leftBrace)
  | .array items => Expr.readableAll items
  | .object fields => Property.readableAll fields
  | .new _ _ | .arrowBlock _ _ => false

def Expr.readableAll : List Expr → Bool
  | [] => true
  | e :: rest => e.readable && Expr.readableAll rest

def Property.readable : Property → Bool
  | .mk key value => isWord key && value.readable

def Property.readableAll : List Property → Bool
  | [] => true
  | p :: rest => p.readable && Property.readableAll rest

end

end

mutual

/-- The expression with every string content replaced. -/
def Expr.mapStrings (f : String → String) : Expr → Expr
  | .str content => .str (f content)
  | .member e name => .member (e.mapStrings f) name
  | .optionalMember e name => .optionalMember (e.mapStrings f) name
  | .index e i => .index (e.mapStrings f) (i.mapStrings f)
  | .optionalIndex e i => .optionalIndex (e.mapStrings f) (i.mapStrings f)
  | .call e args => .call (e.mapStrings f) (Expr.mapStringsAll f args)
  | .new e args => .new (e.mapStrings f) (Expr.mapStringsAll f args)
  | .unary op e => .unary op (e.mapStrings f)
  | .binary l op r => .binary (l.mapStrings f) op (r.mapStrings f)
  | .arrow params body => .arrow params (body.mapStrings f)
  | .array items => .array (Expr.mapStringsAll f items)
  | .object fields => .object (Property.mapStringsAll f fields)
  | e => e

def Expr.mapStringsAll (f : String → String) : List Expr → List Expr
  | [] => []
  | e :: rest => e.mapStrings f :: Expr.mapStringsAll f rest

def Property.mapStrings (f : String → String) : Property → Property
  | .mk key value => .mk key (value.mapStrings f)

def Property.mapStringsAll (f : String → String) : List Property → List Property
  | [] => []
  | p :: rest => p.mapStrings f :: Property.mapStringsAll f rest

end

/-! ### The grammar gives the tokens their expression -/

section
variable {level : Span → Nat} {quote : Char}

theorem derives_bracketIf {e e' : Expr} {ts : List Token}
    (h : ∀ p ≤ e.precedence, Derives level (.expr p e') ts) {least : Nat} (hleast : least ≤ Precedence.primary) :
    Derives level (.expr least e') (bracketIf (e.precedence < least) ts) := by
  unfold bracketIf
  split
  · exact .group hleast (h 0 (Nat.zero_le _))
  · rename_i hprec
    simp only [decide_eq_true_eq, Nat.not_lt] at hprec
    exact h least hprec

theorem Derives.ne_nil {p : Nat} {e : Expr} {ts : List Token} (h : Derives level (.expr p e) ts) : ts ≠ [] := by
  cases h <;> simp

theorem binary?_binaryToken {op : String} (h : op ∈ binaryOperators) : (binaryToken op).binary? = some op := by
  have hop : binaryOperators.contains op = true := List.contains_iff_mem.mpr h
  unfold binaryToken
  split <;> simp only [Token.binary?, hop, if_true]

mutual

theorem Expr.derives_tokens : ∀ {e : Expr}, e.readable level quote = true → ∀ p ≤ e.precedence,
    Derives level (.expr p (e.mapStrings (printedContent quote))) (e.tokens quote)
  | .source span prec, h, p, hp => by
    obtain rfl : prec = level span := by simpa [Expr.readable] using h
    exact .piece hp
  | .ident name, h, p, hp => by
    simp only [Expr.readable, isName, Bool.and_eq_true, Bool.not_eq_true'] at h
    exact .name hp h.2
  | .lit token, h, p, hp => .literal hp (by simpa [Expr.readable] using h)
  | .str content, _, p, hp => .string hp
  | .member e name, h, p, hp => by
    simp only [Expr.readable, Bool.and_eq_true] at h
    exact .member hp (derives_bracketIf (Expr.derives_tokens h.1) (by decide))
  | .optionalMember e name, h, p, hp => by
    simp only [Expr.readable, Bool.and_eq_true] at h
    exact .optionalMember hp (derives_bracketIf (Expr.derives_tokens h.1) (by decide))
  | .index e i, h, p, hp => by
    simp only [Expr.readable, Bool.and_eq_true] at h
    exact .index hp (derives_bracketIf (Expr.derives_tokens h.1) (by decide))
      (Expr.derives_tokens h.2 0 (Nat.zero_le _))
  | .optionalIndex e i, h, p, hp => by
    simp only [Expr.readable, Bool.and_eq_true] at h
    exact .optionalIndex hp (derives_bracketIf (Expr.derives_tokens h.1) (by decide))
      (Expr.derives_tokens h.2 0 (Nat.zero_le _))
  | .call e args, h, p, hp => by
    simp only [Expr.readable, Bool.and_eq_true] at h
    exact .call hp (derives_bracketIf (Expr.derives_tokens h.1) (by decide)) (Expr.derives_tokensAll h.2)
  | .unary op e, h, p, hp => by
    simp only [Expr.readable, Bool.and_eq_true, List.contains_iff_mem, List.mem_cons, List.not_mem_nil, or_false] at h
    obtain ⟨rfl | rfl, he⟩ := h
    · exact .not hp (derives_bracketIf (Expr.derives_tokens he) (by decide))
    · exact .typeof hp (derives_bracketIf (Expr.derives_tokens he) (by decide))
  | .binary l op r, h, p, hp => by
    simp only [Expr.readable, Bool.and_eq_true] at h
    have hop := mem_binaryOperators_of_isLeftBinary h.1.1
    have hrange := binaryPrecedence_range hop
    exact .binary hp (binary?_binaryToken hop)
      (derives_bracketIf (Expr.derives_tokens h.1.2) (by rw [Precedence.primary]; omega))
      (derives_bracketIf (Expr.derives_tokens h.2) (by rw [Precedence.primary]; omega))
  | .arrow params body, h, p, hp => by
    simp only [Expr.readable, Bool.and_eq_true] at h
    obtain ⟨⟨hparams, hbody⟩, hbrace⟩ := h
    have hderives := Expr.derives_tokens hbody
    unfold Expr.tokens bracketIf
    split
    · exact .arrow hp hparams (by decide) (.group (by decide) (hderives 0 (Nat.zero_le _)))
    · rename_i hwrap
      simp only [Bool.or_eq_true, decide_eq_true_eq, not_or, Nat.not_lt] at hwrap
      have hderives := hderives _ hwrap.2
      obtain ⟨first, ts, hts⟩ := List.exists_cons_of_ne_nil hderives.ne_nil
      have hfirst : first ≠ .leftBrace := by simpa [hwrap.1, hts] using hbrace
      rw [hts] at hderives ⊢
      exact .arrow hp hparams hfirst hderives
  | .array items, h, p, hp => .array hp (Expr.derives_tokensAll h)
  | .object fields, h, p, hp => .object hp (Property.derives_tokensAll h)

theorem Expr.derives_tokensAll : ∀ {es : List Expr}, Expr.readableAll level quote es = true →
    Derives level (.items (Expr.mapStringsAll (printedContent quote) es)) (Expr.tokensAll quote es)
  | [], _ => .noItems
  | [e], h => by
    simp only [Expr.readableAll, Bool.and_true] at h
    exact .lastItem (derives_bracketIf (Expr.derives_tokens h) (by decide))
  | e :: next :: es, h => by
    rw [Expr.readableAll, Bool.and_eq_true] at h
    exact .item (derives_bracketIf (Expr.derives_tokens h.1) (by decide)) (Expr.derives_tokensAll h.2)

theorem Property.derives_tokensAll : ∀ {ps : List Property}, Property.readableAll level quote ps = true →
    Derives level (.fields (Property.mapStringsAll (printedContent quote) ps)) (Property.tokensAll quote ps)
  | [], _ => .noFields
  | [.mk key e], h => by
    simp only [Property.readableAll, Property.readable, Bool.and_eq_true, Bool.and_true] at h
    exact .lastField (derives_bracketIf (Expr.derives_tokens h.2) (by decide))
  | .mk key e :: next :: ps, h => by
    rw [Property.readableAll, Bool.and_eq_true, Property.readable, Bool.and_eq_true] at h
    exact .field (derives_bracketIf (Expr.derives_tokens h.1.2) (by decide)) (Property.derives_tokensAll h.2)

end

end

/-! ### The printed text has the tokens -/

/-- The text is not empty and does not begin with an equals sign, which would go on an operator. -/
def Opens (text : String) : Prop := ∃ c t, text.toList = c :: t ∧ c ≠ '='

theorem Opens.append {a : String} (h : Opens a) (b : String) : Opens (a ++ b) := by
  obtain ⟨c, t, ht, hc⟩ := h
  exact ⟨c, t ++ b.toList, by rw [String.toList_append, ht, List.cons_append], hc⟩

theorem Opens.parenthesizeIf {text : String} (h : Opens text) (wrap : Bool) : Opens (parenthesizeIf wrap text) := by
  unfold TestMigration.parenthesizeIf
  split
  · exact Opens.append (Opens.append ⟨'(', [], rfl, by decide⟩ _) _
  · exact h

theorem opens_of_isWord {w : String} (h : isWord w) : Opens w := by
  obtain ⟨c, t, ht, hmark, -⟩ := exists_head_of_isWord h
  exact ⟨c, t, ht, hmark '=' (by decide) (by decide)⟩

theorem isWord_of_mem_literalWords {w : String} (h : w ∈ literalWords) : isWord w = true := by
  have hall : ∀ w ∈ literalWords, isWord w = true := by decide
  exact hall w h

section
variable {level : Span → Nat} {style : Style} {indent : String}

theorem opens_printAt (hq : style.quote = '\'' ∨ style.quote = '"') :
    ∀ {e : Expr}, e.readable level style.quote = true → ∀ least, Opens (e.printAt style Span.mark indent least)
  | .source span _, _, least => by
    rw [Expr.printAt]
    exact Opens.parenthesizeIf ⟨'#', _, by simp [Span.mark]; rfl, by decide⟩ _
  | .ident name, h, least => by
    rw [Expr.printAt]
    exact Opens.parenthesizeIf (opens_of_isWord (isWord_of_isName h)) _
  | .lit token, h, least => by
    rw [Expr.printAt]
    exact Opens.parenthesizeIf (opens_of_isWord (isWord_of_mem_literalWords (by simpa [Expr.readable] using h))) _
  | .str content, h, least => by
    rw [Expr.printAt]
    refine Opens.parenthesizeIf ⟨style.quote, _, by simp [quoteLiteral]; rfl, ?_⟩ _
    rcases hq with hq | hq <;> rw [hq] <;> decide
  | .member e name, h, least => by
    simp only [Expr.readable, Bool.and_eq_true] at h
    rw [Expr.printAt]
    exact ((opens_printAt hq h.1 _).append _).append _ |>.parenthesizeIf _
  | .optionalMember e name, h, least => by
    simp only [Expr.readable, Bool.and_eq_true] at h
    rw [Expr.printAt]
    exact ((opens_printAt hq h.1 _).append _).append _ |>.parenthesizeIf _
  | .index e i, h, least => by
    simp only [Expr.readable, Bool.and_eq_true] at h
    rw [Expr.printAt]
    exact (((opens_printAt hq h.1 _).append _).append _).append _ |>.parenthesizeIf _
  | .optionalIndex e i, h, least => by
    simp only [Expr.readable, Bool.and_eq_true] at h
    rw [Expr.printAt]
    exact (((opens_printAt hq h.1 _).append _).append _).append _ |>.parenthesizeIf _
  | .call e args, h, least => by
    simp only [Expr.readable, Bool.and_eq_true] at h
    rw [Expr.printAt]
    exact (((opens_printAt hq h.1 _).append _).append _).append _ |>.parenthesizeIf _
  | .unary op e, h, least => by
    simp only [Expr.readable, Bool.and_eq_true, List.contains_iff_mem, List.mem_cons, List.not_mem_nil, or_false] at h
    rw [Expr.printAt]
    obtain ⟨rfl | rfl, he⟩ := h
    · exact Opens.append ⟨'!', [], rfl, by decide⟩ _ |>.parenthesizeIf _
    · exact Opens.append ⟨'t', _, rfl, by decide⟩ _ |>.parenthesizeIf _
  | .binary l op r, h, least => by
    simp only [Expr.readable, Bool.and_eq_true] at h
    rw [Expr.printAt]
    exact ((((opens_printAt hq h.1.2 _).append _).append _).append _).append _ |>.parenthesizeIf _
  | .arrow params body, _, least => by
    rw [Expr.printAt, printParams]
    exact ((Opens.append (Opens.append ⟨'(', [], rfl, by decide⟩ _) _).append _).append _ |>.parenthesizeIf _
  | .array items, _, least => by
    rw [Expr.printAt]
    exact Opens.append (Opens.append ⟨'[', [], rfl, by decide⟩ _) _ |>.parenthesizeIf _
  | .object fields, _, least => by
    rw [Expr.printAt]
    refine Opens.parenthesizeIf ?_ _
    split
    · exact ⟨'\x7b', _, rfl, by decide⟩
    · exact Opens.append (Opens.append ⟨'\x7b', _, rfl, by decide⟩ _) _

end

open Lexeme in
/-- The text has the tokens wherever what stands behind it does not go on a word. -/
def Prints (text : String) (tokens : List Token) : Prop :=
  ∀ rest ts, Stops rest → Scans rest ts → Scans (text.toList ++ rest) (tokens ++ ts)

namespace Prints

open Lexeme

variable {text text' : String} {tokens tokens' : List Token}

theorem word {w : String} (hw : isWord w) : Prints w [.word w] := fun _ _ hstop h => h.word hw hstop

theorem parenthesizeIf (h : Prints text tokens) (wrap : Bool) :
    Prints (parenthesizeIf wrap text) (bracketIf wrap tokens) := by
  intro rest ts hstop hrest
  unfold TestMigration.parenthesizeIf bracketIf
  split
  · have hinner := h (')' :: rest) (.rightParen :: ts) (stops_cons (by decide) (by decide)) hrest.rightParen
    simpa [String.toList_append] using hinner.leftParen
  · exact h rest ts hstop hrest

/-- Two texts with a mark between them that stops a word. -/
theorem before {c : Char} (h : Prints text tokens) (hc : isWordPart c = false) (hne : c ≠ '\\') {rest : Text}
    {ts : List Token} (hrest : Scans (c :: rest) ts) : Scans (text.toList ++ c :: rest) (tokens ++ ts) :=
  h _ _ (stops_cons hc hne) hrest

theorem listCons (h : Prints text tokens) (h' : Prints text' tokens') :
    Prints (text ++ ", " ++ text') (tokens ++ .comma :: tokens') := by
  intro rest ts hstop hrest
  have hinner := h.before (c := ',') (by decide) (by decide) (h' rest ts hstop hrest).blank.comma
  simpa [String.toList_append] using hinner

end Prints

theorem prints_params {params : List String} (h : isParams params) :
    Prints (String.intercalate ", " params) (paramsTokens params) := by
  fun_induction isParams params with
  | case1 => exact fun _ _ _ hrest => hrest
  | case2 param =>
    rw [String.intercalate_singleton]
    unfold paramsTokens paramTokens
    cases hrest : restName? param with
    | none =>
      rw [hrest, Option.getD_none] at h
      exact Prints.word (isWord_of_isName h)
    | some w =>
      rw [hrest, Option.getD_some] at h
      intro rest ts hstop hscan
      have hname := (hscan.word (isWord_of_isName h) hstop).spread
      rw [eq_of_restName? hrest]
      simpa [String.toList_append] using hname
  | case3 param params hne ih =>
    simp only [Bool.and_eq_true] at h
    obtain ⟨next, params, rfl⟩ := List.exists_cons_of_ne_nil hne
    rw [paramsTokens, paramTokens_of_isName h.1, String.intercalate_cons_cons]
    · exact (Prints.word (isWord_of_isName h.1)).listCons (ih h.2)
    · simp

theorem operator_blank {op : String} (h : op ∈ binaryOperators) (hw : isWord op = false) (rest : Text) :
    Lexeme.operator (op.toList ++ ' ' :: rest) = some (op.toList, ' ' :: rest) := by
  simp only [binaryOperators, List.mem_cons, List.not_mem_nil, or_false] at h
  rcases h with rfl | rfl | rfl | rfl | rfl | rfl | rfl | rfl | rfl | rfl | rfl | rfl | rfl | rfl | rfl | rfl | rfl
    | rfl | rfl | rfl | rfl | rfl | rfl
  all_goals first | rfl | exact absurd hw (by decide)

theorem Scans.binary {op : String} (h : op ∈ binaryOperators) {rest : Text} {ts : List Token}
    (hrest : Scans rest ts) : Scans (op.toList ++ ' ' :: rest) (binaryToken op :: ts) := by
  unfold binaryToken
  split
  · rename_i hw
    exact hrest.blank.word hw (Lexeme.stops_cons (by decide) (by decide))
  · rename_i hw
    have hw : isWord op = false := by simpa using hw
    have hmark : ∀ op ∈ binaryOperators, isWord op = false → op.toList ≠ []
        ∧ op.toList.head?.all (fun c => Lexeme.punctuation.contains c
          && !(c == '#' || c == '\'' || c == '"' || c == '\\')) = true
        ∧ Token.ofOperator op.toList = .operator op := by decide
    obtain ⟨hne, hhead, htoken⟩ := hmark op h hw
    have hread := operator_blank h hw rest
    obtain ⟨c, t, ht⟩ := List.exists_cons_of_ne_nil hne
    rw [ht] at hhead hread htoken ⊢
    simp only [List.head?_cons, Option.all_some, Bool.and_eq_true, List.contains_iff_mem, Bool.not_eq_true'] at hhead
    obtain ⟨hpunctuation, hother⟩ := hhead
    rw [← htoken]
    exact Scans.mark hpunctuation hother hread hrest.blank

section
variable {level : Span → Nat} {style : Style} {indent : String}

/-- The body of a function: an object stands in parentheses. -/
theorem prints_body {e : Expr}
    (h : ∀ least, Prints (e.printAt style Span.mark indent least)
      (bracketIf (e.precedence < least) (e.tokens style.quote))) :
    Prints
      (if e.isObject then "(" ++ e.printAt style Span.mark indent 0 ++ ")"
        else e.printAt style Span.mark indent Precedence.assignment)
      (bracketIf (e.isObject || e.precedence < Precedence.assignment) (e.tokens style.quote)) := by
  cases hobject : e.isObject with
  | true => simpa [parenthesizeIf] using (h 0).parenthesizeIf true
  | false => simpa using h Precedence.assignment

mutual

theorem Expr.prints_printAt (hq : style.quote = '\'' ∨ style.quote = '"') :
    ∀ {e : Expr}, e.readable level style.quote = true → ∀ least,
      Prints (e.printAt style Span.mark indent least) (bracketIf (e.precedence < least) (e.tokens style.quote))
  | .source span _, _, least => by
    rw [Expr.printAt]
    exact Prints.parenthesizeIf (fun _ _ _ hrest => hrest.piece span) _
  | .ident name, h, least => by
    rw [Expr.printAt]
    exact (Prints.word (isWord_of_isName h)).parenthesizeIf _
  | .lit token, h, least => by
    rw [Expr.printAt]
    exact (Prints.word (isWord_of_mem_literalWords (by simpa [Expr.readable] using h))).parenthesizeIf _
  | .str content, h, least => by
    rw [Expr.printAt]
    exact Prints.parenthesizeIf (fun _ _ _ hrest => hrest.string hq (by simpa [Expr.readable] using h)) _
  | .member e name, h, least => by
    simp only [Expr.readable, Bool.and_eq_true] at h
    rw [Expr.printAt, Expr.tokens]
    refine Prints.parenthesizeIf (fun rest ts hstop hrest => ?_) _
    have he := Expr.prints_printAt hq h.1 Precedence.member
    have hname := hrest.word h.2 hstop
    obtain ⟨c, t, ht, hmark, -⟩ := exists_head_of_isWord h.2
    rw [ht, List.cons_append] at hname
    have hall := he.before (by decide) (by decide) (hname.dot (hmark '.' (by decide) (by decide)))
    simpa [String.toList_append, ht] using hall
  | .optionalMember e name, h, least => by
    simp only [Expr.readable, Bool.and_eq_true] at h
    rw [Expr.printAt, Expr.tokens]
    refine Prints.parenthesizeIf (fun rest ts hstop hrest => ?_) _
    have he := Expr.prints_printAt hq h.1 Precedence.member
    have hname := hrest.word h.2 hstop
    obtain ⟨c, t, ht, -, -, hdigit⟩ := exists_head_of_isWord h.2
    rw [ht, List.cons_append] at hname
    have hall := he.before (by decide) (by decide) (hname.optionalDot hdigit)
    simpa [String.toList_append, ht] using hall
  | .index e i, h, least => by
    simp only [Expr.readable, Bool.and_eq_true] at h
    rw [Expr.printAt, Expr.tokens]
    refine Prints.parenthesizeIf (fun rest ts hstop hrest => ?_) _
    have hindex := (Expr.prints_printAt hq h.2 0).before (c := ']') (by decide) (by decide) hrest.rightBracket
    have hall := (Expr.prints_printAt hq h.1 Precedence.member).before (c := '[') (by decide) (by decide)
      hindex.leftBracket
    simpa [String.toList_append] using hall
  | .optionalIndex e i, h, least => by
    simp only [Expr.readable, Bool.and_eq_true] at h
    rw [Expr.printAt, Expr.tokens]
    refine Prints.parenthesizeIf (fun rest ts hstop hrest => ?_) _
    have hindex := (Expr.prints_printAt hq h.2 0).before (c := ']') (by decide) (by decide) hrest.rightBracket
    have hall := (Expr.prints_printAt hq h.1 Precedence.member).before (c := '?') (by decide) (by decide)
      (hindex.leftBracket.optionalDot (by decide))
    simpa [String.toList_append] using hall
  | .call e args, h, least => by
    simp only [Expr.readable, Bool.and_eq_true] at h
    rw [Expr.printAt, Expr.tokens]
    refine Prints.parenthesizeIf (fun rest ts hstop hrest => ?_) _
    have hargs := (Expr.prints_printList hq h.2).before (c := ')') (by decide) (by decide) hrest.rightParen
    have hall := (Expr.prints_printAt hq h.1 Precedence.member).before (c := '(') (by decide) (by decide)
      hargs.leftParen
    simpa [String.toList_append] using hall
  | .unary op e, h, least => by
    simp only [Expr.readable, Bool.and_eq_true, List.contains_iff_mem, List.mem_cons, List.not_mem_nil, or_false] at h
    rw [Expr.printAt, Expr.tokens]
    refine Prints.parenthesizeIf (fun rest ts hstop hrest => ?_) _
    have he := Expr.prints_printAt hq h.2 Precedence.unary rest ts hstop hrest
    obtain rfl | rfl := h.1
    · obtain ⟨c, t, ht, hc⟩ := opens_printAt hq h.2 Precedence.unary
      rw [ht, List.cons_append] at he
      simpa [String.toList_append, ht] using he.bang hc
    · have hstop := Lexeme.stops_cons (c := ' ')
        (t := (e.printAt style Span.mark indent Precedence.unary).toList ++ rest) (by decide) (by decide)
      simpa [String.toList_append] using he.blank.word (w := "typeof") (by decide) hstop
  | .binary l op r, h, least => by
    simp only [Expr.readable, Bool.and_eq_true] at h
    rw [Expr.printAt, Expr.tokens]
    refine Prints.parenthesizeIf (fun rest ts hstop hrest => ?_) _
    have hr := Expr.prints_printAt hq h.2 (binaryPrecedence op + 1) rest ts hstop hrest
    have hall := (Expr.prints_printAt hq h.1.2 (binaryPrecedence op)).before (by decide) (by decide)
      (hr.binary (mem_binaryOperators_of_isLeftBinary h.1.1)).blank
    simpa [String.toList_append] using hall
  | .arrow params body, h, least => by
    simp only [Expr.readable, Bool.and_eq_true] at h
    rw [Expr.printAt, Expr.tokens]
    refine Prints.parenthesizeIf (fun rest ts hstop hrest => ?_) _
    have hbody := prints_body (Expr.prints_printAt hq h.1.2) rest ts hstop hrest
    have hall := (prints_params h.1.1).before (by decide) (by decide) hbody.blank.arrow.blank.rightParen
    simpa [printParams, String.toList_append] using hall.leftParen
  | .array items, h, least => by
    rw [Expr.printAt, Expr.tokens]
    refine Prints.parenthesizeIf (fun rest ts hstop hrest => ?_) _
    have hitems := (Expr.prints_printList hq h).before (c := ']') (by decide) (by decide) hrest.rightBracket
    simpa [String.toList_append] using hitems.leftBracket
  | .object fields, h, least => by
    rw [Expr.printAt, Expr.tokens]
    refine Prints.parenthesizeIf (fun rest ts hstop hrest => ?_) _
    obtain _ | ⟨p, ps⟩ := fields
    · simpa [Property.tokensAll] using hrest.rightBrace.leftBrace
    · have hfields := (Property.prints_printList hq h).before (by decide) (by decide) hrest.rightBrace.blank
      simpa [String.toList_append] using hfields.blank.leftBrace

theorem Expr.prints_printList (hq : style.quote = '\'' ∨ style.quote = '"') :
    ∀ {es : List Expr}, Expr.readableAll level style.quote es = true →
      Prints (Expr.printList style Span.mark indent es) (Expr.tokensAll style.quote es)
  | [], _ => fun _ _ _ hrest => hrest
  | [e], h => by
    simp only [Expr.readableAll, Bool.and_true] at h
    exact Expr.prints_printAt hq h _
  | e :: next :: es, h => by
    rw [Expr.readableAll, Bool.and_eq_true] at h
    exact (Expr.prints_printAt hq h.1 _).listCons (Expr.prints_printList hq h.2)

theorem Property.prints_printList (hq : style.quote = '\'' ∨ style.quote = '"') :
    ∀ {ps : List Property}, Property.readableAll level style.quote ps = true →
      Prints (Property.printList style Span.mark indent ps) (Property.tokensAll style.quote ps)
  | [], _ => fun _ _ _ hrest => hrest
  | [p], h => by
    simp only [Property.readableAll, Bool.and_true] at h
    exact Property.prints_print hq h
  | p :: next :: ps, h => by
    rw [Property.readableAll, Bool.and_eq_true] at h
    exact (Property.prints_print hq h.1).listCons (Property.prints_printList hq h.2)

theorem Property.prints_print (hq : style.quote = '\'' ∨ style.quote = '"') :
    ∀ {p : Property}, p.readable level style.quote = true →
      Prints (p.print style Span.mark indent) (p.tokens style.quote)
  | .mk key value, h => by
    simp only [Property.readable, Bool.and_eq_true] at h
    intro rest ts hstop hrest
    have hvalue := Expr.prints_printAt hq h.2 Precedence.assignment rest ts hstop hrest
    have hall := (Prints.word h.1).before (c := ':') (by decide) (by decide) hvalue.blank.colon
    simpa [Property.print, Property.tokens, String.toList_append] using hall

end

end

/-! ### The round trip -/

mutual

theorem Expr.mapStrings_mapStrings (f g : String → String) :
    ∀ e : Expr, (e.mapStrings f).mapStrings g = e.mapStrings (g ∘ f)
  | .source _ _ | .ident _ | .lit _ | .str _ | .arrowBlock _ _ => rfl
  | .member e _ | .optionalMember e _ | .unary _ e | .arrow _ e => by
    simp only [Expr.mapStrings, Expr.mapStrings_mapStrings f g e]
  | .index e i | .optionalIndex e i | .binary e _ i => by
    simp only [Expr.mapStrings, Expr.mapStrings_mapStrings f g e, Expr.mapStrings_mapStrings f g i]
  | .call e args | .new e args => by
    simp only [Expr.mapStrings, Expr.mapStrings_mapStrings f g e, Expr.mapStringsAll_mapStringsAll f g args]
  | .array items => by simp only [Expr.mapStrings, Expr.mapStringsAll_mapStringsAll f g items]
  | .object fields => by simp only [Expr.mapStrings, Property.mapStringsAll_mapStringsAll f g fields]

theorem Expr.mapStringsAll_mapStringsAll (f g : String → String) :
    ∀ es : List Expr, Expr.mapStringsAll g (Expr.mapStringsAll f es) = Expr.mapStringsAll (g ∘ f) es
  | [] => rfl
  | e :: es => by
    simp only [Expr.mapStringsAll, Expr.mapStrings_mapStrings f g e, Expr.mapStringsAll_mapStringsAll f g es]

theorem Property.mapStrings_mapStrings (f g : String → String) :
    ∀ p : Property, (p.mapStrings f).mapStrings g = p.mapStrings (g ∘ f)
  | .mk key value => by simp only [Property.mapStrings, Expr.mapStrings_mapStrings f g value]

theorem Property.mapStringsAll_mapStringsAll (f g : String → String) :
    ∀ ps : List Property, Property.mapStringsAll g (Property.mapStringsAll f ps) = Property.mapStringsAll (g ∘ f) ps
  | [] => rfl
  | p :: ps => by
    simp only [Property.mapStringsAll, Property.mapStrings_mapStrings f g p,
      Property.mapStringsAll_mapStringsAll f g ps]

end

/-- The expression with each string content as it stands in the printed literal. -/
def Expr.asPrinted (quote : Char) (e : Expr) : Expr := e.mapStrings (printedContent quote)

/-- The expression with the backslashes before quotes taken out of its strings, which do not count. -/
def Expr.withBareQuotes (e : Expr) : Expr := e.mapStrings fun content => String.ofList (bareQuotes content.toList)

theorem withBareQuotes_asPrinted {quote : Char} (hq : quote = '\'' ∨ quote = '"') (e : Expr) :
    (e.asPrinted quote).withBareQuotes = e.withBareQuotes := by
  have hsame : (fun content => String.ofList (bareQuotes content.toList)) ∘ printedContent quote
      = fun content => String.ofList (bareQuotes content.toList) := by
    funext content
    simp [printedContent, bareQuotes_escapeQuote hq]
  rw [Expr.withBareQuotes, Expr.asPrinted, Expr.mapStrings_mapStrings, hsame, Expr.withBareQuotes]

/-- A printed expression has one reading, and it is the expression itself: the text splits into tokens, and these
are the tokens of exactly one tree of the grammar, which the reader finds. Strings come back with the
escapes they were printed with. -/
theorem printed_reads_back (level : Span → Nat) (style : Style) (hq : style.quote = '\'' ∨ style.quote = '"')
    (indent : String) (e : Expr) (h : e.readable level style.quote = true) :
    ∃ tokens, tokenize (e.print style Span.mark indent).toList = some tokens
      ∧ readTokens level tokens = some (e.asPrinted style.quote)
      ∧ (∀ e', Derives level (.expr 0 e') tokens ↔ e' = e.asPrinted style.quote)
      ∧ (e.asPrinted style.quote).withBareQuotes = e.withBareQuotes := by
  have hderives : Derives level (.expr 0 (e.asPrinted style.quote)) (e.tokens style.quote) :=
    Expr.derives_tokens h 0 (Nat.zero_le _)
  have hread := readTokens_of_derives hderives
  refine ⟨e.tokens style.quote, ?_, hread, fun e' => ⟨fun h' => ?_, fun h' => h' ▸ hderives⟩,
    withBareQuotes_asPrinted hq e⟩
  · have hprints : Prints (e.print style Span.mark indent) (e.tokens style.quote) := Expr.prints_printAt hq h 0
    have hscan := hprints [] [] Lexeme.stops_nil Scans.nil
    rw [List.append_nil, List.append_nil] at hscan
    exact hscan _ (Nat.le_refl _)
  · exact Option.some.inj ((readTokens_of_derives h').symm.trans hread)

/-- A function with a rest parameter, an embedded span that binds loosely, an object as the body of an
inner function and a quote in a string. -/
theorem printed_function_reads_back :
    ∃ e : Expr, e.print {} Span.mark ""
        = "(a, ...args) => !((#0-3#) || a) && (() => (\x7b k: 'it\\'s' \x7d)).bind(null, #4-9#)[typeof b]"
      ∧ e.readable (fun s => s.start + 3) '\'' = true
      ∧ ∃ tokens, tokenize (e.print {} Span.mark "").toList = some tokens
        ∧ readTokens (fun s => s.start + 3) tokens = some (e.asPrinted '\'')
        ∧ (∀ e', Derives (fun s => s.start + 3) (.expr 0 e') tokens ↔ e' = e.asPrinted '\'')
        ∧ (e.asPrinted '\'').withBareQuotes = e.withBareQuotes := by
  refine ⟨.arrow ["a", "...args"] (.binary (.unary "!" (.binary (.source ⟨0, 3⟩ 3) "||" (.ident "a"))) "&&"
    (.index (.call (.member (.arrow [] (.object [.mk "k" (.str "it's")])) "bind")
      [.lit "null", .source ⟨4, 9⟩ 7]) (.unary "typeof " (.ident "b")))), ?_, ?_, ?_⟩
  · decide +kernel
  · decide +kernel
  · exact printed_reads_back _ {} (.inl rfl) "" _ (by decide +kernel)

end TestMigration
