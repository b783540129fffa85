import TestMigration.Proofs.Expr.Token

/-!
# Reading expressions from tokens

`Derives` is the grammar of expressions by levels: a phrase of level `p` stands wherever at least `p` is
asked for, binary operators associate to the left, an embedded span has the level that is declared for
it, and parentheses leave no trace in the tree.

`readTokens` reads such a phrase in one pass: an operand first, then what may go on it, as long as it
binds tightly enough. `readTokens_of_derives`: the reader finds every tree that the grammar gives to a list of tokens,
so the grammar gives it at most one.
-/

namespace TestMigration

def literalWords : List String := ["true", "false", "null", "undefined"]

/-- Words that cannot be names here: literals and the operators that are written as words. -/
def isReserved (w : String) : Bool := literalWords.contains w || ["typeof", "instanceof", "in"].contains w

def isName (w : String) : Bool := isWord w && !isReserved w

/-- The binary operators that associate to the left and mix with all others. -/
def binaryOperators : List String :=
  ["||", "&&", "|", "^", "&", "==", "!=", "===", "!==", "<", ">", "<=", ">=", "instanceof", "in", "<<", ">>",
    ">>>", "+", "-", "*", "/", "%"]

/-- The operator has a level of its own and is neither the one that associates to the right nor the one that does
not mix with `||` and `&&`. -/
def isLeftBinary (op : String) : Bool := binaryPrecedence op != 3 && !(["**", "??"].contains op)

theorem mem_binaryOperators_of_isLeftBinary {op : String} (h : isLeftBinary op) : op ∈ binaryOperators := by
  refine Decidable.byContradiction fun hmem => ?_
  simp only [isLeftBinary, Bool.and_eq_true, Bool.not_eq_true', List.contains_eq_mem, decide_eq_false_iff_not] at h
  simp only [binaryOperators, List.mem_cons, List.not_mem_nil, or_false, not_or] at hmem h
  have hlevel : binaryPrecedence op = 3 := by simp [binaryPrecedence, hmem, h]
  simp [hlevel] at h

/-- The binary operator that a token is. -/
def Token.binary? : Token → Option String
  | .operator op | .word op => if binaryOperators.contains op then some op else none
  | _ => none

/-! ### Parameters -/

/-- The name in a parameter that takes all further arguments. -/
def restName? (param : String) : Option String :=
  match param.toList with
  | '.' :: '.' :: '.' :: name => some (String.ofList name)
  | _ => none

def paramTokens (param : String) : List Token :=
  match restName? param with
  | some name => [.spread, .word name]
  | none => [.word param]

def paramsTokens : List String → List Token
  | [] => []
  | [param] => paramTokens param
  | param :: params => paramTokens param ++ .comma :: paramsTokens params

/-- The texts are names; the last one may take all further arguments. -/
def isParams : List String → Bool
  | [] => true
  | [param] => isName ((restName? param).getD param)
  | param :: params => isName param && isParams params

/-- Parameters up to the arrow behind them; the opening parenthesis is taken already. -/
def readParams : List Token → Option (List String × List Token)
  | .rightParen :: .arrow :: rest => some ([], rest)
  | .spread :: .word w :: .rightParen :: .arrow :: rest => some (["..." ++ w], rest)
  | .word w :: .rightParen :: .arrow :: rest => some ([w], rest)
  | .word w :: .comma :: rest => (readParams rest).map fun (params, rest) => (w :: params, rest)
  | _ => none

theorem isWord_of_isName {w : String} (h : isName w) : isWord w = true := by
  simp only [isName, Bool.and_eq_true] at h
  exact h.1

theorem restName?_of_isWord {w : String} (h : isWord w) : restName? w = none := by
  obtain ⟨c, t, ht, hmark, -⟩ := exists_head_of_isWord h
  unfold restName?
  split
  · rename_i name hname
    rw [ht] at hname
    exact absurd (List.cons.inj hname).1 (hmark '.' (by decide) (by decide))
  · rfl

theorem paramTokens_of_isName {w : String} (h : isName w) : paramTokens w = [.word w] := by
  rw [paramTokens, restName?_of_isWord (isWord_of_isName h)]

theorem eq_of_restName? {param w : String} (h : restName? param = some w) : param = "..." ++ w := by
  unfold restName? at h
  split at h
  · rename_i name hname
    obtain rfl := by simpa using h
    apply String.ext
    simp [hname]
  · cases h

theorem readParams_paramsTokens {params : List String} (h : isParams params) (rest : List Token) :
    readParams (paramsTokens params ++ .rightParen :: .arrow :: rest) = some (params, rest) := by
  fun_induction isParams params with
  | case1 => rfl
  | case2 param =>
    unfold paramsTokens paramTokens
    cases hrest : restName? param with
    | none => rfl
    | some w => rw [eq_of_restName? hrest]; rfl
  | case3 param params hne ih =>
    simp only [Bool.and_eq_true] at h
    obtain ⟨next, params, rfl⟩ := List.exists_cons_of_ne_nil hne
    rw [paramsTokens, paramTokens_of_isName h.1]
    · simp [readParams, ih h.2]
    · simp

/-! ### The grammar -/

/-- What a list of tokens can be read as: an expression where at least the level `least` is needed, the
items of a list, or the fields of an object. -/
inductive Phrase where
  | expr (least : Nat) (e : Expr)
  | items (es : List Expr)
  | fields (ps : List Property)

section
variable (level : Span → Nat)

/-- The tokens are written as the phrase; `level` says how tightly each embedded span binds. -/
inductive Derives : Phrase → List Token → Prop where
  | piece {p : Nat} {s : Span} (hp : p ≤ level s) : Derives (.expr p (.source s (level s))) [.piece s]
  | name {p : Nat} {w : String} (hp : p ≤ Precedence.primary) (hw : isReserved w = false) :
      Derives (.expr p (.ident w)) [.word w]
  | literal {p : Nat} {w : String} (hp : p ≤ Precedence.primary) (hw : w ∈ literalWords) :
      Derives (.expr p (.lit w)) [.word w]
  | string {p : Nat} {content : String} (hp : p ≤ Precedence.primary) :
      Derives (.expr p (.str content)) [.string content]
  | group {p : Nat} {e : Expr} {ts : List Token} (hp : p ≤ Precedence.primary) (h : Derives (.expr 0 e) ts) :
      Derives (.expr p e) (.leftParen :: (ts ++ [.rightParen]))
  | array {p : Nat} {es : List Expr} {ts : List Token} (hp : p ≤ Precedence.primary) (h : Derives (.items es) ts) :
      Derives (.expr p (.array es)) (.leftBracket :: (ts ++ [.rightBracket]))
  | object {p : Nat} {ps : List Property} {ts : List Token} (hp : p ≤ Precedence.primary)
      (h : Derives (.fields ps) ts) : Derives (.expr p (.object ps)) (.leftBrace :: (ts ++ [.rightBrace]))
  | member {p : Nat} {e : Expr} {w : String} {ts : List Token} (hp : p ≤ Precedence.member)
      (h : Derives (.expr Precedence.member e) ts) : Derives (.expr p (.member e w)) (ts ++ [.dot, .word w])
  | optionalMember {p : Nat} {e : Expr} {w : String} {ts : List Token} (hp : p ≤ Precedence.member)
      (h : Derives (.expr Precedence.member e) ts) :
      Derives (.expr p (.optionalMember e w)) (ts ++ [.optionalDot, .word w])
  | index {p : Nat} {e i : Expr} {ts us : List Token} (hp : p ≤ Precedence.member)
      (h : Derives (.expr Precedence.member e) ts) (hi : Derives (.expr 0 i) us) :
      Derives (.expr p (.index e i)) (ts ++ .leftBracket :: (us ++ [.rightBracket]))
  | optionalIndex {p : Nat} {e i : Expr} {ts us : List Token} (hp : p ≤ Precedence.member)
      (h : Derives (.expr Precedence.member e) ts) (hi : Derives (.expr 0 i) us) :
      Derives (.expr p (.optionalIndex e i)) (ts ++ .optionalDot :: .leftBracket :: (us ++ [.rightBracket]))
  | call {p : Nat} {e : Expr} {es : List Expr} {ts us : List Token} (hp : p ≤ Precedence.member)
      (h : Derives (.expr Precedence.member e) ts) (hes : Derives (.items es) us) :
      Derives (.expr p (.call e es)) (ts ++ .leftParen :: (us ++ [.rightParen]))
  | not {p : Nat} {e : Expr} {ts : List Token} (hp : p ≤ Precedence.unary)
      (h : Derives (.expr Precedence.unary e) ts) : Derives (.expr p (.unary "!" e)) (.operator "!" :: ts)
  | typeof {p : Nat} {e : Expr} {ts : List Token} (hp : p ≤ Precedence.unary)
      (h : Derives (.expr Precedence.unary e) ts) : Derives (.expr p (.unary "typeof " e)) (.word "typeof" :: ts)
  | binary {p : Nat} {l r : Expr} {op : String} {token : Token} {ts us : List Token}
      (hp : p ≤ binaryPrecedence op) (hop : token.binary? = some op) (hl : Derives (.expr (binaryPrecedence op) l) ts)
      (hr : Derives (.expr (binaryPrecedence op + 1) r) us) :
      Derives (.expr p (.binary l op r)) (ts ++ token :: us)
  /-- The body of a function does not begin with a brace, which would open a block. -/
  | arrow {p : Nat} {params : List String} {e : Expr} {first : Token} {ts : List Token}
      (hp : p ≤ Precedence.assignment) (hparams : isParams params) (hfirst : first ≠ .leftBrace)
      (h : Derives (.expr Precedence.assignment e) (first :: ts)) :
      Derives (.expr p (.arrow params e))
        (.leftParen :: (paramsTokens params ++ .rightParen :: .arrow :: first :: ts))
  | noItems : Derives (.items []) []
  | lastItem {e : Expr} {ts : List Token} (h : Derives (.expr Precedence.assignment e) ts) : Derives (.items [e]) ts
  | item {e next : Expr} {es : List Expr} {ts us : List Token} (h : Derives (.expr Precedence.assignment e) ts)
      (hes : Derives (.items (next :: es)) us) : Derives (.items (e :: next :: es)) (ts ++ .comma :: us)
  | noFields : Derives (.fields []) []
  | lastField {key : String} {e : Expr} {ts : List Token} (h : Derives (.expr Precedence.assignment e) ts) :
      Derives (.fields [.mk key e]) (.word key :: .colon :: ts)
  | field {key : String} {e : Expr} {next : Property} {ps : List Property} {ts us : List Token}
      (h : Derives (.expr Precedence.assignment e) ts) (hps : Derives (.fields (next :: ps)) us) :
      Derives (.fields (.mk key e :: next :: ps)) (.word key :: .colon :: (ts ++ .comma :: us))

/-! ### The reader -/

/-- What was read between parentheses, unless an arrow behind them says that it was parameters. -/
def grouped? : Option (Expr × List Token) → Option (Expr × List Token)
  | some (_, .rightParen :: .arrow :: _) => none
  | some (e, .rightParen :: rest) => some (e, rest)
  | _ => none

mutual

/-- An expression where at least the level `least` is needed, with the tokens behind it. The number bounds
the steps. -/
def read : Nat → Nat → List Token → Option (Expr × List Token)
  | 0, _, _ => none
  | n + 1, least, ts =>
    match ts with
    | .piece s :: rest => climb n least (.source s (level s)) rest
    | .string content :: rest => climb n least (.str content) rest
    | .word w :: rest =>
      if w = "typeof" then
        (read n Precedence.unary rest).bind fun (e, rest) => climb n least (.unary "typeof " e) rest
      else if literalWords.contains w then climb n least (.lit w) rest
      else if isReserved w then none
      else climb n least (.ident w) rest
    | .operator op :: rest =>
      if op = "!" then (read n Precedence.unary rest).bind fun (e, rest) => climb n least (.unary "!" e) rest
      else none
    | .leftBracket :: rest =>
      (readItems n .rightBracket rest).bind fun (es, rest) => climb n least (.array es) rest
    | .leftBrace :: rest => (readFields n rest).bind fun (ps, rest) => climb n least (.object ps) rest
    | .leftParen :: rest =>
      match grouped? (read n 0 rest) with
      | some (e, rest) => climb n least e rest
      | none =>
        (readParams rest).bind fun (params, body) =>
          if body.head? = some .leftBrace then none
          else (read n Precedence.assignment body).bind fun (e, rest) => climb n least (.arrow params e) rest
    | _ => none

/-- What goes on an expression where at least the level `least` is needed. -/
def climb : Nat → Nat → Expr → List Token → Option (Expr × List Token)
  | 0, _, _, _ => none
  | n + 1, least, e, ts =>
    match ts with
    | .dot :: .word w :: rest => climb n least (.member e w) rest
    | .optionalDot :: .word w :: rest => climb n least (.optionalMember e w) rest
    | .optionalDot :: .leftBracket :: rest =>
      (read n 0 rest).bind fun
        | (i, .rightBracket :: rest) => climb n least (.optionalIndex e i) rest
        | _ => none
    | .leftBracket :: rest =>
      (read n 0 rest).bind fun
        | (i, .rightBracket :: rest) => climb n least (.index e i) rest
        | _ => none
    | .leftParen :: rest => (readItems n .rightParen rest).bind fun (es, rest) => climb n least (.call e es) rest
    | token :: rest =>
      match token.binary? with
      | some op =>
        if least ≤ binaryPrecedence op then
          (read n (binaryPrecedence op + 1) rest).bind fun (r, rest) => climb n least (.binary e op r) rest
        else some (e, token :: rest)
      | none => some (e, token :: rest)
    | [] => some (e, [])

def readItems : Nat → Token → List Token → Option (List Expr × List Token)
  | 0, _, _ => none
  | n + 1, close, ts =>
    match read n Precedence.assignment ts with
    | some (e, .comma :: rest) => (readItems n close rest).map fun (es, rest) => (e :: es, rest)
    | some (e, token :: rest) => if token = close then some ([e], rest) else none
    | some (_, []) => none
    | none => if ts.head? = some close then some ([], ts.tail) else none

def readFields : Nat → List Token → Option (List Property × List Token)
  | 0, _ => none
  | n + 1, ts =>
    match ts with
    | .rightBrace :: rest => some ([], rest)
    | .word key :: .colon :: rest =>
      (read n Precedence.assignment rest).bind fun
        | (e, .comma :: rest) => (readFields n rest).map fun (ps, rest) => (.mk key e :: ps, rest)
        | (e, .rightBrace :: rest) => some ([.mk key e], rest)
        | _ => none
    | _ => none

end

/-- The expression that the tokens are. -/
def readTokens (ts : List Token) : Option Expr :=
  match read level (3 * ts.length + 1) 0 ts with
  | some (e, []) => some e
  | _ => none

end

/-! ### The reader finds what the grammar gives -/

/-- How tightly a token binds what stands before it, if it goes on an expression at all. An arrow goes on
parentheses, whatever is in them. -/
def Token.binding : Token → Nat
  | .arrow => Precedence.primary + 1
  | .dot | .optionalDot | .leftBracket | .leftParen => Precedence.member
  | token => token.binary?.elim 0 binaryPrecedence

/-- What stands behind an expression of level `lv` goes on all of it and not on its last part. -/
def Follows (lv : Nat) (rest : List Token) : Prop := ∀ token ∈ rest.head?, token.binding ≤ lv

theorem Follows.mono {lv lv' : Nat} {rest : List Token} (h : Follows lv rest) (hle : lv ≤ lv') : Follows lv' rest :=
  fun token htoken => Nat.le_trans (h token htoken) hle

theorem follows_cons {lv : Nat} {token : Token} {rest : List Token} (h : token.binding ≤ lv) :
    Follows lv (token :: rest) := by
  simpa [Follows] using h

theorem mem_binaryOperators {token : Token} {op : String} (h : token.binary? = some op) : op ∈ binaryOperators := by
  unfold Token.binary? at h
  split at h
  · split at h <;> simp_all
  · split at h <;> simp_all
  · cases h

theorem binaryPrecedence_range {op : String} (h : op ∈ binaryOperators) :
    4 ≤ binaryPrecedence op ∧ binaryPrecedence op ≤ 13 := by
  have hall : ∀ op ∈ binaryOperators, 4 ≤ binaryPrecedence op ∧ binaryPrecedence op ≤ 13 := by decide
  exact hall op h

theorem binding_of_binary? {token : Token} {op : String} (h : token.binary? = some op) :
    token.binding = binaryPrecedence op := by
  cases token <;> first | cases h | simp only [Token.binding, h, Option.elim_some]

theorem binding_cases (token : Token) :
    token.binding = 0 ∨ (4 ≤ token.binding ∧ token.binding ≤ 13) ∨ Precedence.member ≤ token.binding := by
  cases hop : token.binary? with
  | some op =>
    rw [binding_of_binary? hop]
    exact .inr (.inl (binaryPrecedence_range (mem_binaryOperators hop)))
  | none =>
    cases token <;> first
      | exact .inr (.inr (by decide))
      | exact .inl (by simp only [Token.binding, hop, Option.elim_none])

/-- What stands behind an expression does not go on it where at least the level `least` is needed. -/
def Ends (least : Nat) (rest : List Token) : Prop :=
  ∀ token ∈ rest.head?, token.binding = 0 ∨ (token.binding < least ∧ token.binding < Precedence.member)

theorem ends_cons {least : Nat} {token : Token} {rest : List Token} (h : token.binding = 0) :
    Ends least (token :: rest) := by
  simp [Ends, h]

theorem Ends.follows {least : Nat} {rest : List Token} (h : Ends least rest) : Follows least rest := by
  intro token htoken
  rcases h token htoken with hzero | hless <;> omega

theorem Follows.ends {lv least : Nat} {rest : List Token} (h : Follows lv rest) (hlv : lv < Precedence.member)
    (hleast : lv < least ∨ 13 < least ∨ lv < 4) : Ends least rest := by
  intro token htoken
  have hle := h token htoken
  rcases binding_cases token with hzero | hop | hmember <;> omega

section
variable {level : Span → Nat} {n least : Nat} {e : Expr} {rest : List Token}

theorem climb_token {token : Token} (h : token.binding < Precedence.member) :
    climb level (n + 1) least e (token :: rest)
      = match token.binary? with
        | some op =>
          if least ≤ binaryPrecedence op then
            (read level n (binaryPrecedence op + 1) rest).bind fun (r, rest) =>
              climb level n least (.binary e op r) rest
          else some (e, token :: rest)
        | none => some (e, token :: rest) := by
  rw [climb]
  all_goals
    intros
    subst_vars
    exact absurd h (by decide)

theorem climb_ends (h : Ends least rest) : climb level (n + 1) least e rest = some (e, rest) := by
  obtain _ | ⟨token, rest⟩ := rest
  · rfl
  have hend := h token rfl
  rw [climb_token (by unfold Precedence.member at *; omega)]
  cases hop : token.binary? with
  | none => rfl
  | some op =>
    have hbinding := binding_of_binary? hop
    have hrange := binaryPrecedence_range (mem_binaryOperators hop)
    have hless : ¬ least ≤ binaryPrecedence op := by omega
    simp [hless]

theorem climb_binary {token : Token} {op : String} (hop : token.binary? = some op)
    (hleast : least ≤ binaryPrecedence op) {r : Expr} {ts : List Token}
    (hr : read level n (binaryPrecedence op + 1) ts = some (r, rest)) :
    climb level (n + 1) least e (token :: ts) = climb level n least (.binary e op r) rest := by
  have hrange := binaryPrecedence_range (mem_binaryOperators hop)
  have hmember : token.binding < Precedence.member := by
    rw [binding_of_binary? hop, Precedence.member]
    omega
  rw [climb_token hmember]
  simp [hop, hleast, hr]

variable (level) in
/-- What the reader makes of the tokens of a phrase. Each token takes at most three steps. -/
def Reads : Phrase → List Token → Prop
  | .expr p e, ts =>
    ∃ lv, p ≤ lv ∧ ∀ n least rest, least ≤ p → Follows lv rest →
      ∃ m, n ≤ m ∧ read level (n + 3 * ts.length) least (ts ++ rest) = climb level m least e rest
  | .items es, ts =>
    ∀ n close rest, (close = .rightParen ∨ close = .rightBracket) → 3 * ts.length + 2 ≤ n →
      readItems level n close (ts ++ close :: rest) = some (es, rest)
  | .fields ps, ts =>
    ∀ n rest, 3 * ts.length + 2 ≤ n → readFields level n (ts ++ .rightBrace :: rest) = some (ps, rest)

/-- A complete expression is read up to what does not go on it. -/
theorem Reads.complete {p : Nat} {ts : List Token} (h : Reads level (.expr p e) ts) (hend : Ends p rest)
    (hn : 3 * ts.length + 1 ≤ n) : read level n p (ts ++ rest) = some (e, rest) := by
  obtain ⟨lv, hlv, hread⟩ := h
  obtain ⟨m, hm, heq⟩ := hread (n - 3 * ts.length) p rest (Nat.le_refl p) (hend.follows.mono hlv)
  rw [Nat.sub_add_cancel (by omega)] at heq
  obtain ⟨m, rfl⟩ : ∃ k, m = k + 1 := ⟨m - 1, by omega⟩
  rw [heq, climb_ends hend]

theorem Reads.closed {p : Nat} {ts : List Token} (h : Reads level (.expr p e) ts) {close : Token}
    (hclose : close.binding = 0) (hn : 3 * (ts ++ [close]).length ≤ n) :
    read level n p (ts ++ [close] ++ rest) = some (e, close :: rest) := by
  rw [List.length_append, List.length_singleton] at hn
  rw [List.append_assoc, List.singleton_append]
  exact h.complete (ends_cons hclose) (by omega)

/-- A phrase that its first token gives away. -/
theorem reads_first {p lv : Nat} {token : Token} {ts : List Token} (hp : p ≤ lv)
    (hstep : ∀ m least rest, Follows lv rest → 3 * ts.length + 2 ≤ m →
      read level (m + 1) least (token :: (ts ++ rest)) = climb level m least e rest) :
    Reads level (.expr p e) (token :: ts) := by
  refine ⟨lv, hp, fun n least rest _ hrest => ⟨n + 3 * ts.length + 2, by omega, ?_⟩⟩
  have hfuel : n + 3 * (token :: ts).length = n + 3 * ts.length + 2 + 1 := by
    rw [List.length_cons]
    omega
  rw [hfuel]
  exact hstep _ least rest hrest (by omega)

theorem Reads.goesOn {p q lv : Nat} {token : Token} {e' : Expr} {ts us : List Token} (h : Reads level (.expr q e) ts)
    (hp : p ≤ lv) (hq : lv ≤ q) (htoken : token.binding ≤ q)
    (hstep : ∀ m least rest, least ≤ lv → Follows lv rest → 3 * us.length + 2 ≤ m →
      climb level (m + 1) least e (token :: (us ++ rest)) = climb level m least e' rest) :
    Reads level (.expr p e') (ts ++ token :: us) := by
  obtain ⟨lv', hlv', hread⟩ := h
  refine ⟨lv, hp, fun n least rest hleast hrest => ?_⟩
  obtain ⟨m, hm, heq⟩ := hread (n + 3 * us.length + 3) least (token :: (us ++ rest)) (by omega)
    (follows_cons (Nat.le_trans htoken hlv'))
  obtain ⟨m, rfl⟩ : ∃ k, m = k + 1 := ⟨m - 1, by omega⟩
  refine ⟨m, by omega, ?_⟩
  have hfuel : n + 3 * (ts ++ token :: us).length = n + 3 * us.length + 3 + 3 * ts.length := by
    rw [List.length_append, List.length_cons]
    omega
  rw [hfuel, List.append_assoc, List.cons_append, heq]
  exact hstep m least rest (by omega) hrest (by omega)

theorem read_name {w : String} (hw : isReserved w = false) :
    read level (n + 1) least (.word w :: rest) = climb level n least (.ident w) rest := by
  have hliteral : literalWords.contains w = false := by
    simp only [isReserved, Bool.or_eq_false_iff] at hw
    exact hw.1
  have htypeof : w ≠ "typeof" := by
    rintro rfl
    exact absurd hw (by decide)
  rw [read, if_neg htypeof, hliteral, if_neg Bool.false_ne_true, hw, if_neg Bool.false_ne_true]

theorem read_literal {w : String} (hw : w ∈ literalWords) :
    read level (n + 1) least (.word w :: rest) = climb level n least (.lit w) rest := by
  have htypeof : w ≠ "typeof" := by
    rintro rfl
    exact absurd hw (by decide)
  rw [read, if_neg htypeof, if_pos (List.contains_iff_mem.mpr hw)]

/-- What is read as a group is one unless an arrow follows. -/
theorem grouped?_rightParen (h : Follows Precedence.primary rest) :
    grouped? (some (e, .rightParen :: rest)) = some (e, rest) := by
  rw [grouped?]
  intros
  subst_vars
  exact absurd (h .arrow rfl) (by decide)

theorem grouped?_read_params {params : List String} (h : isParams params) (n : Nat) (ts : List Token) :
    grouped? (read level n 0 (paramsTokens params ++ .rightParen :: .arrow :: ts)) = none := by
  have hname {w : String} (hw : isName w) (n : Nat) (token : Token) (rest : List Token) (hend : token.binding = 0) :
      read level (n + 1) 0 (.word w :: token :: rest) = none
        ∨ read level (n + 1) 0 (.word w :: token :: rest) = some (.ident w, token :: rest) := by
    simp only [isName, Bool.and_eq_true, Bool.not_eq_true'] at hw
    rw [read_name hw.2]
    obtain _ | n := n
    · exact .inl rfl
    · exact .inr (climb_ends (ends_cons hend))
  obtain _ | n := n
  · rfl
  fun_cases isParams params with
  | case1 => rfl
  | case2 param =>
    simp only [isParams] at h
    unfold paramsTokens paramTokens
    cases hrest : restName? param with
    | some w => rfl
    | none =>
      rw [hrest, Option.getD_none] at h
      rcases hname h n .rightParen (.arrow :: ts) rfl with heq | heq <;> simp [heq, grouped?]
  | case3 param params hne =>
    rw [isParams, Bool.and_eq_true] at h
    · rw [paramsTokens, paramTokens_of_isName h.1]
      · rcases hname h.1 n .comma (paramsTokens params ++ .rightParen :: .arrow :: ts) rfl with heq | heq <;>
          simp [heq, grouped?]
      · exact hne
    · exact hne

theorem read_close {close : Token} (hclose : close = .rightParen ∨ close = .rightBracket) :
    read level n least (close :: rest) = none := by
  obtain _ | n := n
  · rfl
  · rcases hclose with rfl | rfl <;> rfl

theorem Derives.reads {phrase : Phrase} {ts : List Token} (h : Derives level phrase ts) : Reads level phrase ts := by
  induction h with
  | piece hp => exact reads_first hp fun m least rest _ _ => rfl
  | name hp hw => exact reads_first hp fun m least rest _ _ => read_name hw
  | literal hp hw => exact reads_first hp fun m least rest _ _ => read_literal hw
  | string hp => exact reads_first hp fun m least rest _ _ => rfl
  | group hp _ ih =>
    refine reads_first hp fun m least rest hrest hm => ?_
    rw [read, ih.closed rfl (by omega), grouped?_rightParen hrest]
  | array hp _ ih =>
    refine reads_first hp fun m least rest _ hm => ?_
    rw [List.length_append] at hm
    rw [List.append_assoc, List.singleton_append, read, ih m .rightBracket rest (.inr rfl) (by omega)]
    rfl
  | object hp _ ih =>
    refine reads_first hp fun m least rest _ hm => ?_
    rw [List.length_append] at hm
    rw [List.append_assoc, List.singleton_append, read, ih m rest (by omega)]
    rfl
  | member hp _ ih => exact ih.goesOn hp (Nat.le_refl _) (by decide) fun m least rest _ _ _ => rfl
  | optionalMember hp _ ih => exact ih.goesOn hp (Nat.le_refl _) (by decide) fun m least rest _ _ _ => rfl
  | index hp _ _ ih ihi =>
    refine ih.goesOn hp (Nat.le_refl _) (by decide) fun m least rest _ _ hm => ?_
    rw [climb, ihi.closed rfl (by omega)]
    rfl
  | optionalIndex hp _ _ ih ihi =>
    refine ih.goesOn hp (Nat.le_refl _) (by decide) fun m least rest _ _ hm => ?_
    rw [List.length_cons] at hm
    rw [List.cons_append, climb, ihi.closed rfl (by omega)]
    rfl
  | call hp _ _ ih ihes =>
    refine ih.goesOn hp (Nat.le_refl _) (by decide) fun m least rest _ _ hm => ?_
    rw [List.length_append] at hm
    rw [List.append_assoc, List.singleton_append, climb, ihes m .rightParen rest (.inl rfl) (by omega)]
    rfl
  | not hp _ ih =>
    refine reads_first hp fun m least rest hrest hm => ?_
    have hend : Ends Precedence.unary rest := hrest.ends (by decide) (by decide)
    rw [read, if_pos rfl, ih.complete hend (by omega)]
    rfl
  | typeof hp _ ih =>
    refine reads_first hp fun m least rest hrest hm => ?_
    have hend : Ends Precedence.unary rest := hrest.ends (by decide) (by decide)
    rw [read, if_pos rfl, ih.complete hend (by omega)]
    rfl
  | @binary p l r op token ts us hp hop _ _ ihl ihr =>
    have hrange := binaryPrecedence_range (mem_binaryOperators hop)
    have hbinding := binding_of_binary? hop
    refine ihl.goesOn hp (Nat.le_refl _) (by omega) fun m least rest hleast hrest hm => ?_
    have hend : Ends (binaryPrecedence op + 1) rest :=
      hrest.ends (by rw [Precedence.member]; omega) (.inl (Nat.lt_succ_self _))
    exact climb_binary hop hleast (ihr.complete hend (by omega))
  | @arrow p params e first ts hp hparams hfirst _ ih =>
    refine reads_first hp fun m least rest hrest hm => ?_
    have hend : Ends Precedence.assignment rest := hrest.ends (by decide) (by decide)
    simp only [List.length_append, List.length_cons] at hm
    have hbody := ih.complete hend (n := m) (by rw [List.length_cons]; omega)
    rw [List.append_assoc, List.cons_append, List.cons_append, List.cons_append, read,
      grouped?_read_params hparams, readParams_paramsTokens hparams]
    rw [List.cons_append] at hbody
    simp [hfirst, hbody]
  | noItems =>
    intro n close rest hclose hn
    obtain ⟨n, rfl⟩ : ∃ k, n = k + 1 := ⟨n - 1, by omega⟩
    rw [List.nil_append, readItems, read_close hclose]
    simp
  | lastItem _ ih =>
    intro n close rest hclose hn
    obtain ⟨n, rfl⟩ : ∃ k, n = k + 1 := ⟨n - 1, by omega⟩
    have hend : Ends Precedence.assignment (close :: rest) := by rcases hclose with rfl | rfl <;> exact ends_cons rfl
    rw [readItems, ih.complete hend (by omega)]
    rcases hclose with rfl | rfl <;> rfl
  | @item e next es ts us _ _ ih ihes =>
    intro n close rest hclose hn
    obtain ⟨n, rfl⟩ : ∃ k, n = k + 1 := ⟨n - 1, by omega⟩
    rw [List.length_append, List.length_cons] at hn
    have hend : Ends Precedence.assignment (.comma :: (us ++ close :: rest)) := ends_cons rfl
    rw [List.append_assoc, List.cons_append, readItems, ih.complete hend (by omega)]
    simp [ihes n close rest hclose (by omega)]
  | noFields =>
    intro n rest hn
    obtain ⟨n, rfl⟩ : ∃ k, n = k + 1 := ⟨n - 1, by omega⟩
    rfl
  | lastField _ ih =>
    intro n rest hn
    obtain ⟨n, rfl⟩ : ∃ k, n = k + 1 := ⟨n - 1, by omega⟩
    rw [List.length_cons, List.length_cons] at hn
    have hend : Ends Precedence.assignment (.rightBrace :: rest) := ends_cons rfl
    rw [List.cons_append, List.cons_append, readFields, ih.complete hend (by omega)]
    rfl
  | @field key e next ps ts us _ _ ih ihps =>
    intro n rest hn
    obtain ⟨n, rfl⟩ : ∃ k, n = k + 1 := ⟨n - 1, by omega⟩
    simp only [List.length_append, List.length_cons] at hn
    have hend : Ends Precedence.assignment (.comma :: (us ++ .rightBrace :: rest)) := ends_cons rfl
    rw [List.cons_append, List.cons_append, List.append_assoc, List.cons_append, readFields,
      ih.complete hend (by omega)]
    simp [ihps n rest (by omega)]

/-- The reader finds the tree that the grammar gives to the tokens. -/
theorem readTokens_of_derives {ts : List Token} (h : Derives level (.expr 0 e) ts) :
    readTokens level ts = some e := by
  have hend : Ends 0 [] := by simp [Ends]
  have hread := h.reads.complete hend (Nat.le_refl _)
  rw [List.append_nil] at hread
  rw [readTokens, hread]

end

end TestMigration
