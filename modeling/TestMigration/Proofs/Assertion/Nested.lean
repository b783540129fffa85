import Mathlib.Data.Option.Basic
import TestMigration.Assertion.Membership
import TestMigration.Grammar.Source
import TestMigration.Proofs.Expr.Literal
import TestMigration.Proofs.Text.Split

/-!
# Paths of nested properties

The path of a nested property is split at points and brackets as it is written, and each segment becomes an optional
access, by name or by a string literal around the segment. A path that is put together from names and indices comes
apart into them again. An escaped separator is a separator all the same: it leaves its backslash at the end of a
segment, where it escapes the quote that should close the literal.

Main statement: `Assertion.nested_printed`.
-/

namespace TestMigration

namespace Assertion

/-! ### Segments -/

/-- The path with a point for each opening bracket and without the closing ones. -/
def dotted (path : Text) : Text := (path.map fun c => if c == '[' then '.' else c).filter (· != ']')

theorem pathSegments_eq (path : String) :
    pathSegments path = ((Text.splitAt '.' (dotted path.toList)).filter (!·.isEmpty)).map String.ofList := rfl

theorem dotted_append (a b : Text) : dotted (a ++ b) = dotted a ++ dotted b := by
  simp [dotted]

theorem dotted_eq_self {t : Text} (h : ∀ c ∈ t, c ≠ '[' ∧ c ≠ ']') : dotted t = t := by
  induction t with
  | nil => rfl
  | cons c t ih =>
    obtain ⟨⟨hopen, hclose⟩, ht⟩ := List.forall_mem_cons.mp h
    have hrest := ih ht
    rw [dotted] at hrest ⊢
    rw [List.map_cons, if_neg (by simpa using hopen), List.filter_cons_of_pos (by simpa using hclose), hrest]

/-- A part of a path: a name or an index. -/
inductive PathPart where
  | name (text : String)
  | index (n : Nat)

namespace PathPart

/-- The part as a segment. -/
def text : PathPart → String
  | name s => s
  | index n => toString n

/-- The part as it is written behind others: a name behind a point, an index in brackets. -/
def written : PathPart → Text
  | name s => '.' :: s.toList
  | index n => '[' :: ((toString n).toList ++ [']'])

/-- A name has a character, and none that separates segments or needs an escape. Indices never do. -/
def Plain : PathPart → Prop
  | name s => s.toList ≠ [] ∧ ∀ c ∈ s.toList, c ∉ ['.', '[', ']', '\\', '\n', '\r']
  | index _ => True

end PathPart

/-- The path through the parts. A name at the beginning has no point. -/
def writePath : List PathPart → String
  | .name s :: rest => String.ofList (s.toList ++ rest.flatMap PathPart.written)
  | parts => String.ofList (parts.flatMap PathPart.written)

namespace PathPart.Plain

variable {p : PathPart}

theorem text_spec (h : p.Plain) :
    p.text.toList ≠ [] ∧ ∀ c ∈ p.text.toList, c ∉ ['.', '[', ']', '\\', '\n', '\r'] := by
  cases p with
  | name s => exact h
  | index n =>
    refine ⟨by simp [text], fun c hc hmem => ?_⟩
    have hc : c ∈ Nat.toDigits 10 n := by simpa [text] using hc
    have hdigit : c.isDigit = true := Nat.isDigit_of_mem_toDigits (by decide) (by decide) hc
    have hnone : ∀ c ∈ ['.', '[', ']', '\\', '\n', '\r'], c.isDigit = false := by simp
    rw [hnone c hmem] at hdigit
    cases hdigit

theorem dotted_text (h : p.Plain) : dotted p.text.toList = p.text.toList := by
  refine dotted_eq_self fun c hc => ⟨?_, ?_⟩ <;> rintro rfl <;> exact h.text_spec.2 _ hc (by decide)

theorem not_mem_text (h : p.Plain) : '.' ∉ p.text.toList := fun hc => h.text_spec.2 '.' hc (by decide)

theorem dotted_written (h : p.Plain) : dotted p.written = '.' :: p.text.toList := by
  have htext := h.dotted_text
  cases p with
  | name s =>
    show dotted (['.'] ++ s.toList) = _
    rw [dotted_append, show dotted s.toList = s.toList from htext]
    rfl
  | index n =>
    show dotted (['['] ++ ((toString n).toList ++ [']'])) = _
    rw [dotted_append, dotted_append, show dotted (toString n).toList = (toString n).toList from htext]
    simp [dotted, text]

end PathPart.Plain

variable {parts : List PathPart}

theorem dotted_flatMap_written (h : ∀ p ∈ parts, p.Plain) :
    dotted (parts.flatMap PathPart.written) = (parts.map (·.text.toList)).flatMap ('.' :: ·) := by
  induction parts with
  | nil => rfl
  | cons p rest ih =>
    obtain ⟨hp, hrest⟩ := List.forall_mem_cons.mp h
    rw [List.flatMap_cons, dotted_append, hp.dotted_written, ih hrest, List.map_cons, List.flatMap_cons]

/-- Behind a first piece, the parts are the other pieces. -/
theorem splitAt_dotted (h : ∀ p ∈ parts, p.Plain) {first : Text} (hfirst : '.' ∉ first) :
    Text.splitAt '.' (first ++ dotted (parts.flatMap PathPart.written)) = first :: parts.map (·.text.toList) := by
  rw [dotted_flatMap_written h]
  refine Text.splitAt_flatMap ?_ hfirst
  intro t ht
  obtain ⟨p, hp, rfl⟩ := List.mem_map.mp ht
  exact (h p hp).not_mem_text

/-- A path comes apart into the parts that it was written from. -/
theorem pathSegments_writePath (h : ∀ p ∈ parts, p.Plain) :
    pathSegments (writePath parts) = parts.map PathPart.text := by
  have hnonempty : (parts.map (·.text.toList)).filter (!·.isEmpty) = parts.map (·.text.toList) := by
    refine List.filter_eq_self.mpr fun t ht => ?_
    obtain ⟨p, hp, rfl⟩ := List.mem_map.mp ht
    simpa using (h p hp).text_spec.1
  have htexts : (parts.map (·.text.toList)).map String.ofList = parts.map PathPart.text := by
    rw [List.map_map]
    exact List.map_congr_left fun p _ => String.ofList_toList
  rw [pathSegments_eq, ← htexts, ← hnonempty]
  unfold writePath
  split
  · rename_i s rest
    obtain ⟨hs, hrest⟩ := List.forall_mem_cons.mp h
    have hself : dotted s.toList = s.toList := hs.dotted_text
    have hfirst : '.' ∉ s.toList := hs.not_mem_text
    rw [String.toList_ofList, dotted_append, hself, splitAt_dotted hrest hfirst]
    rfl
  · -- the first of the pieces is empty
    have hsplit := splitAt_dotted h (List.not_mem_nil (a := '.'))
    rw [List.nil_append] at hsplit
    rw [String.toList_ofList, hsplit]
    rfl

/-! ### Escapes -/

/-- The path can stand in a string literal, and its escapes are not cut in two by splitting it: none of them is made
of a separator. -/
inductive Separable : Text → Prop
  | nil : Separable []
  | escape {t taken rest : Text} (hescaped : Lexeme.escaped t = some (taken, rest))
    (htaken : ∀ c ∈ taken, c ∉ ['.', '[', ']', '\r']) (hrest : Separable rest) : Separable ('\\' :: t)
  | blanks {c : Char} {t : Text} (hbreak : c = '\n' ∨ c = '\r') (hgap : (c :: t).all Lexeme.isGap = true) :
    Separable (c :: t)
  | char {c : Char} {t : Text} (hslash : c ≠ '\\') (hnl : c ≠ '\n') (hcr : c ≠ '\r') (hrest : Separable t) :
    Separable (c :: t)

theorem closed_pieces_append {front t : Text} (hfront : ∀ c ∈ front, c ∉ ['.', '[', ']'])
    (h : ∀ piece ∈ Text.splitAt '.' (dotted t), Lexeme.Closed piece ∧ Lexeme.Closed (front ++ piece)) :
    ∀ piece ∈ Text.splitAt '.' (dotted (front ++ t)), Lexeme.Closed piece := by
  have hdot : '.' ∉ front := fun hmem => hfront '.' hmem (by decide)
  have hself : dotted front = front := by
    refine dotted_eq_self fun c hc => ⟨?_, ?_⟩ <;> rintro rfl <;> exact hfront _ hc (by decide)
  obtain ⟨piece, pieces, hsplit, happend⟩ := Text.splitAt_append (t := dotted t) hdot
  rw [dotted_append, hself, happend]
  rw [hsplit] at h
  obtain ⟨hpiece, hpieces⟩ := List.forall_mem_cons.mp h
  exact List.forall_mem_cons.mpr ⟨hpiece.2, fun piece hmem => (hpieces piece hmem).1⟩

theorem Separable.closed_pieces {t : Text} (h : Separable t) :
    ∀ piece ∈ Text.splitAt '.' (dotted t), Lexeme.Closed piece := by
  induction h with
  | nil => exact List.forall_mem_singleton.mpr .nil
  | @escape t taken rest hesc htaken hrest ih =>
    obtain rfl := Lexeme.escaped_splits.eq_append hesc
    obtain ⟨d, plain, rfl, hplain, hread⟩ := Lexeme.escaped_cases hesc
    have hd : d ≠ '\r' := fun hd => htaken d List.mem_cons_self (by simp [hd])
    have hfront : ∀ c ∈ '\\' :: d :: plain, c ∉ ['.', '[', ']'] :=
      List.forall_mem_cons.mpr ⟨by decide, fun c hc hmem => htaken c hc (List.mem_append_left ['\r'] hmem)⟩
    refine closed_pieces_append hfront fun piece hpiece => ⟨ih piece hpiece, ?_⟩
    exact .escape (hread piece fun hcr => absurd hcr hd) (ih piece hpiece)
  | @blanks c t hbreak hgap =>
    have hnone : ∀ c ∈ ['.', '[', ']'], Lexeme.isGap c = false := by simp [Lexeme.isGap]
    have hfront : ∀ x ∈ c :: t, x ∉ ['.', '[', ']'] := by
      intro x hx hmem
      have hx := List.all_eq_true.mp hgap x hx
      rw [hnone x hmem] at hx
      cases hx
    have hpieces := closed_pieces_append (t := []) hfront (List.forall_mem_singleton.mpr ⟨.nil, ?_⟩)
    · rwa [List.append_nil] at hpieces
    · rw [List.append_nil]
      exact .blanks hbreak hgap
  | @char c t hslash hnl hcr hrest ih =>
    by_cases hsep : c ∈ ['.', '[', ']']
    · simp only [List.mem_cons, List.not_mem_nil, or_false] at hsep
      rcases hsep with rfl | rfl | rfl
      · exact List.forall_mem_cons.mpr ⟨.nil, ih⟩
      · exact List.forall_mem_cons.mpr ⟨.nil, ih⟩
      · exact ih
    · have hfront : ∀ x ∈ [c], x ∉ ['.', '[', ']'] := List.forall_mem_singleton.mpr hsep
      exact closed_pieces_append hfront fun piece hpiece => ⟨ih piece hpiece, .char hslash hnl hcr (ih piece hpiece)⟩

theorem Separable.closed_segments {path : String} (h : Separable path.toList) :
    ∀ segment ∈ pathSegments path, Lexeme.Closed segment.toList := by
  intro segment hsegment
  obtain ⟨piece, hpiece, rfl⟩ := List.mem_map.mp hsegment
  rw [String.toList_ofList]
  exact h.closed_pieces piece (List.mem_filter.mp hpiece).1

theorem separable_of_forall {t : Text} (h : ∀ c ∈ t, c ∉ ['\\', '\n', '\r']) : Separable t := by
  induction t with
  | nil => exact .nil
  | cons c t ih =>
    obtain ⟨hc, ht⟩ := List.forall_mem_cons.mp h
    simp only [List.mem_cons, List.not_mem_nil, or_false, not_or] at hc
    exact .char hc.1 hc.2.1 hc.2.2 (ih ht)

theorem separable_writePath (h : ∀ p ∈ parts, p.Plain) : Separable (writePath parts).toList := by
  have htext {p : PathPart} (hp : p.Plain) : ∀ c ∈ p.text.toList, c ∉ ['\\', '\n', '\r'] := by
    intro c hc hmem
    exact hp.text_spec.2 c hc (List.mem_append_right ['.', '[', ']'] hmem)
  have hwritten {p : PathPart} (hp : p.Plain) : ∀ c ∈ p.written, c ∉ ['\\', '\n', '\r'] := by
    cases p with
    | name s => exact List.forall_mem_cons.mpr ⟨by decide, htext hp⟩
    | index n =>
      have hdigits := htext hp
      rw [PathPart.text] at hdigits
      rw [PathPart.written, List.forall_mem_cons, List.forall_mem_append, List.forall_mem_singleton]
      exact ⟨by decide, hdigits, by decide⟩
  have hall {parts : List PathPart} (h : ∀ p ∈ parts, p.Plain) :
      ∀ c ∈ parts.flatMap PathPart.written, c ∉ ['\\', '\n', '\r'] := by
    intro c hc
    obtain ⟨p, hp, hc⟩ := List.mem_flatMap.mp hc
    exact hwritten (h p hp) c hc
  unfold writePath
  split
  · obtain ⟨hs, hrest⟩ := List.forall_mem_cons.mp h
    rw [String.toList_ofList]
    exact separable_of_forall (List.forall_mem_append.mpr ⟨htext hs, hall hrest⟩)
  · rw [String.toList_ofList]
    exact separable_of_forall (hall h)

/-! ### Accesses -/

/-- The optional access for a segment as it is printed. -/
def accessText (quote : Char) (segment : String) : String :=
  if isIdentifier segment then "?." ++ segment else "?.[" ++ quoteLiteral quote segment ++ "]"

/-- The text goes on from a value to one of its properties: by a name, or by a complete string literal, whatever
stands behind it. -/
def IsAccess (text : String) : Prop :=
  (∃ name, isIdentifier name = true ∧ text = "?." ++ name) ∨
    ∃ literal : String, text = "?.[" ++ literal ++ "]" ∧
      ∀ rest, Lexeme.string (literal.toList ++ rest) = some (literal.toList, rest)

theorem not_mem_of_isIdentifier {s : String} (h : isIdentifier s = true) : '[' ∉ s.toList := by
  have hpart : isNameStart '[' = false ∧ isNamePart '[' = false := by decide
  unfold isIdentifier at h
  split at h
  · cases h
  · rename_i c cs hs
    obtain ⟨hc, hcs⟩ := Bool.and_eq_true_iff.mp h
    rw [hs]
    intro hmem
    rcases List.mem_cons.mp hmem with rfl | hmem
    · rw [hpart.1] at hc
      cases hc
    · have hcs := List.all_eq_true.mp hcs '[' hmem
      rw [hpart.2] at hcs
      cases hcs

theorem isAccess_iff {quote : Char} (hq : quote = '\'' ∨ quote = '"') {segment : String} :
    IsAccess (accessText quote segment) ↔ isIdentifier segment = true ∨ Lexeme.Closed segment.toList := by
  unfold accessText
  by_cases hname : isIdentifier segment = true
  · rw [if_pos hname]
    exact iff_of_true (.inl ⟨segment, hname, rfl⟩) (.inl hname)
  · rw [if_neg hname, or_iff_right hname, ← string_quoteLiteral_iff hq]
    constructor
    · rintro (⟨name, hidentifier, heq⟩ | ⟨literal, heq, hread⟩)
      · -- a name does not begin with a bracket
        have heq := congrArg String.toList heq
        simp only [String.toList_append] at heq
        have hbehind : '[' :: ((quoteLiteral quote segment).toList ++ [']']) = name.toList := by simpa using heq
        have hmem : '[' ∈ name.toList := hbehind ▸ List.mem_cons_self
        exact absurd hmem (not_mem_of_isIdentifier hidentifier)
      · have heq := congrArg String.toList heq
        simp only [String.toList_append] at heq
        obtain rfl : quoteLiteral quote segment = literal :=
          String.toList_injective (List.append_cancel_left (List.append_cancel_right heq))
        exact hread
    · exact fun hread => .inr ⟨_, rfl, hread⟩

section
variable (style : Style) (source : Span → String) (indent : String)

theorem printAt_optionalProperty (value : Expr) (segment : String) {least : Nat} (h : least ≤ Precedence.member) :
    (value.optionalProperty segment).printAt style source indent least =
      value.printAt style source indent Precedence.member ++ accessText style.quote segment := by
  have hnot : ¬ Precedence.member < least := Nat.not_lt.mpr h
  unfold Expr.optionalProperty accessText
  split
  · rw [Expr.printAt]
    simp [parenthesizeIf, Expr.precedence, hnot, String.append_assoc]
  · rw [Expr.printAt, Expr.printAt]
    simp [parenthesizeIf, Expr.precedence, hnot, String.append_assoc]

theorem printAt_accesses {segments : List String} (hne : segments ≠ []) (value : Expr) {least : Nat}
    (h : least ≤ Precedence.member) :
    (segments.foldl Expr.optionalProperty value).printAt style source indent least =
      segments.foldl (fun text segment => text ++ accessText style.quote segment)
        (value.printAt style source indent Precedence.member) := by
  induction segments generalizing value with
  | nil => exact absurd rfl hne
  | cons segment rest ih =>
    rw [List.foldl_cons, List.foldl_cons]
    by_cases hrest : rest = []
    · subst hrest
      exact printAt_optionalProperty style source indent value segment h
    · rw [ih hrest, printAt_optionalProperty style source indent value segment (Nat.le_refl _)]

end

/-! ### The assertion -/

variable {ctx : Context} {v : View} {word : Step} {path : String}

/-- The method of the assert module. Without an expected value the end of the path is compared with `undefined`. -/
def nestedMethod (v : View) (word : Step) : String :=
  if word.args[1]?.isSome then comparison v.deep v.negated else pick v.negated "notStrictEqual" "strictEqual"

/-- What the end of the path is compared with. -/
def nestedExpected (word : Step) : Expr := (word.args[1]?.map Site.embed).getD (.lit "undefined")

theorem membership_nested (hword : v.called? ["property"] 1 2 = some word) (hnested : v.nested = true)
    (hpath : literalArgument? ctx word 0 = some path) (hsegments : pathSegments path ≠ []) :
    membership ctx v = some (assertCall ctx (nestedMethod v word)
      [(pathSegments path).foldl Expr.optionalProperty v.value, nestedExpected word]) := by
  have hproperty : nestedPath? ctx v = some (pathSegments path, word.args[1]?.map Site.embed) := by
    rw [nestedPath?, hword, Option.filter_some, if_pos hnested]
    simp [hpath]
  unfold membership membershipWith nestedProperty nestedMethod nestedExpected
  simp only [hproperty, Option.bind_eq_bind, Option.bind_some]
  cases word.args[1]? with
  | none => simp [hsegments, guard]
  | some expected => simp [hsegments, guard, compareValue]

/-- The assertion about a nested property accesses the value by the segments of the path, one behind the other. Such an
access is well formed in either quote exactly when its segment is a name or can stand in a string literal, which all
segments do if splitting the path leaves its escapes whole. A path that was written from names and indices is of this
kind, and its segments are these names and indices. -/
theorem nested_printed (hword : v.called? ["property"] 1 2 = some word) (hnested : v.nested = true)
    (hpath : literalArgument? ctx word 0 = some path) (hsegments : pathSegments path ≠ []) :
    (∃ e, membership ctx v = some e ∧
      ∀ (style : Style) (source : Span → String) (indent : String), e.print style source indent =
        ctx.names.assert ++ "." ++ nestedMethod v word ++ "(" ++
          (pathSegments path).foldl (fun text segment => text ++ accessText style.quote segment)
            (v.value.printAt style source indent Precedence.member) ++ ", " ++
          (nestedExpected word).printAt style source indent Precedence.assignment ++ ")") ∧
    (∀ quote : Char, quote = '\'' ∨ quote = '"' → ∀ segment ∈ pathSegments path,
      (IsAccess (accessText quote segment) ↔ isIdentifier segment = true ∨ Lexeme.Closed segment.toList)) ∧
    (Separable path.toList → ∀ segment ∈ pathSegments path, Lexeme.Closed segment.toList) ∧
    ∀ parts : List PathPart, (∀ p ∈ parts, p.Plain) → path = writePath parts →
      Separable path.toList ∧ pathSegments path = parts.map PathPart.text := by
  refine ⟨⟨_, membership_nested hword hnested hpath hsegments, fun style source indent => ?_⟩,
    fun quote hq segment _ => isAccess_iff hq, Separable.closed_segments, fun parts hparts heq => ?_⟩
  · have haccess := printAt_accesses style source indent hsegments v.value
      (by decide : Precedence.assignment ≤ Precedence.member)
    have hlist (a b : Expr) : Expr.printList style source indent [a, b] =
        a.printAt style source indent Precedence.assignment ++ ", " ++
          b.printAt style source indent Precedence.assignment := by simp [Expr.printList]
    rw [assertCall, Expr.callPath, Expr.print, Expr.printAt, Expr.printAt, hlist, haccess]
    simp [parenthesizeIf, Expr.precedence, Precedence.primary, Precedence.member, String.append_assoc]
  · subst heq
    exact ⟨separable_writePath hparts, pathSegments_writePath hparts⟩

set_option maxRecDepth 100000 in
theorem nested_printed_index : ∃ (text : String) (tree : Node) (root : Site) (ctx : Context) (v : View)
    (word : Step) (e : Expr),
    text = "expect(o).to.have.nested.property('a.b[0]', 1);\n" ∧ Grammar.parse .plain text.toList = some tree ∧
    root ∈ tree.sites ∧ ctx.source = text.toList ∧ View.ofChain? ctx (Chain.walk text.toList root) = some v ∧
    v.nested = true ∧ v.called? ["property"] 1 2 = some word ∧ membership ctx v = some e ∧
    (∀ (style : Style) (source : Span → String) (indent : String),
      e.print style source indent = ctx.names.assert ++ "." ++ nestedMethod v word ++ "(" ++
        ["a", "b", "0"].foldl (fun text segment => text ++ accessText style.quote segment)
          (v.value.printAt style source indent Precedence.member) ++ ", " ++
        (nestedExpected word).printAt style source indent Precedence.assignment ++ ")") ∧
    ∀ quote : Char, quote = '\'' ∨ quote = '"' →
      ∀ segment ∈ ["a", "b", "0"], IsAccess (accessText quote segment) := by
  obtain ⟨text, htext⟩ : ∃ text, text = "expect(o).to.have.nested.property('a.b[0]', 1);\n" := ⟨_, rfl⟩
  obtain ⟨ctx, hctx⟩ : ∃ ctx : Context, ctx = { source := text.toList, names := {} } := ⟨_, rfl⟩
  have hfile : (Grammar.parse .plain text.toList).any (fun tree => tree.sites.any fun root =>
      (View.ofChain? ctx (Chain.walk text.toList root)).any fun v => v.nested &&
        (v.called? ["property"] 1 2).any fun word => literalArgument? ctx word 0 == some "a.b[0]") = true := by
    rw [hctx, htext]
    decide +kernel
  obtain ⟨tree, hparse, hfile⟩ := (Option.any_eq_true _ _).mp hfile
  obtain ⟨root, hroot, hfile⟩ := List.any_eq_true.mp hfile
  obtain ⟨v, hv, hfile⟩ := (Option.any_eq_true _ _).mp hfile
  obtain ⟨hnested, hfile⟩ := Bool.and_eq_true_iff.mp hfile
  obtain ⟨word, hword, hfile⟩ := (Option.any_eq_true _ _).mp hfile
  obtain ⟨⟨e, he, hprinted⟩, haccess, hclosed, hparts⟩ :=
    nested_printed hword hnested (eq_of_beq hfile) (by decide)
  have hplain : ∀ p ∈ [PathPart.name "a", .name "b", .index 0], p.Plain := by
    simp only [List.mem_cons, List.not_mem_nil, or_false]
    rintro p (rfl | rfl | rfl)
    · exact ⟨by decide, by simp⟩
    · exact ⟨by decide, by simp⟩
    · trivial
  obtain ⟨hseparable, hsegments⟩ := hparts _ hplain (by decide)
  have hclosed := hclosed hseparable
  rw [hsegments] at hprinted haccess hclosed
  exact ⟨text, tree, root, ctx, v, word, e, htext, hparse, hroot, by rw [hctx], hv, hnested, hword, he, hprinted,
    fun quote hq segment hsegment => (haccess quote hq segment hsegment).mpr (.inr (hclosed segment hsegment))⟩

set_option maxRecDepth 100000 in
/-- An escaped point is a separator like any other, and leaves its backslash behind. -/
theorem nested_access_broken : ¬ ∀ (text : String) (tree : Node) (root : Site) (ctx : Context) (v : View)
    (word : Step) (path : String), Grammar.parse .plain text.toList = some tree → root ∈ tree.sites →
    ctx.source = text.toList → View.ofChain? ctx (Chain.walk text.toList root) = some v →
    v.called? ["property"] 1 2 = some word → v.nested = true → literalArgument? ctx word 0 = some path →
      ∀ quote : Char, quote = '\'' ∨ quote = '"' → ∀ segment ∈ pathSegments path,
        IsAccess (accessText quote segment) := by
  intro h
  obtain ⟨text, htext⟩ : ∃ text, text = "expect(o).to.have.nested.property('a\\.b', 1);\n" := ⟨_, rfl⟩
  obtain ⟨ctx, hctx⟩ : ∃ ctx : Context, ctx = { source := text.toList, names := {} } := ⟨_, rfl⟩
  have hfile : (Grammar.parse .plain text.toList).any (fun tree => tree.sites.any fun root =>
      (View.ofChain? ctx (Chain.walk text.toList root)).any fun v => v.nested &&
        (v.called? ["property"] 1 2).any fun word => literalArgument? ctx word 0 == some "a\\.b") = true := by
    rw [hctx, htext]
    decide +kernel
  obtain ⟨tree, hparse, hfile⟩ := (Option.any_eq_true _ _).mp hfile
  obtain ⟨root, hroot, hfile⟩ := List.any_eq_true.mp hfile
  obtain ⟨v, hv, hfile⟩ := (Option.any_eq_true _ _).mp hfile
  obtain ⟨hnested, hfile⟩ := Bool.and_eq_true_iff.mp hfile
  obtain ⟨word, hword, hfile⟩ := (Option.any_eq_true _ _).mp hfile
  have haccess := h text tree root ctx v word _ hparse hroot (by rw [hctx]) hv hword hnested (eq_of_beq hfile) '\''
    (.inl rfl) "a\\" (by decide)
  rcases (isAccess_iff (.inl rfl)).mp haccess with hname | hclosed
  · exact absurd hname (by decide)
  · -- nothing is left for the backslash to escape
    have hrest : Lexeme.Closed ['\\'] := by
      cases (show Lexeme.Closed ['a', '\\'] from hclosed) with
      | blanks hbreak _ => exact absurd hbreak (by decide)
      | char _ _ _ hrest => exact hrest
    cases hrest with
    | escape hescaped _ => cases hescaped
    | blanks hbreak _ => exact absurd hbreak (by decide)
    | char hslash _ _ _ => exact hslash rfl

end Assertion

end TestMigration
