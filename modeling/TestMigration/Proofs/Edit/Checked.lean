import TestMigration.Proofs.Edit.Copied
import TestMigration.Proofs.Edit.Deletion

/-!
# Applying edits stays in the text

`Text.slice?` cuts a piece out of a text only if its two offsets are ordered and lie between characters, and
`applyEdits?` applies edits with nothing but such cuts: it answers `none` at the first one that is out of
range. If the spans of the edits and those that they embed are pieces of the text (`Edit.Fits`), none is, in
whatever order the edits come and however they overlap (`applyEdits?_eq`).

What comes out is the text between the roots of the forest with the text of each root in its place. The roots
stand one behind the other, and so do the trees below each edit, so none is left out because it begins before
the end of the one before: `applyEdits_frame`.
-/

namespace TestMigration

/-! ### Pieces of a text -/

namespace Text

variable {t : Text} {k : Nat}

theorem takeBytes_prefix (k : Nat) (t : Text) : t.takeBytes k <+: t := by
  induction t generalizing k with
  | nil => exact List.prefix_rfl
  | cons c t ih =>
    unfold takeBytes
    split
    · exact List.nil_prefix
    · exact List.cons_prefix_cons.mpr ⟨rfl, ih _⟩

theorem takeBytes_size_append (before after : Text) : takeBytes (size before) (before ++ after) = before := by
  rw [takeBytes_size, takeBytes_zero, List.append_nil]

theorem boundary_iff : t.Boundary k ↔ size (t.takeBytes k) = k := by
  constructor
  · rintro ⟨before, after, rfl, rfl⟩
    rw [takeBytes_size_append]
  · intro h
    obtain ⟨after, hafter⟩ := takeBytes_prefix k t
    exact ⟨t.takeBytes k, after, hafter.symm, h⟩

instance (t : Text) (k : Nat) : Decidable (t.Boundary k) := decidable_of_iff _ boundary_iff.symm

theorem Boundary.self (t : Text) : t.Boundary t.size := ⟨t, [], by simp, rfl⟩

theorem Boundary.of_prefix {p : Text} (h : p <+: t) : t.Boundary p.size := by
  obtain ⟨after, rfl⟩ := h
  exact ⟨p, after, rfl, rfl⟩

theorem takeBytes_of_prefix {p : Text} (h : p <+: t) : t.takeBytes p.size = p := by
  obtain ⟨after, rfl⟩ := h
  exact takeBytes_size_append p after

theorem dropBackWhile_prefix (p : Char → Bool) (t : Text) : dropBackWhile p t <+: t := by
  have hsuffix := List.reverse_prefix.mpr (List.dropWhile_suffix p (l := t.reverse))
  rwa [List.reverse_reverse] at hsuffix

/-- The characters between two offsets, if these are ordered and lie between characters. -/
def slice? (t : Text) (start stop : Nat) : Option Text :=
  if start ≤ stop ∧ t.Boundary start ∧ t.Boundary stop then some (t.slice start stop) else none

theorem Boundary.slice?_zero (h : t.Boundary k) : t.slice? 0 k = some (t.takeBytes k) := by
  rw [slice?, if_pos ⟨Nat.zero_le _, Boundary.zero t, h⟩, slice, dropBytes_zero, Nat.sub_zero]

theorem Boundary.slice?_size (h : t.Boundary k) : t.slice? k t.size = some (t.dropBytes k) := by
  rw [slice?, if_pos ⟨h.le_size, h, Boundary.self t⟩, slice]
  have hrest : t.size - k = size (t.dropBytes k) := by
    have := h.size_dropBytes
    omega
  rw [hrest, takeBytes_self]

def cut? (t : Text) (s : Span) : Option String := (t.slice? s.start s.stop).map String.ofList

def lineIndent? (t : Text) (offset : Nat) : Option String := do
  let before ← t.slice? 0 (min offset t.size)
  let line ← t.slice? (size before - size (lastLine before)) t.size
  let margin ← line.slice? 0 (size (line.takeWhile isMargin))
  return String.ofList margin

def locationAt? (t : Text) (offset : Nat) : Option Location := do
  let before ← t.slice? 0 (min offset t.size)
  return { line := before.count '\n' + 1, column := size (lastLine before) + 1 }

theorem Boundary.lineStart (h : t.Boundary k) : t.Boundary (t.lineStart k) := by
  obtain ⟨before, after, rfl, rfl⟩ := h
  have hsplit : before = (before.reverse.dropWhile (· != '\n')).reverse ++ lastLine before := by
    rw [lastLine, ← List.reverse_append, List.takeWhile_append_dropWhile, List.reverse_reverse]
  refine ⟨(before.reverse.dropWhile (· != '\n')).reverse, lastLine before ++ after, ?_, ?_⟩
  · rw [← List.append_assoc, ← hsplit]
  · have hsize := congrArg size hsplit
    rw [size_append] at hsize
    rw [Text.lineStart, takeBytes_size_append]
    omega

theorem Boundary.lineIndent?_eq (h : t.Boundary k) : t.lineIndent? k = some (t.lineIndent k) := by
  have hmargin (line : Text) : line.slice? 0 (size (line.takeWhile isMargin)) =
      some (line.takeWhile isMargin) := by
    rw [(Boundary.of_prefix (List.takeWhile_prefix _)).slice?_zero, takeBytes_of_prefix (List.takeWhile_prefix _)]
  simp only [lineIndent?, Nat.min_eq_left h.le_size, h.slice?_zero, Option.bind_eq_bind, Option.bind_some]
  rw [show size (t.takeBytes k) - size (lastLine (t.takeBytes k)) = t.lineStart k from rfl, h.lineStart.slice?_size,
    Option.bind_some, hmargin]
  rfl

theorem Boundary.locationAt?_eq (h : t.Boundary k) : t.locationAt? k = some (t.locationAt k) := by
  simp only [locationAt?, Nat.min_eq_left h.le_size, h.slice?_zero, Option.bind_eq_bind, Option.bind_some]
  rfl

end Text

/-- The span is a piece of the text: its offsets are ordered and lie between characters. -/
structure Span.PieceOf (t : Text) (s : Span) : Prop where
  start_le_stop : s.start ≤ s.stop
  start : t.Boundary s.start
  stop : t.Boundary s.stop

theorem Span.PieceOf.cut?_eq {t : Text} {s : Span} (h : s.PieceOf t) : t.cut? s = some (t.cut s) := by
  rw [Text.cut?, Text.slice?, if_pos ⟨h.start_le_stop, h.start, h.stop⟩]
  rfl

instance (t : Text) (s : Span) : Decidable (s.PieceOf t) :=
  decidable_of_iff (s.start ≤ s.stop ∧ t.Boundary s.start ∧ t.Boundary s.stop)
    ⟨fun ⟨hle, hstart, hstop⟩ => ⟨hle, hstart, hstop⟩, fun ⟨hle, hstart, hstop⟩ => ⟨hle, hstart, hstop⟩⟩

def Edit.embedded (e : Edit) : List Span :=
  match e.replacement with
  | .expr ex => ex.sources
  | _ => []

/-- The edit replaces a piece of the text, and all that it embeds are pieces of the text. -/
structure Edit.Fits (source : Text) (e : Edit) : Prop where
  span : e.span.PieceOf source
  embedded : ∀ s ∈ e.embedded, s.PieceOf source

instance (source : Text) (e : Edit) : Decidable (e.Fits source) :=
  decidable_of_iff (e.span.PieceOf source ∧ ∀ s ∈ e.embedded, s.PieceOf source)
    ⟨fun ⟨hspan, hembedded⟩ => ⟨hspan, hembedded⟩, fun ⟨hspan, hembedded⟩ => ⟨hspan, hembedded⟩⟩

theorem Edit.Fits.inside {source : Text} {e : Edit} (h : e.Fits source) : e.Inside source.size :=
  ⟨h.span.start_le_stop, h.span.stop.le_size⟩

/-! ### Deletions side by side -/

/-- `yieldBlanks` with all cuts checked. -/
def yieldBlanks? (source : Text) (edits : List Edit) (previous next : Span) : Option (Option Span) :=
  if previous.start < next.start && next.start < previous.stop && previous.stop < next.stop then do
    let shared ← source.slice? next.start previous.stop
    if Text.isBlank shared then do
      let before ← source.slice? 0 previous.start
      let kept := Text.size (Text.dropBackWhile isMargin before)
      let head ← source.slice? 0 kept
      let free := !edits.any fun e => e.span.start < previous.start && kept < e.span.stop
      let midLine := 0 < kept && !Text.endsWith head "\n"
      let tail ← source.slice? next.stop source.size
      let start := if Text.atLineEnd tail && midLine && free then kept else previous.start
      return some ⟨start, next.start⟩
    else return none
  else return none

def separateDeletions? (source : Text) : List Nat → List Edit → Option (List Edit)
  | i :: j :: rest, edits => do
    let p ← edits[i]?
    let n ← edits[j]?
    let span? ← yieldBlanks? source edits p.span n.span
    separateDeletions? source (j :: rest) (match span? with
      | some span => edits.set i { p with span }
      | none => edits)
  | _, edits => some edits

def separateBlanks? (source : Text) (edits : List Edit) : Option (List Edit) :=
  separateDeletions? source (deletionOrder edits) edits

theorem yieldBlanks?_eq {source : Text} {previous next : Span} (edits : List Edit)
    (hprevious : previous.PieceOf source) (hnext : next.PieceOf source) :
    yieldBlanks? source edits previous next = some (yieldBlanks source edits previous next) := by
  unfold yieldBlanks? yieldBlanks
  by_cases hshared : (previous.start < next.start && next.start < previous.stop
      && previous.stop < next.stop) = true
  · have hlt : next.start ≤ previous.stop := by
      simp only [Bool.and_eq_true, decide_eq_true_eq] at hshared
      omega
    have hprefix : Text.dropBackWhile isMargin (source.takeBytes previous.start) <+: source :=
      (Text.dropBackWhile_prefix _ _).trans (Text.takeBytes_prefix _ _)
    rw [if_pos hshared, Text.slice?, if_pos ⟨hlt, hnext.start, hprevious.stop⟩]
    simp only [hshared, Bool.true_and, Option.bind_eq_bind, Option.bind_some]
    cases hblank : Text.isBlank (source.slice next.start previous.stop) with
    | true =>
      simp only [hprevious.start.slice?_zero, (Text.Boundary.of_prefix hprefix).slice?_zero,
        Text.takeBytes_of_prefix hprefix, hnext.stop.slice?_size, Option.bind_some, ↓reduceIte,
        Bool.not_true, Bool.false_eq_true]
      rfl
    | false => rfl
  · rw [if_neg hshared]
    simp only [hshared, Bool.false_and, Bool.not_false, ↓reduceIte]
    rfl

theorem yieldBlanks_pieceOf {source : Text} {edits : List Edit} {previous next span : Span}
    (hprevious : previous.PieceOf source) (hnext : next.PieceOf source)
    (h : yieldBlanks source edits previous next = some span) : span.PieceOf source := by
  obtain ⟨hstart, hlt, hstop, -, -⟩ := yieldBlanks_eq_some h
  refine ⟨by omega, ?_, hstop ▸ hnext.start⟩
  unfold yieldBlanks at h
  dsimp only at h
  split at h
  · cases h
  · cases h
    dsimp only
    split
    · exact Text.Boundary.of_prefix ((Text.dropBackWhile_prefix _ _).trans (Text.takeBytes_prefix _ _))
    · exact hprevious.start

theorem mem_insertByStart {p q : Edit × Nat} {l : List (Edit × Nat)} (h : q ∈ insertByStart p l) :
    q = p ∨ q ∈ l := by
  induction l with
  | nil => exact .inl (List.mem_singleton.mp h)
  | cons first rest ih =>
    unfold insertByStart at h
    split at h
    · exact List.mem_cons.mp h
    · rcases List.mem_cons.mp h with rfl | h
      · exact .inr List.mem_cons_self
      · exact (ih h).imp_right (List.mem_cons_of_mem _)

theorem lt_length_of_mem_deletionOrder {edits : List Edit} {i : Nat} (h : i ∈ deletionOrder edits) :
    i < edits.length := by
  have hsorted (l : List (Edit × Nat)) (q : Edit × Nat) (hq : q ∈ l.foldr insertByStart []) : q ∈ l := by
    induction l with
    | nil => exact hq
    | cons p rest ih =>
      rcases mem_insertByStart hq with rfl | hq
      · exact List.mem_cons_self
      · exact List.mem_cons_of_mem _ (ih hq)
  obtain ⟨q, hq, rfl⟩ := List.mem_map.mp h
  exact List.snd_lt_of_mem_zipIdx (List.mem_filter.mp (hsorted _ q hq)).1

theorem separateDeletions?_eq {source : Text} : ∀ (order : List Nat) (edits : List Edit),
    (∀ i ∈ order, i < edits.length) → (∀ e ∈ edits, e.Fits source) →
      separateDeletions? source order edits = some (separateDeletions source order edits)
  | [], _, _, _ => rfl
  | [_], _, _, _ => rfl
  | i :: j :: rest, edits, horder, hfits => by
    obtain ⟨hi, hj, hrest⟩ : i < edits.length ∧ j < edits.length ∧ ∀ k ∈ rest, k < edits.length := by
      simpa using horder
    have hp := hfits _ (List.getElem_mem hi)
    have hn := hfits _ (List.getElem_mem hj)
    unfold separateDeletions? separateDeletions
    simp only [List.getElem?_eq_getElem hi, List.getElem?_eq_getElem hj, Option.bind_eq_bind, Option.bind_some,
      yieldBlanks?_eq edits hp.span hn.span]
    cases hspan : yieldBlanks source edits edits[i].span edits[j].span with
    | none => exact separateDeletions?_eq (j :: rest) edits (List.forall_mem_cons.mpr ⟨hj, hrest⟩) hfits
    | some span =>
      refine separateDeletions?_eq (j :: rest) _ ?_ ?_
      · simpa using ⟨hj, hrest⟩
      · intro e he
        rcases List.mem_or_eq_of_mem_set he with he | rfl
        · exact hfits e he
        · exact ⟨yieldBlanks_pieceOf hp.span hn.span hspan, hp.embedded⟩

theorem separateBlanks?_eq {source : Text} {edits : List Edit} (h : ∀ e ∈ edits, e.Fits source) :
    separateBlanks? source edits = some (separateBlanks source edits) :=
  separateDeletions?_eq _ _ (fun _ => lt_length_of_mem_deletionOrder) h

theorem separateBlanks_fits {source : Text} {edits : List Edit} (h : ∀ e ∈ edits, e.Fits source) :
    ∀ e ∈ separateBlanks source edits, e.Fits source := by
  refine separateDeletions_step (P := fun l => ∀ e ∈ l, e.Fits source) ?_ _ _ h
  intro l i j p n span hp hn hspan hl e he
  have hp := hl p (List.mem_of_getElem? hp)
  have hn := hl n (List.mem_of_getElem? hn)
  rcases List.mem_or_eq_of_mem_set he with he | rfl
  · exact hl e he
  · exact ⟨yieldBlanks_pieceOf hp.span hn.span hspan, hp.embedded⟩

/-! ### Printing -/

section
variable {style : Style} {f g : Span → String}

mutual

/-- The text of an expression depends on how the spans are written that it embeds, and on no other. -/
theorem Expr.printAt_congr (e : Expr) (indent : String) (least : Nat) (h : ∀ s ∈ e.sources, f s = g s) :
    e.printAt style f indent least = e.printAt style g indent least := by
  cases e with
  | source span prec => simp only [Expr.printAt, h span (by simp [Expr.sources])]
  | ident name | str content | lit token => simp only [Expr.printAt]
  | member object property | optionalMember object property | unary op object =>
    simp only [Expr.printAt, Expr.printAt_congr object indent _ h]
  | index object index | optionalIndex object index =>
    simp only [Expr.printAt, Expr.printAt_congr object indent _ fun s hs => h s (List.mem_append_left _ hs),
      Expr.printAt_congr index indent _ fun s hs => h s (List.mem_append_right _ hs)]
  | call callee args | new callee args =>
    simp only [Expr.printAt, Expr.printAt_congr callee indent _ fun s hs => h s (List.mem_append_left _ hs),
      Expr.printList_congr args indent fun s hs => h s (List.mem_append_right _ hs)]
  | binary left op right =>
    simp only [Expr.printAt, Expr.printAt_congr left indent _ fun s hs => h s (List.mem_append_left _ hs),
      Expr.printAt_congr right indent _ fun s hs => h s (List.mem_append_right _ hs)]
  | arrow params body => simp only [Expr.printAt, Expr.printAt_congr body indent _ h]
  | arrowBlock params body => simp only [Expr.printAt, Stmt.printLines_congr body _ h]
  | object fields => simp only [Expr.printAt, Property.printList_congr fields indent h]
  | array items => simp only [Expr.printAt, Expr.printList_congr items indent h]

theorem Expr.printList_congr : ∀ (es : List Expr) (indent : String), (∀ s ∈ Expr.sourcesAll es, f s = g s) →
    Expr.printList style f indent es = Expr.printList style g indent es
  | [], _, _ => rfl
  | [e], indent, h => by
    simp only [Expr.printList, Expr.printAt_congr e indent _ fun s hs => h s (List.mem_append_left _ hs)]
  | e :: e' :: rest, indent, h => by
    simp only [Expr.printList, Expr.printAt_congr e indent _ fun s hs => h s (List.mem_append_left _ hs),
      Expr.printList_congr (e' :: rest) indent fun s hs => h s (List.mem_append_right _ hs)]

theorem Property.printList_congr : ∀ (ps : List Property) (indent : String),
    (∀ s ∈ Property.sourcesAll ps, f s = g s) →
      Property.printList style f indent ps = Property.printList style g indent ps
  | [], _, _ => rfl
  | [p], indent, h => by
    simp only [Property.printList, Property.print_congr p indent fun s hs => h s (List.mem_append_left _ hs)]
  | p :: p' :: rest, indent, h => by
    simp only [Property.printList, Property.print_congr p indent fun s hs => h s (List.mem_append_left _ hs),
      Property.printList_congr (p' :: rest) indent fun s hs => h s (List.mem_append_right _ hs)]

theorem Property.print_congr : ∀ (p : Property) (indent : String), (∀ s ∈ p.sources, f s = g s) →
    p.print style f indent = p.print style g indent
  | .mk key value, indent, h => by simp only [Property.print, Expr.printAt_congr value indent _ h]

theorem Stmt.printLines_congr : ∀ (ss : List Stmt) (indent : String), (∀ s ∈ Stmt.sourcesAll ss, f s = g s) →
    Stmt.printLines style f indent ss = Stmt.printLines style g indent ss
  | [], _, _ => rfl
  | s :: rest, indent, h => by
    simp only [Stmt.printLines, Stmt.print_congr s indent fun s hs => h s (List.mem_append_left _ hs),
      Stmt.printLines_congr rest indent fun s hs => h s (List.mem_append_right _ hs)]

theorem Stmt.print_congr : ∀ (s : Stmt) (indent : String), (∀ s' ∈ s.sources, f s' = g s') →
    s.print style f indent = s.print style g indent
  | .ifThen condition body, indent, h => by
    simp only [Stmt.print, Expr.printAt_congr condition indent _ fun s hs => h s (List.mem_append_left _ hs),
      Stmt.printLines_congr body _ fun s hs => h s (List.mem_append_right _ hs)]
  | .returnNothing, _, _ => rfl
  | .return value, indent, h => by simp only [Stmt.print, Expr.printAt_congr value indent _ h]
  | .throw value, indent, h => by simp only [Stmt.print, Expr.printAt_congr value indent _ h]
  | .expr value, indent, h => by simp only [Stmt.print, Expr.printAt_congr value indent _ h]

end

end

/-- Text of an expression, if all spans that it embeds can be written. -/
def Expr.print? (style : Style) (write? : Span → Option String) (indent : String) (e : Expr) : Option String :=
  if e.sources.all fun s => (write? s).isSome then
    some (e.print style (fun s => (write? s).getD "") indent)
  else none

theorem Expr.print?_eq {style : Style} {write? : Span → Option String} {write : Span → String} {e : Expr}
    (indent : String) (h : ∀ s ∈ e.sources, write? s = some (write s)) :
    e.print? style write? indent = some (e.print style write indent) := by
  have hall : (e.sources.all fun s => (write? s).isSome) = true :=
    List.all_eq_true.mpr fun s hs => by simp [h s hs]
  rw [print?, if_pos hall]
  exact congrArg some (Expr.printAt_congr e indent 0 fun s hs => by simp [h s hs])

/-! ### Splicing and rendering -/

/-- `spliceMarked` with all cuts checked; a piece counts only if it is marked. -/
def spliceMarked? (source : Text) (limit : Span) : Nat → List (Bool × Span × Option String) → Option String
  | pos, [] => source.cut? ⟨pos, limit.stop⟩
  | pos, (marked, s, text?) :: rest =>
    if marked then do
      let gap ← source.cut? ⟨pos, s.start⟩
      let text ← text?
      let tail ← spliceMarked? source limit s.stop rest
      return gap ++ text ++ tail
    else spliceMarked? source limit pos rest

def splice? (source : Text) (pieces : List (Span × Option String)) (limit : Span) : Option String :=
  spliceMarked? source limit limit.start
    ((spliceable limit limit.start (pieces.map (·.1))).zip pieces)

namespace EditTree

section
variable (source : Text) (style : Style)

mutual

def render? : EditTree → Option String
  | node e children =>
    match e.replacement with
    | .delete => some ""
    | .text s => some s
    | .expr ex => do
      let indent ← source.lineIndent? e.span.start
      ex.print? style (splice? source (renderAll? children)) indent

def renderAll? : List EditTree → List (Span × Option String)
  | [] => []
  | t :: rest => (t.edit.span, t.render?) :: renderAll? rest

end

end

variable {source : Text} {style : Style}

theorem renderAll?_spans (ts : List EditTree) : (renderAll? source style ts).map (·.1) = spans ts := by
  induction ts with
  | nil => rfl
  | cons t rest ih => simp [renderAll?, spans, ih]

theorem spliceMarked?_eq {limit : Span} {ts : List EditTree} (hlimit : limit.PieceOf source)
    (h : ∀ t ∈ ts, t.span.PieceOf source ∧ t.render? source style = some (t.render source style)) {pos : Nat}
    (hpos : source.Boundary pos) (hle : pos ≤ limit.stop) :
    spliceMarked? source limit pos ((spliceable limit pos (spans ts)).zip (renderAll? source style ts)) =
      some (spliceMarked source limit pos
        ((spliceable limit pos (spans ts)).zip (renderAll source style ts))) := by
  induction ts generalizing pos with
  | nil =>
    have hpiece : Span.PieceOf source ⟨pos, limit.stop⟩ := ⟨hle, hpos, hlimit.stop⟩
    simpa [renderAll?, renderAll, spliceMarked?, spliceMarked] using hpiece.cut?_eq
  | cons t rest ih =>
    obtain ⟨⟨hspan, hrender⟩, hrest⟩ := List.forall_mem_cons.mp h
    have hspans : spans (t :: rest) = t.span :: spans rest := rfl
    rw [hspans, spliceable, renderAll?, renderAll]
    split
    · rename_i hspliced
      obtain ⟨hcontains, hstart⟩ : limit.contains t.span = true ∧ pos ≤ t.span.start := by
        simpa using hspliced
      have hstop : t.span.stop ≤ limit.stop := by
        simp only [Span.contains, Bool.and_eq_true, decide_eq_true_eq] at hcontains
        exact hcontains.2
      have hgap : Span.PieceOf source ⟨pos, t.span.start⟩ := ⟨hstart, hpos, hspan.start⟩
      have hcut : source.cut? ⟨pos, t.edit.span.start⟩ = some (source.cut ⟨pos, t.edit.span.start⟩) :=
        hgap.cut?_eq
      simp only [List.zip_cons_cons, spliceMarked?, spliceMarked, ↓reduceIte, hcut, hrender,
        Option.bind_eq_bind, Option.bind_some]
      rw [show t.edit.span.stop = t.span.stop from rfl, ih hrest hspan.stop hstop]
      rfl
    · simpa [spliceMarked?, spliceMarked] using ih hrest hpos hle

theorem splice?_eq {limit : Span} {ts : List EditTree} (hlimit : limit.PieceOf source)
    (h : ∀ t ∈ ts, t.span.PieceOf source ∧ t.render? source style = some (t.render source style)) :
    splice? source (renderAll? source style ts) limit =
      some (splice source (renderAll source style ts) limit) := by
  rw [splice?, splice, renderAll?_spans, renderAll_spans]
  exact spliceMarked?_eq hlimit h hlimit.start hlimit.start_le_stop

mutual

theorem render?_eq : ∀ {t : EditTree}, (∀ e ∈ t.edits, e.Fits source) →
    t.render? source style = some (t.render source style)
  | node e children, h => by
    obtain ⟨he, hchildren⟩ := List.forall_mem_cons.mp h
    unfold render? render
    cases hreplacement : e.replacement with
    | delete => rfl
    | text s => rfl
    | expr ex =>
      simp only [he.span.start.lineIndent?_eq, Option.bind_eq_bind, Option.bind_some]
      refine Expr.print?_eq _ fun s hs => splice?_eq (he.embedded s ?_) ?_
      · simpa [Edit.embedded, hreplacement] using hs
      · exact render?_eq_of_mem children hchildren

theorem render?_eq_of_mem : ∀ (ts : List EditTree), (∀ e ∈ editsAll ts, e.Fits source) →
    ∀ t ∈ ts, t.span.PieceOf source ∧ t.render? source style = some (t.render source style)
  | [], _ => by simp
  | first :: rest, h => by
    obtain ⟨hfirst, hrest⟩ := List.forall_mem_append.mp h
    refine List.forall_mem_cons.mpr ⟨⟨?_, render?_eq hfirst⟩, render?_eq_of_mem rest hrest⟩
    cases first
    exact (hfirst _ List.mem_cons_self).span

end

end EditTree

/-! ### The whole file -/

open EditTree

def overlapWarning? (source : Text) (dropped kept : Edit) : Option Diagnostic := do
  let location ← source.locationAt? dropped.span.start
  return .warning ("rewrite '" ++ dropped.rule ++ "' overlaps rewrite '" ++ kept.rule
    ++ "'; left unchanged") location

/-- `applyEdits` with all cuts and positions checked. -/
def applyEdits? (source : Text) (style : Style) (edits : List Edit) : Option Applied := do
  let separated ← separateBlanks? source edits
  let (roots, dropped) := nest separated
  let whole : Span := ⟨0, source.size⟩
  let diagnostics ← dropped.mapM fun (d, k) => overlapWarning? source d k
  let output ← splice? source (renderAll? source style roots) whole
  let emitted := marked (shown [whole] (spans roots)) (emittedAll roots)
  return { output, counts := Counts.ofNames (emitted.map (·.rule)), diagnostics }

theorem mapM_overlapWarning?_eq {source : Text} {dropped : List (Edit × Edit)}
    (h : ∀ d ∈ dropped, d.1.Fits source) : (dropped.mapM fun d => overlapWarning? source d.1 d.2) =
      some (dropped.map fun d => overlapWarning source d.1 d.2) := by
  induction dropped with
  | nil => rfl
  | cons d rest ih =>
    obtain ⟨hd, hrest⟩ := List.forall_mem_cons.mp h
    have hwarning : overlapWarning? source d.1 d.2 = some (overlapWarning source d.1 d.2) := by
      rw [overlapWarning?, hd.span.start.locationAt?_eq]
      rfl
    rw [List.mapM_cons, hwarning, ih hrest]
    rfl

theorem forest_fits {source : Text} {edits : List Edit} (h : ∀ e ∈ edits, e.Fits source) :
    (∀ e ∈ editsAll (forest source edits), e.Fits source) ∧ ∀ e ∈ overlapping source edits, e.Fits source := by
  have hperm := nest_perm (separateBlanks source edits)
  constructor
  · exact fun e he => separateBlanks_fits h e (hperm.mem_iff.mp (List.mem_append_left _ he))
  · exact fun e he => separateBlanks_fits h e (hperm.mem_iff.mp (List.mem_append_right _ he))

/-- No cut is out of range when edits are applied that fit. -/
theorem applyEdits?_eq {source : Text} {edits : List Edit} (style : Style) (h : ∀ e ∈ edits, e.Fits source) :
    applyEdits? source style edits = some (applyEdits source style edits) := by
  obtain ⟨hforest, hdropped⟩ := forest_fits h
  have hwhole : Span.PieceOf source ⟨0, source.size⟩ :=
    ⟨Nat.zero_le _, Text.Boundary.zero source, Text.Boundary.self source⟩
  have houtput : splice? source (renderAll? source style (forest source edits)) ⟨0, source.size⟩ = _ :=
    splice?_eq hwhole (render?_eq_of_mem _ hforest)
  have hwarnings : ((nest (separateBlanks source edits)).2.mapM fun d => overlapWarning? source d.1 d.2) = _ :=
    mapM_overlapWarning?_eq fun d hd => hdropped d.1 (List.mem_map_of_mem hd)
  unfold applyEdits? applyEdits
  unfold forest at houtput
  simp only [separateBlanks?_eq h, Option.bind_eq_bind, Option.bind_some]
  generalize nest (separateBlanks source edits) = nested at houtput hwarnings ⊢
  obtain ⟨roots, dropped⟩ := nested
  simp only at houtput hwarnings ⊢
  rw [hwarnings, Option.bind_some, houtput, Option.bind_some]
  rfl

/-! ### What comes out -/

namespace EditTree

/-- `us` is the forest `ts`, or all that hangs right below some edit of it. -/
inductive SiblingsIn (ts : List EditTree) : List EditTree → Prop
  | top : SiblingsIn ts ts
  | inside {us : List EditTree} {u : EditTree} (hus : SiblingsIn ts us) (hu : u ∈ us) : SiblingsIn ts u.children

theorem SiblingsIn.row {lo hi : Nat} {ts us : List EditTree} (h : SiblingsIn ts us) (hts : Row lo hi ts) :
    ∃ lo hi, Row lo hi us := by
  induction h with
  | top => exact ⟨lo, hi, hts⟩
  | @inside us u hus hu ih =>
    obtain ⟨lo', hi', hrow⟩ := ih
    cases u with
    | node e children => exact ⟨_, _, (hrow.mem hu).2.1.2⟩

theorem Row.pairwise {lo hi : Nat} {ts : List EditTree} (h : Row lo hi ts) :
    (spans ts).Pairwise fun a b => a.stop ≤ b.start := by
  induction ts generalizing lo with
  | nil => exact List.Pairwise.nil
  | cons t rest ih =>
    obtain ⟨-, -, hrest⟩ := h
    refine List.pairwise_cons.mpr ⟨?_, ih hrest⟩
    rintro s hs
    obtain ⟨u, hu, rfl⟩ := List.mem_map.mp hs
    exact (hrest.mem hu).1

/-- The source from `pos` on, with the text of each tree in place of its span. -/
def interleave (source : Text) (style : Style) : Nat → List EditTree → String
  | pos, [] => source.cut ⟨pos, source.size⟩
  | pos, t :: rest =>
    source.cut ⟨pos, t.span.start⟩ ++ t.render source style ++ interleave source style t.span.stop rest

theorem splice_eq_interleave {source : Text} {ts : List EditTree} (style : Style) (h : Row 0 source.size ts) :
    splice source (renderAll source style ts) ⟨0, source.size⟩ = interleave source style 0 ts := by
  have hspliced : spliceable ⟨0, source.size⟩ 0 (spans ts) = ts.map fun _ => true := by
    rw [spliceable_contained h (Nat.le_max_left _ _)]
    refine List.map_congr_left fun t ht => ?_
    simpa [Span.contains] using (h.mem ht).2.2
  have hmarked (pos : Nat) (ts : List EditTree) : spliceMarked source ⟨0, source.size⟩ pos
      ((ts.map fun _ => true).zip (renderAll source style ts)) = interleave source style pos ts := by
    induction ts generalizing pos with
    | nil => rfl
    | cons t rest ih =>
      simp only [List.map_cons, renderAll, List.zip_cons_cons, spliceMarked, ↓reduceIte, ih, interleave]
      rfl
  rw [splice, renderAll_spans, hspliced, hmarked]

end EditTree

/-- Fitting edits are applied without a cut out of range. The roots of their forest are pieces of the text that
stand one behind the other, what comes out is the text between them with the text of each root in its place,
and wherever a list of siblings is spliced into a span, all of them are that lie in it. -/
theorem applyEdits_frame {source : Text} {edits : List Edit} (style : Style) (h : ∀ e ∈ edits, e.Fits source) :
    applyEdits? source style edits = some (applyEdits source style edits) ∧
    ((∀ s ∈ spans (forest source edits), s.PieceOf source) ∧
      (spans (forest source edits)).Pairwise fun a b => a.stop ≤ b.start) ∧
    (applyEdits source style edits).output = interleave source style 0 (forest source edits) ∧
    ∀ us, SiblingsIn (forest source edits) us → ∀ limit : Span,
      spliceable limit limit.start (spans us) = (spans us).map limit.contains := by
  have hrow : Row 0 source.size (forest source edits) := forest_row fun e he => (h e he).inside
  refine ⟨applyEdits?_eq style h, ⟨?_, hrow.pairwise⟩, ?_, ?_⟩
  · rintro s hs
    obtain ⟨t, ht, rfl⟩ := List.mem_map.mp hs
    have hrendered : t.span.PieceOf source ∧ t.render? source style = some (t.render source style) :=
      render?_eq_of_mem _ (forest_fits h).1 t ht
    exact hrendered.1
  · rw [(applyEdits_eq source style edits).1]
    exact splice_eq_interleave style hrow
  · intro us hus limit
    obtain ⟨lo, hi, hrow⟩ := hus.row hrow
    rw [spliceable_contained hrow (Nat.le_max_left _ _), spans, List.map_map]
    rfl

/-- Two deletions that share a blank, a replacement that begins inside the second of them and ends behind it,
and one that embeds a letter of two bytes. -/
theorem applyEdits_frame_overlap :
    let source : Text := "f(é); a(); b();\n".toList
    let edits := [⟨⟨6, 12⟩, .delete, "first"⟩, ⟨⟨11, 15⟩, .delete, "second"⟩,
      Edit.replaceText ⟨13, 16⟩ "!" "late", Edit.replace ⟨0, 5⟩ (.callPath "g" [.source ⟨2, 4⟩ 20]) "call"]
    (∀ e ∈ edits, e.Fits source) ∧ applyEdits? source {} edits = some (applyEdits source {} edits) ∧
      (applyEdits source {} edits).output = interleave source {} 0 (forest source edits) := by
  intro source edits
  have hfits : ∀ e ∈ edits, e.Fits source := by decide
  obtain ⟨happlied, -, houtput, -⟩ := applyEdits_frame {} hfits
  exact ⟨hfits, happlied, houtput⟩

end TestMigration
