import TestMigration.Proofs.Edit.Applied

/-!
# What is copied from the source

The text that edits leave is made of new text and of pieces copied from the source. `EditTree.copies`
lists the copied spans: an expression copies the spans that it embeds, with the edits that lie in them in
place. A tree keeps a span (`EditTree.Keeps`) when the span lies between the trees that are spliced into one
it embeds, or through a tree that is spliced in; it embeds a byte (`EditTree.Embeds`) in the same way.

Main statements: `applyEdits_written`, the output is new text and the copied spans, `whole_copied_iff`, which
spans are copied in one piece, and `held_copied_iff`, which bytes are copied.
-/

namespace TestMigration

/-- `text` is made of new text and of the given spans of the source, in this order. -/
inductive Written (source : Text) : String → List Span → Prop
  | new (text : String) : Written source text []
  | copy (span : Span) : Written source (source.cut span) [span]
  | append {a b : String} {ss ts : List Span} (ha : Written source a ss) (hb : Written source b ts) :
    Written source (a ++ b) (ss ++ ts)

namespace Written

variable {source : Text} {text : String} {ss : List Span}

theorem after (h : Written source text ss) (t : String) : Written source (t ++ text) ss :=
  (Written.new t).append h

theorem before (h : Written source text ss) (t : String) : Written source (text ++ t) ss := by
  simpa using h.append (Written.new t)

theorem parenthesizeIf (h : Written source text ss) (wrap : Bool) :
    Written source (parenthesizeIf wrap text) ss := by
  cases wrap with
  | false => exact h
  | true => exact (h.after "(").before ")"

theorem cut_infix_text (h : Written source text ss) : ∀ s ∈ ss, (source.cut s).toList <:+: text.toList := by
  induction h with
  | new t => simp
  | copy span => simp
  | append ha hb iha ihb =>
    rw [String.toList_append]
    refine List.forall_mem_append.mpr ⟨fun s hs => ?_, fun s hs => ?_⟩
    · exact (iha s hs).trans (List.prefix_append _ _).isInfix
    · exact (ihb s hs).trans (List.suffix_append _ _).isInfix

end Written

/-! ### Printing -/

section
variable {source : Text} {style : Style} {write : Span → String} {copies : Span → List Span}

mutual

theorem Expr.printAt_written (h : ∀ span, Written source (write span) (copies span)) (indent : String)
    (least : Nat) (e : Expr) :
    Written source (e.printAt style write indent least) (e.sources.flatMap copies) := by
  unfold Expr.printAt
  refine Written.parenthesizeIf ?_ _
  cases e with
  | source span prec => simpa [Expr.sources] using h span
  | ident name => exact Written.new name
  | str content => exact Written.new _
  | lit token => exact Written.new token
  | member object property => exact ((Expr.printAt_written h indent _ object).before ".").before property
  | optionalMember object property =>
    exact ((Expr.printAt_written h indent _ object).before "?.").before property
  | index object index =>
    have hobject := Expr.printAt_written h indent Precedence.member object
    have hindex := Expr.printAt_written h indent 0 index
    simpa [Expr.sources] using ((hobject.before "[").append hindex).before "]"
  | optionalIndex object index =>
    have hobject := Expr.printAt_written h indent Precedence.member object
    have hindex := Expr.printAt_written h indent 0 index
    simpa [Expr.sources] using ((hobject.before "?.[").append hindex).before "]"
  | call callee args =>
    have hcallee := Expr.printAt_written h indent Precedence.member callee
    have hargs := Expr.printList_written h indent args
    simpa [Expr.sources] using ((hcallee.before "(").append hargs).before ")"
  | new callee args =>
    have hcallee := Expr.printAt_written h indent Precedence.member callee
    have hargs := Expr.printList_written h indent args
    simpa [Expr.sources] using (((hcallee.after "new ").before "(").append hargs).before ")"
  | unary op operand => exact (Expr.printAt_written h indent _ operand).after op
  | binary left op right =>
    have hleft := Expr.printAt_written h indent (binaryPrecedence op) left
    have hright := Expr.printAt_written h indent (binaryPrecedence op + 1) right
    simpa [Expr.sources] using (((hleft.before " ").before op).before " ").append hright
  | arrow params body =>
    refine Written.after ?_ _
    split
    · exact ((Expr.printAt_written h indent 0 body).after "(").before ")"
    · exact Expr.printAt_written h indent _ body
  | arrowBlock params body =>
    have hbody := Stmt.printLines_written h (indent ++ style.indentUnit) body
    exact ((hbody.after _).before indent).before _
  | object fields =>
    dsimp only
    split
    · rename_i hempty
      rw [List.isEmpty_iff.mp hempty]
      exact Written.new _
    · exact ((Property.printList_written h indent fields).after _).before _
  | array items => exact ((Expr.printList_written h indent items).after "[").before "]"

theorem Expr.printList_written (h : ∀ span, Written source (write span) (copies span)) (indent : String) :
    ∀ es : List Expr, Written source (Expr.printList style write indent es)
      ((Expr.sourcesAll es).flatMap copies)
  | [] => Written.new ""
  | [e] => by
    simpa [Expr.sourcesAll, Expr.printList] using Expr.printAt_written h indent Precedence.assignment e
  | e :: e' :: rest => by
    have hfirst := Expr.printAt_written h indent Precedence.assignment e
    have hrest := Expr.printList_written h indent (e' :: rest)
    rw [Expr.sourcesAll, List.flatMap_append]
    exact (hfirst.before ", ").append hrest

theorem Property.printList_written (h : ∀ span, Written source (write span) (copies span))
    (indent : String) : ∀ ps : List Property, Written source (Property.printList style write indent ps)
      ((Property.sourcesAll ps).flatMap copies)
  | [] => Written.new ""
  | [p] => by
    simpa [Property.sourcesAll, Property.printList] using Property.print_written h indent p
  | p :: p' :: rest => by
    have hfirst := Property.print_written h indent p
    have hrest := Property.printList_written h indent (p' :: rest)
    rw [Property.sourcesAll, List.flatMap_append]
    exact (hfirst.before ", ").append hrest

theorem Property.print_written (h : ∀ span, Written source (write span) (copies span)) (indent : String) :
    ∀ p : Property, Written source (p.print style write indent) (p.sources.flatMap copies)
  | .mk key value => (Expr.printAt_written h indent _ value).after (key ++ ": ")

theorem Stmt.printLines_written (h : ∀ span, Written source (write span) (copies span)) (indent : String) :
    ∀ ss : List Stmt, Written source (Stmt.printLines style write indent ss)
      ((Stmt.sourcesAll ss).flatMap copies)
  | [] => Written.new ""
  | s :: rest => by
    have hfirst := Stmt.print_written h indent s
    have hrest := Stmt.printLines_written h indent rest
    rw [Stmt.sourcesAll, List.flatMap_append]
    exact ((hfirst.after indent).before "\n").append hrest

theorem Stmt.print_written (h : ∀ span, Written source (write span) (copies span)) (indent : String) :
    ∀ s : Stmt, Written source (s.print style write indent) (s.sources.flatMap copies)
  | .ifThen condition body => by
    have hcondition := Expr.printAt_written h indent 0 condition
    have hbody := Stmt.printLines_written h (indent ++ style.indentUnit) body
    rw [Stmt.sources, List.flatMap_append]
    exact ((((((hcondition.after "if (").before ") ").before _).append hbody).before indent).before _)
  | .returnNothing => Written.new _
  | .return value => ((Expr.printAt_written h indent 0 value).after "return ").before _
  | .throw value => ((Expr.printAt_written h indent 0 value).after "throw ").before _
  | .expr value => (Expr.printAt_written h indent 0 value).before _

end

end

/-! ### Copied spans -/

/-- The spans of `limit` from `pos` on that lie between the marked pieces, and those that the pieces copy. -/
def spliceCopiesMarked (limit : Span) : Nat → List (Bool × Span × List Span) → List Span
  | pos, [] => [⟨pos, limit.stop⟩]
  | pos, (marked, s, copies) :: rest =>
    if marked then ⟨pos, s.start⟩ :: (copies ++ spliceCopiesMarked limit s.stop rest)
    else spliceCopiesMarked limit pos rest

/-- The spans that are copied when pieces with their copies are spliced into `limit`. -/
def spliceCopies (pieces : List (Span × List Span)) (limit : Span) : List Span :=
  spliceCopiesMarked limit limit.start
    ((spliceable limit limit.start (pieces.map (·.1))).zip pieces)

namespace EditTree

mutual

/-- The spans of the source that the text of the tree copies. -/
def copies : EditTree → List Span
  | node e children =>
    match e.replacement with
    | .expr ex => ex.sources.flatMap (spliceCopies (copiesAll children))
    | _ => []

def copiesAll : List EditTree → List (Span × List Span)
  | [] => []
  | t :: rest => (t.edit.span, t.copies) :: copiesAll rest

end

theorem copiesAll_spans (ts : List EditTree) : (copiesAll ts).map (·.1) = spans ts := by
  induction ts with
  | nil => rfl
  | cons t rest ih => simp [copiesAll, spans, ih]

variable {source : Text} {style : Style}

theorem renderAll_spans (ts : List EditTree) : (renderAll source style ts).map (·.1) = spans ts := by
  induction ts with
  | nil => rfl
  | cons t rest ih => simp [renderAll, spans, ih]

theorem spliceMarked_written {limit : Span} {ts : List EditTree}
    (h : ∀ t ∈ ts, Written source (t.render source style) t.copies) (marks : List Bool) (pos : Nat) :
    Written source (spliceMarked source limit pos (marks.zip (renderAll source style ts)))
      (spliceCopiesMarked limit pos (marks.zip (copiesAll ts))) := by
  induction ts generalizing marks pos with
  | nil => simpa [renderAll, copiesAll, spliceMarked, spliceCopiesMarked] using Written.copy _
  | cons t rest ih =>
    obtain ⟨ht, hrest⟩ := List.forall_mem_cons.mp h
    cases marks with
    | nil => simpa [spliceMarked, spliceCopiesMarked] using Written.copy _
    | cons mark marks =>
      simp only [renderAll, copiesAll, List.zip_cons_cons, spliceMarked, spliceCopiesMarked]
      cases mark with
      | false => simpa using ih hrest marks pos
      | true =>
        have hcut : Written source _ _ := Written.copy ⟨pos, t.edit.span.start⟩
        simpa using (hcut.append ht).append (ih hrest marks t.edit.span.stop)

theorem splice_written {limit : Span} {ts : List EditTree}
    (h : ∀ t ∈ ts, Written source (t.render source style) t.copies) :
    Written source (splice source (renderAll source style ts) limit) (spliceCopies (copiesAll ts) limit) := by
  unfold splice spliceCopies
  rw [renderAll_spans, copiesAll_spans]
  exact spliceMarked_written h _ _

mutual

theorem render_written : ∀ t : EditTree, Written source (t.render source style) t.copies
  | node e children => by
    unfold render copies
    cases e.replacement with
    | delete => exact Written.new ""
    | text s => exact Written.new s
    | expr ex =>
      have hsplice (limit : Span) : Written source (splice source (renderAll source style children) limit)
          (spliceCopies (copiesAll children) limit) := splice_written (render_written_of_mem children)
      exact Expr.printAt_written hsplice _ 0 ex

theorem render_written_of_mem : ∀ ts : List EditTree, ∀ t ∈ ts,
    Written source (t.render source style) t.copies
  | [] => by simp
  | first :: rest => List.forall_mem_cons.mpr ⟨render_written first, render_written_of_mem rest⟩

end

end EditTree

/-! ### Spans that are kept -/

/-- The spans do not reach into each other. -/
def Span.Apart (s t : Span) : Prop := s.stop ≤ t.start ∨ t.stop ≤ s.start

/-- The span lies in one of the spans. -/
def Whole (spans : List Span) (s : Span) : Prop := ∃ c ∈ spans, c.contains s = true

instance (spans : List Span) (s : Span) : Decidable (Whole spans s) := inferInstanceAs (Decidable (∃ c ∈ _, _))

namespace EditTree

/-- The text of the tree brings the span back in one piece: it is copied with a span that the expression at the
top embeds, or by a tree that is spliced into one. -/
inductive Keeps (s : Span) : EditTree → Prop
  | here {e : Edit} {ex : Expr} {children : List EditTree} {limit : Span}
    (hexpr : e.replacement = .expr ex) (hlimit : limit ∈ ex.sources) (hholds : limit.contains s = true)
    (hfree : ∀ c ∈ children, limit.contains c.span = true → c.span.Apart s) : Keeps s (node e children)
  | inside {e : Edit} {ex : Expr} {children : List EditTree} {limit : Span} {c : EditTree}
    (hexpr : e.replacement = .expr ex) (hlimit : limit ∈ ex.sources) (hc : c ∈ children)
    (hinside : limit.contains c.span = true) (hkeeps : Keeps s c) : Keeps s (node e children)

theorem whole_spliceCopiesMarked {limit s : Span} {pos lo hi : Nat} {ts : List EditTree}
    (h : Row lo hi ts) (hpos : pos ≤ max limit.start lo) :
    Whole (spliceCopiesMarked limit pos ((ts.map fun t => limit.contains t.span).zip (copiesAll ts))) s ↔
      (pos ≤ s.start ∧ s.stop ≤ limit.stop ∧ ∀ t ∈ ts, limit.contains t.span = true → t.span.Apart s) ∨
      ∃ t ∈ ts, limit.contains t.span = true ∧ Whole t.copies s := by
  induction ts generalizing pos lo with
  | nil => simp [copiesAll, spliceCopiesMarked, Whole, Span.contains]
  | cons t rest ih =>
    obtain ⟨hlo, ht, hrest⟩ := h
    have hle := ht.start_le_stop
    rw [List.map_cons, copiesAll, List.zip_cons_cons, spliceCopiesMarked]
    cases hinside : limit.contains t.span with
    | false =>
      rw [if_neg (by simp), ih hrest (by omega)]
      simp [hinside]
    | true =>
      have hbounds : limit.start ≤ t.span.start ∧ t.span.stop ≤ limit.stop := by
        simpa [Span.contains] using hinside
      have hbehind {t' : EditTree} (ht' : t' ∈ rest) : t.span.stop ≤ t'.span.start := (hrest.mem ht').1
      have hsplit (l : List Span) : Whole (⟨pos, t.edit.span.start⟩ :: (t.copies ++ l)) s ↔
          (pos ≤ s.start ∧ s.stop ≤ t.span.start) ∨ Whole t.copies s ∨ Whole l s := by
        simp only [Whole, List.mem_cons, List.mem_append, or_and_right, exists_or, exists_eq_left,
          Span.contains, Bool.and_eq_true, decide_eq_true_eq]
        exact Iff.rfl
      rw [if_pos rfl, hsplit, show t.edit.span.stop = t.span.stop from rfl, ih hrest (by omega)]
      constructor
      · rintro (⟨hb, hlt⟩ | hcopied | ⟨hb, hlt, hfree⟩ | ⟨t', ht', hin, hcopied⟩)
        · refine Or.inl ⟨hb, by omega, List.forall_mem_cons.mpr ⟨fun _ => Or.inr hlt, ?_⟩⟩
          intro t' ht' _
          have := hbehind ht'
          exact Or.inr (by omega)
        · exact Or.inr ⟨t, List.mem_cons_self, hinside, hcopied⟩
        · exact Or.inl ⟨by omega, hlt, List.forall_mem_cons.mpr ⟨fun _ => Or.inl hb, hfree⟩⟩
        · exact Or.inr ⟨t', List.mem_cons_of_mem _ ht', hin, hcopied⟩
      · rintro (⟨hb, hlt, hfree⟩ | ⟨t', ht', hin, hcopied⟩)
        · obtain ⟨hfirst, hrest'⟩ := List.forall_mem_cons.mp hfree
          rcases hfirst hinside with hafter | hbefore
          · exact Or.inr (Or.inr (Or.inl ⟨hafter, hlt, hrest'⟩))
          · exact Or.inl ⟨hb, hbefore⟩
        · rcases List.mem_cons.mp ht' with rfl | ht'
          · exact Or.inr (Or.inl hcopied)
          · exact Or.inr (Or.inr (Or.inr ⟨t', ht', hin, hcopied⟩))

/-- What splicing a row into a span keeps whole: what lies between the trees, and what the trees keep. -/
theorem whole_spliceCopies {limit s : Span} {lo hi : Nat} {ts : List EditTree} (h : Row lo hi ts) :
    Whole (spliceCopies (copiesAll ts) limit) s ↔
      (limit.contains s = true ∧ ∀ t ∈ ts, limit.contains t.span = true → t.span.Apart s) ∨
      ∃ t ∈ ts, limit.contains t.span = true ∧ Whole t.copies s := by
  have hpos : limit.start ≤ max limit.start lo := Nat.le_max_left _ _
  have hcontains : limit.contains s = true ↔ limit.start ≤ s.start ∧ s.stop ≤ limit.stop := by
    simp [Span.contains]
  rw [spliceCopies, copiesAll_spans, spliceable_contained h hpos, whole_spliceCopiesMarked h hpos,
    ← and_assoc, hcontains]

mutual

theorem whole_copies_iff {s : Span} : ∀ {t : EditTree}, t.Laminar → (Whole t.copies s ↔ t.Keeps s)
  | node e children, h => by
    have hchildren := whole_copies_iff_of_row (s := s) h.2
    unfold copies
    constructor
    · rintro ⟨c, hc, hs⟩
      split at hc
      · rename_i ex hexpr
        obtain ⟨limit, hlimit, hc⟩ := List.mem_flatMap.mp hc
        rcases (whole_spliceCopies h.2).mp ⟨c, hc, hs⟩ with ⟨hholds, hfree⟩ | ⟨t, ht, hin, hcopied⟩
        · exact Keeps.here hexpr hlimit hholds hfree
        · exact Keeps.inside hexpr hlimit ht hin ((hchildren t ht).mp hcopied)
      · cases hc
    · intro hkeeps
      have hcopied {ex : Expr} {limit : Span} (hexpr : e.replacement = .expr ex)
          (hlimit : limit ∈ ex.sources) (hspliced : Whole (spliceCopies (copiesAll children) limit) s) :
          Whole (copies (node e children)) s := by
        obtain ⟨c, hc, hs⟩ := hspliced
        refine ⟨c, ?_, hs⟩
        unfold copies
        rw [hexpr]
        exact List.mem_flatMap.mpr ⟨limit, hlimit, hc⟩
      cases hkeeps with
      | here hexpr hlimit hholds hfree =>
        exact hcopied hexpr hlimit ((whole_spliceCopies h.2).mpr (Or.inl ⟨hholds, hfree⟩))
      | inside hexpr hlimit hc hin hkeeps =>
        exact hcopied hexpr hlimit
          ((whole_spliceCopies h.2).mpr (Or.inr ⟨_, hc, hin, (hchildren _ hc).mpr hkeeps⟩))

theorem whole_copies_iff_of_row {s : Span} : ∀ {ts : List EditTree} {lo hi : Nat}, Row lo hi ts →
    ∀ t ∈ ts, (Whole t.copies s ↔ t.Keeps s)
  | [], _, _, _ => by simp
  | _ :: _, _, _, h =>
    List.forall_mem_cons.mpr ⟨whole_copies_iff h.2.1, whole_copies_iff_of_row h.2.2⟩

end

end EditTree

/-- The forest that is applied for a list of edits. -/
def forest (source : Text) (edits : List Edit) : List EditTree := (nest (separateBlanks source edits)).1

/-- The edits that are dropped because they overlap another one. -/
def overlapping (source : Text) (edits : List Edit) : List Edit :=
  (nest (separateBlanks source edits)).2.map (·.1)

/-- The spans of the source that come back when edits are applied. -/
def copied (source : Text) (edits : List Edit) : List Span :=
  spliceCopies (EditTree.copiesAll (forest source edits)) ⟨0, source.size⟩

theorem applyEdits_written (source : Text) (style : Style) (edits : List Edit) :
    Written source (applyEdits source style edits).output (copied source edits) := by
  rw [(applyEdits_eq source style edits).1]
  exact EditTree.splice_written fun t _ => EditTree.render_written t

theorem forest_row {source : Text} {edits : List Edit} (h : ∀ e ∈ edits, e.Inside source.size) :
    EditTree.Row 0 source.size (forest source edits) := by
  have hseparated : ∀ e ∈ separateBlanks source edits, e.Inside source.size := separateBlanks_inside h
  exact nest_row (fun e he => (hseparated e he).start_le_stop) fun e he => (hseparated e he).stop_le

/-- A span that begins at a boundary and is copied in one piece is a piece of the output. -/
theorem Whole.cut_infix_output {source : Text} {edits : List Edit} {s : Span} (h : Whole (copied source edits) s)
    (hstart : source.Boundary s.start) (style : Style) :
    (source.cut s).toList <:+: (applyEdits source style edits).output.toList := by
  obtain ⟨c, hc, hcontains⟩ := h
  have hbounds : c.start ≤ s.start ∧ s.stop ≤ c.stop := by simpa [Span.contains] using hcontains
  refine List.IsInfix.trans ?_ ((applyEdits_written source style edits).cut_infix_text c hc)
  simpa [Text.cut] using Text.slice_infix hstart hbounds.1 hbounds.2

/-- A span comes back in one piece when no tree of the forest reaches into it, or when some tree keeps it. -/
theorem whole_copied_iff {source : Text} {edits : List Edit} (h : ∀ e ∈ edits, e.Inside source.size) {s : Span} :
    Whole (copied source edits) s ↔
      (s.stop ≤ source.size ∧ ∀ t ∈ forest source edits, t.span.Apart s) ∨
      ∃ t ∈ forest source edits, t.Keeps s := by
  have hrow := forest_row h
  have hwhole {t : EditTree} (ht : t ∈ forest source edits) :
      Span.contains ⟨0, source.size⟩ t.span = true := by
    have hstop := (hrow.mem ht).2.2
    simpa [Span.contains] using hstop
  rw [copied, EditTree.whole_spliceCopies hrow]
  constructor
  · rintro (⟨hs, hfree⟩ | ⟨t, ht, -, hcopied⟩)
    · exact Or.inl ⟨by simpa [Span.contains] using hs, fun t ht => hfree t ht (hwhole ht)⟩
    · exact Or.inr ⟨t, ht, (EditTree.whole_copies_iff (hrow.mem ht).2.1).mp hcopied⟩
  · rintro (⟨hs, hfree⟩ | ⟨t, ht, hkeeps⟩)
    · exact Or.inl ⟨by simpa [Span.contains] using hs, fun t ht _ => hfree t ht⟩
    · exact Or.inr ⟨t, ht, hwhole ht, (EditTree.whole_copies_iff (hrow.mem ht).2.1).mpr hkeeps⟩

/-! ### Copied bytes

A byte is a span of length one. -/

/-- The byte at `b` lies in one of the spans. -/
def Held (spans : List Span) (b : Nat) : Prop := ∃ s ∈ spans, s.Holds b

/-- The text of the tree brings the byte at `b` back: it is copied with a span that the expression at the top
embeds, or by a tree that is spliced into one. -/
inductive EditTree.Embeds (b : Nat) : EditTree → Prop
  | here {e : Edit} {ex : Expr} {children : List EditTree} {limit : Span}
    (hexpr : e.replacement = .expr ex) (hlimit : limit ∈ ex.sources) (hholds : limit.Holds b)
    (hfree : ∀ c ∈ children, limit.contains c.span = true → ¬ c.span.Holds b) : Embeds b (node e children)
  | inside {e : Edit} {ex : Expr} {children : List EditTree} {limit : Span} {c : EditTree}
    (hexpr : e.replacement = .expr ex) (hlimit : limit ∈ ex.sources) (hc : c ∈ children)
    (hinside : limit.contains c.span = true) (hembeds : Embeds b c) : Embeds b (node e children)

section
variable {b : Nat}

theorem Span.contains_byte_iff {s : Span} : s.contains ⟨b, b + 1⟩ = true ↔ s.Holds b := by
  simp only [Span.contains, Span.Holds, Bool.and_eq_true, decide_eq_true_eq]
  omega

theorem Span.apart_byte_iff {s : Span} : s.Apart ⟨b, b + 1⟩ ↔ ¬ s.Holds b := by
  simp only [Span.Apart, Span.Holds]
  omega

theorem whole_byte_iff {spans : List Span} : Whole spans ⟨b, b + 1⟩ ↔ Held spans b := by
  simp only [Whole, Held, Span.contains_byte_iff]

theorem EditTree.keeps_byte_iff {t : EditTree} : t.Keeps ⟨b, b + 1⟩ ↔ t.Embeds b := by
  constructor
  · intro h
    induction h with
    | here hexpr hlimit hholds hfree =>
      exact .here hexpr hlimit (Span.contains_byte_iff.mp hholds) fun c hc hin =>
        Span.apart_byte_iff.mp (hfree c hc hin)
    | inside hexpr hlimit hc hin _ ih => exact .inside hexpr hlimit hc hin ih
  · intro h
    induction h with
    | here hexpr hlimit hholds hfree =>
      exact .here hexpr hlimit (Span.contains_byte_iff.mpr hholds) fun c hc hin =>
        Span.apart_byte_iff.mpr (hfree c hc hin)
    | inside hexpr hlimit hc hin _ ih => exact .inside hexpr hlimit hc hin ih

end

/-- A byte comes back when no tree of the forest stands over it, or when some tree embeds it. -/
theorem held_copied_iff {source : Text} {edits : List Edit} (h : ∀ e ∈ edits, e.Inside source.size) {b : Nat} :
    Held (copied source edits) b ↔
      (b < source.size ∧ ∀ t ∈ forest source edits, ¬ t.span.Holds b) ∨
      ∃ t ∈ forest source edits, t.Embeds b := by
  rw [← whole_byte_iff, whole_copied_iff h]
  simp only [Span.apart_byte_iff, EditTree.keeps_byte_iff]
  exact Iff.rfl

/-- A byte under an edit lies under a tree of the forest or under a dropped edit. -/
theorem holds_forest_or_overlapping {source : Text} {edits : List Edit}
    (hinside : ∀ e ∈ edits, e.Inside source.size) {b : Nat} (h : ∃ e ∈ edits, e.span.Holds b) :
    (∃ t ∈ forest source edits, t.span.Holds b) ∨ ∃ e ∈ overlapping source edits, e.span.Holds b := by
  obtain ⟨e, he, hb⟩ : ∃ e ∈ separateBlanks source edits, e.span.Holds b := separateBlanks_holds h
  rcases List.mem_append.mp ((nest_perm _).mem_iff.mpr he) with he | he
  · obtain ⟨t, ht, he⟩ := EditTree.mem_editsAll.mp he
    have hlaminar := ((forest_row hinside).mem ht).2.1
    obtain ⟨hstart, hstop⟩ := EditTree.Laminar.contains hlaminar he
    exact Or.inl ⟨t, ht, Nat.le_trans hstart hb.1, Nat.lt_of_lt_of_le hb.2 hstop⟩
  · exact Or.inr ⟨e, he, hb⟩

end TestMigration
