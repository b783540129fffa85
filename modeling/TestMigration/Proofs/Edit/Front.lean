import TestMigration.Proofs.Edit.Checked
import TestMigration.Proofs.Edit.Containment
import TestMigration.Proofs.Text.Line

/-!
# Adding text in front of all other edits

A text that is added at the beginning of a line, in front of everything that the other edits touch, comes out there,
and what follows is what comes out without it.

Main statement: `applyEdits_insert_front`.
-/

namespace TestMigration

namespace Text

variable {t front : Text}

theorem eq_nil_or_newline (h : lastLine front = []) : front = [] ∨ ∃ t, front = t ++ ['\n'] := by
  rcases List.eq_nil_or_concat front with rfl | ⟨t, c, rfl⟩
  · exact .inl rfl
  · rw [List.concat_eq_append] at h ⊢
    by_cases hc : c = '\n'
    · exact .inr ⟨t, by rw [hc]⟩
    · rw [lastLine_append (by simpa using Ne.symm hc)] at h
      simp at h

/-- Margin behind whole lines is margin of the next line. -/
theorem dropBackWhile_isMargin_append (h : lastLine front = []) (t : Text) :
    dropBackWhile isMargin (front ++ t) = front ++ dropBackWhile isMargin t := by
  have hfront : front.reverse.dropWhile isMargin = front.reverse := by
    rcases eq_nil_or_newline h with rfl | ⟨u, rfl⟩
    · rfl
    · rw [List.reverse_append]
      rfl
  unfold dropBackWhile
  rw [List.reverse_append, List.dropWhile_append, hfront]
  split
  · rename_i hempty
    rw [List.isEmpty_iff.mp hempty]
    simp
  · simp

/-- What stands in front of a line is made of whole lines. -/
theorem lastLine_takeBytes_lineStart (t : Text) (a : Nat) : lastLine (t.takeBytes (t.lineStart a)) = [] := by
  obtain ⟨after, hafter⟩ := takeBytes_prefix a t
  obtain ⟨lines, hlines⟩ : ∃ lines, lines = dropBackWhile (· != '\n') (t.takeBytes a) := ⟨_, rfl⟩
  have hsplit : t.takeBytes a = lines ++ lastLine (t.takeBytes a) := by
    rw [hlines, dropBackWhile, lastLine, ← List.reverse_append, List.takeWhile_append_dropWhile, List.reverse_reverse]
  have hsize : t.lineStart a = size lines := by
    have hsize := congrArg size hsplit
    rw [size_append] at hsize
    rw [lineStart]
    omega
  have htake : t.takeBytes (size lines) = lines := by
    rw [← hafter, hsplit, List.append_assoc, takeBytes_size_append]
  have hhead := List.head?_dropWhile_not (· != '\n') (t.takeBytes a).reverse
  rw [hsize, htake, hlines, dropBackWhile, lastLine, List.reverse_reverse]
  cases hback : (t.takeBytes a).reverse.dropWhile (· != '\n') with
  | nil => rfl
  | cons c rest =>
    rw [hback] at hhead
    obtain rfl : c = '\n' := by simpa using hhead
    rfl

end Text

theorem Edit.insert_isInsert (offset : Nat) (text rule : String) : (Edit.insert offset text rule).isInsert = true := by
  simp [insert, isInsert, Span.isEmpty]

/-- The edit comes behind a text that is added at the offset. -/
structure Edit.Behind (offset : Nat) (e : Edit) : Prop where
  le : offset ≤ e.span.start
  ne : e.span.start = offset → e.isInsert = false

instance (offset : Nat) (e : Edit) : Decidable (e.Behind offset) :=
  decidable_of_iff (offset ≤ e.span.start ∧ (e.span.start = offset → e.isInsert = false))
    ⟨fun ⟨hle, hne⟩ => ⟨hle, hne⟩, fun ⟨hle, hne⟩ => ⟨hle, hne⟩⟩

section
variable {front body : Text} {edits : List Edit} {text rule : String} {e : Edit}

theorem le_size_dropBackWhile (body : Text) {k : Nat} (hfront : front.lastLine = []) (hle : front.size ≤ k) :
    front.size ≤ Text.size (Text.dropBackWhile isMargin ((front ++ body).takeBytes k)) := by
  rw [Text.takeBytes_append body hle, Text.dropBackWhile_isMargin_append hfront, Text.size_append]
  exact Nat.le_add_right ..

/-- The added text is no obstacle for a deletion that gives up blanks. -/
theorem yieldBlanks_insert {previous next : Span} (hfront : front.lastLine = []) (hle : front.size ≤ previous.start) :
    yieldBlanks (front ++ body) (edits ++ [.insert front.size text rule]) previous next =
      yieldBlanks (front ++ body) edits previous next := by
  have hkept := le_size_dropBackWhile body hfront hle
  unfold yieldBlanks
  dsimp only
  rw [List.any_append]
  generalize Text.size (Text.dropBackWhile isMargin ((front ++ body).takeBytes previous.start)) = kept at hkept
  have hfree : ([Edit.insert front.size text rule].any fun e => decide (e.span.start < previous.start) &&
      decide (kept < e.span.stop)) = false := by
    simp only [Edit.insert, List.any_cons, List.any_nil, Bool.or_false, Bool.and_eq_false_iff, decide_eq_false_iff_not]
    omega
  rw [hfree, Bool.or_false]

theorem yieldBlanks_le {previous next span : Span} (hfront : front.lastLine = []) (hle : front.size ≤ previous.start)
    (h : yieldBlanks (front ++ body) edits previous next = some span) : front.size ≤ span.start := by
  unfold yieldBlanks at h
  dsimp only at h
  split at h
  · cases h
  · cases h
    dsimp only
    split
    · exact le_size_dropBackWhile body hfront hle
    · exact hle

theorem separateDeletions_insert (body : Text) (text rule : String) (hfront : front.lastLine = []) :
    ∀ (order : List Nat) (edits : List Edit), (∀ i ∈ order, i < edits.length) →
      (∀ e ∈ edits, e.Behind front.size) →
      separateDeletions (front ++ body) order (edits ++ [.insert front.size text rule]) =
          separateDeletions (front ++ body) order edits ++ [.insert front.size text rule] ∧
        ∀ e ∈ separateDeletions (front ++ body) order edits, e.Behind front.size
  | [], _, _, h => ⟨rfl, h⟩
  | [_], _, _, h => ⟨rfl, h⟩
  | i :: j :: rest, edits, horder, h => by
    obtain ⟨hi, horder⟩ := List.forall_mem_cons.mp horder
    have hj := horder j List.mem_cons_self
    unfold separateDeletions
    dsimp only
    rw [List.getElem?_append_left hi, List.getElem?_append_left hj, List.getElem?_eq_getElem hi,
      List.getElem?_eq_getElem hj]
    dsimp only
    have hbehind := h _ (List.getElem_mem hi)
    rw [yieldBlanks_insert hfront hbehind.le]
    cases hyield : yieldBlanks (front ++ body) edits edits[i].span edits[j].span with
    | none => exact separateDeletions_insert body text rule hfront (j :: rest) edits horder h
    | some span =>
      dsimp only
      obtain ⟨-, hlt, hstop, -⟩ := yieldBlanks_eq_some hyield
      have hset : ∀ e ∈ edits.set i { edits[i] with span }, e.Behind front.size := by
        intro e he
        rcases List.mem_or_eq_of_mem_set he with he | rfl
        · exact h e he
        · have hstart := (yieldBlanks_eq_some hyield).1
          refine ⟨yieldBlanks_le hfront hbehind.le hyield, fun _ => ?_⟩
          have hne : ¬ span.stop ≤ span.start := by omega
          simpa [Edit.isInsert, Span.isEmpty] using hne
      rw [List.set_append_left _ _ hi]
      exact separateDeletions_insert body text rule hfront (j :: rest) _ (by simpa using horder) hset

theorem sortByPosition_insert (h : ∀ e ∈ edits, e.Behind front.size) :
    Edit.sortByPosition (edits ++ [.insert front.size text rule]) =
      .insert front.size text rule :: Edit.sortByPosition edits := by
  induction edits with
  | nil => rfl
  | cons e rest ih =>
    obtain ⟨he, hrest⟩ := List.forall_mem_cons.mp h
    have hlater : ¬ e.precedes (.insert front.size text rule) = true := by
      rw [Edit.precedes_iff, Edit.insert_isInsert]
      rintro (hlt | ⟨heq, ⟨-, hfalse⟩ | ⟨htrue, -⟩⟩)
      · exact Nat.not_lt_of_le he.le hlt
      · cases hfalse
      · rw [he.ne heq] at htrue
        cases htrue
    have hstep : Edit.sortByPosition (e :: rest ++ [.insert front.size text rule]) =
        e.insertByPosition (Edit.sortByPosition (rest ++ [.insert front.size text rule])) := rfl
    rw [hstep, ih hrest, Edit.insertByPosition, if_neg hlater]
    rfl

end

/-! ### Roots in front -/

namespace Nesting

/-- The pass with one more finished tree in front of all others. -/
def withFirst (n : Nesting) (t : EditTree) : Nesting := { n with roots := n.roots ++ [t] }

theorem closeUntil_append (stays : Edit → Bool) (opened : List OpenEdit) (finished roots : List EditTree)
    (t : EditTree) : closeUntil stays opened finished (roots ++ [t]) =
      ((closeUntil stays opened finished roots).1, (closeUntil stays opened finished roots).2 ++ [t]) := by
  induction opened generalizing finished with
  | nil => simp [closeUntil]
  | cons o rest ih =>
    simp only [closeUntil]
    split
    · rfl
    · exact ih _

theorem place_withFirst (n : Nesting) (t : EditTree) (e : Edit) :
    (n.withFirst t).place e = (n.place e).withFirst t := by
  unfold place withFirst
  dsimp only
  rw [closeUntil_append]
  dsimp only
  split
  · split <;> rfl
  · split
    · rfl
    · split <;> rfl

theorem foldl_place_withFirst (l : List Edit) (n : Nesting) (t : EditTree) :
    l.foldl place (n.withFirst t) = (l.foldl place n).withFirst t := by
  induction l generalizing n with
  | nil => rfl
  | cons e rest ih => rw [List.foldl_cons, List.foldl_cons, place_withFirst, ih]

theorem finish_withFirst (n : Nesting) (t : EditTree) : (n.withFirst t).finish = t :: n.finish := by
  unfold finish withFirst
  dsimp only
  rw [closeUntil_append]
  simp

theorem place_insert {e : Edit} (h : e.isInsert = true) : place {} e = withFirst {} (.node e []) := by
  unfold place withFirst closeUntil
  dsimp only
  rw [if_pos h]
  rfl

end Nesting

section
variable {front body : Text} {edits : List Edit} {text rule : String}

open EditTree

theorem forest_insert (body : Text) (text rule : String) (hfront : front.lastLine = []) (h : ∀ e ∈ edits, e.Behind front.size) :
    forest (front ++ body) (edits ++ [.insert front.size text rule]) =
        .node (.insert front.size text rule) [] :: forest (front ++ body) edits ∧
      ∀ t ∈ forest (front ++ body) edits, front.size ≤ t.span.start := by
  have horder : deletionOrder (edits ++ [.insert front.size text rule]) = deletionOrder edits := by
    unfold deletionOrder
    rw [List.zipIdx_append, List.filter_append]
    simp [Edit.insert, Edit.isDelete]
  obtain ⟨hseparated, hbehind⟩ := separateDeletions_insert body text rule hfront
    (deletionOrder edits) edits (fun _ => lt_length_of_mem_deletionOrder) h
  constructor
  · unfold forest separateBlanks nest
    rw [horder, hseparated, sortByPosition_insert hbehind, List.foldl_cons,
      Nesting.place_insert (Edit.insert_isInsert ..), Nesting.foldl_place_withFirst]
    exact Nesting.finish_withFirst _ _
  · intro t ht
    have hmem : t.edit ∈ separateBlanks (front ++ body) edits := by
      refine (nest_perm (separateBlanks (front ++ body) edits)).mem_iff.mp (List.mem_append_left _ ?_)
      exact mem_editsAll.mpr ⟨t, ht, edit_mem_edits t⟩
    exact (hbehind _ hmem).le

/-- What comes out in front of all roots is the source. -/
theorem interleave_front (style : Style) {ts : List EditTree} (h : ∀ t ∈ ts, front.size ≤ t.span.start) :
    interleave (front ++ body) style 0 ts = String.ofList front ++ interleave (front ++ body) style front.size ts := by
  have hcut {k : Nat} (hk : front.size ≤ k) :
      (front ++ body).cut ⟨0, k⟩ = String.ofList front ++ (front ++ body).cut ⟨front.size, k⟩ := by
    unfold Text.cut Text.slice
    rw [Text.dropBytes_zero, Nat.sub_zero, Text.takeBytes_append body hk, Text.dropBytes_size, String.ofList_append]
  cases ts with
  | nil => exact hcut (by rw [Text.size_append]; exact Nat.le_add_right ..)
  | cons t rest =>
    rw [interleave, interleave, hcut (h t List.mem_cons_self)]
    simp only [String.append_assoc]

/-- A text that is added at the beginning of a line and in front of all other edits stands there in what comes out. -/
theorem applyEdits_insert_front {source : Text} {k : Nat} (style : Style) (hk : source.Boundary k)
    (hline : (source.takeBytes k).lastLine = []) (hinside : ∀ e ∈ edits, e.Inside source.size)
    (h : ∀ e ∈ edits, e.Behind k) :
    ∃ rest : Text, (applyEdits source style edits).output.toList = source.takeBytes k ++ rest ∧
      (applyEdits source style (edits ++ [.insert k text rule])).output.toList =
        source.takeBytes k ++ (text.toList ++ rest) := by
  obtain ⟨front, body, rfl, rfl⟩ := hk
  rw [Text.takeBytes_size_append] at hline ⊢
  obtain ⟨hforest, hroots⟩ := forest_insert body text rule hline h
  have houtput {edits : List Edit} (hinside : ∀ e ∈ edits, e.Inside (front ++ body).size) :
      (applyEdits (front ++ body) style edits).output =
        interleave (front ++ body) style 0 (forest (front ++ body) edits) := by
    rw [(applyEdits_eq _ style edits).1]
    exact splice_eq_interleave style (forest_row hinside)
  refine ⟨(interleave (front ++ body) style front.size (forest (front ++ body) edits)).toList, ?_, ?_⟩
  · rw [houtput hinside, interleave_front style hroots, String.toList_append, String.toList_ofList]
  · have hinsert : (Edit.insert front.size text rule).Inside (front ++ body).size :=
      (Text.Boundary.of_prefix (List.prefix_append front body)).insert_inside text rule
    have hall : ∀ e ∈ edits ++ [.insert front.size text rule], e.Inside (front ++ body).size :=
      List.forall_mem_append.mpr ⟨hinside, List.forall_mem_singleton.mpr hinsert⟩
    have hfirst : interleave (front ++ body) style 0
        (.node (.insert front.size text rule) [] :: forest (front ++ body) edits) =
        (front ++ body).cut ⟨0, front.size⟩ ++ text ++
          interleave (front ++ body) style front.size (forest (front ++ body) edits) := rfl
    have hcut : (front ++ body).cut ⟨0, front.size⟩ = String.ofList front := by
      rw [Text.cut, Text.slice, Text.dropBytes_zero, Nat.sub_zero, Text.takeBytes_size_append]
    rw [houtput hall, hforest, hfirst, hcut]
    simp only [String.toList_append, String.toList_ofList, List.append_assoc]

end

end TestMigration
