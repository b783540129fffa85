import TestMigration.Import.Plan
import TestMigration.Proofs.Grammar.Parsed
import TestMigration.Proofs.Import.Statements
import TestMigration.Proofs.Text.Line
import TestMigration.Proofs.Tree.Nested

/-!
# Where new declarations go

New declarations go in front of the line of the first declaration or statement, or behind the line of a directive.
This is between two statements if nothing reaches into the line from an earlier one, or from the line of the directive
into the next (`ImportScan.Parted`). Main statement: `ImportPlanner.insertion_boundary_iff`.
-/

namespace TestMigration

/-- The offset lies between the first and the last byte of the node. -/
def Node.Cut (n : Node) (offset : Nat) : Prop := n.start < offset ∧ offset < n.stop

instance (n : Node) (offset : Nat) : Decidable (n.Cut offset) := inferInstanceAs (Decidable (_ ∧ _))

/-- No statement of the file and no comment is cut at the offset, and the directive stands in front of it. -/
structure ImportScan.Boundary (scan : ImportScan) (tree : Node) (offset : Nat) : Prop where
  statements : ∀ n ∈ tree.children, ¬ n.Cut offset
  comments : ∀ s ∈ tree.sites, s.kind = .comment → ¬ s.node.Cut offset
  directive : ∀ d ∈ scan.directive, d.span.stop ≤ offset

set_option maxRecDepth 100000 in
/-- The first statement begins on the last line of a comment, and new declarations go into the comment. -/
theorem ImportPlanner.insertion_cuts : ¬ ∀ (grammar : Grammar) (text : String) (tree : Node) (p : ImportPlanner)
    (declarations : List String), Grammar.parse grammar text.toList = some tree →
    p.scan = ImportScan.ofTree text.toList tree →
      p.scan.Boundary tree (p.insertion text.toList declarations).span.start := by
  intro h
  obtain ⟨text, htext⟩ : ∃ text, text = "/* c\n*/ f();\n" := ⟨_, rfl⟩
  have hfile : (Grammar.parse .plain text.toList).any (fun tree =>
      tree.children.any fun n => decide (n.Cut (ImportPlanner.insertion
        { (default : ImportPlanner) with scan := ImportScan.ofTree text.toList tree } text.toList []).span.start)) =
      true := by
    rw [htext]
    decide +kernel
  obtain ⟨tree, hparse, hfile⟩ := (Option.any_eq_true _ _).mp hfile
  obtain ⟨n, hn, hcut⟩ := List.any_eq_true.mp hfile
  exact (h .plain text tree _ [] hparse rfl).statements n hn (of_decide_eq_true hcut)

/-! ### Lines of the top level -/

/-- What reaches into the line in front of the offset begins on it. -/
def Node.OpensLine (tree : Node) (source : Text) (offset : Nat) : Prop :=
  ∀ n ∈ tree.children, n.stop ≤ offset → source.lineStart offset < n.stop →
    source.lineStart n.start = source.lineStart offset

/-- What begins on the line behind the offset ends there. -/
def Node.EndsLine (tree : Node) (source : Text) (offset : Nat) : Prop :=
  ∀ n ∈ tree.children, offset ≤ n.start → source.lineStart offset = source.lineStart n.start →
    n.stop ≤ source.nextLine offset

instance (tree : Node) (source : Text) (offset : Nat) : Decidable (tree.OpensLine source offset) :=
  inferInstanceAs (Decidable (∀ n ∈ tree.children, _))

instance (tree : Node) (source : Text) (offset : Nat) : Decidable (tree.EndsLine source offset) :=
  inferInstanceAs (Decidable (∀ n ∈ tree.children, _))

/-- Statements and comments do not share the line that new declarations are put next to with the lines beyond. -/
def ImportScan.Parted (scan : ImportScan) (source : Text) (tree : Node) : Prop :=
  match scan.declarations.head?, scan.directive with
  | some first, directive => tree.OpensLine source first.statement.span.start ∧
      ∀ d ∈ directive, d.span.stop ≤ source.lineStart first.statement.span.start
  | none, some directive => '\n' ∈ source.dropBytes directive.span.stop → tree.EndsLine source directive.span.stop
  | none, none => ∀ s ∈ scan.firstStatement, tree.OpensLine source s.span.start

section
variable {source : Text} {tree : Node} {m : Node} {scan : ImportScan} {offset : Nat}

/-- All comments stand inside of statements or are among them. -/
theorem ImportScan.Boundary.of_statements (h : tree.Orderly) (hkind : tree.kind ≠ .comment)
    (hstatements : ∀ n ∈ tree.children, ¬ n.Cut offset) (hdirective : ∀ d ∈ scan.directive, d.span.stop ≤ offset) :
    scan.Boundary tree offset := by
  refine ⟨hstatements, ?_, hdirective⟩
  intro s hs hcomment hcut
  rcases Node.sites_cases hs with rfl | ⟨n, hn, hs⟩
  · exact hkind hcomment
  · obtain ⟨hstart, hstop⟩ := (h.child_orderly hn).site_within hs
    exact hstatements n hn ⟨Nat.lt_of_le_of_lt hstart hcut.1, Nat.lt_of_lt_of_le hcut.2 hstop⟩

/-- A statement that is cut at the beginning of a line stands in front of those that begin on the line. -/
theorem Node.forall_not_cut_lineStart (h : tree.Orderly) (hplaced : tree.Placed source) (hm : m ∈ tree.children) :
    (∀ n ∈ tree.children, ¬ n.Cut (source.lineStart m.start)) ↔ tree.OpensLine source m.start := by
  have hline := Text.lineStart_le source m.start
  have hmlt := (h.child hm).2.1
  have hmstart := (hplaced.child hm).start
  refine forall₂_congr fun n hn => ?_
  have hnlt := (h.child hn).2.1
  have hnstart := (hplaced.child hn).start
  constructor
  · intro hcut hstop hreaches
    have hle : source.lineStart m.start ≤ n.start := Nat.le_of_not_lt fun hlt => hcut ⟨hlt, hreaches⟩
    have hnm : n.start ≤ m.start := by omega
    exact (Text.lineStart_eq_iff hmstart hnstart hnm).mpr ((Text.lineStart_le_iff hmstart hnstart hnm).mp hle)
  · rintro hopens ⟨hstart, hstop⟩
    rcases Nat.lt_or_ge m.start n.stop with hlt | hle
    · -- it holds the first byte of the statement, so it is the statement
      obtain rfl : m = n := h.child_unique hm hn hlt (by omega)
      omega
    · have hsame := hopens hle hstop
      have hle := Text.lineStart_le source n.start
      omega

/-- A statement that is cut at the end of a line stands behind those that end on the line. -/
theorem Node.forall_not_cut_nextLine (h : tree.Orderly) (hplaced : tree.Placed source) (hm : m ∈ tree.children) :
    (∀ n ∈ tree.children, ¬ n.Cut (source.nextLine m.stop)) ↔ tree.EndsLine source m.stop := by
  have hline := Text.lt_nextLine source m.stop
  have hmlt := (h.child hm).2.1
  have hmstop := (hplaced.child hm).stop
  refine forall₂_congr fun n hn => ?_
  have hnlt := (h.child hn).2.1
  have hnstart := (hplaced.child hn).start
  constructor
  · intro hcut hstart hsame
    refine Nat.le_of_not_lt fun hlt => hcut ⟨?_, hlt⟩
    exact (Text.lt_nextLine_iff hnstart hmstop hstart).mpr ((Text.lineStart_eq_iff hnstart hmstop hstart).mp hsame)
  · rintro hends ⟨hstart, hstop⟩
    rcases Nat.lt_or_ge n.start m.stop with hlt | hle
    · obtain rfl : m = n := h.child_unique hm hn (by omega) hlt
      omega
    · have hsame := (Text.lineStart_eq_iff hnstart hmstop hle).mpr ((Text.lt_nextLine_iff hnstart hmstop hle).mp hstart)
      have hle := hends hle hsame
      omega

end

/-- New declarations go between statements and behind the directive if the line they are put next to is parted. -/
theorem ImportPlanner.insertion_boundary_iff {grammar : Grammar} {source : Text} {tree : Node} {p : ImportPlanner}
    (h : Grammar.parse grammar source = some tree) (hscan : p.scan = ImportScan.ofTree source tree)
    (declarations : List String) :
    p.scan.Boundary tree (p.insertion source declarations).span.start ↔ p.scan.Parted source tree := by
  have horderly := Grammar.parse_orderly h
  have hplaced := Grammar.parse_placed h
  have hcomments : tree.kind ≠ .comment := by
    rw [Grammar.parse_kind h]
    decide
  have hover : p.scan.Over (Site.children ⟨tree, []⟩) := hscan ▸ ImportScan.ofTree_over source tree
  have hboundary (offset : Nat) : p.scan.Boundary tree offset ↔
      (∀ n ∈ tree.children, ¬ n.Cut offset) ∧ ∀ d ∈ p.scan.directive, d.span.stop ≤ offset :=
    ⟨fun h => ⟨h.statements, h.directive⟩, fun h => .of_statements horderly hcomments h.1 h.2⟩
  have hstatement {s : Site} (hs : s ∈ Site.children ⟨tree, []⟩) : s.node ∈ tree.children := by
    obtain ⟨n, hn, rfl⟩ := List.mem_map.mp hs
    exact hn
  rw [hboundary]
  unfold insertion ImportScan.Parted
  cases hfirst : p.scan.declarations.head? with
  | some first =>
    have hmem := hstatement (hover.declarations first (List.mem_of_mem_head? hfirst))
    exact and_congr (Node.forall_not_cut_lineStart horderly hplaced hmem) .rfl
  | none =>
    cases hdirective : p.scan.directive with
    | some directive =>
      have hmem := hstatement (hover.directive directive hdirective)
      simp only [List.contains_iff_mem]
      split
      case isTrue hnewline =>
        have hline : ∀ d ∈ some directive, d.span.stop ≤ source.nextLine directive.span.stop := by
          rintro d ⟨⟩
          exact Nat.le_of_lt (Text.lt_nextLine source directive.span.stop)
        have hcut := Node.forall_not_cut_nextLine horderly hplaced hmem
        exact ⟨fun h _ => hcut.mp h.1, fun h => ⟨hcut.mpr (h hnewline), hline⟩⟩
      case isFalse hnewline =>
        -- nothing stands across the end of a statement
        refine ⟨fun _ h => absurd h hnewline, fun _ => ⟨?_, ?_⟩⟩
        · rintro n hn ⟨hstart, hstop⟩
          have hlt := (horderly.child hmem).2.1
          obtain rfl : n = directive.node := horderly.child_unique hn hmem hstart (Nat.lt_trans hlt hstop)
          exact Nat.lt_irrefl _ hstop
        · rintro d ⟨⟩
          exact Nat.le_refl _
    | none =>
      cases hstart : p.scan.firstStatement with
      | some first =>
        have hmem := hstatement (hover.firstStatement first hstart)
        have hcut := Node.forall_not_cut_lineStart horderly hplaced hmem
        exact ⟨fun h s hs => Option.some.inj hs ▸ hcut.mp h.1, fun h =>
          ⟨hcut.mpr (h first rfl), fun d hd => absurd hd (Option.not_mem_none d)⟩⟩
      | none =>
        exact ⟨fun _ s hs => absurd hs (Option.not_mem_none s), fun _ =>
          ⟨fun n _ hcut => Nat.not_lt_zero _ hcut.1, fun d hd => absurd hd (Option.not_mem_none d)⟩⟩

set_option maxRecDepth 100000 in
/-- A comment of several lines stands in front of the directive, and new declarations go behind. -/
theorem ImportPlanner.insertion_behind_directive : ∃ (text : String) (tree : Node) (p : ImportPlanner),
    Grammar.parse .plain text.toList = some tree ∧ p.scan = ImportScan.ofTree text.toList tree ∧
    (p.insertion text.toList []).span.start = 21 ∧
    p.scan.Boundary tree (p.insertion text.toList []).span.start := by
  obtain ⟨text, htext⟩ : ∃ text, text = "/*\n */ 'use strict';\nf();\n" := ⟨_, rfl⟩
  have hfile : (Grammar.parse .plain text.toList).any (fun tree =>
      let scan := ImportScan.ofTree text.toList tree
      let p : ImportPlanner := { (default : ImportPlanner) with scan }
      (p.insertion text.toList []).span.start == 21 && scan.declarations.head?.isNone &&
        scan.directive.any fun d => decide (tree.EndsLine text.toList d.span.stop)) = true := by
    rw [htext]
    decide +kernel
  obtain ⟨tree, hparse, hfile⟩ := (Option.any_eq_true _ _).mp hfile
  simp only [Bool.and_eq_true, beq_iff_eq, Option.isNone_iff_eq_none] at hfile
  obtain ⟨⟨hstart, hnone⟩, hfile⟩ := hfile
  obtain ⟨d, hd, hends⟩ := (Option.any_eq_true _ _).mp hfile
  refine ⟨text, tree, _, hparse, rfl, hstart, (ImportPlanner.insertion_boundary_iff hparse rfl []).mpr ?_⟩
  unfold ImportScan.Parted
  rw [hnone, hd]
  exact fun _ => of_decide_eq_true hends

end TestMigration
