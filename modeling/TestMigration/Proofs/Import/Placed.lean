import TestMigration.Proofs.Edit.Deletion
import TestMigration.Proofs.Import.Dropped

/-!
# Where imports are edited

The declarations that a scan finds are placed in the file, and so every edit that planning imports adds
lies in the file: deleted declarations, names added to a declaration, and new declarations.

Main statements: `ImportScan.ofTree_placed` and `ImportPlanner.plan_inside`.
-/

namespace TestMigration

/-- The sites that the declaration names are placed. -/
structure Declaration.Placed (source : Text) (d : Declaration) : Prop where
  statement : d.statement.Placed source
  namedClause : ∀ s ∈ d.namedClause, s.Placed source
  defaultNode : ∀ s ∈ d.defaultNode, s.Placed source

/-- The sites that the scan names are placed. -/
structure ImportScan.Placed (source : Text) (scan : ImportScan) : Prop where
  declarations : ∀ d ∈ scan.declarations, d.Placed source
  directive : ∀ s ∈ scan.directive, s.Placed source
  firstStatement : ∀ s ∈ scan.firstStatement, s.Placed source

section
variable {source t : Text} {statement : Site}

theorem commonJsDeclaration?_placed (hs : statement.Placed source) {d : Declaration}
    (h : commonJsDeclaration? t statement = some d) : d.Placed source := by
  unfold commonJsDeclaration? at h
  split at h
  · rename_i declarator hdeclarator
    have hmem : declarator ∈ statement.declarators := by
      rw [hdeclarator]
      exact List.mem_singleton_self _
    have hplaced := hs.children (List.mem_filter.mp hmem).1
    simp only [Option.bind_eq_bind, Option.bind_eq_some_iff] at h
    obtain ⟨value, -, specifier, -, pattern, hpattern, h⟩ := h
    split at h
    · cases h
      exact ⟨hs, by simp, by simp⟩
    · cases h
      exact ⟨hs, by simp, by simp⟩
    · cases h
      refine ⟨hs, ?_, by simp⟩
      intro s hs'
      cases hs'
      exact hplaced.child? hpattern
    · cases h
      exact ⟨hs, by simp, by simp⟩
  · cases h

theorem Declaration.Placed.addPart {d : Declaration} {part : Site} (h : d.Placed source)
    (hpart : part.Placed source) : (d.addPart t part).Placed source := by
  unfold Declaration.addPart
  split
  · refine ⟨h.statement, h.namedClause, ?_⟩
    intro s hs
    cases hs
    exact hpart
  · exact ⟨h.statement, h.namedClause, h.defaultNode⟩
  · refine ⟨h.statement, ?_, h.defaultNode⟩
    intro s hs
    cases hs
    exact hpart
  · exact h

theorem esmDeclaration?_placed (hs : statement.Placed source) {d : Declaration}
    (h : esmDeclaration? t statement = some d) : d.Placed source := by
  simp only [esmDeclaration?, Option.bind_eq_bind, Option.bind_eq_some_iff] at h
  obtain ⟨-, -, module', -, specifier, -, h⟩ := h
  have hstart : Declaration.Placed source { statement, specifier, dialect := .esm } :=
    ⟨hs, by simp, by simp⟩
  split at h
  · rename_i clause hclause
    cases h
    have hplaced := hs.children (List.mem_of_find?_eq_some hclause)
    have hfold (parts : List Site) (hparts : ∀ p ∈ parts, p.Placed source) (d : Declaration)
        (hd : d.Placed source) : (parts.foldl (Declaration.addPart t) d).Placed source := by
      induction parts generalizing d with
      | nil => exact hd
      | cons p rest ih =>
        obtain ⟨hp, hrest⟩ := List.forall_mem_cons.mp hparts
        exact ih hrest _ (hd.addPart hp)
    exact hfold _ (fun p hp => hplaced.children hp) _ hstart
  · cases h
    exact hstart

theorem ImportScan.Placed.addStatement {scan : ImportScan} (h : scan.Placed source)
    (hs : statement.Placed source) : (scan.addStatement statement).Placed source := by
  refine ⟨h.declarations, h.directive, ?_⟩
  intro s hs'
  cases hfirst : scan.firstStatement with
  | none =>
    simp [ImportScan.addStatement, hfirst] at hs'
    exact hs' ▸ hs
  | some first =>
    simp [ImportScan.addStatement, hfirst] at hs'
    exact h.firstStatement s (by simp [hfirst, hs'])

theorem ImportScan.Placed.declare {scan : ImportScan} {found : Option Declaration} {bound : List String}
    (h : scan.Placed source) (hs : statement.Placed source) (hfound : ∀ d ∈ found, d.Placed source) :
    (ImportScan.addStatement
      { scan with declarations := scan.declarations ++ found.toList, bound } statement).Placed source := by
  refine ImportScan.Placed.addStatement ⟨?_, h.directive, h.firstStatement⟩ hs
  exact List.forall_mem_append.mpr ⟨h.declarations, by simpa using hfound⟩

theorem ImportScan.Placed.add {scan : ImportScan} (h : scan.Placed source) (hs : statement.Placed source) :
    (scan.add t statement).Placed source := by
  unfold ImportScan.add
  split
  · exact h
  · exact h
  · split
    · exact h
    · split
      · refine ⟨h.declarations, ?_, h.firstStatement⟩
        intro s hs'
        cases hs'
        exact hs
      · refine h.declare hs ?_
        intro d hd
        obtain ⟨specifier, -, rfl⟩ := Option.map_eq_some_iff.mp hd
        exact ⟨hs, by simp, by simp⟩
  · exact h.declare hs fun d hd => esmDeclaration?_placed hs hd
  · exact h.declare hs fun d hd => commonJsDeclaration?_placed hs hd
  · exact h.declare hs fun d hd => commonJsDeclaration?_placed hs hd
  · exact ImportScan.Placed.addStatement ⟨h.declarations, h.directive, h.firstStatement⟩ hs
  · exact ImportScan.Placed.addStatement ⟨h.declarations, h.directive, h.firstStatement⟩ hs
  · exact h.addStatement hs

theorem ImportScan.ofTree_placed {tree : Node} (h : tree.Placed source) :
    (ImportScan.ofTree t tree).Placed source := by
  have hfold (sites : List Site) (hsites : ∀ s ∈ sites, s.Placed source) (scan : ImportScan)
      (hscan : scan.Placed source) : (sites.foldl (ImportScan.add t) scan).Placed source := by
    induction sites generalizing scan with
    | nil => exact hscan
    | cons s rest ih =>
      obtain ⟨hs, hrest⟩ := List.forall_mem_cons.mp hsites
      exact ih hrest _ (hscan.add hs)
  have hroot : Site.Placed source ⟨tree, []⟩ := ⟨h, by simp⟩
  exact hfold _ (fun s hs => hroot.children hs) _ ⟨by simp, by simp, by simp⟩

end

namespace ImportPlanner

variable {source : Text} {tree : Node} {p : ImportPlanner} {request : ImportRequest}

theorem dropLegacy_inside {edits : List Edit} (hscan : p.scan.Placed source)
    (h : ∀ e ∈ edits, e.Inside source.size) :
    ∀ e ∈ (p.dropLegacy source tree request edits).1, e.Inside source.size := by
  rw [dropLegacy_eq]
  intro e he
  rcases List.mem_append.mp he with he | he
  · exact h e he
  · obtain ⟨d, hd, rfl⟩ := List.mem_map.mp he
    exact (hscan.declarations d (mem_declarations_of_mem_deleted hd)).statement.deleteStatement_inside _

theorem importClause?_placed {d : Declaration} {clause : Site} (hd : d.Placed source)
    (h : importClause? d = some clause) : clause.Placed source := by
  unfold importClause? at h
  split at h
  · obtain ⟨named, hnamed, hparent⟩ := Option.bind_eq_some_iff.mp (Option.eq_some_of_filter_eq_some h)
    exact (hd.namedClause named hnamed).parent? hparent
  · cases h

theorem extend_inside {d : Declaration} {need : Need} (hd : d.Placed source) :
    ∀ e ∈ (p.extend d need).1, e.Inside source.size := by
  have hdefault (name : Option String) : ∀ e ∈ (addDefault d name).1, e.Inside source.size := by
    unfold addDefault
    split
    · simp
    · split
      · rename_i clause hclause
        simpa using (importClause?_placed hd hclause).start.insert_inside _ _
      · simp
  have hnamed (missing : List String) : ∀ e ∈ (addNamed d missing).1, e.Inside source.size := by
    unfold addNamed
    dsimp only
    split
    · simp
    · split
      · rename_i clause hclause
        have hplaced := hd.namedClause clause hclause
        split
        · rename_i last hlast
          simpa using (hplaced.parts (List.mem_of_getLast? hlast)).stop.insert_inside _ _
        · exact List.forall_mem_singleton.mpr (hplaced.inside _ _)
      · rename_i name _ hname
        split
        · simp
        · simpa using (hd.defaultNode name hname).stop.insert_inside _ _
      · simp
  exact List.forall_mem_append.mpr ⟨hdefault _, hnamed _⟩

theorem insertion_inside {declarations : List String} (hscan : p.scan.Placed source) :
    (p.insertion source declarations).Inside source.size := by
  have hline {s : Site} (hs : s.Placed source) (text rule : String) :
      (Edit.insert (source.lineStart s.span.start) text rule).Inside source.size :=
    ⟨Nat.le_refl _, Nat.le_trans (Text.lineStart_le ..) hs.start.le_size⟩
  unfold insertion
  dsimp only
  split
  · rename_i first hfirst
    exact hline (hscan.declarations first (List.mem_of_head? hfirst)).statement _ _
  · rename_i directive _ hdirective
    have hstop := (hscan.directive directive hdirective).stop
    split
    · rename_i hbreak
      -- the line break behind the directive is still part of the text
      have hrest := hstop.size_dropBytes
      have hsplit := Text.size_takeWhile_add_dropWhile (· != '\n') (source.dropBytes directive.span.stop)
      have hpos := Text.size_dropWhile_pos (p := (· != '\n')) (by simpa using hbreak) (by simp)
      refine ⟨Nat.le_refl _, ?_⟩
      simp only [Edit.insert]
      omega
    · exact hstop.insert_inside _ _
  · cases hfirst : p.scan.firstStatement with
    | none => exact (Text.Boundary.zero source).insert_inside _ _
    | some s => exact hline (hscan.firstStatement s hfirst) _ _

theorem plan_inside {edits : List Edit} (hscan : p.scan.Placed source)
    (h : ∀ e ∈ edits, e.Inside source.size) :
    ∀ e ∈ (p.plan source tree request edits).1, e.Inside source.size := by
  unfold plan
  dsimp only
  generalize hextended : (p.needs request).map _ = extended
  have hinside : ∀ e ∈ extended.flatMap (·.1), e.Inside source.size := by
    intro e he
    obtain ⟨pair, hpair, he⟩ := List.mem_flatMap.mp he
    rw [← hextended] at hpair
    obtain ⟨⟨specifier, need⟩, -, rfl⟩ := List.mem_map.mp hpair
    dsimp only at he
    split at he
    · rename_i d hd
      exact extend_inside (hscan.declarations d (List.mem_of_find?_eq_some hd)) e he
    · cases he
  have hdropped : ∀ e ∈ (p.dropLegacy source tree request edits).1, e.Inside source.size :=
    dropLegacy_inside hscan h
  have hedits := List.forall_mem_append.mpr ⟨hdropped, hinside⟩
  split
  · exact hedits
  · exact List.forall_mem_append.mpr ⟨hedits, List.forall_mem_singleton.mpr (insertion_inside hscan)⟩

end ImportPlanner

end TestMigration
