import TestMigration.Proofs.Import.Bindings

/-!
# Statements that a scan refers to

A scan of declarations refers to statements of the top level only: the statements of its declarations, the directive
and the first statement (`ImportScan.ofTree_over`).
-/

namespace TestMigration

variable {source : Text} {statement : Site} {d : Declaration}

theorem commonJsDeclaration?_statement (h : commonJsDeclaration? source statement = some d) :
    d.statement = statement := by
  unfold commonJsDeclaration? at h
  split at h
  · simp only [Option.bind_eq_bind, Option.bind_eq_some_iff] at h
    obtain ⟨value, -, specifier, -, pattern, -, h⟩ := h
    split at h <;> cases h <;> rfl
  · cases h

theorem esmDeclaration?_statement (h : esmDeclaration? source statement = some d) : d.statement = statement := by
  simp only [esmDeclaration?, Option.bind_eq_bind, Option.bind_eq_some_iff] at h
  obtain ⟨-, -, _, -, specifier, -, h⟩ := h
  split at h <;> cases h
  · exact Declaration.statement_foldl _
  · rfl

namespace ImportScan

/-- The scan refers to these statements only. -/
structure Over (statements : List Site) (scan : ImportScan) : Prop where
  declarations : ∀ d ∈ scan.declarations, d.statement ∈ statements
  directive : ∀ s ∈ scan.directive, s ∈ statements
  firstStatement : ∀ s ∈ scan.firstStatement, s ∈ statements

variable {statements : List Site} {scan : ImportScan}

theorem Over.addStatement (h : scan.Over statements) (hs : statement ∈ statements) :
    (scan.addStatement statement).Over statements := by
  refine ⟨h.declarations, h.directive, ?_⟩
  intro s hs'
  cases hfirst : scan.firstStatement with
  | none =>
    obtain rfl : statement = s := by simpa [ImportScan.addStatement, hfirst] using hs'
    exact hs
  | some first =>
    obtain rfl : first = s := by simpa [ImportScan.addStatement, hfirst] using hs'
    exact h.firstStatement first hfirst

theorem Over.declare {found : Option Declaration} {bound : List String} (h : scan.Over statements)
    (hs : statement ∈ statements) (hfound : ∀ d ∈ found, d.statement = statement) :
    (ImportScan.addStatement
      { scan with declarations := scan.declarations ++ found.toList, bound } statement).Over statements := by
  refine Over.addStatement ⟨List.forall_mem_append.mpr ⟨h.declarations, ?_⟩, h.directive, h.firstStatement⟩ hs
  intro d hd
  rw [hfound d (Option.mem_toList.mp hd)]
  exact hs

theorem Over.add (h : scan.Over statements) (hs : statement ∈ statements) :
    (scan.add source statement).Over statements := by
  unfold ImportScan.add
  split
  · exact h
  · exact h
  · split
    · exact h
    · split
      · refine ⟨h.declarations, ?_, h.firstStatement⟩
        rintro s ⟨⟩
        exact hs
      · refine h.declare hs fun d hd => ?_
        obtain ⟨specifier, -, rfl⟩ := Option.map_eq_some_iff.mp hd
        rfl
  · exact h.declare hs fun d => esmDeclaration?_statement
  · exact h.declare hs fun d => commonJsDeclaration?_statement
  · exact h.declare hs fun d => commonJsDeclaration?_statement
  · exact Over.addStatement ⟨h.declarations, h.directive, h.firstStatement⟩ hs
  · exact Over.addStatement ⟨h.declarations, h.directive, h.firstStatement⟩ hs
  · exact h.addStatement hs

theorem ofTree_over (source : Text) (tree : Node) :
    (ofTree source tree).Over (Site.children ⟨tree, []⟩) := by
  have hfold (statements rest : List Site) (hrest : ∀ s ∈ rest, s ∈ statements) (scan : ImportScan)
      (hscan : scan.Over statements) : (rest.foldl (ImportScan.add source) scan).Over statements := by
    induction rest generalizing scan with
    | nil => exact hscan
    | cons s rest ih =>
      obtain ⟨hs, hrest⟩ := List.forall_mem_cons.mp hrest
      exact ih hrest _ (hscan.add hs)
  exact hfold _ _ (fun _ => id) {} ⟨nofun, nofun, nofun⟩

theorem statement_mem_children {tree : Node} (h : d ∈ (ofTree source tree).declarations) :
    d.statement ∈ Site.children ⟨tree, []⟩ :=
  (ofTree_over source tree).declarations d h

end ImportScan

end TestMigration
