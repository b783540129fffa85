import Mathlib.Data.List.Nodup
import Mathlib.Data.List.Perm.Basic
import TestMigration.Proofs.Import.Dropped

/-!
# What import edits introduce

Behind the deletions, planning imports only adds: names to a declaration that the file has, and new declarations.
An `Addition` is such an edit with the names that it makes known. All additions together introduce what is missing
of each need, whichever specifiers coincide and whichever declarations are there.

Main statements: `ImportPlanner.plan_eq`, `ImportPlanner.introduced_perm` and `ImportPlanner.introduced_nodup`.
-/

namespace TestMigration

/-! ### Additions -/

/-- An edit that makes names known. -/
inductive Addition where
  /-- A default name in front of the clause of an import. -/
  | inFront (clause : Site) (name : String)
  /-- Names behind the last one in braces. -/
  | behindLast (last : Site) (names : List String)
  /-- Names in braces that held none. -/
  | inBraces (clause : Site) (names : List String)
  /-- Names in braces behind a default name. -/
  | behindDefault (name : Site) (names : List String)
  /-- New declarations, each with its specifier. -/
  | declarations (needs : List (String × Need))

namespace Need

def locals (n : Need) : List String := n.default.toList ++ n.named

/-- What a declaration does not have of a need. -/
def missing (n : Need) (d : Option Declaration) : Need where
  default := n.default.filter fun _ => (d.bind ImportScan.assertName?).isNone
  named := n.named.filter fun name => (d.bind (·.localFor? name)).isNone

@[simp] theorem missing_none (n : Need) : n.missing none = n := by
  cases n with
  | mk default named => cases default <;> simp [missing]

theorem locals_of_isEmpty {n : Need} (h : n.isEmpty = true) : n.locals = [] := by
  obtain ⟨hdefault, hnamed⟩ := Bool.and_eq_true_iff.mp h
  rw [locals, Option.isNone_iff_eq_none.mp hdefault, List.isEmpty_iff.mp hnamed]
  rfl

end Need

namespace Addition

def locals : Addition → List String
  | inFront _ name => [name]
  | behindLast _ names | inBraces _ names | behindDefault _ names => names
  | declarations needs => needs.flatMap (·.2.locals)

def edit (p : ImportPlanner) (source : Text) : Addition → Edit
  | inFront clause name => .insert clause.span.start (name ++ ", ") "import"
  | behindLast last names => .insert last.span.stop (", " ++ String.intercalate ", " names) "import"
  | inBraces clause names =>
    .replaceText clause.span ("\x7b " ++ String.intercalate ", " names ++ " \x7d") "import"
  | behindDefault name names =>
    .insert name.span.stop (", " ++ ("\x7b " ++ String.intercalate ", " names ++ " \x7d")) "import"
  | declarations needs => p.insertion source (needs.map fun (specifier, need) => p.declare specifier need)

end Addition

namespace ImportPlanner

/-- How a default name is added to a declaration, and what cannot be added. -/
def defaultAdditions (d : Declaration) : Option String → List Addition × Option String
  | none => ([], none)
  | some name =>
    match importClause? d with
    | some clause => ([.inFront clause name], none)
    | none => ([], some name)

/-- How names are added to a declaration, and what cannot be added. -/
def namedAdditions (d : Declaration) (missing : List String) : List Addition × List String :=
  if missing.isEmpty then ([], [])
  else
    match d.namedClause, d.defaultNode with
    | some clause, _ =>
      match clause.parts.getLast? with
      | some last => ([.behindLast last missing], [])
      | none => ([.inBraces clause missing], [])
    | none, some name => if d.isNamespace then ([], missing) else ([.behindDefault name missing], [])
    | none, none => ([], missing)

section
variable (p : ImportPlanner)

/-- How a need is met under a specifier, and what has to be declared anew. -/
def additionsFor (specifier : String) (need : Need) : List Addition × Option (String × Need) :=
  match p.scan.find? specifier with
  | some d =>
    let missing := need.missing (some d)
    let first := defaultAdditions d missing.default
    let second := namedAdditions d missing.named
    let rest : Need := { default := first.2, named := second.2 }
    (first.1 ++ second.1, if rest.isEmpty then none else some (d.specifier, rest))
  | none => ([], some (specifier, need))

def additions (request : ImportRequest) : List Addition :=
  let met := (p.needs request).map fun (specifier, need) => p.additionsFor specifier need
  met.flatMap (·.1) ++ declared (met.filterMap (·.2))
where
  declared : List (String × Need) → List Addition
    | [] => []
    | new => [.declarations new]

/-- The names that a plan introduces, as often as it does so. -/
def introduced (request : ImportRequest) : List String := (p.additions request).flatMap Addition.locals

/-- What the file lacks of a need. -/
def missing (request : ImportRequest) (kind : ModuleKind) : List String :=
  ((p.demand request kind).missing (p.scan.find? (p.targets.specifier kind))).locals

end

variable {p : ImportPlanner} {source : Text} {tree : Node} {request : ImportRequest}

/-! ### The edits of a plan -/

theorem addDefault_eq (d : Declaration) (name : Option String) :
    addDefault d name = ((defaultAdditions d name).1.map (Addition.edit p source), (defaultAdditions d name).2) := by
  cases name with
  | none => rfl
  | some name => cases hclause : importClause? d <;> simp [addDefault, defaultAdditions, hclause, Addition.edit]

theorem addNamed_eq (d : Declaration) (missing : List String) :
    addNamed d missing
      = ((namedAdditions d missing).1.map (Addition.edit p source), (namedAdditions d missing).2) := by
  unfold addNamed namedAdditions
  cases missing.isEmpty with
  | true => rfl
  | false =>
    cases d.namedClause with
    | some clause => cases hlast : clause.parts.getLast? <;> simp [hlast, Addition.edit]
    | none =>
      cases d.defaultNode with
      | none => rfl
      | some name => cases hnamespace : d.isNamespace <;> simp [Addition.edit]

theorem assertName?_isNone (d : Declaration) :
    (ImportScan.assertName? d).isNone = (d.default.isNone && (d.localFor? "strict").isNone) := by
  unfold ImportScan.assertName?
  split
  · rename_i hdefault
    simp [hdefault]
  · rename_i hdefault
    simp [hdefault]

theorem extend_eq {specifier : String} {d : Declaration} (need : Need) (hd : p.scan.find? specifier = some d) :
    p.extend d need = ((p.additionsFor specifier need).1.map (Addition.edit p source),
      (p.additionsFor specifier need).2.map fun (specifier, need) => p.declare specifier need) := by
  have hmissing : need.missing (some d) = { default := need.default.filter fun _ =>
      d.default.isNone && (d.localFor? "strict").isNone, named := need.named.filter fun name =>
      (d.localFor? name).isNone } := by
    simp only [Need.missing, Option.bind_some, assertName?_isNone]
  unfold extend additionsFor
  rw [hd]
  dsimp only
  rw [hmissing, @addDefault_eq p source, @addNamed_eq p source, List.map_append]
  refine congrArg (Prod.mk _) ?_
  split <;> rfl

theorem plan_eq (edits : List Edit) : (p.plan source tree request edits).1 =
    (p.dropLegacy source tree request edits).1 ++ (p.additions request).map (Addition.edit p source) := by
  let write (m : List Addition × Option (String × Need)) : List Edit × Option String :=
    (m.1.map (Addition.edit p source), m.2.map fun (specifier, need) => p.declare specifier need)
  unfold plan additions
  dsimp only
  generalize hextended : (p.needs request).map _ = extended
  have hwritten : extended = ((p.needs request).map fun x => p.additionsFor x.1 x.2).map write := by
    rw [← hextended, List.map_map]
    refine List.map_congr_left fun x _ => ?_
    cases hd : p.scan.find? x.1 with
    | some d => exact extend_eq x.2 hd
    | none => simp [additionsFor, hd, write]
  rw [hwritten]
  generalize (p.needs request).map (fun x => p.additionsFor x.1 x.2) = met
  have hedits : (met.map write).flatMap (·.1) = (met.flatMap (·.1)).map (Addition.edit p source) := by
    rw [List.flatMap_map, List.map_flatMap]
  have hnew : (met.map write).filterMap (·.2)
      = (met.filterMap (·.2)).map fun (specifier, need) => p.declare specifier need := by
    rw [List.filterMap_map, List.map_filterMap]
    rfl
  rw [hedits, hnew]
  cases met.filterMap (·.2) with
  | nil => simp [additions.declared]
  | cons first rest => simp [additions.declared, Addition.edit]

/-! ### What is introduced -/

theorem defaultAdditions_locals (d : Declaration) (name : Option String) :
    (defaultAdditions d name).1.flatMap Addition.locals ++ (defaultAdditions d name).2.toList = name.toList := by
  cases name with
  | none => rfl
  | some name => cases hclause : importClause? d <;> simp [defaultAdditions, hclause, Addition.locals]

theorem namedAdditions_locals (d : Declaration) (missing : List String) :
    (namedAdditions d missing).1.flatMap Addition.locals ++ (namedAdditions d missing).2 = missing := by
  unfold namedAdditions
  cases hempty : missing.isEmpty with
  | true => simpa using (List.isEmpty_iff.mp hempty).symm
  | false =>
    cases d.namedClause with
    | some clause => cases hlast : clause.parts.getLast? <;> simp [hlast, Addition.locals]
    | none =>
      cases d.defaultNode with
      | none => simp
      | some name => cases hnamespace : d.isNamespace <;> simp [Addition.locals]

theorem additionsFor_locals (specifier : String) (need : Need) :
    ((p.additionsFor specifier need).1.flatMap Addition.locals
      ++ (p.additionsFor specifier need).2.toList.flatMap (·.2.locals)).Perm
      (need.missing (p.scan.find? specifier)).locals := by
  unfold additionsFor
  cases p.scan.find? specifier with
  | none => simp
  | some d =>
    dsimp only
    have hdefault := defaultAdditions_locals d (need.missing (some d)).default
    have hnamed := namedAdditions_locals d (need.missing (some d)).named
    generalize defaultAdditions d _ = first at *
    generalize namedAdditions d _ = second at *
    have hrest : ((if Need.isEmpty { default := first.2, named := second.2 } then none
        else some (d.specifier, { default := first.2, named := second.2 }) : Option (String × Need)).toList.flatMap
          (·.2.locals)) = first.2.toList ++ second.2 := by
      split
      · rename_i hempty
        exact (Need.locals_of_isEmpty hempty).symm
      · simp [Need.locals]
    rw [hrest, Need.locals, ← hdefault, ← hnamed, List.flatMap_append, List.append_assoc, List.append_assoc]
    -- what is left of the default name changes places with the names that were added
    refine List.Perm.append_left _ ?_
    rw [← List.append_assoc, ← List.append_assoc]
    exact List.Perm.append_right _ List.perm_append_comm

/-- What is missing of all needs under their specifiers. -/
def missingOf (p : ImportPlanner) (needs : List (String × Need)) : List String :=
  needs.flatMap fun (specifier, need) => (need.missing (p.scan.find? specifier)).locals

@[simp] theorem missingOf_nil : p.missingOf [] = [] := rfl

@[simp] theorem missingOf_cons (x : String × Need) (needs : List (String × Need)) :
    p.missingOf (x :: needs) = (x.2.missing (p.scan.find? x.1)).locals ++ p.missingOf needs := rfl

/-- The new declarations make known what could not be added elsewhere. -/
theorem declared_locals (met : List (List Addition × Option (String × Need))) :
    (additions.declared (met.filterMap (·.2))).flatMap Addition.locals
      = met.flatMap fun m => m.2.toList.flatMap (·.2.locals) := by
  have hdeclared (new : List (String × Need)) :
      (additions.declared new).flatMap Addition.locals = new.flatMap (·.2.locals) := by
    cases new <;> simp [additions.declared, Addition.locals]
  rw [hdeclared]
  induction met with
  | nil => rfl
  | cons m rest ih => cases hm : m.2 <;> simp [hm, ih]

theorem introduced_perm_missingOf : (p.introduced request).Perm (p.missingOf (p.needs request)) := by
  rw [introduced, additions, List.flatMap_append, declared_locals, List.flatMap_assoc]
  refine (List.flatMap_append_perm _ _ _).trans ?_
  rw [List.flatMap_map]
  exact List.Perm.flatMap_left _ fun x _ => additionsFor_locals x.1 x.2

/-- A need without a default name adds what is missing of it, also where it joins another. -/
theorem missingOf_addNeed {need : Need} (hdefault : need.default = none) (specifier : String)
    (needs : List (String × Need)) :
    (p.missingOf (addNeed specifier need needs)).Perm
      (p.missingOf needs ++ (need.missing (p.scan.find? specifier)).locals) := by
  induction needs with
  | nil => simp [missingOf, addNeed]
  | cons first rest ih =>
    obtain ⟨s, n⟩ := first
    rw [addNeed]
    split
    · rename_i hsame
      obtain rfl : s = specifier := by simpa using hsame
      have hjoined : (Need.missing ⟨need.default <|> n.default, n.named ++ need.named⟩ (p.scan.find? s)).locals
          = (n.missing (p.scan.find? s)).locals ++ (need.missing (p.scan.find? s)).locals := by
        simp [Need.missing, Need.locals, hdefault]
      rw [missingOf_cons, missingOf_cons, hjoined, List.append_assoc, List.append_assoc]
      exact List.Perm.append_left _ List.perm_append_comm
    · rw [missingOf_cons, missingOf_cons, List.append_assoc]
      exact List.Perm.append_left _ ih

theorem missingOf_foldl_addNeed (kinds : List ModuleKind) (hkinds : .assert ∉ kinds) (needs : List (String × Need)) :
    (p.missingOf (kinds.foldl
      (fun l kind => addNeed (p.targets.specifier kind) (p.demand request kind) l) needs)).Perm
      (p.missingOf needs ++ kinds.flatMap (p.missing request)) := by
  induction kinds generalizing needs with
  | nil => simp
  | cons kind rest ih =>
    have hdefault : (p.demand request kind).default = none := by
      cases kind with
      | assert => exact absurd List.mem_cons_self hkinds
      | test | mock | util => rfl
    rw [List.foldl_cons, List.flatMap_cons, ← List.append_assoc]
    have hrest : .assert ∉ rest := fun h => hkinds (List.mem_cons_of_mem _ h)
    exact (ih hrest _).trans (List.Perm.append_right _ (missingOf_addNeed hdefault _ _))

/-- A plan introduces what is missing of each need that is requested. -/
theorem introduced_perm : (p.introduced request).Perm
    ((ModuleKind.all.filter request.modules.contains).flatMap (p.missing request)) := by
  have hothers : ModuleKind.assert ∉ [ModuleKind.test, .mock, .util].filter request.modules.contains :=
    fun h => absurd (List.mem_filter.mp h).1 (by decide)
  refine introduced_perm_missingOf.trans ?_
  unfold needs
  -- the need with a default name comes first, so no other one can replace the name
  rw [ModuleKind.all, List.filter_cons]
  split
  · have hfirst : p.missingOf (addNeed (p.targets.specifier .assert) (p.demand request .assert) [])
        = p.missing request .assert := by simp [addNeed, missing]
    rw [List.foldl_cons, List.flatMap_cons, ← hfirst]
    exact missingOf_foldl_addNeed _ hothers _
  · exact missingOf_foldl_addNeed _ hothers []

theorem mem_introduced {name : String} : name ∈ p.introduced request ↔
    ∃ kind ∈ request.modules, name ∈ p.missing request kind := by
  have hall (kind : ModuleKind) : kind ∈ ModuleKind.all := by cases kind <;> decide
  rw [introduced_perm.mem_iff, List.mem_flatMap]
  simp only [List.mem_filter, hall, true_and, List.contains_iff_mem]

end ImportPlanner

/-! ### The names of generated code -/

/-- The name under which generated code knows what it needs. Registration functions keep their own names. -/
def Names.of? (names : Names) : ModuleKind → Option String
  | .assert => some names.assert
  | .test => none
  | .mock => some names.mock
  | .util => some names.util

/-- The names that can be introduced for a need. -/
def ImportRequest.fresh (request : ImportRequest) : ModuleKind → List String
  | .assert => ["assert", "nodeAssert"]
  | .test => request.testNames
  | .mock => ["mock"]
  | .util => ["isDeepStrictEqual"]

/-- The registration functions are named once each, and none of them like something else that is needed. -/
structure ImportRequest.Regular (request : ImportRequest) : Prop where
  nodup : request.testNames.Nodup
  apart : ∀ name ∈ request.testNames, name ∉ ["assert", "nodeAssert", "mock", "isDeepStrictEqual"]

theorem Declaration.mem_locals_of_localFor? {d : Declaration} {imported name : String}
    (h : d.localFor? imported = some name) : name ∈ d.locals := by
  obtain ⟨pair, hpair, rfl⟩ := Option.map_eq_some_iff.mp h
  exact List.mem_append_right _ (List.mem_map_of_mem (List.mem_of_find?_eq_some hpair))

theorem ImportScan.mem_locals_of_assertName? {d : Declaration} {name : String} {strict : Bool}
    (h : assertName? d = some (name, strict)) : name ∈ d.locals := by
  unfold assertName? at h
  split at h
  · rename_i name' hdefault
    obtain ⟨rfl, -⟩ := Prod.mk.inj (Option.some.inj h)
    simp [Declaration.locals, hdefault]
  · obtain ⟨name', hlocal, heq⟩ := Option.map_eq_some_iff.mp h
    obtain ⟨rfl, -⟩ := Prod.mk.inj heq
    exact d.mem_locals_of_localFor? hlocal

namespace ImportPlanner

variable {p : ImportPlanner} {request : ImportRequest} {kind : ModuleKind} {name : String}

theorem assert_missing_of_unknown (h : (p.scan.find? p.targets.assert).bind ImportScan.assertName? = none) :
    p.missing request .assert = [p.names.assert] := by
  simp [missing, demand, Need.missing, Need.locals, Targets.specifier, h]

theorem named_known_or_missing {imported : String} (hdemand : p.demand request kind = { named := [imported] })
    (hname : name = ((p.scan.find? (p.targets.specifier kind)).bind (·.localFor? imported)).getD imported) :
    (∃ d, p.scan.find? (p.targets.specifier kind) = some d ∧ name ∈ d.locals) ∨ p.missing request kind = [name] := by
  cases hlocal : (p.scan.find? (p.targets.specifier kind)).bind (·.localFor? imported) with
  | none =>
    rw [hlocal, Option.getD_none] at hname
    exact .inr (by simp [missing, hdemand, Need.missing, Need.locals, hlocal, hname])
  | some known =>
    rw [hlocal, Option.getD_some] at hname
    obtain ⟨d, hd, hlocal⟩ := Option.bind_eq_some_iff.mp hlocal
    exact .inl ⟨d, hd, hname ▸ d.mem_locals_of_localFor? hlocal⟩

/-- The name that generated code uses is a name of the declaration that the file has of the module, or it is
what is missing. -/
theorem name_known_or_missing (hnames : p.names = p.scan.names p.targets) (hname : p.names.of? kind = some name) :
    (∃ d, p.scan.find? (p.targets.specifier kind) = some d ∧ name ∈ d.locals) ∨ p.missing request kind = [name] := by
  cases kind with
  | test => cases hname
  | assert =>
    obtain rfl := Option.some.inj hname
    cases hknown : (p.scan.find? p.targets.assert).bind ImportScan.assertName? with
    | none => exact .inr (assert_missing_of_unknown hknown)
    | some known =>
      obtain ⟨d, hd, hassert⟩ := Option.bind_eq_some_iff.mp hknown
      refine .inl ⟨d, hd, ?_⟩
      have hlocal : p.names.assert = known.1 := by simp [hnames, ImportScan.names, hknown]
      rw [hlocal]
      exact ImportScan.mem_locals_of_assertName? hassert
  | mock =>
    obtain rfl := Option.some.inj hname
    exact named_known_or_missing rfl (by rw [hnames]; rfl)
  | util =>
    obtain rfl := Option.some.inj hname
    exact named_known_or_missing rfl (by rw [hnames]; rfl)

theorem mem_fresh_of_mem_missing (hnames : p.names = p.scan.names p.targets) (h : name ∈ p.missing request kind) :
    name ∈ request.fresh kind := by
  cases kind with
  | assert =>
    cases hknown : (p.scan.find? p.targets.assert).bind ImportScan.assertName? with
    | some known => simp [missing, demand, Need.missing, Need.locals, Targets.specifier, hknown] at h
    | none =>
      rw [assert_missing_of_unknown hknown, List.mem_singleton] at h
      subst h
      simp only [hnames, ImportScan.names, hknown, Option.map_none, Option.getD_none, ImportRequest.fresh]
      split <;> decide
  | test | mock | util => exact (List.mem_filter.mp h).1

theorem missing_nodup (h : request.Regular) : (p.missing request kind).Nodup := by
  cases kind with
  | assert =>
    cases hknown : (p.scan.find? p.targets.assert).bind ImportScan.assertName? with
    | none => simp [assert_missing_of_unknown hknown]
    | some known => simp [missing, demand, Need.missing, Need.locals, Targets.specifier, hknown]
  | test => exact h.nodup.filter _
  | mock => exact List.Nodup.filter _ (List.nodup_singleton "mock")
  | util => exact List.Nodup.filter _ (List.nodup_singleton "isDeepStrictEqual")

theorem fresh_nodup (h : request.Regular) : (ModuleKind.all.flatMap request.fresh).Nodup := by
  have hfresh : ModuleKind.all.flatMap request.fresh =
      ["assert", "nodeAssert"] ++ (request.testNames ++ ["mock", "isDeepStrictEqual"]) := by
    simp [ModuleKind.all, ImportRequest.fresh]
  rw [hfresh, List.nodup_append, List.nodup_append]
  refine ⟨by decide, ⟨h.nodup, by decide, ?_⟩, ?_⟩
  · rintro name hname other hother rfl
    exact h.apart name hname (List.mem_of_mem_drop (i := 2) hother)
  · rintro name hname other hother rfl
    rcases List.mem_append.mp hother with hother | hother
    · exact h.apart name hother (List.mem_of_mem_take (i := 2) hname)
    · revert hname hother
      simp only [List.mem_cons, List.not_mem_nil, or_false]
      rintro (rfl | rfl) <;> decide

theorem introduced_nodup (hnames : p.names = p.scan.names p.targets) (h : request.Regular) :
    (p.introduced request).Nodup := by
  rw [introduced_perm.nodup_iff, List.nodup_flatMap]
  refine ⟨fun kind _ => missing_nodup h, ?_⟩
  have hfresh := (List.nodup_flatMap.mp (fresh_nodup h)).2
  refine (hfresh.sublist List.filter_sublist).imp fun hapart name hname hother => ?_
  exact hapart (mem_fresh_of_mem_missing hnames hname) (mem_fresh_of_mem_missing hnames hother)

end ImportPlanner

end TestMigration
