import Mathlib.Data.Option.Basic
import TestMigration.Import.Scan
import TestMigration.Proofs.Tree.Query

/-!
# Bindings at the top level

`Node.topBindings` lists the names that statements at the top level of a file bind, each by the node that
writes it. A scan knows most of them: `Site.overlooked` lists those it does not know, which are names inside of
patterns, exported declarations, generators, and imports that it does not read. Where a pattern is nested, a
declaration of the scan takes the inner pattern for a name (`Declaration.nested`).

Main statements: `ImportScan.bound_of_mem_locals`, the other names of a declaration are bound by its statement, and
`ImportScan.mem_bound_of_topBindings`, the scan knows all names that it does not overlook.
-/

namespace TestMigration

/-! ### Patterns -/

/-- A node of this kind binds the name that it is. -/
def Kind.isBinder : Kind → Bool
  | .identifier | .shorthandPattern => true
  | _ => false

/-- A part of a pattern that binds names, by the kind of the pattern and the role of the part. -/
def Kind.binds : Kind → Role → Bool
  | .objectPattern, _ => true
  | .pairPattern, role => role == .value
  -- array patterns, rests, and patterns with a default
  | .clause, role => role != .right
  | _, _ => false

mutual

/-- The names that a pattern binds. -/
def Node.bindersBelow (above : List Node) : Node → List Site
  | .mk r k s cs =>
    if k.isBinder then [⟨.mk r k s cs, above⟩] else Node.bindersAmong k (.mk r k s cs :: above) cs

def Node.bindersAmong (k : Kind) (above : List Node) : List Node → List Site
  | [] => []
  | n :: rest => (if k.binds n.role then n.bindersBelow above else []) ++ Node.bindersAmong k above rest

end

namespace Site

def binders (s : Site) : List Site := s.node.bindersBelow s.above

/-! ### Statements -/

/-- The name that a part of an import clause binds for the module as a whole. -/
def wholeBinding? (part : Site) : Option Site :=
  match part.kind with
  | .identifier => some part
  | .namespaceImport => part.children.find? (·.kind == .identifier)
  | _ => none

/-- The name that an item of an import binds. -/
def itemBinding? (item : Site) : Option Site := do
  guard (item.kind == .importSpecifier)
  let name ← item.child? .name
  return (item.child? .rename).getD name

/-- The names that a part of an import clause binds. -/
def partBindings (part : Site) : List Site :=
  match part.kind with
  | .namedImports => part.children.filterMap itemBinding?
  | _ => part.wholeBinding?.toList

/-- The names that a variable, function, class or import statement binds. Signatures of functions and abstract
classes are among the statements without a kind of their own. -/
def bindings (statement : Site) : List Site :=
  match statement.kind with
  | .lexicalDeclaration | .variableDeclaration =>
    statement.declarators.flatMap fun d => (d.child? .name).toList.flatMap binders
  | .functionDeclaration | .generatorDeclaration | .classDeclaration | .statement => (statement.child? .name).toList
  | .importStatement =>
    let clause := statement.children.find? (·.kind == .importClause) <|> statement.children.find? (·.kind == .clause)
    clause.toList.flatMap fun c => c.children.flatMap partBindings
  | _ => []

/-- The names that a statement binds, also where it exports them. -/
def topBindings (statement : Site) : List Site :=
  match statement.kind with
  | .exportStatement => statement.children.flatMap bindings
  | _ => statement.bindings

end Site

/-- The names that the statements at the top level bind. -/
def Node.topBindings (tree : Node) : List Site := (Site.children ⟨tree, []⟩).flatMap Site.topBindings

/-! ### What binds a name -/

theorem Node.mem_bindersAmong {k : Kind} {above : List Node} {b : Site} : ∀ {cs : List Node},
    b ∈ Node.bindersAmong k above cs ↔ ∃ n ∈ cs, k.binds n.role = true ∧ b ∈ n.bindersBelow above
  | [] => by simp [Node.bindersAmong]
  | n :: rest => by
    rw [Node.bindersAmong, List.mem_append, @Node.mem_bindersAmong k above b rest]
    cases hbinds : k.binds n.role <;> simp [hbinds]

theorem Node.mem_sitesOfAll {above : List Node} {n : Node} {b : Site} (hb : b ∈ n.sitesBelow above) :
    ∀ {cs : List Node}, n ∈ cs → b ∈ Node.sitesOfAll above cs
  | first :: rest, hn => by
    rw [Node.sitesOfAll, List.mem_append]
    rcases List.mem_cons.mp hn with rfl | hn
    · exact .inl hb
    · exact .inr (Node.mem_sitesOfAll hb hn)

mutual

theorem Node.mem_sites_of_bindersBelow {above : List Node} {b : Site} : ∀ {n : Node}, b ∈ n.bindersBelow above →
    b ∈ n.sitesBelow above ∧ b.kind.isBinder = true
  | .mk r k s cs, hb => by
    rw [Node.bindersBelow] at hb
    split at hb
    · rename_i hkind
      obtain rfl := List.mem_singleton.mp hb
      exact ⟨List.mem_cons_self, hkind⟩
    · obtain ⟨hsite, hkind⟩ := Node.mem_sites_of_bindersAmong hb
      exact ⟨List.mem_cons_of_mem _ hsite, hkind⟩

theorem Node.mem_sites_of_bindersAmong {k : Kind} {above : List Node} {b : Site} : ∀ {cs : List Node},
    b ∈ Node.bindersAmong k above cs → b ∈ Node.sitesOfAll above cs ∧ b.kind.isBinder = true
  | [], hb => by cases hb
  | n :: rest, hb => by
    rw [Node.bindersAmong] at hb
    rw [Node.sitesOfAll, List.mem_append]
    rcases List.mem_append.mp hb with hb | hb
    · split at hb
      · obtain ⟨hsite, hkind⟩ := Node.mem_sites_of_bindersBelow hb
        exact ⟨.inl hsite, hkind⟩
      · cases hb
    · obtain ⟨hsite, hkind⟩ := Node.mem_sites_of_bindersAmong hb
      exact ⟨.inr hsite, hkind⟩

end

namespace Site

theorem binders_of_isBinder {s : Site} (h : s.kind.isBinder = true) : s.binders = [s] := by
  obtain ⟨⟨r, k, span, cs⟩, above⟩ := s
  exact if_pos h

theorem binders_of_child {s c b : Site} (hs : s.kind.isBinder = false) (hc : c ∈ s.children)
    (hbinds : s.kind.binds c.role = true) (hb : b ∈ c.binders) : b ∈ s.binders := by
  obtain ⟨⟨r, k, span, cs⟩, above⟩ := s
  obtain ⟨n, hn, rfl⟩ := List.mem_map.mp hc
  have hmem : b ∈ Node.bindersAmong k (.mk r k span cs :: above) cs := Node.mem_bindersAmong.mpr ⟨n, hn, hbinds, hb⟩
  have hbinders : binders ⟨.mk r k span cs, above⟩ = Node.bindersAmong k (.mk r k span cs :: above) cs :=
    if_neg (Bool.eq_false_iff.mp hs)
  rw [hbinders]
  exact hmem

end Site

/-! ### Declarations of a scan -/

/-- The texts of patterns inside of a pattern that are taken for names. -/
def nestedNames (source : Text) (pattern : Site) : List String :=
  pattern.children.filterMap fun p => do
    guard (p.kind == .pairPattern)
    let value ← p.child? .value
    guard (value.kind != .identifier)
    return value.text source

/-- The texts of patterns that the declaration takes for names. -/
def Declaration.nested (source : Text) (d : Declaration) : List String :=
  d.namedClause.toList.flatMap (nestedNames source)

/-- The statement of the declaration binds its names, apart from patterns that are taken for names. -/
def Declaration.Bound (source : Text) (d : Declaration) : Prop :=
  ∀ x ∈ d.locals, x ∉ d.nested source → ∃ b ∈ d.statement.bindings, b.text source = x

section
variable {source : Text} {statement : Site} {d : Declaration}

/-- The names that a pattern takes from a module are bound by the pattern, or are patterns themselves. -/
theorem bound_of_patternNames {pattern : Site} (hpattern : pattern.kind = .objectPattern) {x : String}
    (hx : x ∈ (patternNames source pattern).map (·.2))
    (hnested : x ∉ nestedNames source pattern) :
    ∃ b ∈ pattern.binders, b.text source = x := by
  obtain ⟨pair, hpair, rfl⟩ := List.mem_map.mp hx
  obtain ⟨p, hp, hname⟩ := List.mem_filterMap.mp hpair
  have hpart {c b : Site} (hc : c ∈ pattern.children) (hb : b ∈ c.binders) : b ∈ pattern.binders :=
    Site.binders_of_child (by rw [hpattern]; rfl) hc (by rw [hpattern]; rfl) hb
  split at hname
  · rename_i hkind
    obtain rfl := Option.some.inj hname
    refine ⟨p, hpart hp ?_, rfl⟩
    rw [Site.binders_of_isBinder (by rw [hkind]; rfl)]
    exact List.mem_singleton_self p
  · rename_i hkind
    simp only [Option.bind_eq_bind, Option.bind_eq_some_iff] at hname
    obtain ⟨key, -, value, hvalue, heq⟩ := hname
    obtain rfl := Option.some.inj heq
    by_cases hident : value.kind = .identifier
    · obtain ⟨hmem, hrole⟩ := Site.mem_children_of_child? hvalue
      refine ⟨value, hpart hp ?_, rfl⟩
      refine Site.binders_of_child (by rw [hkind]; rfl) hmem (by rw [hkind, hrole]; rfl) ?_
      rw [Site.binders_of_isBinder (by rw [hident]; rfl)]
      exact List.mem_singleton_self value
    · refine absurd (List.mem_filterMap.mpr ⟨p, hp, ?_⟩) hnested
      simp [hkind, hvalue, hident, guard]
  · cases hname

theorem commonJsDeclaration?_bound
    (hkind : statement.kind = .lexicalDeclaration ∨ statement.kind = .variableDeclaration)
    (h : commonJsDeclaration? source statement = some d) : d.Bound source := by
  unfold commonJsDeclaration? at h
  split at h
  · rename_i declarator hdeclarator
    simp only [Option.bind_eq_bind, Option.bind_eq_some_iff] at h
    obtain ⟨value, -, specifier, -, pattern, hpattern, h⟩ := h
    -- there is one declarator, so the statement binds what its pattern binds
    have hbindings : statement.bindings = pattern.binders := by
      unfold Site.bindings
      rcases hkind with hkind | hkind <;> simp [hkind, hdeclarator, hpattern]
    have hident (hident : pattern.kind = .identifier) :
        ∃ b ∈ statement.bindings, b.text source = pattern.text source := by
      rw [hbindings, Site.binders_of_isBinder (by rw [hident]; rfl)]
      exact ⟨pattern, List.mem_singleton_self _, rfl⟩
    split at h
    · rename_i hkind' _
      obtain rfl := Option.some.inj h
      intro x hx _
      obtain rfl : x = pattern.text source := by simpa [Declaration.locals] using hx
      exact hident hkind'
    · rename_i hkind' _
      obtain rfl := Option.some.inj h
      intro x hx _
      obtain rfl : x = pattern.text source := by simpa [Declaration.locals] using hx
      exact hident hkind'
    · rename_i hkind' _
      obtain rfl := Option.some.inj h
      intro x hx hnested
      show ∃ b ∈ statement.bindings, _
      rw [hbindings]
      exact bound_of_patternNames hkind' (by simpa [Declaration.locals] using hx)
        (by simpa [Declaration.nested] using hnested)
    · obtain rfl := Option.some.inj h
      intro x hx
      cases hx
  · cases h

theorem specifierNames_locals (source : Text) (clause : Site) :
    (specifierNames source clause).map (·.2) = (clause.children.filterMap Site.itemBinding?).map (·.text source) := by
  unfold specifierNames
  rw [List.map_filterMap, List.map_filterMap]
  refine congrArg (fun f => clause.children.filterMap f) (funext fun item => ?_)
  unfold Site.itemBinding?
  cases item.kind == .importSpecifier with
  | false => rfl
  | true =>
    cases item.child? .name with
    | none => rfl
    | some name => cases item.child? .rename <;> rfl

/-- What a part of an import clause adds to the names of a declaration is bound by the part. -/
theorem Declaration.mem_locals_addPart {part : Site} {x : String} (hx : x ∈ (d.addPart source part).locals) :
    x ∈ d.locals ∨ ∃ b ∈ part.partBindings, b.text source = x := by
  unfold Declaration.addPart at hx
  split at hx
  · rename_i hkind
    rcases List.mem_append.mp hx with hx | hx
    · obtain rfl : x = part.text source := by simpa using hx
      exact .inr ⟨part, by simp [Site.partBindings, Site.wholeBinding?, hkind], rfl⟩
    · exact .inl (List.mem_append_right _ hx)
  · rename_i hkind
    rcases List.mem_append.mp hx with hx | hx
    · obtain ⟨b, hb, rfl⟩ := Option.map_eq_some_iff.mp (Option.mem_toList.mp hx)
      exact .inr ⟨b, by simp [Site.partBindings, Site.wholeBinding?, hkind, hb], rfl⟩
    · exact .inl (List.mem_append_right _ hx)
  · rename_i hkind
    rcases List.mem_append.mp hx with hx | hx
    · exact .inl (List.mem_append_left _ hx)
    · rw [List.map_append, List.mem_append] at hx
      rcases hx with hx | hx
      · exact .inl (List.mem_append_right _ hx)
      · rw [specifierNames_locals] at hx
        obtain ⟨b, hb, rfl⟩ := List.mem_map.mp hx
        exact .inr ⟨b, by simpa [Site.partBindings, hkind] using hb, rfl⟩
  · exact .inl hx

theorem Declaration.mem_locals_foldl {parts : List Site} {x : String}
    (hx : x ∈ (parts.foldl (Declaration.addPart source) d).locals) :
    x ∈ d.locals ∨ ∃ b ∈ parts.flatMap Site.partBindings, b.text source = x := by
  induction parts generalizing d with
  | nil => exact .inl hx
  | cons part rest ih =>
    rw [List.flatMap_cons]
    rcases ih hx with hx | ⟨b, hb, hname⟩
    · rcases Declaration.mem_locals_addPart hx with hx | ⟨b, hb, hname⟩
      · exact .inl hx
      · exact .inr ⟨b, List.mem_append_left _ hb, hname⟩
    · exact .inr ⟨b, List.mem_append_right _ hb, hname⟩

theorem Declaration.statement_foldl (parts : List Site) :
    (parts.foldl (Declaration.addPart source) d).statement = d.statement := by
  induction parts generalizing d with
  | nil => rfl
  | cons part rest ih =>
    rw [List.foldl_cons, ih]
    unfold Declaration.addPart
    split <;> rfl

theorem esmDeclaration?_bound (hkind : statement.kind = .importStatement)
    (h : esmDeclaration? source statement = some d) : d.Bound source := by
  simp only [esmDeclaration?, Option.bind_eq_bind, Option.bind_eq_some_iff] at h
  obtain ⟨-, -, module', -, specifier, -, h⟩ := h
  split at h
  · rename_i clause hclause
    obtain rfl := Option.some.inj h
    intro x hx _
    rw [Declaration.statement_foldl]
    rcases Declaration.mem_locals_foldl hx with hx | ⟨b, hb, hname⟩
    · cases hx
    · refine ⟨b, ?_, hname⟩
      simpa [Site.bindings, hkind, hclause] using hb
  · obtain rfl := Option.some.inj h
    intro x hx
    cases hx

/-- The statements of declarations bind their names, apart from patterns that are taken for names. -/
theorem ImportScan.bound_of_mem_locals {tree : Node} {d : Declaration}
    (hd : d ∈ (ImportScan.ofTree source tree).declarations) : d.Bound source := by
  have hadd (scan : ImportScan) (statement : Site) (hscan : ∀ d ∈ scan.declarations, d.Bound source) :
      ∀ d ∈ (scan.add source statement).declarations, d.Bound source := by
    have hfound {found : Option Declaration} {bound : List String} (hfound : ∀ d ∈ found, d.Bound source) :
        ∀ d ∈ (ImportScan.addStatement
          { scan with declarations := scan.declarations ++ found.toList, bound } statement).declarations,
          d.Bound source :=
      List.forall_mem_append.mpr ⟨hscan, by simpa using hfound⟩
    unfold ImportScan.add
    split
    · exact hscan
    · exact hscan
    · split
      · exact hscan
      · split
        · exact hscan
        · refine hfound fun d hd => ?_
          obtain ⟨specifier, -, rfl⟩ := Option.map_eq_some_iff.mp hd
          intro x hx
          cases hx
    · rename_i hkind
      exact hfound fun d hd => esmDeclaration?_bound hkind hd
    · rename_i hkind
      exact hfound fun d hd => commonJsDeclaration?_bound (.inl hkind) hd
    · rename_i hkind
      exact hfound fun d hd => commonJsDeclaration?_bound (.inr hkind) hd
    · exact hscan
    · exact hscan
    · exact hscan
  have hfold (statements : List Site) (scan : ImportScan) (hscan : ∀ d ∈ scan.declarations, d.Bound source) :
      ∀ d ∈ (statements.foldl (ImportScan.add source) scan).declarations, d.Bound source := by
    induction statements generalizing scan with
    | nil => exact hscan
    | cons statement rest ih => exact ih _ (hadd scan statement hscan)
  exact hfold _ {} (by simp) d hd

end

/-! ### What a scan knows -/

namespace Site

/-- The part of an import clause is a name for the module as a whole. -/
def isWhole (part : Site) : Bool := part.kind == .identifier || part.kind == .namespaceImport

/-- The names that a scan notes down for a statement. -/
def recorded (source : Text) (statement : Site) : List String :=
  match statement.kind with
  | .importStatement => ((esmDeclaration? source statement).map Declaration.locals).getD []
  | .lexicalDeclaration | .variableDeclaration => boundNames source statement
  | .functionDeclaration | .classDeclaration => ((statement.child? .name).map (·.text source)).toList
  | _ => []

/-- The names that a statement binds and a scan does not know: names inside of patterns, a default name beside one
for all of the module, and everything that exports, generators and unread imports bind. -/
def overlooked (source : Text) (statement : Site) : List Site :=
  match statement.kind with
  | .lexicalDeclaration | .variableDeclaration =>
    statement.declarators.flatMap fun d => (d.child? .name).toList.flatMap fun name =>
      if name.kind == .identifier then [] else name.binders.filter (·.kind == .identifier)
  | .functionDeclaration | .classDeclaration => []
  | .importStatement =>
    match esmDeclaration? source statement, statement.children.find? (·.kind == .importClause) with
    | some _, some clause => (clause.children.filter isWhole).dropLast.flatMap partBindings
    | _, _ => statement.bindings
  | _ => statement.topBindings

theorem mem_sites_of_child {s c b : Site} (hc : c ∈ s.children) (hb : b ∈ c.sites) : b ∈ s.sites := by
  obtain ⟨⟨r, k, span, cs⟩, above⟩ := s
  obtain ⟨n, hn, rfl⟩ := List.mem_map.mp hc
  exact List.mem_cons_of_mem _ (Node.mem_sitesOfAll hb hn)

end Site

section
variable {source : Text} {statement : Site} {d : Declaration}

theorem ImportScan.ofTree_bound (source : Text) (tree : Node) :
    (ImportScan.ofTree source tree).bound = (Site.children ⟨tree, []⟩).flatMap (Site.recorded source) := by
  have hadd (scan : ImportScan) (statement : Site) :
      (scan.add source statement).bound = scan.bound ++ statement.recorded source := by
    unfold ImportScan.add
    split
    case h_3 hkind =>
      split
      · simp [Site.recorded, hkind]
      · split <;> simp [Site.recorded, hkind, ImportScan.addStatement]
    case h_9 => simp [Site.recorded, ImportScan.addStatement]
    all_goals
      rename_i hkind
      simp [Site.recorded, hkind, ImportScan.addStatement]
  have hfold (statements : List Site) (scan : ImportScan) : (statements.foldl (ImportScan.add source) scan).bound
      = scan.bound ++ statements.flatMap (Site.recorded source) := by
    induction statements generalizing scan with
    | nil => simp
    | cons statement rest ih => rw [List.foldl_cons, ih, hadd, List.flatMap_cons, List.append_assoc]
  exact hfold _ {}

theorem Declaration.addPart_named (part : Site) : (d.addPart source part).named.map (·.2) = d.named.map (·.2)
    ++ if part.kind = .namedImports then part.partBindings.map (·.text source) else [] := by
  unfold Declaration.addPart
  split
  case h_3 hkind =>
    rw [List.map_append, specifierNames_locals]
    simp [hkind, Site.partBindings]
  case h_4 hother => rw [if_neg hother, List.append_nil]
  all_goals
    rename_i hkind
    simp [hkind]

theorem Declaration.addPart_default (part : Site) : (d.addPart source part).default =
    if part.isWhole then part.wholeBinding?.map (·.text source) else d.default := by
  unfold Declaration.addPart
  split
  case h_4 hident hnamespace _ =>
    have hwhole : part.isWhole = false := by simpa [Site.isWhole] using ⟨hident, hnamespace⟩
    rw [hwhole]
    rfl
  all_goals
    rename_i hkind
    simp [Site.isWhole, Site.wholeBinding?, hkind]

theorem Declaration.mem_named_foldl {parts : List Site} {part b : Site} (hpart : part ∈ parts)
    (hkind : part.kind = .namedImports) (hb : b ∈ part.partBindings) :
    b.text source ∈ (parts.foldl (Declaration.addPart source) d).named.map (·.2) := by
  have hkept (parts : List Site) {d : Declaration} {x : String} (hx : x ∈ d.named.map (·.2)) :
      x ∈ (parts.foldl (Declaration.addPart source) d).named.map (·.2) := by
    induction parts generalizing d with
    | nil => exact hx
    | cons part rest ih =>
      refine ih ?_
      rw [Declaration.addPart_named]
      exact List.mem_append_left _ hx
  obtain ⟨before, behind, rfl⟩ := List.append_of_mem hpart
  rw [List.foldl_append, List.foldl_cons]
  refine hkept behind ?_
  rw [Declaration.addPart_named, if_pos hkind]
  exact List.mem_append_right _ (List.mem_map_of_mem hb)

theorem Declaration.foldl_default (parts : List Site) : (parts.foldl (Declaration.addPart source) d).default =
    match (parts.filter Site.isWhole).getLast? with
    | some part => part.wholeBinding?.map (·.text source)
    | none => d.default := by
  induction parts generalizing d with
  | nil => rfl
  | cons part rest ih =>
    rw [List.foldl_cons, ih, Declaration.addPart_default, List.filter_cons]
    cases hwhole : part.isWhole with
    | false => rfl
    | true =>
      cases rest.filter Site.isWhole with
      | nil => rfl
      | cons first others =>
        simp only [if_true, List.getLast?_cons_cons]
        rw [List.getLast?_cons]

/-- A scan knows the names of an import that it reads, apart from a default name beside one for all of the module. -/
theorem esmDeclaration?_knows {clause b : Site} (h : esmDeclaration? source statement = some d)
    (hclause : statement.children.find? (·.kind == .importClause) = some clause)
    (hb : b ∈ clause.children.flatMap Site.partBindings) :
    b ∈ (clause.children.filter Site.isWhole).dropLast.flatMap Site.partBindings ∨ b.text source ∈ d.locals := by
  simp only [esmDeclaration?, Option.bind_eq_bind, Option.bind_eq_some_iff, hclause] at h
  obtain ⟨-, -, module', -, specifier, -, h⟩ := h
  obtain rfl := Option.some.inj h
  obtain ⟨part, hpart, hb⟩ := List.mem_flatMap.mp hb
  by_cases hnamed : part.kind = .namedImports
  · exact .inr (List.mem_append_right _ (Declaration.mem_named_foldl hpart hnamed hb))
  · have hbinding : part.wholeBinding? = some b := by
      unfold Site.partBindings at hb
      split at hb
      · exact absurd ‹_› hnamed
      · simpa using hb
    have hwhole : part.isWhole = true := by
      unfold Site.wholeBinding? at hbinding
      unfold Site.isWhole
      split at hbinding
      · simp [*]
      · simp [*]
      · cases hbinding
    -- the last of the names for the module as a whole stays
    have hmem := List.mem_filter.mpr ⟨hpart, hwhole⟩
    have hne := List.ne_nil_of_mem hmem
    rw [← List.dropLast_concat_getLast hne] at hmem
    rcases List.mem_append.mp hmem with hother | hlast
    · exact .inl (List.mem_flatMap.mpr ⟨part, hother, hb⟩)
    · obtain rfl := List.mem_singleton.mp hlast
      refine .inr (List.mem_append_left _ ?_)
      rw [Declaration.foldl_default, List.getLast?_eq_some_getLast hne]
      exact Option.mem_toList.mpr (Option.map_eq_some_iff.mpr ⟨b, hbinding, rfl⟩)

/-- A scan knows the names of variables, apart from those inside of patterns. -/
theorem boundNames_knows {b : Site} (hb : b ∈ statement.declarators.flatMap fun d =>
      (d.child? .name).toList.flatMap Site.binders) :
    b ∈ (statement.declarators.flatMap fun d => (d.child? .name).toList.flatMap fun name =>
      if name.kind == .identifier then [] else name.binders.filter (·.kind == .identifier)) ∨
    b.text source ∈ boundNames source statement := by
  obtain ⟨declarator, hdeclarator, hb⟩ := List.mem_flatMap.mp hb
  obtain ⟨name, hname, hb⟩ := List.mem_flatMap.mp hb
  rw [Option.mem_toList] at hname
  obtain ⟨hchild, hkind⟩ := List.mem_filter.mp hdeclarator
  have hself {s : Site} : s ∈ s.sites := by
    obtain ⟨⟨r, k, span, cs⟩, above⟩ := s
    exact List.mem_cons_self
  by_cases hident : name.kind = .identifier
  · right
    rw [Site.binders_of_isBinder (by rw [hident]; rfl), List.mem_singleton] at hb
    subst hb
    refine List.mem_filterMap.mpr ⟨declarator, Site.mem_sites_of_child hchild hself, ?_⟩
    simp [beq_iff_eq.mp hkind, hname, hident, guard]
  · -- a shorthand is noted down wherever it stands in the pattern, an identifier only as the whole of it
    obtain ⟨hsite, hbinder⟩ := Node.mem_sites_of_bindersBelow hb
    by_cases hb' : b.kind = .identifier
    · left
      refine List.mem_flatMap.mpr ⟨declarator, hdeclarator, List.mem_flatMap.mpr ⟨name, by simpa using hname, ?_⟩⟩
      simp [hident, hb, hb']
    · right
      have hshorthand : b.kind = .shorthandPattern := by
        unfold Kind.isBinder at hbinder
        split at hbinder
        · exact absurd ‹_› hb'
        · assumption
        · cases hbinder
      refine List.mem_filterMap.mpr ⟨b, Site.mem_sites_of_child hchild
        (Site.mem_sites_of_child (Site.mem_children_of_child? hname).1 hsite), ?_⟩
      simp [hshorthand]

/-- A scan knows all names that a statement at the top level binds and that it does not overlook. -/
theorem ImportScan.mem_bound_of_topBindings {tree : Node} {b : Site}
    (hstatement : statement ∈ Site.children ⟨tree, []⟩) (hb : b ∈ statement.topBindings)
    (hknown : b ∉ statement.overlooked source) : b.text source ∈ (ImportScan.ofTree source tree).bound := by
  rw [ImportScan.ofTree_bound]
  refine List.mem_flatMap.mpr ⟨statement, hstatement, ?_⟩
  unfold Site.overlooked at hknown
  split at hknown
  · rename_i hkind
    simp only [Site.topBindings, Site.bindings, hkind] at hb
    simpa [Site.recorded, hkind] using (boundNames_knows hb).resolve_left hknown
  · rename_i hkind
    simp only [Site.topBindings, Site.bindings, hkind] at hb
    simpa [Site.recorded, hkind] using (boundNames_knows hb).resolve_left hknown
  · rename_i hkind
    simp only [Site.topBindings, Site.bindings, hkind, Option.mem_toList] at hb
    simp [Site.recorded, hkind, hb]
  · rename_i hkind
    simp only [Site.topBindings, Site.bindings, hkind, Option.mem_toList] at hb
    simp [Site.recorded, hkind, hb]
  · rename_i hkind
    split at hknown
    · rename_i d clause hd hclause
      have hb : b ∈ clause.children.flatMap Site.partBindings := by
        simpa [Site.topBindings, Site.bindings, hkind, hclause] using hb
      simpa [Site.recorded, hkind, hd] using (esmDeclaration?_knows hd hclause hb).resolve_left hknown
    · exact absurd (by simpa [Site.topBindings, hkind] using hb) hknown
  · exact absurd hb hknown

end

end TestMigration
