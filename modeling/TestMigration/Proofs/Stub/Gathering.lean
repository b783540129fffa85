import Mathlib.Data.List.Induction
import TestMigration.Mock.Rules
import TestMigration.Proofs.Stub.Plan

/-!
# Chains gathered by stub

Chains are gathered by key, whatever order they come in: the plans of a sequence of chains are those of the
chains of each key by themselves (`Plans.gathered_eq`). Such a plan holds what its chains say as long as none of
them has an obstacle, and is given up at the first one that has (`Plan.foldl_add_joined`).

Main statement: `Plans.settled_outcome`, which says when a stub is given up and where.
-/

namespace TestMigration

variable {ctx : Context}

/-! ### The chains of one stub -/

namespace StubConfig

def key (ctx : Context) (c : StubConfig) : ScopeKey := c.root.scopeKey c.subject c.member ctx.source

/-- What the chain configures, if it configures something that can be kept. -/
def parsed? (ctx : Context) (c : StubConfig) : Option Entry :=
  match Entry.parse ctx c.tail with
  | .ok entry => entry
  | .error _ => none

end StubConfig

/-- What chains configure, in their order. -/
def entriesOf (ctx : Context) (chains : List StubConfig) : List Entry := chains.filterMap (·.parsed? ctx)

/-- The chains that configure a stub that was made before. -/
def contributing (chains : List StubConfig) : List StubConfig := chains.filter (!·.isCreation)

theorem contributing_eq_self {chains : List StubConfig} (h : ¬ chains.any (·.isCreation) = true) :
    contributing chains = chains := by
  rw [contributing, List.filter_eq_self]
  simpa using h

/-- Why an entry cannot stand beside others: one of them has its condition. -/
def Entry.taken? (source : Text) (others : List Entry) (e : Entry) : Option String :=
  if (others.map (·.conditionText source)).contains (e.conditionText source) then
    match e.conditionText source with
    | none => some "default behaviour configured more than once"
    | some args => some ("withArgs(" ++ String.intercalate ", " args ++ ") configured more than once")
  else none

namespace StubConfig

/-- Why a chain has no place behind the chains before it: the stub is made a second time, or the chain does not
run each time. -/
def misplaced? (before : List StubConfig) (c : StubConfig) : Option String :=
  if c.isCreation then
    if before.any (·.isCreation) then some "stubbed more than once in the same scope" else none
  else if c.root.isUnconditional then none
  else some "configuration is conditional or not a standalone statement"

/-- Why a chain cannot join the chains before it: what it configures cannot be kept, its condition is taken, or
it has no place behind them. -/
def obstacle? (ctx : Context) (before : List StubConfig) (c : StubConfig) : Option String :=
  match Entry.parse ctx c.tail with
  | .error reason => some reason
  | .ok entry => entry.bind (Entry.taken? ctx.source (entriesOf ctx before)) <|> c.misplaced? before

end StubConfig

/-- The first of some chains that cannot join those before it, with the reason. -/
def firstObstacle? (ctx : Context) (before : List StubConfig) : List StubConfig → Option (String × Site)
  | [] => none
  | c :: rest =>
    match c.obstacle? ctx before with
    | some reason => some (reason, c.root)
    | none => firstObstacle? ctx (before ++ [c]) rest

/-! ### Joining -/

namespace Plan

variable {scope : Span} {before chains : List StubConfig} {c : StubConfig} {p : Plan}

/-- The plan of chains that have all joined. -/
def joined (ctx : Context) (scope : Span) (chains : List StubConfig) : Plan where
  install := (chains.find? (·.isCreation)).map (·.root)
  object := (chains.find? (·.isCreation)).bind (·.object)
  binding := chains.findSome? (·.binding)
  entries := entriesOf ctx chains
  contributions := (contributing chains).map (·.root)
  scope

theorem conflict?_eq (p : Plan) (source : Text) : p.conflict? source = Entry.taken? source p.entries := by
  funext e
  have htaken (condition : Option (List String)) :
      p.entries.any (fun other => other.conditionText source == condition) =
        (p.entries.map (·.conditionText source)).contains condition := by
    rw [Bool.eq_iff_iff, List.any_eq_true, List.contains_iff_mem, List.mem_map]
    simp
  unfold conflict? Entry.taken?
  cases e.conditionText source with
  | none => simp only [htaken]
  | some args => simp only [htaken]

theorem skip_of_skipped_eq_none {reason : String} {at' : Site} {source : Text} (h : p.skipped = none) :
    p.skip reason at' source = { p with skipped := some (reason, source.locationAt at'.span.start) } := by
  simp [skip, h]

theorem entriesOf_snoc : entriesOf ctx (before ++ [c]) = entriesOf ctx before ++ (c.parsed? ctx).toList := by
  rw [entriesOf, List.filterMap_append, entriesOf]
  cases h : c.parsed? ctx <;> simp [h]

theorem findSome_binding_snoc : (before ++ [c]).findSome? (·.binding) =
    (before.findSome? (·.binding) <|> c.binding) := by
  rw [List.findSome?_append]
  cases h : c.binding <;> simp [h]

theorem joined_join : (joined ctx scope before).join c (c.parsed? ctx) ctx.source =
    match c.misplaced? before with
    | none => joined ctx scope (before ++ [c])
    | some reason => (joined ctx scope before).skip reason c.root ctx.source := by
  unfold join StubConfig.misplaced?
  dsimp only
  -- what a creation changes is where the function goes, what any other chain changes is what gets deleted
  cases hcreation : c.isCreation with
  | true =>
    by_cases hmade : before.any (·.isCreation) = true
    · have hinstall : (joined ctx scope before).install.isSome = true := by
        simpa [joined] using hmade
      simp only [hinstall, hmade, if_true]
    · have hnone : before.find? (·.isCreation) = none := by simpa using hmade
      have hfind : (before ++ [c]).find? (·.isCreation) = some c := by
        simp [List.find?_append, hnone, hcreation]
      have hinstall : (joined ctx scope before).install.isSome = false := by simp [joined, hnone]
      rw [if_pos rfl, hinstall, if_neg (by simp), if_pos rfl, if_neg hmade]
      simp only [joined, hfind, entriesOf_snoc, findSome_binding_snoc, contributing, List.filter_append]
      simp [hcreation]
  | false =>
    have hfind : (before ++ [c]).find? (·.isCreation) = before.find? (·.isCreation) := by
      simp [List.find?_append, hcreation]
    cases hruns : c.root.isUnconditional with
    | true =>
      rw [if_neg (by simp), if_neg (by simp), if_neg (by simp), if_pos rfl]
      simp only [joined, hfind, entriesOf_snoc, findSome_binding_snoc, contributing, List.filter_append]
      simp [hcreation]
    | false => rfl

theorem joined_add : (joined ctx scope before).add ctx c =
    match c.obstacle? ctx before with
    | none => joined ctx scope (before ++ [c])
    | some reason => (joined ctx scope before).skip reason c.root ctx.source := by
  have hopen : (joined ctx scope before).skipped = none := rfl
  rw [add, if_neg (by simp [hopen]), StubConfig.obstacle?]
  cases hparse : Entry.parse ctx c.tail with
  | error reason => rfl
  | ok entry =>
    obtain rfl : c.parsed? ctx = entry := by simp [StubConfig.parsed?, hparse]
    dsimp only
    rw [conflict?_eq]
    show (match (c.parsed? ctx).bind (Entry.taken? ctx.source (entriesOf ctx before)) with
      | some reason => (joined ctx scope before).skip reason c.root ctx.source
      | none => (joined ctx scope before).join c (c.parsed? ctx) ctx.source) = _
    cases (c.parsed? ctx).bind (Entry.taken? ctx.source (entriesOf ctx before)) with
    | some reason => rfl
    | none => exact joined_join

theorem add_of_skipped {x : String × Location} (h : p.skipped = some x) : p.add ctx c = p := by
  rw [add, if_pos (by simp [h])]

theorem foldl_add_of_skipped {x : String × Location} (h : p.skipped = some x) :
    chains.foldl (add ctx) p = p := by
  induction chains with
  | nil => rfl
  | cons c rest ih => rw [List.foldl_cons, add_of_skipped h, ih]

theorem foldl_add_joined (before chains : List StubConfig) : (firstObstacle? ctx before chains = none →
      chains.foldl (add ctx) (joined ctx scope before) = joined ctx scope (before ++ chains)) ∧
    ∀ reason at', firstObstacle? ctx before chains = some (reason, at') →
      (chains.foldl (add ctx) (joined ctx scope before)).skipped =
        some (reason, ctx.source.locationAt at'.span.start) := by
  induction chains generalizing before with
  | nil => simp [firstObstacle?]
  | cons c rest ih =>
    rw [firstObstacle?, List.foldl_cons, joined_add]
    cases c.obstacle? ctx before with
    | none => simpa using ih (before ++ [c])
    | some reason =>
      refine ⟨by simp, ?_⟩
      rintro reason' at' h
      cases h
      have hskip := @skip_of_skipped_eq_none (joined ctx scope before) reason c.root ctx.source rfl
      rw [foldl_add_of_skipped (x := (reason, ctx.source.locationAt c.root.span.start)) (by simp [hskip])]
      simp [hskip]

end Plan

/-! ### Gathering by key -/

/-- The keys of chains, in the order in which they first occur. -/
def stubKeys (ctx : Context) (configs : List StubConfig) : List ScopeKey :=
  (configs.map (·.key ctx)).eraseDups

/-- The chains of one key, in their order. -/
def chainsOf (ctx : Context) (configs : List StubConfig) (key : ScopeKey) : List StubConfig :=
  configs.filter (·.key ctx == key)

/-- The span of the test or suite around the first of some chains. -/
def scopeOf (ctx : Context) (chains : List StubConfig) : Span :=
  (chains.head?.map (·.root.scopeSpan ctx.source)).getD ⟨0, 0⟩

/-- The plan of chains that come one after the other. -/
def Plan.gathered (ctx : Context) (chains : List StubConfig) : Plan :=
  chains.foldl (Plan.add ctx) { scope := scopeOf ctx chains }

theorem Plan.gathered_snoc {chains : List StubConfig} (h : chains ≠ []) (c : StubConfig) :
    Plan.gathered ctx (chains ++ [c]) = (Plan.gathered ctx chains).add ctx c := by
  obtain ⟨first, rest, rfl⟩ := List.exists_cons_of_ne_nil h
  simp [Plan.gathered, scopeOf, List.foldl_append]

theorem mem_stubKeys {configs : List StubConfig} {key : ScopeKey} :
    key ∈ stubKeys ctx configs ↔ chainsOf ctx configs key ≠ [] := by
  rw [stubKeys, List.mem_eraseDups, chainsOf, Ne, List.filter_eq_nil_iff]
  simp

theorem stubKeys_snoc (configs : List StubConfig) (c : StubConfig) : stubKeys ctx (configs ++ [c]) =
    if c.key ctx ∈ stubKeys ctx configs then stubKeys ctx configs
    else stubKeys ctx configs ++ [c.key ctx] := by
  have hmem : c.key ctx ∈ stubKeys ctx configs ↔ c.key ctx ∈ configs.map (·.key ctx) := List.mem_eraseDups
  rw [stubKeys, List.map_append, List.eraseDups_append]
  by_cases h : c.key ctx ∈ configs.map (·.key ctx)
  · rw [if_pos (hmem.mpr h)]
    have hgone : (List.map (·.key ctx) [c]).removeAll (configs.map (·.key ctx)) = [] := by
      simpa [List.removeAll] using h
    rw [hgone]
    simp [stubKeys]
  · rw [if_neg (mt hmem.mp h)]
    have hkept : (List.map (·.key ctx) [c]).removeAll (configs.map (·.key ctx)) = [c.key ctx] := by
      simpa [List.removeAll] using h
    rw [hkept]
    rfl

theorem stubKeys_nodup (configs : List StubConfig) : (stubKeys ctx configs).Nodup := by
  induction configs using List.reverseRecOn with
  | nil => exact List.nodup_nil
  | append_singleton configs c ih =>
    rw [stubKeys_snoc]
    split
    · exact ih
    · rename_i hfresh
      refine List.nodup_append.mpr ⟨ih, by simp, ?_⟩
      rintro a ha b hb rfl
      rw [List.mem_singleton.mp hb] at ha
      exact hfresh ha

namespace Plans

theorem addAt_map {keys : List ScopeKey} (hnodup : keys.Nodup) (plan : ScopeKey → Plan) (key : ScopeKey)
    (scope : Span) (c : StubConfig) : addAt ctx key scope c (keys.map fun k => (k, plan k)) =
      if key ∈ keys then keys.map fun k => (k, if k = key then (plan k).add ctx c else plan k)
      else keys.map (fun k => (k, plan k)) ++ [(key, Plan.add ctx { scope } c)] := by
  induction keys with
  | nil => rfl
  | cons k rest ih =>
    obtain ⟨hk, hrest⟩ := List.nodup_cons.mp hnodup
    rw [List.map_cons, addAt]
    by_cases heq : k = key
    · subst heq
      have hsame : rest.map (fun k' => (k', if k' = k then (plan k').add ctx c else plan k')) =
          rest.map fun k' => (k', plan k') := by
        refine List.map_congr_left fun k' hk' => ?_
        rw [if_neg fun h : k' = k => hk (h ▸ hk')]
      simp [hsame]
    · rw [if_neg (by simpa using heq), ih hrest]
      by_cases hmem : key ∈ rest <;> simp [hmem, heq, Ne.symm heq]

theorem gathered_eq (configs : List StubConfig) : configs.foldl (Plans.add ctx) [] =
    (stubKeys ctx configs).map fun k => (k, Plan.gathered ctx (chainsOf ctx configs k)) := by
  induction configs using List.reverseRecOn with
  | nil => rfl
  | append_singleton configs c ih =>
    have hother {k : ScopeKey} (h : k ≠ c.key ctx) : chainsOf ctx (configs ++ [c]) k = chainsOf ctx configs k := by
      simp [chainsOf, List.filter_append, h.symm]
    have hown : chainsOf ctx (configs ++ [c]) (c.key ctx) = chainsOf ctx configs (c.key ctx) ++ [c] := by
      simp [chainsOf, List.filter_append]
    rw [List.foldl_append, ih, List.foldl_cons, List.foldl_nil, Plans.add,
      show c.root.scopeKey c.subject c.member ctx.source = c.key ctx from rfl,
      addAt_map (stubKeys_nodup configs), stubKeys_snoc]
    -- the last chain goes to the plan of its key or begins one, and no other plan changes
    by_cases hknown : c.key ctx ∈ stubKeys ctx configs
    · rw [if_pos hknown, if_pos hknown]
      refine List.map_congr_left fun k hk => ?_
      by_cases heq : k = c.key ctx
      · subst heq
        rw [if_pos rfl, hown, Plan.gathered_snoc (mem_stubKeys.mp hk)]
      · rw [if_neg heq, hother heq]
    · rw [if_neg hknown, if_neg hknown, List.map_append]
      have hnone : chainsOf ctx configs (c.key ctx) = [] :=
        Classical.not_not.mp (mt mem_stubKeys.mpr hknown)
      congr 1
      · refine List.map_congr_left fun k hk => ?_
        rw [hother fun heq => hknown (heq ▸ hk)]
      · rw [List.map_singleton, hown, hnone]
        rfl

end Plans

/-! ### Stubs that are given up -/

/-- The first other key for the same stub whose chains have all joined, configure something and belong to a test
or suite around. -/
def outerKey? (ctx : Context) (configs : List StubConfig) (key : ScopeKey) : Option ScopeKey :=
  (stubKeys ctx configs).find? fun other =>
    other != key && other.subject == key.subject && other.member == key.member
      && (firstObstacle? ctx [] (chainsOf ctx configs other)).isNone
      && !(entriesOf ctx (chainsOf ctx configs other)).isEmpty
      && (scopeOf ctx (chainsOf ctx configs other)).contains (scopeOf ctx (chainsOf ctx configs key))

/-- Why and where a stub is given up: at the first chain with an obstacle or, for a stub that none of the chains
makes, because its function would take the place of one that is installed around it. -/
def givenUp? (ctx : Context) (configs : List StubConfig) (key : ScopeKey) : Option (String × Site) :=
  let chains := chainsOf ctx configs key
  firstObstacle? ctx [] chains <|> do
    guard (!chains.any (·.isCreation))
    let outer ← outerKey? ctx configs key
    let first ← chains.head?
    return ("would replace the configuration made for " ++ outer.text, first.root)

namespace Plan

variable {chains : List StubConfig}

theorem gathered_of_unobstructed (h : firstObstacle? ctx [] chains = none) :
    gathered ctx chains = joined ctx (scopeOf ctx chains) chains :=
  (foldl_add_joined [] chains).1 h

theorem gathered_skipped (ctx : Context) (chains : List StubConfig) : (gathered ctx chains).skipped =
    (firstObstacle? ctx [] chains).map fun o => (o.1, ctx.source.locationAt o.2.span.start) := by
  cases h : firstObstacle? ctx [] chains with
  | none => rw [gathered_of_unobstructed h]; rfl
  | some o => exact (foldl_add_joined [] chains).2 o.1 o.2 h

theorem add_scope (p : Plan) (c : StubConfig) : (p.add ctx c).scope = p.scope := by
  have hskip (reason : String) (at' : Site) : (p.skip reason at' ctx.source).scope = p.scope := by
    unfold skip
    split <;> rfl
  unfold add join
  dsimp only
  repeat' split
  all_goals first | rfl | exact hskip _ _

theorem gathered_scope : (gathered ctx chains).scope = scopeOf ctx chains := by
  have hfold (l : List StubConfig) (p : Plan) : (l.foldl (add ctx) p).scope = p.scope := by
    induction l generalizing p with
    | nil => rfl
    | cons c rest ih => rw [List.foldl_cons, ih, add_scope]
  exact hfold chains _

end Plan

namespace Plans

variable {configs : List StubConfig} {key : ScopeKey}

theorem find_outer : ((configs.foldl (Plans.add ctx) []).find? fun (other, p) =>
      other != key && other.subject == key.subject && other.member == key.member
        && p.skipped.isNone && !p.entries.isEmpty
        && p.encloses (Plan.gathered ctx (chainsOf ctx configs key))).map (·.1) =
    outerKey? ctx configs key := by
  rw [gathered_eq, List.find?_map, Option.map_map, outerKey?]
  have hid : ((·.1) ∘ fun k => (k, Plan.gathered ctx (chainsOf ctx configs k)) : ScopeKey → ScopeKey) = id := rfl
  rw [hid, Option.map_id]
  refine congrArg (List.find? · _) (funext fun other => ?_)
  simp only [Function.comp, Plan.gathered_skipped, Plan.encloses, Plan.gathered_scope]
  -- the entries of the plan around are those of its chains as soon as it was not given up
  cases h : firstObstacle? ctx [] (chainsOf ctx configs other) with
  | some o => simp
  | none => rw [Plan.gathered_of_unobstructed h]; rfl

theorem overridden?_gathered :
    Plans.overridden? (configs.foldl (Plans.add ctx) []) key (Plan.gathered ctx (chainsOf ctx configs key)) =
      if (firstObstacle? ctx [] (chainsOf ctx configs key)).isSome then none
      else if (chainsOf ctx configs key).any (·.isCreation) then none
      else outerKey? ctx configs key := by
  unfold overridden?
  cases h : firstObstacle? ctx [] (chainsOf ctx configs key) with
  | some o => simp [Plan.gathered_skipped, h]
  | none =>
    have hinstall : (Plan.gathered ctx (chainsOf ctx configs key)).install.isNone =
        !(chainsOf ctx configs key).any (·.isCreation) := by
      rw [Plan.gathered_of_unobstructed h, Bool.eq_iff_iff]
      simp [Plan.joined]
    have hskipped : (Plan.gathered ctx (chainsOf ctx configs key)).skipped.isNone = true := by
      simp [Plan.gathered_skipped, h]
    rw [hinstall, hskipped, ← find_outer]
    cases (chainsOf ctx configs key).any (·.isCreation) with
    | true => rfl
    | false =>
      rw [Option.map_eq_bind]
      rfl

/-- The plan of a key once the plans that would undo the work of others were given up. -/
def settled (ctx : Context) (configs : List StubConfig) (key : ScopeKey) : Plan :=
  let plan := Plan.gathered ctx (chainsOf ctx configs key)
  match Plans.overridden? (configs.foldl (Plans.add ctx) []) key plan, plan.contributions.head? with
  | some outer, some first =>
    plan.skip ("would replace the configuration made for " ++ outer.text) first ctx.source
  | _, _ => plan

theorem withoutOverriding_gathered :
    Plans.withoutOverriding ctx.source (configs.foldl (Plans.add ctx) []) =
      (stubKeys ctx configs).map fun k => (k, settled ctx configs k) := by
  unfold withoutOverriding
  nth_rewrite 2 [gathered_eq]
  rw [List.map_map]
  refine List.map_congr_left fun k _ => ?_
  simp only [Function.comp, settled]
  cases Plans.overridden? (configs.foldl (Plans.add ctx) []) k (Plan.gathered ctx (chainsOf ctx configs k)) with
  | none => rfl
  | some outer =>
    cases (Plan.gathered ctx (chainsOf ctx configs k)).contributions.head? with
    | none => rfl
    | some first => rfl

/-- A plan holds what the chains of its key say unless the stub is given up. -/
theorem settled_cases (hkey : key ∈ stubKeys ctx configs) :
    match givenUp? ctx configs key with
    | some (reason, at') => (settled ctx configs key).skipped = some (reason, ctx.source.locationAt at'.span.start)
    | none => settled ctx configs key =
        Plan.joined ctx (scopeOf ctx (chainsOf ctx configs key)) (chainsOf ctx configs key) := by
  have hskipped := Plan.gathered_skipped ctx (chainsOf ctx configs key)
  unfold settled givenUp?
  dsimp only
  rw [overridden?_gathered]
  cases hobstacle : firstObstacle? ctx [] (chainsOf ctx configs key) with
  | some o => simp [hskipped, hobstacle]
  | none =>
    rw [Plan.gathered_of_unobstructed hobstacle]
    by_cases hmade : (chainsOf ctx configs key).any (·.isCreation) = true
    · simp [hmade]
    · obtain ⟨first, rest, hchains⟩ := List.exists_cons_of_ne_nil (mem_stubKeys.mp hkey)
      have hfirst : (Plan.joined ctx (scopeOf ctx (chainsOf ctx configs key))
          (chainsOf ctx configs key)).contributions.head? = some first.root := by
        show ((contributing _).map _).head? = _
        rw [contributing_eq_self hmade, hchains]
        rfl
      cases houter : outerKey? ctx configs key with
      | none => simp [hmade]
      | some outer =>
        have hhead : (chainsOf ctx configs key).head? = some first := by rw [hchains]; rfl
        have hopen : (Plan.joined ctx (scopeOf ctx (chainsOf ctx configs key))
            (chainsOf ctx configs key)).skipped = none := rfl
        simp [hmade, hfirst, hhead, Plan.skip_of_skipped_eq_none hopen]

theorem settled_skipped (hkey : key ∈ stubKeys ctx configs) :
    (settled ctx configs key).skipped.isSome = (givenUp? ctx configs key).isSome := by
  have hcases := settled_cases hkey
  cases hgiven : givenUp? ctx configs key with
  | some o => simp_all
  | none =>
    simp only [hgiven] at hcases
    rw [hcases]
    rfl

theorem settled_outcome (hkey : key ∈ stubKeys ctx configs) : (settled ctx configs key).outcome ctx key =
    match givenUp? ctx configs key with
    | some (reason, at') =>
      { diagnostics := [skippedWarning key reason (ctx.source.locationAt at'.span.start)] }
    | none => (Plan.joined ctx (scopeOf ctx (chainsOf ctx configs key)) (chainsOf ctx configs key)).outcome
        ctx key := by
  have hcases := settled_cases hkey
  cases hgiven : givenUp? ctx configs key with
  | some o =>
    simp only [hgiven] at hcases
    simp [Plan.outcome, hcases]
  | none =>
    simp only [hgiven] at hcases
    rw [hcases]

end Plans

end TestMigration
