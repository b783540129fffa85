import Mathlib.Data.List.Nodup
import TestMigration.Config.Load
import TestMigration.Proofs.Files.Places

/-!
# Chains of configuration files

`Extends f path next` says that the file at `path` can be read and extends the one at `next`, and a `Trail` follows
such steps. `Loads` states the rules of loading without a bound on the length of a chain: a file that is on the chain
already is refused, and a file that extends another one is completed by what that one loads to.

The files of a chain have different canonical paths, so no chain is longer than the tree has files. Hence the bound
that `Config.loadFile` counts down is never reached, and loading is the function that the rules describe.

Main statements: `Config.loads_iff` and `Config.loadFile_circular_iff`.
-/

namespace TestMigration

/-- A text that goes on behind `a` begins with `p` only if one of the two begins with the other. -/
theorem Text.prefix_of_startsWith {p a b : String} (h : Text.startsWith (a ++ b).toList p = true) :
    p.toList <+: a.toList ∨ a.toList <+: p.toList := by
  rw [startsWith, String.toList_append] at h
  exact List.prefix_or_prefix_of_prefix (List.isPrefixOf_iff_prefix.mp h) (List.prefix_append _ _)

namespace ConfigError

/-- What the message for an error begins with. -/
def opening : ConfigError → String
  | missing _ => "Config file not found: "
  | unreadable _ _ => "Failed to read config: "
  | invalid _ => "Invalid JSON in config: "
  | circular _ => "Circular extends: "
  | notAPath _ _ => "extends must be a relative or absolute path, got '"
  | baseMissing _ _ => "Extended config not found: "
  | alreadyThere _ => "Config already exists: "
  | unwritable _ => "Failed to write config: "

theorem exists_message_eq (e : ConfigError) : ∃ rest, e.message = e.opening ++ rest := by
  cases e with
  | missing | unreadable | invalid | circular | alreadyThere | unwritable => exact ⟨_, rfl⟩
  | notAPath reference from' =>
    exact ⟨reference ++ ("' in " ++ from'), by simp only [← String.append_assoc]; rfl⟩
  | baseMissing path from' =>
    exact ⟨path ++ (" (referenced from " ++ (from' ++ ")")), by simp only [← String.append_assoc]; rfl⟩

theorem message_circular_iff {e : ConfigError} :
    Text.startsWith e.message.toList "Circular extends: " = true ↔ ∃ keys, e = .circular keys := by
  obtain ⟨rest, hmessage⟩ := e.exists_message_eq
  rw [hmessage]
  constructor
  · intro h
    have hprefix := Text.prefix_of_startsWith h
    cases e with
    | circular keys => exact ⟨keys, rfl⟩
    | missing | unreadable | invalid | notAPath | baseMissing | alreadyThere | unwritable =>
      simp [opening] at hprefix
  · rintro ⟨keys, rfl⟩
    rw [Text.startsWith, String.toList_append, List.isPrefixOf_iff_prefix]
    exact List.prefix_append _ _

end ConfigError

namespace Config

variable {f : Files} {path next : String} {chain trail keys : List String} {c : Config} {e : ConfigError}
  {r : Except ConfigError Config}

/-- The name of a file on a chain. -/
def key (f : Files) (path : String) : String := (f.canonical? path).getD path

/-- The file at `path` is read and extends the one at `next`. -/
def Extends (f : Files) (path next : String) : Prop :=
  ∃ c reference, readFile f path = .ok c ∧ c.extends? = some reference ∧ basePath f path reference = .ok next

/-- Paths that references lead to, one after the other, from `path` on. -/
structure Trail (f : Files) (path : String) (trail : List String) : Prop where
  head : trail.head? = some path
  steps : trail.IsChain (Extends f)

/-- `r` is what the file at `path` loads to behind the files of `chain`. -/
inductive Loads (f : Files) : List String → String → Except ConfigError Config → Prop
  | circular {chain : List String} {path : String} (hmet : key f path ∈ chain) :
    Loads f chain path (.error (.circular (chain ++ [key f path])))
  | unread {chain : List String} {path : String} {e : ConfigError} (hnew : key f path ∉ chain)
    (hread : readFile f path = .error e) : Loads f chain path (.error e)
  | alone {chain : List String} {path : String} {c : Config} (hnew : key f path ∉ chain)
    (hread : readFile f path = .ok c) (hends : c.extends? = none) : Loads f chain path (.ok c)
  | baseless {chain : List String} {path reference : String} {c : Config} {e : ConfigError}
    (hnew : key f path ∉ chain) (hread : readFile f path = .ok c) (hextends : c.extends? = some reference)
    (hbase : basePath f path reference = .error e) : Loads f chain path (.error e)
  | completed {chain : List String} {path reference next : String} {c : Config} {r : Except ConfigError Config}
    (hnew : key f path ∉ chain) (hread : readFile f path = .ok c) (hextends : c.extends? = some reference)
    (hbase : basePath f path reference = .ok next) (hnext : Loads f (chain ++ [key f path]) next r) :
    Loads f chain path (r.map ({ c with extends? := none }.inherit ·))

/-! ### What is read -/

theorem exists_place_of_readFile (h : readFile f path = .ok c) :
    ∃ names, f.locate? path = some names ∧ names ∈ f.tree.places := by
  unfold readFile at h
  cases hread : f.read path with
  | error failure =>
    rw [hread] at h
    cases h
  | ok text => exact Files.exists_place_of_read hread

theorem basePath_cases (f : Files) (path reference : String) :
    basePath f path reference = .error (.notAPath reference path) ∨
      ∃ next, basePath f path reference = if f.isFile next then .ok next else .error (.baseMissing next path) := by
  unfold basePath
  dsimp only
  split
  · exact .inl rfl
  · exact .inr ⟨_, rfl⟩

theorem exists_place_of_basePath {reference : String} (h : basePath f path reference = .ok next) :
    ∃ names, f.locate? next = some names ∧ names ∈ f.tree.places := by
  rcases basePath_cases f path reference with hcase | ⟨p, hcase⟩
  · rw [hcase] at h
    cases h
  · rw [hcase] at h
    split at h
    · rename_i hfile
      cases h
      exact Files.exists_place_of_isFile hfile
    · cases h

theorem key_of_locate? {names : List String} (h : f.locate? path = some names) : key f path = f.pathOf names := by
  rw [key, Files.canonical?_eq, h]
  rfl

theorem readFile_ne_circular (h : readFile f path = .error e) : e ≠ .circular keys := by
  unfold readFile at h
  rintro rfl
  split at h
  · cases h
  · split at h <;> cases h

theorem basePath_ne_circular {reference : String} (h : basePath f path reference = .error e) :
    e ≠ .circular keys := by
  rintro rfl
  rcases basePath_cases f path reference with hcase | ⟨p, hcase⟩
  · rw [hcase] at h
    cases h
  · rw [hcase] at h
    split at h <;> cases h

/-! ### The bound is never reached -/

theorem nodup_snoc {k : String} (hchain : chain.Nodup) (hnew : k ∉ chain) : (chain ++ [k]).Nodup := by
  rw [← List.concat_eq_append]
  exact List.Nodup.concat hnew hchain

/-- The files of a chain that `path` goes on: each is in the tree, and none is met twice. -/
structure OnChain (f : Files) (chain : List String) : Prop where
  nodup : chain.Nodup
  inTree : ∀ k ∈ chain, k ∈ f.tree.places.map f.pathOf

theorem OnChain.snoc (h : OnChain f chain) (hnew : key f path ∉ chain) (hread : readFile f path = .ok c) :
    OnChain f (chain ++ [key f path]) := by
  obtain ⟨names, hlocate, hplace⟩ := exists_place_of_readFile hread
  refine ⟨nodup_snoc h.nodup hnew, List.forall_mem_append.mpr ⟨h.inTree, List.forall_mem_singleton.mpr ?_⟩⟩
  rw [key_of_locate? hlocate]
  exact List.mem_map_of_mem hplace

/-- As long as the file at the end of a chain can be read, the bound allows one more. -/
theorem OnChain.exists_bound {n : Nat} (h : OnChain f chain) (hnew : key f path ∉ chain)
    (hread : readFile f path = .ok c) (hbound : f.tree.fileCount ≤ chain.length + n) :
    ∃ m, n = m + 1 ∧ f.tree.fileCount ≤ (chain ++ [key f path]).length + m := by
  have hsnoc := h.snoc hnew hread
  have hlength := Files.length_le_fileCount hsnoc.nodup hsnoc.inTree
  rw [List.length_append, List.length_singleton] at hlength ⊢
  exact ⟨n - 1, by omega, by omega⟩

theorem loadChain_of_mem {n : Nat} (hmet : key f path ∈ chain) :
    loadChain f n chain path = .error (.circular (chain ++ [key f path])) := by
  rw [loadChain, ← key, if_pos (List.contains_iff_mem.mpr hmet)]

theorem loadChain_of_unread {n : Nat} (hnew : key f path ∉ chain) (hread : readFile f path = .error e) :
    loadChain f n chain path = .error e := by
  rw [loadChain, ← key, if_neg (fun h => hnew (List.contains_iff_mem.mp h))]
  simp only [hread]

theorem loadChain_of_alone {n : Nat} (hnew : key f path ∉ chain) (hread : readFile f path = .ok c)
    (hends : c.extends? = none) : loadChain f n chain path = .ok c := by
  rw [loadChain, ← key, if_neg (fun h => hnew (List.contains_iff_mem.mp h))]
  simp only [hread, hends]

theorem loadChain_of_baseless {n : Nat} {reference : String} (hnew : key f path ∉ chain)
    (hread : readFile f path = .ok c) (hextends : c.extends? = some reference)
    (hbase : basePath f path reference = .error e) : loadChain f (n + 1) chain path = .error e := by
  rw [loadChain, ← key, if_neg (fun h => hnew (List.contains_iff_mem.mp h))]
  simp only [hread, hextends, hbase]
  rfl

theorem loadChain_of_base {n : Nat} {reference : String} (hnew : key f path ∉ chain)
    (hread : readFile f path = .ok c) (hextends : c.extends? = some reference)
    (hbase : basePath f path reference = .ok next) : loadChain f (n + 1) chain path =
      (loadChain f n (chain ++ [key f path]) next).map ({ c with extends? := none }.inherit ·) := by
  rw [loadChain, ← key, if_neg (fun h => hnew (List.contains_iff_mem.mp h))]
  simp only [hread, hextends, hbase]
  show (loadChain f n (chain ++ [key f path]) next >>= fun base => pure ({ c with extends? := none }.inherit base)) = _
  cases loadChain f n (chain ++ [key f path]) next <;> rfl

theorem Loads.loadChain_eq (h : Loads f chain path r) : ∀ {n : Nat}, OnChain f chain →
    f.tree.fileCount ≤ chain.length + n → loadChain f n chain path = r := by
  induction h with
  | circular hmet =>
    intro n _ _
    exact loadChain_of_mem hmet
  | unread hnew hread =>
    intro n _ _
    exact loadChain_of_unread hnew hread
  | alone hnew hread hends =>
    intro n _ _
    exact loadChain_of_alone hnew hread hends
  | baseless hnew hread hextends hbase =>
    intro n hchain hbound
    obtain ⟨m, rfl, -⟩ := hchain.exists_bound hnew hread hbound
    exact loadChain_of_baseless hnew hread hextends hbase
  | completed hnew hread hextends hbase _ ih =>
    intro n hchain hbound
    obtain ⟨m, rfl, hless⟩ := hchain.exists_bound hnew hread hbound
    rw [loadChain_of_base hnew hread hextends hbase, ih (hchain.snoc hnew hread) hless]

theorem loads_loadChain {n : Nat} {chain : List String} {path : String} (hchain : OnChain f chain)
    (hbound : f.tree.fileCount ≤ chain.length + n) : Loads f chain path (loadChain f n chain path) := by
  by_cases hmet : key f path ∈ chain
  · rw [loadChain_of_mem hmet]
    exact .circular hmet
  cases hread : readFile f path with
  | error e =>
    rw [loadChain_of_unread hmet hread]
    exact .unread hmet hread
  | ok c =>
    cases hextends : c.extends? with
    | none =>
      rw [loadChain_of_alone hmet hread hextends]
      exact .alone hmet hread hextends
    | some reference =>
      obtain ⟨m, rfl, hless⟩ := hchain.exists_bound hmet hread hbound
      cases hbase : basePath f path reference with
      | error e =>
        rw [loadChain_of_baseless hmet hread hextends hbase]
        exact .baseless hmet hread hextends hbase
      | ok next =>
        rw [loadChain_of_base hmet hread hextends hbase]
        exact .completed hmet hread hextends hbase (loads_loadChain (hchain.snoc hmet hread) hless)
termination_by n

/-- Every file loads to one result, and `loadFile` finds it. -/
theorem loads_iff : Loads f [] path r ↔ loadFile f path = r := by
  have hempty : OnChain f [] := ⟨List.nodup_nil, by simp⟩
  have hbound : f.tree.fileCount ≤ ([] : List String).length + f.tree.fileCount := by simp
  constructor
  · intro h
    exact h.loadChain_eq hempty hbound
  · rintro rfl
    exact loads_loadChain hempty hbound

/-! ### Chains that come back -/

theorem Extends.unique {p q q' : String} (h : Extends f p q) (h' : Extends f p q') : q = q' := by
  obtain ⟨c, reference, hread, hextends, hbase⟩ := h
  obtain ⟨c', reference', hread', hextends', hbase'⟩ := h'
  rw [hread] at hread'
  cases hread'
  rw [hextends] at hextends'
  cases hextends'
  rw [hbase] at hbase'
  exact Except.ok.inj hbase'

theorem Trail.tail {p : String} (h : Trail f path (path :: p :: trail)) : Trail f p (p :: trail) :=
  ⟨rfl, (List.isChain_cons_cons.mp h.steps).2⟩

/-- A chain that comes back is refused with the names of its files, up to the first one that is met again. -/
theorem Loads.circular_iff (hchain : chain.Nodup) : Loads f chain path (.error (.circular keys)) ↔
    ∃ trail, Trail f path trail ∧ keys = chain ++ trail.map (key f) ∧ keys.dropLast.Nodup ∧ ¬ keys.Nodup := by
  constructor
  · intro h
    generalize hr : (.error (.circular keys) : Except ConfigError Config) = r at h
    induction h with
    | @circular chain path hmet =>
      cases hr
      refine ⟨[path], ⟨rfl, List.IsChain.singleton _⟩, rfl, ?_, ?_⟩
      · rwa [List.dropLast_concat]
      · rw [List.nodup_append]
        rintro ⟨-, -, hdisjoint⟩
        exact hdisjoint _ hmet _ (List.mem_singleton_self _) rfl
    | unread hnew hread =>
      cases hr
      exact absurd rfl (readFile_ne_circular hread)
    | alone => cases hr
    | baseless hnew hread hextends hbase =>
      cases hr
      exact absurd rfl (basePath_ne_circular hbase)
    | @completed chain path reference next c r hnew hread hextends hbase _ ih =>
      have hnext : .error (.circular keys) = r := by
        cases r with
        | error e => exact congrArg Except.error (Except.error.inj hr)
        | ok base => cases hr
      obtain ⟨trail, htrail, hkeys, hfirst, htwice⟩ := ih (nodup_snoc hchain hnew) hnext
      refine ⟨path :: trail, ⟨rfl, ?_⟩, ?_, hfirst, htwice⟩
      · cases trail with
        | nil => cases htrail.head
        | cons p rest =>
          obtain rfl : p = next := Option.some.inj htrail.head
          exact List.isChain_cons_cons.mpr ⟨⟨c, reference, hread, hextends, hbase⟩, htrail.steps⟩
      · rw [hkeys, List.append_assoc]
        rfl
  · rintro ⟨trail, htrail, hkeys, hfirst, htwice⟩
    induction trail generalizing chain path with
    | nil => cases htrail.head
    | cons p rest ih =>
      obtain rfl : p = path := Option.some.inj htrail.head
      cases rest with
      | nil =>
        rw [List.map_singleton] at hkeys
        have hmet : key f p ∈ chain := by
          by_contra hnew
          rw [hkeys] at htwice
          exact htwice (nodup_snoc hchain hnew)
        rw [hkeys]
        exact .circular hmet
      | cons q rest =>
        obtain ⟨⟨c, reference, hread, hextends, hbase⟩, -⟩ := List.isChain_cons_cons.mp htrail.steps
        have hkeys' : keys = (chain ++ [key f p]) ++ (q :: rest).map (key f) := by
          rw [hkeys, List.append_assoc]
          rfl
        have hsnoc : (chain ++ [key f p]).Nodup := by
          refine hfirst.sublist ?_
          rw [hkeys', List.dropLast_append_of_ne_nil (by simp)]
          exact List.sublist_append_left _ _
        have hnew : key f p ∉ chain := by
          intro hmet
          exact (List.nodup_append.mp hsnoc).2.2 _ hmet _ (List.mem_singleton_self _) rfl
        exact .completed hnew hread hextends hbase (ih hsnoc htrail.tail hkeys')

/-- As long as no chain is refused for coming back, no trail does. -/
theorem Loads.nodup (h : Loads f chain path r) (hchain : chain.Nodup)
    (hr : ∀ keys, r ≠ .error (.circular keys)) (htrail : Trail f path trail) :
    (chain ++ trail.map (key f)).Nodup := by
  -- a file that extends nothing that can be found ends its trail
  have hshort {chain : List String} {path : String} {trail : List String} (hchain : chain.Nodup)
      (hnew : key f path ∉ chain) (hends : ∀ next, ¬ Extends f path next) (htrail : Trail f path trail) :
      (chain ++ trail.map (key f)).Nodup := by
    cases trail with
    | nil => cases htrail.head
    | cons p rest =>
      obtain rfl : p = path := Option.some.inj htrail.head
      cases rest with
      | nil =>
        rw [List.map_singleton]
        exact nodup_snoc hchain hnew
      | cons q rest => exact absurd (List.isChain_cons_cons.mp htrail.steps).1 (hends q)
  induction h generalizing trail with
  | circular hmet => exact absurd rfl (hr _)
  | unread hnew hread =>
    refine hshort hchain hnew ?_ htrail
    rintro next ⟨c, reference, hread', -⟩
    rw [hread] at hread'
    cases hread'
  | alone hnew hread hends =>
    refine hshort hchain hnew ?_ htrail
    rintro next ⟨c, reference, hread', hextends, -⟩
    rw [hread] at hread'
    cases hread'
    rw [hends] at hextends
    cases hextends
  | baseless hnew hread hextends hbase =>
    refine hshort hchain hnew ?_ htrail
    rintro next ⟨c, reference, hread', hextends', hbase'⟩
    rw [hread] at hread'
    cases hread'
    rw [hextends] at hextends'
    cases hextends'
    rw [hbase] at hbase'
    cases hbase'
  | @completed chain path reference next c r hnew hread hextends hbase _ ih =>
    have hsnoc : (chain ++ [key f path]).Nodup := nodup_snoc hchain hnew
    have hr' : ∀ keys, r ≠ .error (.circular keys) := by
      rintro keys rfl
      exact hr keys rfl
    cases trail with
    | nil => cases htrail.head
    | cons p rest =>
      obtain rfl : p = path := Option.some.inj htrail.head
      cases rest with
      | nil => simpa using hsnoc
      | cons q rest =>
        obtain rfl : q = next :=
          Extends.unique (List.isChain_cons_cons.mp htrail.steps).1 ⟨c, reference, hread, hextends, hbase⟩
        have hrest := ih hsnoc hr' htrail.tail
        rwa [List.append_assoc] at hrest

/-! ### Names and places -/

theorem exists_place_of_isChain {p q : String} (h : (p :: q :: trail).IsChain (Extends f)) :
    ∀ x ∈ p :: q :: trail, ∃ names, f.locate? x = some names := by
  have hleft {p q : String} (h : Extends f p q) : ∃ names, f.locate? p = some names := by
    obtain ⟨c, reference, hread, -, -⟩ := h
    obtain ⟨names, hnames, -⟩ := exists_place_of_readFile hread
    exact ⟨names, hnames⟩
  have hright {p q : String} (h : Extends f p q) : ∃ names, f.locate? q = some names := by
    obtain ⟨c, reference, -, -, hbase⟩ := h
    obtain ⟨names, hnames, -⟩ := exists_place_of_basePath hbase
    exact ⟨names, hnames⟩
  induction trail generalizing p q with
  | nil =>
    obtain ⟨hstep, -⟩ := List.isChain_cons_cons.mp h
    simpa using ⟨hleft hstep, hright hstep⟩
  | cons next rest ih =>
    obtain ⟨hstep, hrest⟩ := List.isChain_cons_cons.mp h
    exact List.forall_mem_cons.mpr ⟨hleft hstep, ih hrest⟩

/-- A trail names no file twice exactly when it comes to no place twice. -/
theorem Trail.nodup_iff (h : Trail f path trail) : (trail.map (key f)).Nodup ↔ (trail.map f.locate?).Nodup := by
  match trail, h.steps with
  | [], _ => simp
  | [p], _ => simp
  | p :: q :: rest, hsteps =>
    have hplaces := exists_place_of_isChain hsteps
    rw [List.Nodup, List.Nodup, List.pairwise_map, List.pairwise_map]
    refine List.Pairwise.iff_of_mem fun {x y} hx hy => not_congr ?_
    obtain ⟨a, ha⟩ := hplaces x hx
    obtain ⟨b, hb⟩ := hplaces y hy
    rw [← Files.canonical?_eq_iff ha hb, key_of_locate? ha, key_of_locate? hb, Files.canonical?_eq, ha,
      Files.canonical?_eq, hb, Option.map_some, Option.map_some, Option.some_inj]

/-- Loading ends with the one result that the rules give. It is refused as circular exactly when references lead to a
place twice, each file on the way being read and extending a file that is there; the error names the files up to the
first one that is met again. -/
theorem loadFile_circular_iff (f : Files) (path : String) :
    (∀ r, Loads f [] path r ↔ loadFile f path = r) ∧
    (∀ keys, loadFile f path = .error (.circular keys) ↔
      ∃ trail, Trail f path trail ∧ keys = trail.map (key f) ∧ keys.dropLast.Nodup ∧ ¬ keys.Nodup) ∧
    ((∃ e, loadFile f path = .error e ∧ Text.startsWith e.message.toList "Circular extends: " = true) ↔
      ∃ trail, Trail f path trail ∧ ¬ (trail.map f.locate?).Nodup) := by
  refine ⟨fun r => loads_iff, fun keys => loads_iff.symm.trans (Loads.circular_iff List.nodup_nil), ?_⟩
  constructor
  · rintro ⟨e, hload, hsays⟩
    obtain ⟨keys, rfl⟩ := ConfigError.message_circular_iff.mp hsays
    obtain ⟨trail, htrail, rfl, -, htwice⟩ := (Loads.circular_iff List.nodup_nil).mp (loads_iff.mpr hload)
    exact ⟨trail, htrail, fun hnodup => htwice (htrail.nodup_iff.mpr hnodup)⟩
  · rintro ⟨trail, htrail, htwice⟩
    by_contra hnone
    refine htwice (htrail.nodup_iff.mp ?_)
    refine Loads.nodup (loads_iff.mpr rfl) List.nodup_nil (fun keys hkeys => hnone ?_) htrail
    exact ⟨_, hkeys, ConfigError.message_circular_iff.mpr ⟨keys, rfl⟩⟩

example : loadFile
    { home := "/w"
      tree := .directory [("a.json", .file (.text "\x7b\"extends\": \"./sub/b\"\x7d")),
        ("sub", .directory [("b.json", .file (.text "\x7b\"extends\": \"../sub/../a.json\"\x7d"))])] }
    "a.json" = .error (.circular ["/w/a.json", "/w/sub/b.json", "/w/a.json"]) := by
  decide +kernel

end Config

end TestMigration
