import Mathlib.Data.List.Induction
import TestMigration.Config.Selection
import TestMigration.Proofs.Config.Extends

/-!
# Layers of a configuration

A chain of files that ends loads to the configuration that its layers make, the file itself on top: of each single
setting the first one that is set counts, and lists are put together from the bottom up. So an override of an upper
layer wins over those of the layers below, and within a layer the last one does.

Main statement: `Config.loadFile_layers`.
-/

namespace TestMigration

/-- The migrations of the last override about a file that names some. -/
def Override.lastFor? (overrides : List Override) (file : String) : Option (List Migration) :=
  (overrides.reverse.find? fun o => o.appliesTo file && o.migrations.isSome).bind (·.migrations)

namespace Config

variable {f : Files} {path file : String} {chain trail : List String} {c : Config} {layers : List Config}

/-- The first value that is set. -/
def firstSet {α : Type} [DecidableEq α] (unset : α) (values : List α) : α :=
  (values.find? fun v => decide (v ≠ unset)).getD unset

/-- The configuration that layers make, the top one first. -/
def layered (layers : List Config) : Config :=
  { extends? := none
    migrations := firstSet none (layers.map (·.migrations))
    ignore := layers.reverse.flatMap (·.ignore)
    testPatterns := firstSet [] (layers.map (·.testPatterns))
    targets :=
      { assert := firstSet none (layers.map (·.targets.assert))
        test := firstSet none (layers.map (·.targets.test))
        util := firstSet none (layers.map (·.targets.util)) }
    style :=
      { quote := firstSet .auto (layers.map (·.style.quote))
        semicolons := firstSet .auto (layers.map (·.style.semicolons))
        indent := firstSet none (layers.map (·.style.indent)) }
    overrides := layers.reverse.flatMap (·.overrides) }

/-- The files of a chain with their configurations: each can be read and extends the next one, the last one extends
nothing, and no file is there twice. -/
structure Layers (f : Files) (path : String) (trail : List String) (layers : List Config) : Prop where
  follows : Trail f path trail
  read : List.Forall₂ (fun p c => readFile f p = .ok c) trail layers
  ends : ∀ c ∈ layers.getLast?, c.extends? = none
  acyclic : (trail.map f.locate?).Nodup

/-! ### Settings -/

section
variable {α : Type} [DecidableEq α] {unset a : α} {values : List α}

theorem firstSet_cons : firstSet unset (a :: values) = if a = unset then firstSet unset values else a := by
  unfold firstSet
  by_cases h : a = unset
  · rw [if_pos h, List.find?_cons_of_neg (by simp [h])]
  · rw [if_neg h, List.find?_cons_of_pos (by simp [h]), Option.getD_some]

end

theorem layered_cons (c : Config) (rest : List Config) :
    layered (c :: rest) = { c with extends? := none }.inherit (layered rest) := by
  have hopen {α : Type} [DecidableEq α] (a b : Option α) : (a <|> b) = if a = none then b else a := by
    cases a <;> rfl
  simp only [layered, inherit, TargetChoice.inherit, StyleChoice.inherit, hopen, List.map_cons, firstSet_cons,
    List.reverse_cons, List.flatMap_append, List.flatMap_singleton, List.isEmpty_iff, beq_iff_eq, if_true]

theorem layered_singleton (h : c.extends? = none) : layered [c] = c := by
  have hset {α : Type} [DecidableEq α] (unset a : α) : firstSet unset [a] = a := by
    rw [firstSet_cons]
    split
    · rename_i heq
      exact heq.symm
    · rfl
  simp only [layered, List.map_singleton, hset, List.reverse_singleton, List.flatMap_singleton]
  rw [← h]

/-! ### Overrides -/

theorem lastFor?_append (a b : List Override) :
    Override.lastFor? (a ++ b) file = (Override.lastFor? b file <|> Override.lastFor? a file) := by
  unfold Override.lastFor?
  rw [List.reverse_append, List.find?_append]
  cases hb : b.reverse.find? fun o => o.appliesTo file && o.migrations.isSome with
  | none => rfl
  | some o =>
    have hsome := List.find?_some hb
    obtain ⟨ms, hms⟩ := Option.isSome_iff_exists.mp (Bool.and_eq_true_iff.mp hsome).2
    simp [hms]

/-- An override about the file counts before what the configuration says of all files. -/
theorem migrationsFor_eq (c : Config) (file : String) :
    c.migrationsFor file = Migration.normalize (Override.lastFor? c.overrides file <|> c.migrations) := by
  have hlast : ((c.overrides.filter (·.appliesTo file)).filterMap (·.migrations)).getLast? =
      Override.lastFor? c.overrides file := by
    induction c.overrides using List.reverseRecOn with
    | nil => rfl
    | append_singleton os o ih =>
      rw [lastFor?_append, ← ih]
      unfold Override.lastFor?
      cases happlies : o.appliesTo file <;> cases hms : o.migrations <;> simp [happlies, hms]
  simp only [migrationsFor, hlast]
  cases Override.lastFor? c.overrides file <;> rfl

theorem lastFor?_layers (layers : List Config) : Override.lastFor? (layers.reverse.flatMap (·.overrides)) file =
    layers.findSome? fun c => Override.lastFor? c.overrides file := by
  induction layers with
  | nil => rfl
  | cons c rest ih =>
    rw [List.reverse_cons, List.flatMap_append, List.flatMap_singleton, lastFor?_append, ih, List.findSome?_cons]
    cases Override.lastFor? c.overrides file <;> rfl

/-! ### Loading -/

theorem Loads.of_layers (hread : List.Forall₂ (fun p c => readFile f p = .ok c) trail layers)
    (htrail : Trail f path trail) (hends : ∀ c ∈ layers.getLast?, c.extends? = none)
    (hnodup : (chain ++ trail.map (key f)).Nodup) : Loads f chain path (.ok (layered layers)) := by
  induction hread generalizing chain path with
  | nil => cases htrail.head
  | @cons p c rest cs hread hrest ih =>
    obtain rfl : p = path := Option.some.inj htrail.head
    have hnew : key f p ∉ chain := by
      intro hmet
      exact (List.nodup_append.mp hnodup).2.2 _ hmet _ List.mem_cons_self rfl
    cases hrest with
    | nil =>
      have hnone := hends c rfl
      rw [layered_singleton hnone]
      exact .alone hnew hread hnone
    | @cons q c' rest cs _ _ =>
      obtain ⟨⟨c₀, reference, hread₀, hextends, hbase⟩, -⟩ := List.isChain_cons_cons.mp htrail.steps
      obtain rfl : c₀ = c := Except.ok.inj (hread₀.symm.trans hread)
      have hnodup' : ((chain ++ [key f p]) ++ (q :: rest).map (key f)).Nodup := by
        rwa [List.append_assoc]
      have hends' : ∀ c ∈ (c' :: cs).getLast?, c.extends? = none := by
        rwa [List.getLast?_cons_cons] at hends
      rw [layered_cons]
      exact .completed hnew hread hextends hbase (ih htrail.tail hends' hnodup')

/-- A chain of files loads to what its layers make, and for a file the last override of the topmost layer that has
one about it counts. -/
theorem loadFile_layers (h : Layers f path trail layers) :
    loadFile f path = .ok (layered layers) ∧
    ∀ file, (layered layers).migrationsFor file = Migration.normalize
      ((layers.findSome? fun c => Override.lastFor? c.overrides file) <|> firstSet none (layers.map (·.migrations))) := by
  constructor
  · refine loads_iff.mp (Loads.of_layers h.read h.follows h.ends ?_)
    rw [List.nil_append]
    exact h.follows.nodup_iff.mpr h.acyclic
  · intro file
    rw [migrationsFor_eq]
    exact congrArg (fun o => Migration.normalize (o <|> _)) (lastFor?_layers layers)

/-- Three layers: the top one chooses the quote, the middle one the migrations, the bottom one the patterns. -/
theorem loadFile_layers_three : ∃ (f : Files) (top middle bottom : Config),
    Layers f "a.json" ["a.json", "./b.json", "././c.json"] [top, middle, bottom] ∧
    loadFile f "a.json" = .ok
      { migrations := some [.assertions], ignore := ["b", "a"], testPatterns := [".t.js"]
        style := { quote := .double }
        overrides := bottom.overrides ++ middle.overrides ++ top.overrides } ∧
    (layered [top, middle, bottom]).migrationsFor "old/x.test.js" = [.mocks] := by
  obtain ⟨f, hf⟩ : ∃ f : Files, f =
      { home := "/w"
        tree := .directory
          [("a.json", .file (.text ("\x7b\"extends\":\"./b\",\"ignore\":[\"a\"],\"style\":\x7b\"quote\":\"double\"\x7d,"
              ++ "\"overrides\":[\x7b\"files\":[\"old/**\"]\x7d]\x7d"))),
            ("b.json", .file (.text ("\x7b\"extends\":\"./c.json\",\"migrations\":[\"assertions\"],\"ignore\":[\"b\"],"
              ++ "\"style\":\x7b\"quote\":\"single\"\x7d,"
              ++ "\"overrides\":[\x7b\"files\":[\"old/**\"],\"migrations\":[\"mocks\"]\x7d]\x7d"))),
            ("c.json", .file (.text ("\x7b\"migrations\":[\"mocks\"],\"testPatterns\":[\".t.js\"],"
              ++ "\"overrides\":[\x7b\"files\":[\"old/**\"],\"migrations\":[]\x7d]\x7d")))] } :=
    ⟨_, rfl⟩
  let top : Config :=
    { extends? := some "./b", ignore := ["a"], style := { quote := .double }
      overrides := [{ files := ["old/**"] }] }
  let middle : Config :=
    { extends? := some "./c.json", migrations := some [.assertions], ignore := ["b"]
      style := { quote := .single }
      overrides := [{ files := ["old/**"], migrations := some [.mocks] }] }
  let bottom : Config :=
    { migrations := some [.mocks], testPatterns := [".t.js"]
      overrides := [{ files := ["old/**"], migrations := some [] }] }
  have htop : readFile f "a.json" = .ok top := by rw [hf]; decide +kernel
  have hmiddle : readFile f "./b.json" = .ok middle := by rw [hf]; decide +kernel
  have hbottom : readFile f "././c.json" = .ok bottom := by rw [hf]; decide +kernel
  have hfirst : Extends f "a.json" "./b.json" := ⟨top, "./b", htop, rfl, by rw [hf]; decide +kernel⟩
  have hsecond : Extends f "./b.json" "././c.json" := ⟨middle, "./c.json", hmiddle, rfl, by rw [hf]; decide +kernel⟩
  have hlayers : Layers f "a.json" ["a.json", "./b.json", "././c.json"] [top, middle, bottom] :=
    { follows := ⟨rfl, .cons_cons hfirst (.cons_cons hsecond (.singleton _))⟩
      read := .cons htop (.cons hmiddle (.cons hbottom .nil))
      ends := by
        intro c hc
        cases hc
        rfl
      acyclic := by rw [hf]; decide +kernel }
  obtain ⟨hload, hfile⟩ := loadFile_layers hlayers
  refine ⟨f, top, middle, bottom, hlayers, hload, ?_⟩
  rw [hfile]
  decide +kernel

end Config

end TestMigration
