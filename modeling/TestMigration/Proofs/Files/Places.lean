import Mathlib.Data.List.Perm.Subperm
import TestMigration.Files
import TestMigration.Proofs.Text.Split

/-!
# Places of files

A place is the list of names that lead from the working directory to a file. A tree has as many places as files, and
a path has one canonical spelling for each place: two paths that lead somewhere have the same canonical path exactly
when they lead to the same place.

Main statements: `FileTree.mem_places_of_get?`, `Files.length_le_fileCount` and `Files.canonical?_eq_iff`.
-/

namespace TestMigration

namespace FileTree

mutual

/-- The names that lead to the files of a tree. -/
def places : FileTree → List (List String)
  | file _ => [[]]
  | directory entries => placesAll entries

def placesAll : List (String × FileTree) → List (List String)
  | [] => []
  | (name, t) :: rest => t.places.map (name :: ·) ++ placesAll rest

end

mutual

theorem length_places : ∀ t : FileTree, t.places.length = t.fileCount
  | file _ => by rw [places, fileCount]; rfl
  | directory entries => by rw [places, fileCount]; exact length_placesAll entries

theorem length_placesAll : ∀ entries : List (String × FileTree), (placesAll entries).length = fileCountAll entries
  | [] => by rw [placesAll, fileCountAll]; rfl
  | (_, t) :: rest => by
    rw [placesAll, fileCountAll, List.length_append, List.length_map, length_places t, length_placesAll rest]

end

theorem mem_placesAll {name : String} {t : FileTree} {names : List String} (hnames : names ∈ t.places) :
    ∀ {entries : List (String × FileTree)}, (name, t) ∈ entries → name :: names ∈ placesAll entries
  | (other, t') :: rest, hmem => by
    rw [placesAll, List.mem_append]
    rcases List.mem_cons.mp hmem with heq | hmem
    · cases heq
      exact .inl (List.mem_map_of_mem hnames)
    · exact .inr (mem_placesAll hnames hmem)

theorem mem_places_of_get? {c : Contents} : ∀ {names : List String} {t : FileTree},
    t.get? names = some (.file c) → names ∈ t.places
  | [], t, h => by
    cases h
    rw [places]
    exact List.mem_singleton_self _
  | name :: rest, t, h => by
    obtain ⟨child, hchild, hrest⟩ := Option.bind_eq_some_iff.mp h
    cases t with
    | file _ => cases hchild
    | directory entries =>
      obtain ⟨before, after, hentries, -⟩ := List.lookup_eq_some_iff.mp hchild
      rw [places]
      exact mem_placesAll (mem_places_of_get? hrest) (by rw [hentries]; simp)

end FileTree

namespace Files

variable {f : Files} {path : String}

/-! ### Reading -/

theorem exists_place_of_read {text : String} (h : f.read path = .ok text) :
    ∃ names, f.locate? path = some names ∧ names ∈ f.tree.places := by
  unfold read at h
  split at h
  · rename_i s hget
    obtain ⟨names, hnames, htree⟩ := Option.bind_eq_some_iff.mp hget
    exact ⟨names, hnames, FileTree.mem_places_of_get? htree⟩
  all_goals cases h

theorem exists_place_of_isFile (h : f.isFile path = true) :
    ∃ names, f.locate? path = some names ∧ names ∈ f.tree.places := by
  unfold isFile at h
  split at h
  · rename_i c hget
    obtain ⟨names, hnames, htree⟩ := Option.bind_eq_some_iff.mp hget
    exact ⟨names, hnames, FileTree.mem_places_of_get? htree⟩
  · cases h

/-! ### Canonical paths -/

def pathOf (f : Files) (names : List String) : String := names.foldl (fun p name => p ++ "/" ++ name) f.home

theorem canonical?_eq (f : Files) (path : String) : f.canonical? path = (f.locate? path).map f.pathOf := rfl

theorem toList_pathOf (names : List String) :
    (f.pathOf names).toList = f.home.toList ++ (names.map String.toList).flatMap ('/' :: ·) := by
  have hfold (start : String) : (names.foldl (fun p name => p ++ "/" ++ name) start).toList =
      start.toList ++ (names.map String.toList).flatMap ('/' :: ·) := by
    induction names generalizing start with
    | nil => simp
    | cons name rest ih => simp [ih]
  exact hfold f.home

/-- No name of a place holds a slash. -/
theorem follow_plain {place place' : List String} {piece : Text} (hpiece : '/' ∉ piece)
    (hplace : ∀ n ∈ place, '/' ∉ n.toList) (h : f.follow place piece = some place') :
    ∀ n ∈ place', '/' ∉ n.toList := by
  unfold follow at h
  obtain ⟨t, -, h⟩ := Option.bind_eq_some_iff.mp h
  obtain ⟨_, -, h⟩ := Option.bind_eq_some_iff.mp h
  split at h
  · cases h
    exact hplace
  · split at h
    · cases h
    · cases h
      exact fun n hn => hplace n (List.dropLast_subset _ hn)
  · rename_i c hne hc
    obtain ⟨-, -, heq⟩ := Option.bind_eq_some_iff.mp h
    cases heq
    have hname : c.text.toList = piece := by
      unfold Path.component? at hc
      split at hc
      · cases hc
      · split at hc
        · cases hc
          exact absurd rfl hne
        · cases hc
          exact String.toList_ofList
    refine List.forall_mem_append.mpr ⟨hplace, List.forall_mem_singleton.mpr ?_⟩
    rw [hname]
    exact hpiece

theorem foldlM_follow_plain {pieces : List Text} (hpieces : ∀ p ∈ pieces, '/' ∉ p) {place place' : List String}
    (hplace : ∀ n ∈ place, '/' ∉ n.toList) (h : pieces.foldlM f.follow place = some place') :
    ∀ n ∈ place', '/' ∉ n.toList := by
  induction pieces generalizing place with
  | nil =>
    cases h
    exact hplace
  | cons p rest ih =>
    obtain ⟨hp, hrest⟩ := List.forall_mem_cons.mp hpieces
    rw [List.foldlM_cons] at h
    obtain ⟨next, hnext, h⟩ := Option.bind_eq_some_iff.mp h
    exact ih hrest (follow_plain hp hplace hnext) h

theorem locate?_plain {names : List String} (h : f.locate? path = some names) : ∀ n ∈ names, '/' ∉ n.toList := by
  have hpieces : ∀ p ∈ Text.splitAt '/' path.toList, '/' ∉ p := fun p hp => Text.not_mem_of_mem_splitAt hp
  unfold locate? at h
  split at h
  · cases h
  · split at h
    · split at h
      · exact foldlM_follow_plain (fun p hp => hpieces p (List.mem_of_mem_drop hp)) (by simp) h
      · split at h
        · cases h
          simp
        · cases h
    · exact foldlM_follow_plain hpieces (by simp) h

theorem eq_of_pathOf_eq {a b : List String} (ha : ∀ n ∈ a, '/' ∉ n.toList) (hb : ∀ n ∈ b, '/' ∉ n.toList)
    (h : f.pathOf a = f.pathOf b) : a = b := by
  have hsplit (names : List String) (hnames : ∀ n ∈ names, '/' ∉ n.toList) :
      Text.splitAt '/' ((names.map String.toList).flatMap ('/' :: ·)) = [] :: names.map String.toList :=
    Text.splitAt_flatMap (by simpa using hnames) (List.not_mem_nil (a := '/'))
  have htext : (a.map String.toList).flatMap ('/' :: ·) = (b.map String.toList).flatMap ('/' :: ·) := by
    have hlist := congrArg String.toList h
    rw [toList_pathOf, toList_pathOf] at hlist
    exact List.append_cancel_left hlist
  have hpieces := congrArg (Text.splitAt '/') htext
  rw [hsplit a ha, hsplit b hb] at hpieces
  exact List.map_injective_iff.mpr (fun _ _ => String.toList_injective) (List.cons.inj hpieces).2

/-- Two paths that lead somewhere have the same canonical path exactly when they lead to the same place. -/
theorem canonical?_eq_iff {p q : String} {a b : List String} (hp : f.locate? p = some a)
    (hq : f.locate? q = some b) : f.canonical? p = f.canonical? q ↔ f.locate? p = f.locate? q := by
  rw [canonical?_eq, canonical?_eq, hp, hq, Option.map_some, Option.map_some, Option.some_inj, Option.some_inj]
  exact ⟨eq_of_pathOf_eq (locate?_plain hp) (locate?_plain hq), congrArg f.pathOf⟩

theorem length_le_fileCount {keys : List String} (hnodup : keys.Nodup)
    (hkeys : ∀ k ∈ keys, k ∈ f.tree.places.map f.pathOf) : keys.length ≤ f.tree.fileCount := by
  have hle := (List.Nodup.subperm hnodup hkeys).length_le
  rwa [List.length_map, FileTree.length_places] at hle

end Files

end TestMigration
