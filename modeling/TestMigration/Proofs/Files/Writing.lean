import Mathlib.Data.Option.Basic
import TestMigration.Files

/-!
# Writing to files that are there

Putting a text in place of a file changes what stands at this place and at no other (`FileTree.entryAt?_put`),
and texts for different files can be put in any order (`FileTree.put_comm`). `Files.putAll` puts several texts.
Since all of them take the place of files, paths lead where they led before (`Files.locate?_putAll`), and what a
path leads to is the same unless one of the texts was put there (`Files.Untouched`).
-/

namespace TestMigration

namespace FileTree

/-! ### Entries of a directory -/

theorem lookup_setEntry_self (name : String) (t : FileTree) (entries : List (String × FileTree)) :
    (setEntry name t entries).lookup name = some t := by
  induction entries with
  | nil => simp [setEntry]
  | cons entry rest ih =>
    obtain ⟨other, old⟩ := entry
    unfold setEntry
    split
    · simp
    · rename_i hne
      have hne : (name == other) = false := by simpa using fun h => hne (by simp [h])
      rw [List.lookup_cons, hne, ih]

theorem lookup_setEntry_ne {name other : String} (h : name ≠ other) (t : FileTree)
    (entries : List (String × FileTree)) : (setEntry other t entries).lookup name = entries.lookup name := by
  have hne : (name == other) = false := by simpa using h
  induction entries with
  | nil => simp [setEntry, List.lookup_cons, hne]
  | cons entry rest ih =>
    obtain ⟨key, old⟩ := entry
    unfold setEntry
    split
    · rename_i hkey
      obtain rfl : key = other := by simpa using hkey
      simp [List.lookup_cons, hne]
    · rw [List.lookup_cons, List.lookup_cons, ih]

theorem setEntry_setEntry (name : String) (t u : FileTree) (entries : List (String × FileTree)) :
    setEntry name u (setEntry name t entries) = setEntry name u entries := by
  induction entries with
  | nil => simp [setEntry]
  | cons entry rest ih =>
    obtain ⟨other, old⟩ := entry
    by_cases h : other = name
    · simp [setEntry, h]
    · simp [setEntry, h, ih]

theorem setEntry_comm {name other : String} (h : name ≠ other) {entries : List (String × FileTree)} {old : FileTree}
    (hold : entries.lookup name = some old) (t u : FileTree) :
    setEntry name t (setEntry other u entries) = setEntry other u (setEntry name t entries) := by
  induction entries with
  | nil => cases hold
  | cons entry rest ih =>
    obtain ⟨key, first⟩ := entry
    by_cases hname : key = name
    · subst hname
      simp [setEntry, h]
    · by_cases hother : key = other
      · subst hother
        simp [setEntry, hname]
      · have hne : (name == key) = false := by simpa using Ne.symm hname
        rw [List.lookup_cons, hne] at hold
        simp [setEntry, hname, hother, ih hold]

/-! ### Places -/

def contents? : FileTree → Option Contents
  | file c => some c
  | directory _ => none

/-- What stands where names lead to: nothing, a directory, or a file with its contents. -/
def entryAt? (t : FileTree) (place : List String) : Option (Option Contents) := (t.get? place).map contents?

theorem get?_cons_eq_some {name : String} {rest : List String} {t u : FileTree}
    (h : t.get? (name :: rest) = some u) : ∃ entries child, t = directory entries ∧
      entries.lookup name = some child ∧ child.get? rest = some u := by
  obtain ⟨child, hchild, hrest⟩ := Option.bind_eq_some_iff.mp h
  cases t with
  | file c => cases hchild
  | directory entries => exact ⟨entries, child, rfl, hchild, hrest⟩

theorem entryAt?_cons (name : String) (rest : List String) (entries : List (String × FileTree)) :
    (directory entries).entryAt? (name :: rest) = (entries.lookup name).bind (·.entryAt? rest) := by
  cases h : entries.lookup name <;> simp [entryAt?, get?, child?, h]

theorem put_cons {name : String} {rest : List String} {entries : List (String × FileTree)} {child : FileTree}
    (h : entries.lookup name = some child) (new : FileTree) :
    (directory entries).put (name :: rest) new = directory (setEntry name (child.put rest new) entries) := by
  rw [put, h]
  rfl

/-- A file that is replaced has the new contents, and all else is what it was. -/
theorem entryAt?_put {t : FileTree} {a : List String} {c : Contents} (ha : t.get? a = some (file c))
    (b : List String) (x : Contents) :
    (t.put a (file x)).entryAt? b = if b = a then some (some x) else t.entryAt? b := by
  induction a generalizing t b with
  | nil =>
    cases ha
    cases b with
    | nil => simp [put, entryAt?, get?, contents?]
    | cons name rest => simp [put, entryAt?, get?, child?]
  | cons name rest ih =>
    obtain ⟨entries, child, rfl, hchild, hrest⟩ := get?_cons_eq_some ha
    rw [put_cons hchild]
    cases b with
    | nil => simp [entryAt?, get?, contents?]
    | cons other rest' =>
      rw [entryAt?_cons, entryAt?_cons]
      by_cases hname : other = name
      · subst hname
        rw [lookup_setEntry_self, hchild, Option.bind_some, Option.bind_some, ih hrest]
        simp
      · rw [lookup_setEntry_ne hname, if_neg (by simp [hname])]

theorem put_comm {t : FileTree} {a b : List String} {c d : Contents} (ha : t.get? a = some (file c))
    (hb : t.get? b = some (file d)) (hne : a ≠ b) (x y : Contents) :
    (t.put a (file x)).put b (file y) = (t.put b (file y)).put a (file x) := by
  induction a generalizing t b with
  | nil =>
    cases ha
    cases b with
    | nil => exact absurd rfl hne
    | cons name rest => cases hb
  | cons name rest ih =>
    obtain ⟨entries, child, rfl, hchild, hrest⟩ := get?_cons_eq_some ha
    cases b with
    | nil => cases hb
    | cons other rest' =>
      obtain ⟨entries', child', heq, hchild', hrest'⟩ := get?_cons_eq_some hb
      cases heq
      by_cases hname : name = other
      · subst hname
        obtain rfl := Option.some.inj (hchild.symm.trans hchild')
        have hdeeper := ih hrest hrest' (fun h => hne (by rw [h]))
        rw [put_cons hchild, put_cons hchild, put_cons (lookup_setEntry_self ..),
          put_cons (lookup_setEntry_self ..), setEntry_setEntry, setEntry_setEntry, hdeeper]
      · have hother : (setEntry name (child.put rest (file x)) entries).lookup other = some child' := by
          rw [lookup_setEntry_ne (Ne.symm hname), hchild']
        have hname' : (setEntry other (child'.put rest' (file y)) entries).lookup name = some child := by
          rw [lookup_setEntry_ne hname, hchild]
        rw [put_cons hchild, put_cons hother, put_cons hchild', put_cons hname',
          setEntry_comm (Ne.symm hname) hchild']

end FileTree

namespace Files

variable {f g : Files} {path : String} {place : List String} {writes : List (List String × String)}

def contents? (f : Files) (path : String) : Option Contents := (f.get? path).bind FileTree.contents?

def HasFile (f : Files) (place : List String) : Prop := ∃ c, f.tree.entryAt? place = some (some c)

theorem hasFile_iff : f.HasFile place ↔ ∃ c, f.tree.get? place = some (.file c) := by
  constructor
  · rintro ⟨c, hc⟩
    obtain ⟨t, ht, hcontents⟩ := Option.map_eq_some_iff.mp hc
    cases t with
    | file d => exact ⟨d, ht⟩
    | directory entries => cases hcontents
  · rintro ⟨c, hc⟩
    exact ⟨c, by rw [FileTree.entryAt?, hc]; rfl⟩

/-! ### Following paths -/

/-- The same names lead somewhere, and to directories. -/
def SameShape (f g : Files) : Prop :=
  f.home = g.home ∧ ∀ place, (f.tree.get? place).map (·.isDirectory) = (g.tree.get? place).map (·.isDirectory)

theorem SameShape.follow_eq (h : SameShape f g) : f.follow = g.follow := by
  have hsome (place : List String) : (f.tree.get? place).isSome = (g.tree.get? place).isSome := by
    simpa using congrArg Option.isSome (h.2 place)
  funext place piece
  have hplace := h.2 place
  unfold follow
  cases hf : f.tree.get? place with
  | none =>
    rw [hf] at hplace
    rw [Option.map_eq_none_iff.mp hplace.symm]
    rfl
  | some t =>
    rw [hf] at hplace
    obtain ⟨u, hu, hdirectory⟩ := Option.map_eq_some_iff.mp hplace.symm
    have hnext (name : String) : (f.tree.get? (place ++ [name])).bind (fun _ => some (place ++ [name])) =
        (g.tree.get? (place ++ [name])).bind (fun _ => some (place ++ [name])) := by
      have := hsome (place ++ [name])
      cases hf' : f.tree.get? (place ++ [name]) <;> cases hg' : g.tree.get? (place ++ [name]) <;>
        simp_all
    simp only [hu, hdirectory, Option.bind_eq_bind, Option.bind_some, Option.pure_def, hnext]

theorem SameShape.locate?_eq (h : SameShape f g) (path : String) : f.locate? path = g.locate? path := by
  unfold locate?
  rw [h.1, h.follow_eq]

/-! ### Texts in place of files -/

theorem put_entryAt? (h : f.HasFile place) (text : String) (b : List String) :
    (f.put place text).tree.entryAt? b = if b = place then some (some (.text text)) else f.tree.entryAt? b := by
  obtain ⟨c, hc⟩ := hasFile_iff.mp h
  exact FileTree.entryAt?_put hc b (.text text)

theorem isDirectory_eq (t : FileTree) : t.isDirectory = t.contents?.isNone := by
  cases t <;> rfl

theorem put_sameShape (h : f.HasFile place) (text : String) : SameShape (f.put place text) f := by
  have hmap (t : FileTree) (b : List String) :
      (t.get? b).map (·.isDirectory) = (t.entryAt? b).map Option.isNone := by
    rw [FileTree.entryAt?, Option.map_map]
    exact congrArg (fun m => (t.get? b).map m) (funext isDirectory_eq)
  refine ⟨rfl, fun b => ?_⟩
  rw [hmap, hmap, put_entryAt? h]
  split
  · obtain ⟨c, hc⟩ := h
    rename_i heq
    rw [heq, hc]
    rfl
  · rfl

theorem HasFile.put {b : List String} (h : f.HasFile place) (hb : f.HasFile b) (text : String) :
    (f.put place text).HasFile b := by
  unfold HasFile
  rw [put_entryAt? h]
  split
  · exact ⟨_, rfl⟩
  · exact hb

/-- The files with several texts in place of files. -/
def putAll (f : Files) (writes : List (List String × String)) : Files :=
  writes.foldl (fun f w => f.put w.1 w.2) f

theorem putAll_append (writes' : List (List String × String)) :
    f.putAll (writes ++ writes') = (f.putAll writes).putAll writes' := List.foldl_append

theorem HasFile.putAll {b : List String} (h : ∀ w ∈ writes, f.HasFile w.1) (hb : f.HasFile b) :
    (f.putAll writes).HasFile b := by
  induction writes generalizing f with
  | nil => exact hb
  | cons w rest ih =>
    obtain ⟨hw, hrest⟩ := List.forall_mem_cons.mp h
    exact ih (fun w' hw' => hw.put (hrest w' hw') w.2) (hw.put hb w.2)

theorem locate?_putAll (h : ∀ w ∈ writes, f.HasFile w.1) (path : String) :
    (f.putAll writes).locate? path = f.locate? path := by
  induction writes generalizing f with
  | nil => rfl
  | cons w rest ih =>
    obtain ⟨hw, hrest⟩ := List.forall_mem_cons.mp h
    have hfirst := (put_sameShape hw w.2).locate?_eq path
    exact (ih fun w' hw' => hw.put (hrest w' hw') w.2).trans hfirst

theorem entryAt?_putAll (h : ∀ w ∈ writes, f.HasFile w.1) (hplace : ∀ w ∈ writes, place ≠ w.1) :
    (f.putAll writes).tree.entryAt? place = f.tree.entryAt? place := by
  induction writes generalizing f with
  | nil => rfl
  | cons w rest ih =>
    obtain ⟨hw, hrest⟩ := List.forall_mem_cons.mp h
    obtain ⟨hne, hplaces⟩ := List.forall_mem_cons.mp hplace
    have hfirst : (f.put w.1 w.2).tree.entryAt? place = f.tree.entryAt? place := by
      rw [put_entryAt? hw, if_neg hne]
    exact (ih (fun w' hw' => hw.put (hrest w' hw') w.2) hplaces).trans hfirst

theorem readOnly_putAll (f : Files) (writes : List (List String × String)) :
    (f.putAll writes).readOnly = f.readOnly := by
  induction writes generalizing f with
  | nil => rfl
  | cons w rest ih => exact ih (f.put w.1 w.2)

theorem put_putAll (h : ∀ w ∈ writes, f.HasFile w.1) (hplace : f.HasFile place)
    (hne : ∀ w ∈ writes, place ≠ w.1) (text : String) :
    (f.putAll writes).put place text = (f.put place text).putAll writes := by
  induction writes generalizing f with
  | nil => rfl
  | cons w rest ih =>
    obtain ⟨hw, hrest⟩ := List.forall_mem_cons.mp h
    obtain ⟨hfirst, hothers⟩ := List.forall_mem_cons.mp hne
    obtain ⟨c, hc⟩ := hasFile_iff.mp hw
    obtain ⟨d, hd⟩ := hasFile_iff.mp hplace
    have hswap : (f.put w.1 w.2).put place text = (f.put place text).put w.1 w.2 := by
      unfold put
      rw [FileTree.put_comm hc hd (Ne.symm hfirst)]
    have hlater := ih (fun w' hw' => hw.put (hrest w' hw') w.2) (hw.put hplace w.2) hothers
    exact hlater.trans (congrArg (·.putAll rest) hswap)

theorem putAll_comm {writes' : List (List String × String)} (h : ∀ w ∈ writes, f.HasFile w.1)
    (h' : ∀ w ∈ writes', f.HasFile w.1) (hne : ∀ w ∈ writes, ∀ w' ∈ writes', w'.1 ≠ w.1) :
    (f.putAll writes).putAll writes' = (f.putAll writes').putAll writes := by
  induction writes' generalizing f with
  | nil => rfl
  | cons x rest ih =>
    obtain ⟨hx, hrest⟩ := List.forall_mem_cons.mp h'
    have hfirst := put_putAll h hx (fun w hw => hne w hw x List.mem_cons_self) x.2
    have hlater := ih (fun w hw => hx.put (h w hw) x.2) (fun w hw => hx.put (hrest w hw) x.2)
      fun w hw w' hw' => hne w hw w' (List.mem_cons_of_mem _ hw')
    exact (congrArg (·.putAll rest) hfirst).trans hlater

/-! ### What a path leads to -/

/-- The path leads to the same in both, and may be written in both or in none. -/
structure Untouched (f g : Files) (path : String) : Prop where
  locate : g.locate? path = f.locate? path
  entry : ∀ {place}, f.locate? path = some place → g.tree.entryAt? place = f.tree.entryAt? place
  readOnly : g.readOnly = f.readOnly

theorem untouched_putAll (h : ∀ w ∈ writes, f.HasFile w.1) (hpath : ∀ w ∈ writes, f.locate? path ≠ some w.1) :
    Untouched f (f.putAll writes) path where
  locate := locate?_putAll h path
  entry hplace := entryAt?_putAll h fun w hw heq => hpath w hw (by rw [hplace, heq])
  readOnly := readOnly_putAll f writes

theorem read_eq (f : Files) (path : String) :
    f.read path = match (f.locate? path).bind f.tree.entryAt? with
      | some (some (.text s)) => .ok s
      | some (some (.binary _)) => .error .undecodable
      | some none => .error .directory
      | none => .error .missing := by
  unfold read get?
  cases f.locate? path with
  | none => rfl
  | some place =>
    simp only [Option.bind_some, FileTree.entryAt?]
    cases f.tree.get? place with
    | none => rfl
    | some t =>
      cases t with
      | directory entries => rfl
      | file c => cases c <;> rfl

theorem hasFile_of_read {source : String} (h : f.read path = .ok source) :
    ∃ place, f.locate? path = some place ∧ f.HasFile place := by
  rw [read_eq] at h
  split at h
  · rename_i hentry
    obtain ⟨place, hplace, hentry⟩ := Option.bind_eq_some_iff.mp hentry
    exact ⟨place, hplace, _, hentry⟩
  all_goals cases h

theorem write_eq (hplace : f.locate? path = some place) (hfile : f.HasFile place) (text : String) :
    f.write path text = if place ∈ f.readOnly then .error .denied else .ok (f.put place text) := by
  obtain ⟨c, hc⟩ := hasFile_iff.mp hfile
  simp only [write, hplace, hc, List.contains_iff_mem]

theorem contents?_eq (f : Files) (path : String) :
    f.contents? path = ((f.locate? path).bind f.tree.entryAt?).join := by
  unfold contents? get? FileTree.entryAt?
  cases f.locate? path with
  | none => rfl
  | some place => cases h : f.tree.get? place <;> simp [h]

namespace Untouched

theorem bind_entryAt? (h : Untouched f g path) :
    (g.locate? path).bind g.tree.entryAt? = (f.locate? path).bind f.tree.entryAt? := by
  rw [h.locate]
  cases hplace : f.locate? path with
  | none => rfl
  | some place => exact h.entry hplace

theorem read_eq (h : Untouched f g path) : g.read path = f.read path := by
  rw [Files.read_eq, Files.read_eq, h.bind_entryAt?]

theorem contents?_eq (h : Untouched f g path) : g.contents? path = f.contents? path := by
  rw [Files.contents?_eq, Files.contents?_eq, h.bind_entryAt?]

theorem write_eq (h : Untouched f g path) (hplace : f.locate? path = some place) (hfile : f.HasFile place)
    (text : String) : g.write path text =
      if place ∈ f.readOnly then .error .denied else .ok (g.put place text) := by
  rw [← h.readOnly]
  refine Files.write_eq (h.locate.trans hplace) ?_ text
  obtain ⟨c, hc⟩ := hfile
  exact ⟨c, (h.entry hplace).trans hc⟩

end Untouched

end Files

end TestMigration
