import Mathlib.Data.List.Nodup
import TestMigration.Json.Decode
import TestMigration.Proofs.Json.ReadBack

/-!
# Readers and what they read

`Writes read a v`: the value `v` survives being printed and the reader gets `a` out of it. The forms of values
and of fields keep this, so for a record only the keys have to be compared: `record?_present` finds each field of
a record whose keys are different, whether fields that are absent are left out or not.
-/

namespace TestMigration.JsonValue

variable {α : Type}

/-- The value is read as `a`, also when it has been written in between. -/
structure Writes (read : JsonValue → Option α) (a : α) (v : JsonValue) : Prop where
  exact : v.Exact
  read_eq : read v = some a

/-- The field is read as `a`, be it there or left out. -/
structure WritesField (read : Option JsonValue → Option α) (a : α) (v : Option JsonValue) : Prop where
  exact : ∀ w ∈ v, w.Exact
  read_eq : read v = some a

variable {read : JsonValue → Option α} {encode : α → JsonValue} {a : α} {v : JsonValue}

theorem Writes.parse?_print (h : Writes read a v) (l : Layout) : (parse? (v.print l).toList).bind read = some a := by
  rw [h.exact.parse?_print l, Option.bind_some, h.read_eq]

theorem writes_string (s : String) : Writes string? s (.string s) := ⟨.string s, rfl⟩

theorem writes_bool (b : Bool) : Writes bool? b (.bool b) := ⟨.bool b, rfl⟩

theorem writes_natural {n : Nat} (h : n < naturalLimit) : Writes natural? n (.natural n) := ⟨.natural h, rfl⟩

theorem writes_name {alternatives : List α} {name : α → String} (hnames : (alternatives.map name).Nodup)
    (ha : a ∈ alternatives) : Writes (oneOf? alternatives name) a (.string (name a)) := by
  refine ⟨.string _, ?_⟩
  rw [oneOf?]
  cases h : alternatives.find? fun b => name b == name a with
  | none =>
    have := List.find?_eq_none.mp h a ha
    simp at this
  | some b =>
    have hname : name b = name a := by simpa using List.find?_some h
    rw [List.inj_on_of_nodup_map hnames (List.mem_of_find?_eq_some h) ha hname]

theorem readAll_map {items : List α} (h : ∀ a ∈ items, read (encode a) = some a) :
    readAll read (items.map encode) = some items := by
  induction items with
  | nil => rfl
  | cons a items ih =>
    rw [List.map_cons, readAll, h a List.mem_cons_self, ih fun b hb => h b (List.mem_cons_of_mem _ hb)]
    rfl

theorem writes_arrayOf {items : List α} (h : ∀ a ∈ items, Writes read a (encode a)) :
    Writes (list? read) items (arrayOf encode items) := by
  refine ⟨.array fun v hv => ?_, readAll_map fun a ha => (h a ha).read_eq⟩
  obtain ⟨a, ha, rfl⟩ := List.mem_map.mp hv
  exact (h a ha).exact

/-! ### Fields -/

theorem WritesField.of_some {read : Option JsonValue → Option α} (hexact : v.Exact) (hread : read (some v) = some a) :
    WritesField read a (some v) := by
  refine ⟨fun w hw => ?_, hread⟩
  cases hw
  exact hexact

theorem Writes.required (h : Writes read a v) : WritesField (required? read) a (some v) :=
  .of_some h.exact h.read_eq

theorem Writes.defaulted (h : Writes read a v) (absent : α) : WritesField (defaulted? read absent) a (some v) :=
  .of_some h.exact h.read_eq

theorem nullable?_of_read (hnull : read null = none) (h : read v = some a) : nullable? read v = some (some a) := by
  cases v with
  | null =>
    rw [hnull] at h
    cases h
  | _ => rw [nullable?, h] <;> simp

theorem writesField_maybe {o : Option α} (hnull : read null = none) (h : ∀ a ∈ o, Writes read a (encode a)) :
    WritesField (maybe? read) o (o.map encode) := by
  cases o with
  | none => exact ⟨by simp, rfl⟩
  | some a => exact .of_some (h a rfl).exact (nullable?_of_read hnull (h a rfl).read_eq)

theorem writesField_naturalOrNull {o : Option Nat} (h : ∀ n ∈ o, n < naturalLimit) :
    WritesField (maybe? natural?) o (some (naturalOrNull o)) := by
  cases o with
  | none => exact .of_some .null rfl
  | some n => exact .of_some (.natural (h n rfl)) rfl

/-! ### Records -/

/-- The fields of a record that are there. -/
def present (entries : List (String × Option JsonValue)) : List (String × JsonValue) :=
  entries.flatMap fun e => optionalField e.1 id e.2

variable {entries : List (String × Option JsonValue)} {key : String}

@[simp] theorem present_nil : present [] = [] := rfl

@[simp] theorem present_cons_some : present ((key, some v) :: entries) = (key, v) :: present entries := rfl

@[simp] theorem present_cons_map (o : Option α) :
    present ((key, o.map encode) :: entries) = optionalField key encode o ++ present entries := by
  cases o <;> rfl

theorem exact_present (h : ∀ e ∈ entries, ∀ v ∈ e.2, v.Exact) : (object (present entries)).Exact := by
  refine .object fun f hf => ?_
  obtain ⟨⟨key, o⟩, he, hf⟩ := List.mem_flatMap.mp hf
  cases o with
  | none => cases hf
  | some v =>
    obtain rfl := List.mem_singleton.mp hf
    exact h _ he v rfl

theorem filter_optionalField (key other : String) (o : Option JsonValue) :
    (optionalField other id o).filter (·.1 == key) = if other = key then optionalField key id o else [] := by
  cases o with
  | none => simp [optionalField]
  | some v => by_cases h : other = key <;> simp [optionalField, h]

theorem filter_present_of_not_mem (h : key ∉ entries.map Prod.fst) :
    (present entries).filter (·.1 == key) = [] := by
  induction entries with
  | nil => rfl
  | cons e entries ih =>
    simp only [List.map_cons, List.mem_cons, not_or] at h
    rw [present, List.flatMap_cons, List.filter_append, filter_optionalField, if_neg (Ne.symm h.1), List.nil_append]
    exact ih h.2

theorem filter_present (hkeys : (entries.map Prod.fst).Nodup) {o : Option JsonValue} (h : (key, o) ∈ entries) :
    (present entries).filter (·.1 == key) = optionalField key id o := by
  induction entries with
  | nil => cases h
  | cons e entries ih =>
    obtain ⟨hfirst, hrest⟩ := List.nodup_cons.mp hkeys
    rw [present, List.flatMap_cons, List.filter_append, filter_optionalField]
    rcases List.mem_cons.mp h with rfl | h
    · rw [if_pos rfl]
      exact (congrArg _ (filter_present_of_not_mem hfirst)).trans (List.append_nil _)
    · have hne : e.1 ≠ key := fun heq => hfirst (heq ▸ List.mem_map_of_mem h)
      rw [if_neg hne, List.nil_append]
      exact ih hrest h

theorem field?_present (hkeys : (entries.map Prod.fst).Nodup) {o : Option JsonValue} (h : (key, o) ∈ entries) :
    field? (present entries) key = some o := by
  rw [field?, filter_present hkeys h]
  cases o <;> rfl

/-- A record with different keys is read field by field. -/
theorem record?_present (hkeys : (entries.map Prod.fst).Nodup) (least : Nat) :
    record? (entries.map Prod.fst) least (.object (present entries)) = some (entries.map Prod.snd) := by
  -- the keys are looked up one after the other in the same fields
  have hfields (asked : List (String × Option JsonValue)) (hasked : ∀ e ∈ asked, e ∈ entries) :
      fields? (present entries) (asked.map Prod.fst) = some (asked.map Prod.snd) := by
    induction asked with
    | nil => rfl
    | cons e asked ih =>
      rw [List.map_cons, fields?, field?_present hkeys (hasked e List.mem_cons_self),
        ih fun e he => hasked e (List.mem_cons_of_mem _ he)]
      rfl
  exact hfields entries fun _ he => he

/-- A record is read back when its keys are different and each of its fields is read back. -/
theorem writes_record {keys : List String} {least : Nat} {values : List (Option JsonValue)}
    {readFields : List (Option JsonValue) → Option α}
    (hread : ∀ v, read v = (record? keys least v).bind readFields) (hkeys : keys.Nodup)
    (hlength : keys.length = values.length) (hexact : values.Forall fun o => ∀ v ∈ o, v.Exact)
    (hfields : readFields values = some a) : Writes read a (.object (present (keys.zip values))) := by
  have hfst : (keys.zip values).map Prod.fst = keys := List.map_fst_zip (Nat.le_of_eq hlength)
  have hsnd : (keys.zip values).map Prod.snd = values := List.map_snd_zip (Nat.le_of_eq hlength.symm)
  refine ⟨exact_present fun e he => ?_, ?_⟩
  · exact List.forall_iff_forall_mem.mp hexact e.2 (List.of_mem_zip he).2
  · have hrecord := record?_present (hfst.symm ▸ hkeys) least
    rw [hfst, hsnd] at hrecord
    rw [hread, hrecord, Option.bind_some, hfields]

end TestMigration.JsonValue
