import Mathlib.Data.Option.Basic
import TestMigration.Registration.Pass

/-!
# Settled registrations

A call that registers something is settled when the test module knows its name and its callback is written the
way the module wants it. The pass over registrations finds nothing to edit exactly when every call is settled,
and then it asks the test module for every name in use.

Main statements: `RegistrationPass.ofTree_edits_eq_nil_iff` and `RegistrationPass.mem_ofTree_names`.
-/

namespace TestMigration

theorem mem_insertName {name other : String} {names : List String} :
    name ∈ insertName other names ↔ name = other ∨ name ∈ names := by
  induction names with
  | nil => simp [insertName]
  | cons first rest ih =>
    unfold insertName
    split
    · rename_i heq
      obtain rfl : other = first := by simpa using heq
      simp
    · split
      · simp
      · rw [List.mem_cons, ih, List.mem_cons, or_left_comm]

theorem mem_orderNames {name : String} {names : List String} : name ∈ orderNames names ↔ name ∈ names := by
  have hfold (l acc : List String) :
      name ∈ l.foldl (fun l n => insertName n l) acc ↔ name ∈ l ∨ name ∈ acc := by
    induction l generalizing acc with
    | nil => simp
    | cons n rest ih =>
      rw [List.foldl_cons, ih, mem_insertName, List.mem_cons, or_assoc, or_left_comm]
  simpa [orderNames] using hfold names []

/-! ### Calls -/

theorem Site.call_of_registration? {s : Site} {source : Text} {callee : Registration.Callee}
    (h : s.registration? source = some callee) : (s.kind == .call) = true := by
  simp only [Site.registration?, Option.bind_eq_bind, Option.bind_eq_some_iff] at h
  obtain ⟨_, hguard, -⟩ := h
  cases hkind : s.kind == .call with
  | true => rfl
  | false =>
    rw [hkind] at hguard
    cases hguard

namespace Registration

variable {source : Text} {call callback : Site} {callee : Callee}

/-- The callback is written the way the test module wants it: it does not take a single parameter, and does
not set its timeout by a statement. -/
structure CallbackSettled (source : Text) (registers : Registration) (callback : Site) : Prop where
  parameters : registers ≠ .suite → callback.functionParameters.length ≠ 1
  timeouts : callback.kind ≠ .arrowFunction →
    ∀ statement ∈ callback.bodyStatements, ∀ value, thisCall? source statement ≠ some ("timeout", [value])

/-- The call is written the way the test module wants it: under the name that the module knows, and with such
a callback. -/
structure CallSettled (source : Text) (call : Site) (callee : Callee) : Prop where
  name : callee.modifier = none → renamed callee.base = callee.base
  callback : ∀ callback, call.callArguments.reverse.find? (·.isFunctionLiteral) = some callback →
    CallbackSettled source callee.registers callback

theorem rename_edits_eq_nil_iff (h : call.registration? source = some callee) :
    (rename call callee).edits = [] ↔ (callee.modifier = none → renamed callee.base = callee.base) := by
  have hcallee : (call.child? .callee).isSome = true := by
    simp only [Site.registration?, Option.bind_eq_bind, Option.bind_eq_some_iff] at h
    obtain ⟨-, -, f, hf, -⟩ := h
    exact Option.isSome_iff_exists.mpr ⟨f, hf⟩
  obtain ⟨f, hf⟩ := Option.isSome_iff_exists.mp hcallee
  unfold rename
  cases hmodifier : callee.modifier with
  | some m => simp
  | none =>
    by_cases hname : renamed callee.base = callee.base
    · simp [hf, hname]
    · simp [hf, hname, Change.one]

theorem contextParameter_edits_eq_nil_iff : (contextParameter source callback).edits = [] ↔
    callback.functionParameters.length ≠ 1 := by
  unfold contextParameter
  split
  · rename_i parameter hparameter
    dsimp only
    split <;> simp [Change.one, hparameter]
  · rename_i hother
    simp only [true_iff, ne_eq]
    intro hlength
    obtain ⟨parameter, hparameter⟩ := List.length_eq_one_iff.mp hlength
    exact hother parameter hparameter

theorem timeoutEdits_ne_nil {registers : Registration} {hasOptions : Bool} {statement : Site}
    {value : String} : timeoutEdits source registers callback hasOptions statement value ≠ [] := by
  unfold timeoutEdits
  dsimp only
  split
  · simp
  · split <;> simp

def setsTimeout (source : Text) (statement : Site) : Bool :=
  match thisCall? source statement with
  | some ("timeout", [_]) => true
  | _ => false

/-- What a statement hands to the runner, as it is written. -/
def runnerValue (source : Text) (statement : Site) : String :=
  match thisCall? source statement with
  | some (_, [value]) => value.text source
  | _ => ""

theorem setsTimeout_iff {statement : Site} :
    setsTimeout source statement = true ↔ ∃ value, thisCall? source statement = some ("timeout", [value]) := by
  unfold setsTimeout
  split
  · rename_i value hcall
    exact iff_of_true rfl ⟨value, hcall⟩
  · rename_i hother
    exact iff_of_false (by simp) fun ⟨value, hcall⟩ => hother value hcall

theorem runnerCalls_edits {registers : Registration} {hasOptions applied : Bool} (statements : List Site) :
    (runnerCalls source registers callback hasOptions applied statements).edits = if applied then []
      else (statements.find? (setsTimeout source)).toList.flatMap fun statement =>
        timeoutEdits source registers callback hasOptions statement (runnerValue source statement) := by
  induction statements generalizing applied with
  | nil => cases applied <;> rfl
  | cons statement rest ih =>
    unfold runnerCalls
    rw [List.find?_cons]
    split
    · rename_i value hcall
      rw [setsTimeout_iff.mpr ⟨value, hcall⟩]
      cases applied with
      | true => exact @ih true
      | false =>
        -- the first timeout counts, and none of those behind it
        show timeoutEdits _ _ _ _ _ _ ++ (runnerCalls _ _ _ _ true rest).edits = _
        rw [@ih true]
        simp [runnerValue, hcall]
    · rename_i args hcall
      have hsets : setsTimeout source statement = false := by simp [setsTimeout, hcall]
      simpa [Change.append, hsets] using ih
    · rename_i hother _
      have hsets : setsTimeout source statement = false :=
        Bool.eq_false_iff.mpr fun h => (setsTimeout_iff.mp h).elim hother
      rw [hsets]
      exact ih

theorem runnerCalls_edits_eq_nil_iff {registers : Registration} {hasOptions : Bool}
    {statements : List Site} :
    (runnerCalls source registers callback hasOptions false statements).edits = [] ↔
      ∀ statement ∈ statements, ∀ value, thisCall? source statement ≠ some ("timeout", [value]) := by
  have hsets (statement : Site) : setsTimeout source statement ≠ true ↔
      ∀ value, thisCall? source statement ≠ some ("timeout", [value]) := by
    rw [ne_eq, setsTimeout_iff, not_exists]
  rw [runnerCalls_edits, if_neg (by simp), List.flatMap_eq_nil_iff]
  simp only [← hsets, Option.mem_toList, timeoutEdits_ne_nil, imp_false, ← Option.mem_def,
    ← Option.eq_none_iff_forall_not_mem, List.find?_eq_none]

/-- The edits of a call: its new name, and for its callback a context and the first timeout. -/
theorem mem_callChange_iff {x : Edit} : x ∈ (callChange source call callee).edits ↔
    x ∈ (rename call callee).edits ∨
      ∃ callback, call.callArguments.reverse.find? (·.isFunctionLiteral) = some callback ∧
        (callee.registers ≠ .suite ∧ x ∈ (contextParameter source callback).edits ∨
          callback.kind ≠ .arrowFunction ∧ ∃ statement ∈ callback.bodyStatements.find? (setsTimeout source),
            x ∈ timeoutEdits source callee.registers callback (call.callArguments.any (·.kind == .object)) statement
              (runnerValue source statement)) := by
  have hparameter (callback : Site) : x ∈ (if callee.registers == .suite then {}
      else contextParameter source callback : Change).edits ↔
      callee.registers ≠ .suite ∧ x ∈ (contextParameter source callback).edits := by
    by_cases hsuite : callee.registers = .suite <;> simp [hsuite]
  have hcallback (callback : Site) :
      x ∈ (callbackChange source callee.registers call.callArguments callback).edits ↔
        callee.registers ≠ .suite ∧ x ∈ (contextParameter source callback).edits ∨
          callback.kind ≠ .arrowFunction ∧ ∃ statement ∈ callback.bodyStatements.find? (setsTimeout source),
            x ∈ timeoutEdits source callee.registers callback (call.callArguments.any (·.kind == .object)) statement
              (runnerValue source statement) := by
    unfold callbackChange
    dsimp only
    by_cases harrow : callback.kind = .arrowFunction
    · rw [if_pos (by simpa using harrow), hparameter]
      simp [harrow]
    · rw [if_neg (by simpa using harrow)]
      show x ∈ (if callee.registers == .suite then {} else contextParameter source callback : Change).edits ++ _ ↔ _
      rw [List.mem_append, hparameter, runnerCalls_edits]
      simp [harrow]
  unfold callChange
  dsimp only
  cases call.callArguments.reverse.find? (·.isFunctionLiteral) with
  | none => simp
  | some callback => simp only [Change.append, List.mem_append, hcallback, Option.some.injEq, exists_eq_left']

theorem callChange_edits_eq_nil_iff (h : call.registration? source = some callee) :
    (callChange source call callee).edits = [] ↔ CallSettled source call callee := by
  have hparameter (callback : Site) : (if callee.registers == .suite then {}
      else contextParameter source callback : Change).edits = [] ↔
      (callee.registers ≠ .suite → callback.functionParameters.length ≠ 1) := by
    split
    · rename_i hsuite
      simp [show callee.registers = .suite by simpa using hsuite]
    · rename_i hsuite
      simp [contextParameter_edits_eq_nil_iff, show callee.registers ≠ .suite by simpa using hsuite]
  have hcallback (callback : Site) :
      (callbackChange source callee.registers call.callArguments callback).edits = [] ↔
        CallbackSettled source callee.registers callback := by
    unfold callbackChange
    dsimp only
    split
    · rename_i harrow
      rw [hparameter]
      have harrow : callback.kind = .arrowFunction := by simpa using harrow
      exact ⟨fun hp => ⟨hp, fun hne => absurd harrow hne⟩, fun hs => hs.parameters⟩
    · rename_i harrow
      have harrow : callback.kind ≠ .arrowFunction := by simpa using harrow
      simp only [Change.append, List.append_eq_nil_iff, hparameter, runnerCalls_edits_eq_nil_iff]
      exact ⟨fun hp => ⟨hp.1, fun _ => hp.2⟩, fun hs => ⟨hs.parameters, hs.timeouts harrow⟩⟩
  unfold callChange
  dsimp only
  split
  · rename_i callback hfound
    simp only [Change.append, List.append_eq_nil_iff, rename_edits_eq_nil_iff h, hcallback]
    constructor
    · rintro ⟨hname, hsettled⟩
      refine ⟨hname, ?_⟩
      intro callback' hfound'
      rw [hfound] at hfound'
      cases hfound'
      exact hsettled
    · exact fun hs => ⟨hs.name, hs.callback callback hfound⟩
  · rename_i hfound
    rw [rename_edits_eq_nil_iff h]
    refine ⟨fun hname => ⟨hname, ?_⟩, fun hs => hs.name⟩
    intro callback hfound'
    rw [hfound] at hfound'
    cases hfound'

end Registration

/-! ### The pass -/

namespace RegistrationPass

variable {source : Text} {tree : Node}

theorem addCall_edits_eq_nil_iff {p : RegistrationPass} {call : Site} :
    (p.addCall source call).edits = [] ↔ p.edits = [] ∧
      ∀ callee, call.registration? source = some callee → Registration.CallSettled source call callee := by
  unfold addCall
  cases hcall : call.registration? source with
  | none => simp
  | some callee =>
    have hcovers : Edit.covers [] call.span = false := rfl
    simp only [Option.some.injEq, forall_eq']
    constructor
    · intro h
      split at h
      · rename_i hcovered
        rw [h, hcovers] at hcovered
        cases hcovered
      · obtain ⟨hp, hchange⟩ := List.append_eq_nil_iff.mp h
        exact ⟨hp, (Registration.callChange_edits_eq_nil_iff hcall).mp hchange⟩
    · rintro ⟨hp, hsettled⟩
      rw [hp, hcovers, if_neg (by simp)]
      exact (Registration.callChange_edits_eq_nil_iff hcall).mpr hsettled

theorem foldl_addCall_edits_eq_nil_iff {calls : List Site} {p : RegistrationPass} :
    (calls.foldl (addCall source) p).edits = [] ↔ p.edits = [] ∧ ∀ s ∈ calls, ∀ callee,
      s.registration? source = some callee → Registration.CallSettled source s callee := by
  induction calls generalizing p with
  | nil => simp
  | cons call rest ih => rw [List.foldl_cons, ih, addCall_edits_eq_nil_iff, List.forall_mem_cons, and_assoc]

theorem mem_addCall_names {p : RegistrationPass} {call : Site} {name : String} (hp : p.edits = []) :
    name ∈ (p.addCall source call).usage.names ↔ name ∈ p.usage.names ∨
      ∃ callee, call.registration? source = some callee ∧ Registration.importedName callee.base = name := by
  have hcovers : Edit.covers p.edits call.span = false := by rw [hp]; rfl
  unfold addCall
  cases hcall : call.registration? source with
  | none => simp
  | some callee =>
    dsimp only
    rw [if_neg (by simp [hcovers]), mem_insertName, or_comm]
    simp [eq_comm]

/-- A pass that finds nothing to edit notes every name in use. -/
theorem mem_foldl_addCall_names {calls : List Site} {p : RegistrationPass} {name : String}
    (h : (calls.foldl (addCall source) p).edits = []) :
    name ∈ (calls.foldl (addCall source) p).usage.names ↔ name ∈ p.usage.names ∨ ∃ s ∈ calls,
      ∃ callee, s.registration? source = some callee ∧ Registration.importedName callee.base = name := by
  induction calls generalizing p with
  | nil => simp
  | cons call rest ih =>
    rw [List.foldl_cons] at h ⊢
    obtain ⟨hnil, -⟩ := foldl_addCall_edits_eq_nil_iff.mp h
    obtain ⟨hp, -⟩ := addCall_edits_eq_nil_iff.mp hnil
    rw [ih h]
    rw [mem_addCall_names hp]
    simp only [List.mem_cons, exists_eq_or_imp, or_assoc]

theorem foldl_addCall_found {calls : List Site} {p : RegistrationPass}
    (h : p.usage.found = true ↔ ∃ name, name ∈ p.usage.names) :
    (calls.foldl (addCall source) p).usage.found = true ↔
      ∃ name, name ∈ (calls.foldl (addCall source) p).usage.names := by
  induction calls generalizing p with
  | nil => exact h
  | cons call rest ih =>
    apply ih
    unfold addCall
    cases call.registration? source with
    | none => exact h
    | some callee =>
      dsimp only
      split
      · exact h
      · exact ⟨fun _ => ⟨_, mem_insertName.mpr (Or.inl rfl)⟩, fun _ => rfl⟩

/-- Every registration of the tree is settled. -/
def Settled (source : Text) (tree : Node) : Prop :=
  ∀ s ∈ tree.sites, ∀ callee, s.registration? source = some callee →
    Registration.CallSettled source s callee

/-- Some registration of the tree needs `name` from the test module. -/
def Uses (source : Text) (tree : Node) (name : String) : Prop :=
  ∃ s ∈ tree.sites, ∃ callee, s.registration? source = some callee ∧
    Registration.importedName callee.base = name

theorem ofTree_edits_eq_nil_iff {edits : List Edit} :
    (ofTree source tree edits).edits = [] ↔ edits = [] ∧ Settled source tree := by
  rw [ofTree, foldl_addCall_edits_eq_nil_iff]
  refine and_congr_right fun _ => ⟨fun h s hs callee hc => ?_, fun h s hs callee hc => ?_⟩
  · exact h s (List.mem_filter.mpr ⟨hs, Site.call_of_registration? hc⟩) callee hc
  · exact h s (List.mem_filter.mp hs).1 callee hc

theorem mem_ofTree_names {edits : List Edit} {name : String} (h : (ofTree source tree edits).edits = []) :
    name ∈ (ofTree source tree edits).usage.names ↔ Uses source tree name := by
  have hnames := @mem_foldl_addCall_names _ _ _ name h
  rw [ofTree, hnames]
  constructor
  · rintro (hnone | ⟨s, hs, callee, hcallee, hname⟩)
    · cases hnone
    · exact ⟨s, (List.mem_filter.mp hs).1, callee, hcallee, hname⟩
  · rintro ⟨s, hs, callee, hcallee, hname⟩
    exact Or.inr ⟨s, List.mem_filter.mpr ⟨hs, Site.call_of_registration? hcallee⟩, callee, hcallee, hname⟩

theorem ofTree_found_iff {edits : List Edit} (h : (ofTree source tree edits).edits = []) :
    (ofTree source tree edits).usage.found = true ↔ ∃ name, Uses source tree name := by
  have hfound : (ofTree source tree edits).usage.found = true ↔
      ∃ name, name ∈ (ofTree source tree edits).usage.names := foldl_addCall_found (by simp)
  simpa only [mem_ofTree_names h] using hfound

end RegistrationPass

end TestMigration
