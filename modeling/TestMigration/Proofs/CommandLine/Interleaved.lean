import Mathlib.Data.List.Basic
import Mathlib.Data.List.Induction
import TestMigration.CommandLine.Batch
import TestMigration.Proofs.Files.Writing

/-!
# Side by side as one after the other

Tasks share the files, and a schedule may let them take their steps in any order. As long as the paths lead to
different files, no task sees what another one has written: at every moment each task is where it would be if
it had the files for itself (`Stage.Alone`), and the files are those of the beginning with the texts of the
finished tasks in their places (`Workers.Consistent`). So when all tasks are done, reports, failures and files
are those of migrating one file after the other: `Workers.run_eq_sequential`.
-/

namespace TestMigration

/-- No file is at both paths. -/
def Files.Different (f : Files) (p q : String) : Prop := ∀ place, f.locate? p = some place → f.locate? q ≠ some place

theorem Files.Different.symm {f : Files} {p q : String} (h : f.Different p q) : f.Different q p :=
  fun place hq hp => h place hp hq

instance (f : Files) (p q : String) : Decidable (f.Different p q) :=
  decidable_of_iff (f.locate? p = none ∨ f.locate? p ≠ f.locate? q) (by
    constructor
    · rintro (hnone | hne) place hp hq
      · rw [hnone] at hp
        cases hp
      · exact hne (hp.trans hq.symm)
    · intro h
      cases hp : f.locate? p with
      | none => exact .inl rfl
      | some place => exact .inr fun heq => h place hp heq.symm)

/-! ### A file alone -/

section
variable (stop : Grammar → Text → Nat) (c : Config) (write : Bool) (f : Files) (path : String)

/-- What migrating a file comes to that has the files for itself. -/
def aloneResult : Except MigrateError FileReport := (migrateFile stop c write f path).map (·.2)

/-- The text that is written then, with the names that lead to the file. -/
def aloneWrites : List (List String × String) :=
  match f.locate? path, f.read path with
  | some place, .ok source =>
    match migrate (c.settingsFor path) path source with
    | some o => if (write && o.changed) = true ∧ place ∉ f.readOnly then [(place, o.output)] else []
    | none => []
  | _, _ => []

end

section
variable (stop : Grammar → Text → Nat) {c : Config} {write : Bool} {f g : Files} {path : String}

theorem mem_aloneWrites {w : List String × String} (h : w ∈ aloneWrites c write f path) :
    f.locate? path = some w.1 ∧ f.HasFile w.1 := by
  unfold aloneWrites at h
  split at h
  · rename_i place source hplace hread
    obtain ⟨place', hplace', hfile⟩ := Files.hasFile_of_read hread
    obtain rfl : place = place' := Option.some.inj (hplace.symm.trans hplace')
    split at h
    · split at h
      · obtain rfl := List.mem_singleton.mp h
        exact ⟨hplace, hfile⟩
      · cases h
    · cases h
  · cases h

theorem alone_unreadable {failure : ReadFailure} (h : f.read path = .error failure) :
    aloneResult stop c write f path = .error (.unreadable path failure) ∧ aloneWrites c write f path = [] := by
  refine ⟨by simp [aloneResult, migrateFile, h, Except.map], ?_⟩
  unfold aloneWrites
  cases f.locate? path <;> simp [h]

theorem alone_syntaxError {source : String} (h : f.read path = .ok source)
    (hmigrate : migrate (c.settingsFor path) path source = none) :
    aloneResult stop c write f path = .error (.ofSource stop path source) ∧ aloneWrites c write f path = [] := by
  refine ⟨by simp [aloneResult, migrateFile, h, hmigrate, Except.map], ?_⟩
  unfold aloneWrites
  cases f.locate? path <;> simp [h, hmigrate]

theorem alone_kept {source : String} {o : Outcome} (h : f.read path = .ok source)
    (hmigrate : migrate (c.settingsFor path) path source = some o) (hwrite : (write && o.changed) = false) :
    aloneResult stop c write f path = .ok (o.report path false) ∧ aloneWrites c write f path = [] := by
  refine ⟨by simp [aloneResult, migrateFile, h, hmigrate, hwrite, Except.map], ?_⟩
  unfold aloneWrites
  cases f.locate? path <;> simp [h, hmigrate, hwrite]

theorem alone_denied {source : String} {o : Outcome} {place : List String} (h : f.read path = .ok source)
    (hmigrate : migrate (c.settingsFor path) path source = some o) (hwrite : (write && o.changed) = true)
    (hplace : f.locate? path = some place) (hfile : f.HasFile place) (hdenied : place ∈ f.readOnly) :
    aloneResult stop c write f path = .error (.unwritable path .denied) ∧ aloneWrites c write f path = [] := by
  have hfails : f.write path o.output = .error .denied := by
    rw [Files.write_eq hplace hfile, if_pos hdenied]
  exact ⟨by simp [aloneResult, migrateFile, h, hmigrate, hwrite, hfails, Except.map],
    by simp [aloneWrites, hplace, h, hmigrate, hwrite, hdenied]⟩

theorem alone_written {source : String} {o : Outcome} {place : List String} (h : f.read path = .ok source)
    (hmigrate : migrate (c.settingsFor path) path source = some o) (hwrite : (write && o.changed) = true)
    (hplace : f.locate? path = some place) (hfile : f.HasFile place) (hallowed : place ∉ f.readOnly) :
    aloneResult stop c write f path = .ok (o.report path true) ∧ aloneWrites c write f path = [(place, o.output)] := by
  have hwritten : f.write path o.output = .ok (f.put place o.output) := by
    rw [Files.write_eq hplace hfile, if_neg hallowed]
  exact ⟨by simp [aloneResult, migrateFile, h, hmigrate, hwrite, hwritten, Except.map],
    by simp [aloneWrites, hplace, h, hmigrate, hwrite, hallowed]⟩

theorem aloneWrites_eq_nil (h : ∀ report, aloneResult stop c write f path = .ok report → report.written = false) :
    aloneWrites c write f path = [] := by
  cases hread : f.read path with
  | error failure => exact (alone_unreadable stop hread).2
  | ok source =>
    cases hmigrate : migrate (c.settingsFor path) path source with
    | none => exact (alone_syntaxError stop hread hmigrate).2
    | some o =>
      cases hwrite : write && o.changed with
      | false => exact (alone_kept stop hread hmigrate hwrite).2
      | true =>
        obtain ⟨place, hplace, hfile⟩ := Files.hasFile_of_read hread
        by_cases hdenied : place ∈ f.readOnly
        · exact (alone_denied stop hread hmigrate hwrite hplace hfile hdenied).2
        · cases h _ (alone_written stop hread hmigrate hwrite hplace hfile hdenied).1

/-! ### One after the other -/

variable {stop}

/-- Where nobody else has written, migrating a file comes to what it comes to alone. -/
theorem migrateFile_untouched (hg : Files.Untouched f g path) : migrateFile stop c write g path =
    (aloneResult stop c write f path).map fun report => (g.putAll (aloneWrites c write f path), report) := by
  unfold migrateFile
  rw [hg.read_eq]
  cases hread : f.read path with
  | error failure =>
    rw [(alone_unreadable stop hread).1]
    rfl
  | ok source =>
    simp only
    cases hmigrate : migrate (c.settingsFor path) path source with
    | none =>
      rw [(alone_syntaxError stop hread hmigrate).1]
      rfl
    | some o =>
      simp only
      cases hwrite : write && o.changed with
      | false =>
        obtain ⟨hresult, hwrites⟩ := alone_kept stop hread hmigrate hwrite
        rw [hresult, hwrites]
        rfl
      | true =>
        obtain ⟨place, hplace, hfile⟩ := Files.hasFile_of_read hread
        rw [hg.write_eq hplace hfile]
        by_cases hdenied : place ∈ f.readOnly
        · rw [(alone_denied stop hread hmigrate hwrite hplace hfile hdenied).1, if_pos hdenied]
          rfl
        · obtain ⟨hresult, hwrites⟩ := alone_written stop hread hmigrate hwrite hplace hfile hdenied
          rw [hresult, hwrites, if_neg hdenied]
          rfl

/-- The failure of a file that has the files for itself. -/
def aloneFailure? (stop : Grammar → Text → Nat) (c : Config) (write : Bool) (f : Files) (path : String) :
    Option FileFailure :=
  match aloneResult stop c write f path with
  | .error e => some { filePath := path, message := e.message }
  | .ok _ => none

/-- All files, each as if it were alone. -/
def Batch.alone (stop : Grammar → Text → Nat) (c : Config) (write : Bool) (f : Files) (paths : List String) : Batch :=
  { files := f.putAll (paths.flatMap (aloneWrites c write f))
    reports := paths.filterMap fun path => (aloneResult stop c write f path).toOption
    failures := paths.filterMap (aloneFailure? stop c write f) }

/-- Paths other than those of some files do not see what is written to them. -/
theorem untouched_of_different {paths : List String} (h : ∀ p ∈ paths, f.Different path p) :
    Files.Untouched f (f.putAll (paths.flatMap (aloneWrites c write f))) path := by
  refine Files.untouched_putAll ?_ ?_
  · intro w hw
    obtain ⟨p, -, hw⟩ := List.mem_flatMap.mp hw
    exact (mem_aloneWrites hw).2
  · intro w hw hpath
    obtain ⟨p, hp, hw⟩ := List.mem_flatMap.mp hw
    exact h p hp w.1 hpath (mem_aloneWrites hw).1

theorem Batch.run_eq_alone {paths : List String} (h : paths.Pairwise f.Different) :
    Batch.run stop c write f paths = Batch.alone stop c write f paths := by
  induction paths using List.reverseRecOn with
  | nil => rfl
  | append_singleton init last ih =>
    obtain ⟨hinit, -, hlast⟩ := List.pairwise_append.mp h
    have huntouched : Files.Untouched f (f.putAll (init.flatMap (aloneWrites c write f))) last :=
      untouched_of_different fun p hp => (hlast p hp last (List.mem_singleton_self _)).symm
    have hrun : Batch.run stop c write f (init ++ [last])
        = Batch.add stop c write (Batch.run stop c write f init) last := by
      simp [Batch.run]
    rw [hrun, ih hinit, Batch.add, Batch.alone, migrateFile_untouched huntouched]
    cases hresult : aloneResult stop c write f last with
    | ok report => simp [Batch.alone, Except.map, hresult, aloneFailure?, Files.putAll_append, Except.toOption]
    | error e =>
      have hwrites : aloneWrites c write f last = [] := aloneWrites_eq_nil stop (by simp [hresult])
      simp [Batch.alone, Except.map, hresult, aloneFailure?, hwrites, Except.toOption]

/-! ### Steps of a task -/

/-- How far a task may have come that has the files for itself. -/
def Stage.Alone (stop : Grammar → Text → Nat) (c : Config) (write : Bool) (f : Files) (path : String) : Stage → Prop
  | waiting => True
  | holding source => f.read path = .ok source
  | writing o => ∃ source, f.read path = .ok source ∧ migrate (c.settingsFor path) path source = some o ∧
      (write && o.changed) = true
  | done result => result = aloneResult stop c write f path

def Stage.isDone : Stage → Bool
  | done _ => true
  | _ => false

def Stage.written (c : Config) (write : Bool) (f : Files) (path : String) (s : Stage) :
    List (List String × String) :=
  if s.isDone then aloneWrites c write f path else []

-- parentheses around `rfl`, so that nobody tries to unfold `migrate` to use these
theorem Stage.step_waiting : Stage.step stop c write path g waiting =
    match g.read path with
    | .error failure => (g, done (.error (.unreadable path failure)))
    | .ok source => (g, holding source) := (rfl)

theorem Stage.step_holding {source : String} : Stage.step stop c write path g (holding source) =
    match migrate (c.settingsFor path) path source with
    | none => (g, done (.error (.ofSource stop path source)))
    | some o => (g, if write && o.changed then writing o else done (.ok (o.report path false))) := (rfl)

theorem Stage.step_writing {o : Outcome} : Stage.step stop c write path g (writing o) =
    match g.write path o.output with
    | .ok g => (g, done (.ok (o.report path true)))
    | .error failure => (g, done (.error (.unwritable path failure))) := (rfl)

theorem Stage.step_alone {s : Stage} (h : s.Alone stop c write f path) (hopen : s.isDone = false)
    (hg : Files.Untouched f g path) : (s.step stop c write path g).2.Alone stop c write f path ∧
      (s.step stop c write path g).1 = g.putAll ((s.step stop c write path g).2.written c write f path) := by
  -- the last step of a task that comes to what it comes to alone
  have hlast {result : Except MigrateError FileReport} {writes : List (List String × String)}
      (hstep : s.step stop c write path g = (g.putAll writes, done result))
      (halone : aloneResult stop c write f path = result ∧ aloneWrites c write f path = writes) :
      (s.step stop c write path g).2.Alone stop c write f path ∧
        (s.step stop c write path g).1 = g.putAll ((s.step stop c write path g).2.written c write f path) := by
    rw [hstep]
    exact ⟨halone.1.symm, by simp [written, isDone, halone.2]⟩
  cases s with
  | waiting =>
    cases hread : f.read path with
    | error failure =>
      exact hlast (by simp [step_waiting, hg.read_eq, hread, Files.putAll]) (alone_unreadable stop hread)
    | ok source =>
      have hstep : step stop c write path g waiting = (g, holding source) := by simp [step_waiting, hg.read_eq, hread]
      rw [hstep]
      exact ⟨hread, rfl⟩
  | holding source =>
    have hread : f.read path = .ok source := h
    cases hmigrate : migrate (c.settingsFor path) path source with
    | none => exact hlast (by simp [step_holding, hmigrate, Files.putAll]) (alone_syntaxError stop hread hmigrate)
    | some o =>
      cases hwrite : write && o.changed with
      | true =>
        have hstep : step stop c write path g (holding source) = (g, writing o) := by
          simp [step_holding, hmigrate, hwrite]
        rw [hstep]
        exact ⟨⟨source, hread, hmigrate, hwrite⟩, rfl⟩
      | false =>
        exact hlast (by simp [step_holding, hmigrate, hwrite, Files.putAll]) (alone_kept stop hread hmigrate hwrite)
  | writing o =>
    obtain ⟨source, hread, hmigrate, hwrite⟩ := h
    obtain ⟨place, hplace, hfile⟩ := Files.hasFile_of_read hread
    by_cases hdenied : place ∈ f.readOnly
    · exact hlast (by simp [step_writing, hg.write_eq hplace hfile, hdenied, Files.putAll])
        (alone_denied stop hread hmigrate hwrite hplace hfile hdenied)
    · exact hlast (by simp [step_writing, hg.write_eq hplace hfile, hdenied, Files.putAll])
        (alone_written stop hread hmigrate hwrite hplace hfile hdenied)
  | done result => cases hopen

end

/-! ### All tasks -/

namespace Workers

variable {stop : Grammar → Text → Nat} {c : Config} {write : Bool} {f : Files} {paths : List String} {w : Workers}

/-- What the tasks of a list have written so far. -/
def writes (c : Config) (write : Bool) (f : Files) (tasks : List Task) : List (List String × String) :=
  tasks.flatMap fun t => t.stage.written c write f t.path

/-- Each task is where it would be alone, and the files are those of the beginning with the texts of the tasks
that are done. -/
structure Consistent (stop : Grammar → Text → Nat) (c : Config) (write : Bool) (f : Files) (paths : List String)
    (w : Workers) : Prop where
  paths : w.tasks.map (·.path) = paths
  alone : ∀ t ∈ w.tasks, t.stage.Alone stop c write f t.path
  files : w.files = f.putAll (writes c write f w.tasks)

theorem mem_writes {tasks : List Task} {x : List String × String} (h : x ∈ writes c write f tasks) :
    ∃ t ∈ tasks, f.locate? t.path = some x.1 ∧ f.HasFile x.1 := by
  obtain ⟨t, ht, hx⟩ := List.mem_flatMap.mp h
  unfold Stage.written at hx
  split at hx
  · exact ⟨t, ht, mem_aloneWrites hx⟩
  · cases hx

theorem Consistent.start (stop : Grammar → Text → Nat) (c : Config) (write : Bool) (f : Files) (paths : List String) :
    Consistent stop c write f paths (Workers.start f paths) := by
  refine ⟨?_, ?_, ?_⟩
  · rw [Workers.start, List.map_map]
    exact List.map_id _
  · intro t ht
    obtain ⟨path, -, rfl⟩ := List.mem_map.mp ht
    exact trivial
  · have hnothing : writes c write f (Workers.start f paths).tasks = [] := by
      simp [writes, Workers.start, Stage.written, Stage.isDone]
    rw [hnothing]
    rfl

section
variable {g : Files} {before after : List Task} {t : Task}

theorem Consistent.different (hdistinct : paths.Pairwise f.Different)
    (h : Consistent stop c write f paths ⟨g, before ++ t :: after⟩) :
    ∀ u ∈ before ++ after, f.Different t.path u.path := by
  have hpaths := h.paths
  rw [List.map_append, List.map_cons] at hpaths
  rw [← hpaths] at hdistinct
  obtain ⟨-, hrest, hcross⟩ := List.pairwise_append.mp hdistinct
  intro u hu
  rcases List.mem_append.mp hu with hu | hu
  · exact (hcross _ (List.mem_map_of_mem hu) _ List.mem_cons_self).symm
  · exact (List.pairwise_cons.mp hrest).1 _ (List.mem_map_of_mem hu)

/-- What a task finds that has not written is what was there at the beginning. -/
theorem Consistent.untouched (hdistinct : paths.Pairwise f.Different)
    (h : Consistent stop c write f paths ⟨g, before ++ t :: after⟩) (ht : t.stage.written c write f t.path = []) :
    Files.Untouched f g t.path := by
  have hfiles : g = f.putAll (writes c write f (before ++ after)) := by
    simpa [writes, ht] using h.files
  rw [hfiles]
  refine Files.untouched_putAll ?_ ?_
  · intro x hx
    obtain ⟨-, -, -, hfile⟩ := mem_writes hx
    exact hfile
  · intro x hx hplace
    obtain ⟨u, hu, hplace', -⟩ := mem_writes hx
    exact h.different hdistinct u hu x.1 hplace hplace'

theorem Consistent.advance (hdistinct : paths.Pairwise f.Different)
    (h : Consistent stop c write f paths ⟨g, before ++ t :: after⟩) (hopen : t.stage.isDone = false) :
    Consistent stop c write f paths ⟨(t.stage.step stop c write t.path g).1,
      before ++ { t with stage := (t.stage.step stop c write t.path g).2 } :: after⟩ := by
  have hnothing : t.stage.written c write f t.path = [] := by simp [Stage.written, hopen]
  have huntouched := h.untouched hdistinct hnothing
  obtain ⟨halone, hstep⟩ := Stage.step_alone (h.alone t (by simp)) hopen huntouched
  refine ⟨?_, ?_, ?_⟩
  · simpa using h.paths
  · intro u hu
    rcases List.mem_append.mp hu with hu | hu
    · exact h.alone u (List.mem_append_left _ hu)
    · rcases List.mem_cons.mp hu with rfl | hu
      · exact halone
      · exact h.alone u (List.mem_append_right _ (List.mem_cons_of_mem _ hu))
  · -- what the task has written can go before what the later ones have written
    generalize (t.stage.step stop c write t.path g).2 = stage at hstep ⊢
    have hfiles : g = (f.putAll (writes c write f before)).putAll (writes c write f after) := by
      rw [← Files.putAll_append]
      simpa [writes, hnothing] using h.files
    have hhas (tasks : List Task) : ∀ x ∈ writes c write f tasks, f.HasFile x.1 := fun x hx =>
      let ⟨_, _, _, hfile⟩ := mem_writes hx
      hfile
    have htask : stage.written c write f t.path = writes c write f [{ t with stage }] := by simp [writes]
    have hmoved : writes c write f (before ++ { t with stage } :: after) =
        writes c write f before ++ (writes c write f [{ t with stage }] ++ writes c write f after) := by
      simp [writes]
    rw [hstep, htask, hmoved, Files.putAll_append, Files.putAll_append, hfiles]
    refine Files.putAll_comm (fun x hx => (hhas after x hx).putAll (hhas before))
      (fun x hx => (hhas _ x hx).putAll (hhas before)) ?_
    intro x hx y hy heq
    obtain ⟨u, hu, hux, -⟩ := mem_writes hx
    obtain ⟨v, hv, hvy, -⟩ := mem_writes hy
    obtain rfl := List.mem_singleton.mp hv
    exact h.different hdistinct u (List.mem_append_right _ hu) x.1 (heq ▸ hvy) hux

end

theorem Consistent.step (hdistinct : paths.Pairwise f.Different) (h : Consistent stop c write f paths w) (i : Nat) :
    Consistent stop c write f paths (w.step stop c write i) := by
  unfold Workers.step
  cases hi : w.tasks[i]? with
  | none => exact h
  | some t =>
    obtain ⟨hlt, ht⟩ := List.getElem?_eq_some_iff.mp hi
    have hsplit : w.tasks = w.tasks.take i ++ t :: w.tasks.drop (i + 1) := by
      rw [← ht, List.getElem_cons_drop, List.take_append_drop]
    have hview : Consistent stop c write f paths ⟨w.files, w.tasks.take i ++ t :: w.tasks.drop (i + 1)⟩ := by
      rw [← hsplit]
      exact h
    simp only [List.set_eq_take_append_cons_drop, if_pos hlt]
    cases hopen : t.stage.isDone with
    | false => exact hview.advance hdistinct hopen
    | true =>
      obtain ⟨path, stage⟩ := t
      cases stage with
      | done result => exact hview
      | waiting | holding source | writing o => cases hopen

theorem Consistent.run (hdistinct : paths.Pairwise f.Different) (schedule : List Nat)
    (h : Consistent stop c write f paths w) : Consistent stop c write f paths (w.run stop c write schedule) := by
  induction schedule generalizing w with
  | nil => exact h
  | cons i rest ih => exact ih (h.step hdistinct i)

/-- When all tasks are done, each has come to what it comes to alone. -/
theorem Consistent.batch_eq (h : Consistent stop c write f paths w) (hfinished : w.finished = true) :
    w.batch = Batch.alone stop c write f paths := by
  have hdone (t : Task) (ht : t ∈ w.tasks) : t.stage = .done (aloneResult stop c write f t.path) := by
    have hsome := List.all_eq_true.mp hfinished t ht
    have halone := h.alone t ht
    obtain ⟨path, stage⟩ := t
    cases stage with
    | done result => exact congrArg Stage.done halone
    | waiting | holding source | writing o => cases hsome
  have hwrites : writes c write f w.tasks = paths.flatMap (aloneWrites c write f) := by
    rw [← h.paths, List.flatMap_map]
    exact List.flatMap_congr fun t ht => by simp [hdone t ht, Stage.written, Stage.isDone]
  have hreports : w.tasks.filterMap Task.report? =
      paths.filterMap fun path => (aloneResult stop c write f path).toOption := by
    rw [← h.paths, List.filterMap_map]
    exact List.filterMap_congr fun t ht => by simp [Task.report?, Task.result?, hdone t ht]
  have hfailures : w.tasks.filterMap Task.failure? = paths.filterMap (aloneFailure? stop c write f) := by
    rw [← h.paths, List.filterMap_map]
    refine List.filterMap_congr fun t ht => ?_
    simp only [Task.failure?, Task.result?, hdone t ht, Function.comp_apply, aloneFailure?]
    cases aloneResult stop c write f t.path <;> rfl
  rw [batch, Batch.alone, hreports, hfailures, h.files, hwrites]

/-- A file that no task has reported as written is what it was. -/
theorem Consistent.contents?_eq (hdistinct : paths.Pairwise f.Different) (h : Consistent stop c write f paths w)
    {t : Task} (ht : t ∈ w.tasks)
    (hkept : ∀ report, t.stage = .done (.ok report) → report.written = false) :
    w.files.contents? t.path = f.contents? t.path := by
  have hnothing : t.stage.written c write f t.path = [] := by
    unfold Stage.written
    split
    · rename_i hdone
      refine aloneWrites_eq_nil stop fun report hreport => hkept report ?_
      have halone := h.alone t ht
      cases hstage : t.stage with
      | done result =>
        rw [hstage] at halone
        exact congrArg Stage.done (halone.trans hreport)
      | waiting | holding source | writing o =>
        rw [hstage] at hdone
        cases hdone
    · rfl
  obtain ⟨before, after, hsplit⟩ := List.append_of_mem ht
  have hview : Consistent stop c write f paths ⟨w.files, before ++ t :: after⟩ := by
    rw [← hsplit]
    exact h
  exact (hview.untouched hdistinct hnothing).contents?_eq

end Workers

/-! ### Every task comes to its end -/

/-- Steps that a task may still need. -/
def Stage.left : Stage → Nat
  | waiting => 3
  | holding _ => 2
  | writing _ => 1
  | done _ => 0

theorem Stage.left_step (stop : Grammar → Text → Nat) (c : Config) (write : Bool) (path : String) (f : Files)
    (s : Stage) : (s.step stop c write path f).2.left ≤ s.left - 1 := by
  cases s with
  | waiting =>
    rw [Stage.step_waiting]
    split
    · exact Nat.zero_le _
    · exact Nat.le_refl _
  | holding source =>
    rw [Stage.step_holding]
    split
    · exact Nat.zero_le _
    · dsimp only
      split
      · exact Nat.le_refl _
      · exact Nat.zero_le _
  | writing o =>
    rw [Stage.step_writing]
    split
    · exact Nat.le_refl _
    · exact Nat.le_refl _
  | done result => exact Nat.zero_le _

namespace Workers

variable {stop : Grammar → Text → Nat} {c : Config} {write : Bool} {f : Files} {paths : List String} {w : Workers}
  {t : Task}

/-- A step brings its own task nearer to the end and leaves all others where they are. -/
theorem left_step {i j : Nat} (h : (w.step stop c write j).tasks[i]? = some t) :
    ∃ u, w.tasks[i]? = some u ∧ t.stage.left ≤ u.stage.left - if j = i then 1 else 0 := by
  unfold Workers.step at h
  cases hj : w.tasks[j]? with
  | none =>
    rw [hj] at h
    have hne : j ≠ i := by
      rintro rfl
      rw [hj] at h
      cases h
    exact ⟨t, h, by simp [hne]⟩
  | some u =>
    simp only [hj] at h
    by_cases hij : j = i
    · subst hij
      rw [List.getElem?_set_self', hj] at h
      obtain rfl := Option.some.inj h
      exact ⟨u, hj, by simpa using Stage.left_step stop c write u.path w.files u.stage⟩
    · rw [List.getElem?_set_ne hij] at h
      exact ⟨t, h, by simp [hij]⟩

theorem left_run (schedule : List Nat) {i : Nat} (h : (w.run stop c write schedule).tasks[i]? = some t) :
    ∃ u, w.tasks[i]? = some u ∧ t.stage.left ≤ u.stage.left - schedule.count i := by
  induction schedule generalizing w with
  | nil => exact ⟨t, h, by simp⟩
  | cons j rest ih =>
    obtain ⟨v, hv, hrest⟩ := ih h
    obtain ⟨u, hu, hfirst⟩ := left_step hv
    refine ⟨u, hu, ?_⟩
    rw [List.count_cons]
    by_cases hij : j = i
    · simp only [hij, ↓reduceIte, beq_self_eq_true] at hfirst ⊢
      omega
    · simp only [hij, ↓reduceIte, beq_iff_eq] at hfirst ⊢
      omega

/-- A schedule that lets every task take three steps brings all to their end. -/
theorem finished_run {schedule : List Nat} (h : ∀ i < paths.length, 3 ≤ schedule.count i) :
    ((start f paths).run stop c write schedule).finished = true := by
  refine List.all_eq_true.mpr fun t ht => ?_
  obtain ⟨i, hi⟩ := List.mem_iff_getElem?.mp ht
  obtain ⟨u, hu, hleft⟩ := left_run schedule hi
  have hlt : i < paths.length := by simpa [start] using (List.getElem?_eq_some_iff.mp hu).1
  have hthree : u.stage.left ≤ 3 := by cases u.stage <;> simp [Stage.left]
  have hcount := h i hlt
  have hzero : t.stage.left = 0 := by omega
  unfold Task.result?
  cases hstage : t.stage with
  | done result => rfl
  | waiting | holding source | writing o =>
    rw [hstage] at hzero
    cases hzero

end Workers

/-- The rounds in which files are migrated side by side make no difference. -/
theorem Batch.runParallel_eq_run (stop : Grammar → Text → Nat) (c : Config) (write : Bool) {f : Files}
    {paths : List String} (hdistinct : paths.Pairwise f.Different) :
    Batch.runParallel stop c write f paths = Batch.run stop c write f paths := by
  have hrounds : ∀ i < paths.length,
      3 ≤ (List.range paths.length ++ List.range paths.length ++ List.range paths.length).count i := by
    intro i hi
    have hone : 0 < (List.range paths.length).count i := List.count_pos_iff.mpr (List.mem_range.mpr hi)
    simp only [List.count_append]
    omega
  have h := (Workers.Consistent.start stop c write f paths).run hdistinct
    (List.range paths.length ++ List.range paths.length ++ List.range paths.length)
  rw [Batch.run_eq_alone hdistinct]
  exact h.batch_eq (Workers.finished_run hrounds)

end TestMigration
