import TestMigration.Proofs.Edit.Counts
import TestMigration.Proofs.Json.Record
import TestMigration.Report.Codec

/-!
# Configurations and reports are read back from their JSON

For each record the fields are listed beside the keys in the order in which the reader asks for them, and are then
read back one by one (`writes_record`). Of a report the counts must be in the order of their names, each name once,
and all numbers have at most 64 bits (`FileReport.Fits`).
-/

namespace TestMigration

open JsonValue

/-! ### Configurations -/

theorem Migration.writes (m : Migration) : Writes Migration.decode? m m.encode :=
  writes_name (by decide) (by cases m <;> decide)

theorem QuoteChoice.writes (q : QuoteChoice) : Writes (oneOf? QuoteChoice.all QuoteChoice.name) q (.string q.name) :=
  writes_name (by decide) (by cases q <;> decide)

theorem SemicolonChoice.writes (s : SemicolonChoice) :
    Writes (oneOf? SemicolonChoice.all SemicolonChoice.name) s (.string s.name) :=
  writes_name (by decide) (by cases s <;> decide)

theorem writes_strings (texts : List String) : Writes (list? string?) texts (arrayOf .string texts) :=
  writes_arrayOf fun s _ => writes_string s

theorem writes_migrations (ms : List Migration) :
    Writes (list? Migration.decode?) ms (arrayOf Migration.encode ms) :=
  writes_arrayOf fun m _ => m.writes

theorem writesField_string (o : Option String) : WritesField (maybe? string?) o (o.map .string) :=
  writesField_maybe rfl fun s _ => writes_string s

theorem writesField_migrations (o : Option (List Migration)) :
    WritesField (maybe? (list? Migration.decode?)) o (o.map (arrayOf Migration.encode)) :=
  writesField_maybe rfl fun ms _ => writes_migrations ms

theorem StyleChoice.writes (c : StyleChoice) : Writes StyleChoice.decode? c c.encode := by
  have hquote := c.quote.writes.defaulted .auto
  have hsemicolons := c.semicolons.writes.defaulted .auto
  have hindent := writesField_string c.indent
  have hencode : c.encode = .object (present (["quote", "semicolons", "indent"].zip
      [some (.string c.quote.name), some (.string c.semicolons.name), c.indent.map .string])) := by
    simp [encode]
  rw [hencode]
  refine writes_record (fun _ => rfl) (by decide) rfl ⟨hquote.exact, hsemicolons.exact, hindent.exact⟩ ?_
  simp [hquote.read_eq, hsemicolons.read_eq, hindent.read_eq]

theorem TargetChoice.writes (c : TargetChoice) : Writes TargetChoice.decode? c c.encode := by
  have hassert := writesField_string c.assert
  have htest := writesField_string c.test
  have hutil := writesField_string c.util
  have hencode : c.encode = .object (present (["assert", "test", "util"].zip
      [c.assert.map .string, c.test.map .string, c.util.map .string])) := by
    simp [encode]
  rw [hencode]
  refine writes_record (fun _ => rfl) (by decide) rfl ⟨hassert.exact, htest.exact, hutil.exact⟩ ?_
  simp [hassert.read_eq, htest.read_eq, hutil.read_eq]

theorem Override.writes (o : Override) : Writes Override.decode? o o.encode := by
  have hfiles := (writes_strings o.files).required
  have hmigrations := writesField_migrations o.migrations
  have hencode : o.encode = .object (present (["files", "migrations"].zip
      [some (arrayOf .string o.files), o.migrations.map (arrayOf Migration.encode)])) := by
    simp [encode]
  rw [hencode]
  refine writes_record (fun _ => rfl) (by decide) rfl ⟨hfiles.exact, hmigrations.exact⟩ ?_
  simp [hfiles.read_eq, hmigrations.read_eq]

theorem Config.writes (c : Config) : Writes Config.decode? c c.encode := by
  have hextends := writesField_string c.extends?
  have hmigrations := writesField_migrations c.migrations
  have hignore := (writes_strings c.ignore).defaulted []
  have hpatterns := (writes_strings c.testPatterns).defaulted []
  have htargets := c.targets.writes.defaulted {}
  have hstyle := c.style.writes.defaulted {}
  have hoverrides := (writes_arrayOf fun (o : Override) (_ : o ∈ c.overrides) => o.writes).defaulted []
  have hencode : c.encode = .object (present (Config.keys.zip
      [c.extends?.map .string, c.migrations.map (arrayOf Migration.encode), some (arrayOf .string c.ignore),
        some (arrayOf .string c.testPatterns), some c.targets.encode, some c.style.encode,
        some (arrayOf Override.encode c.overrides)])) := by
    simp [encode, keys]
  rw [hencode]
  refine writes_record (fun _ => rfl) (by decide) rfl ⟨hextends.exact, hmigrations.exact, hignore.exact,
    hpatterns.exact, htargets.exact, hstyle.exact, hoverrides.exact⟩ ?_
  simp [hextends.read_eq, hmigrations.read_eq, hignore.read_eq, hpatterns.read_eq, htargets.read_eq, hstyle.read_eq,
    hoverrides.read_eq]

/-- The text of a configuration file is read as the configuration it was written for. -/
theorem Config.parse?_fileText (c : Config) : Config.parse? c.fileText = some c := by
  have htext : c.fileText.toList = c.encode.write .pretty 0 ++ ['\n'] := by
    rw [fileText, print, String.toList_append, String.toList_ofList]
    rfl
  rw [Config.parse?, htext, c.writes.exact.parse?_write .pretty rfl, Option.bind_some, c.writes.read_eq]

/-! ### Reports -/

/-- The numbers of the location have at most 64 bits. -/
structure Location.Fits (l : Location) : Prop where
  line : l.line < naturalLimit
  column : l.column < naturalLimit
  endLine : ∀ n ∈ l.endLine, n < naturalLimit
  endColumn : ∀ n ∈ l.endColumn, n < naturalLimit

/-- The counts are in order, each name once, and all numbers of the report have at most 64 bits. -/
structure FileReport.Fits (r : FileReport) : Prop where
  ordered : r.counts.Ordered
  counts : ∀ entry ∈ r.counts, entry.2 < naturalLimit
  locations : ∀ d ∈ r.diagnostics, d.location.Fits

theorem Severity.writes (s : Severity) : Writes (oneOf? Severity.all Severity.name) s (.string s.name) :=
  writes_name (by decide) (by cases s <;> decide)

theorem Location.Fits.writes {l : Location} (h : l.Fits) : Writes Location.decode? l l.encode := by
  have hline := (writes_natural h.line).required
  have hcolumn := (writes_natural h.column).required
  have hendLine := writesField_naturalOrNull h.endLine
  have hendColumn := writesField_naturalOrNull h.endColumn
  have hencode : l.encode = .object (present (["line", "column", "endLine", "endColumn"].zip
      [some (.natural l.line), some (.natural l.column), some (naturalOrNull l.endLine),
        some (naturalOrNull l.endColumn)])) := rfl
  rw [hencode]
  refine writes_record (fun _ => rfl) (by decide) rfl
    ⟨hline.exact, hcolumn.exact, hendLine.exact, hendColumn.exact⟩ ?_
  simp [hline.read_eq, hcolumn.read_eq, hendLine.read_eq, hendColumn.read_eq]

theorem Diagnostic.writes {d : Diagnostic} (h : d.location.Fits) : Writes Diagnostic.decode? d d.encode := by
  have hseverity := d.severity.writes.required
  have hmessage := (writes_string d.message).required
  have hlocation := h.writes.required
  have hkey := writesField_string d.key
  have hencode : d.encode = .object (present (["severity", "message", "location", "key"].zip
      [some (.string d.severity.name), some (.string d.message), some d.location.encode, d.key.map .string])) := by
    simp [encode]
  rw [hencode]
  refine writes_record (fun _ => rfl) (by decide) rfl
    ⟨hseverity.exact, hmessage.exact, hlocation.exact, hkey.exact⟩ ?_
  simp [hseverity.read_eq, hmessage.read_eq, hlocation.read_eq, hkey.read_eq]

namespace Counts

theorem put_of_forall_lt {c : Counts} {name : String} (h : ∀ entry ∈ c, entry.1 < name) (n : Nat) :
    c.put name n = c ++ [(name, n)] := by
  induction c with
  | nil => rfl
  | cons entry c ih =>
    obtain ⟨hfirst, hrest⟩ := List.forall_mem_cons.mp h
    have hne : name ≠ entry.1 := fun heq => String.lt_irrefl _ (heq ▸ hfirst)
    have hnot : ¬ name < entry.1 := fun hlt => String.lt_irrefl _ (String.lt_trans hlt hfirst)
    simp [put, hne, hnot, ih hrest]

theorem ofFields?_map {done c : Counts} (h : Ordered (done ++ c)) :
    ofFields? done (c.map fun entry => (entry.1, .natural entry.2)) = some (done ++ c) := by
  induction c generalizing done with
  | nil => simp [ofFields?]
  | cons entry c ih =>
    have hlast : ∀ e ∈ done, e.1 < entry.1 := fun e he =>
      (List.pairwise_append.mp h).2.2 e he entry List.mem_cons_self
    have hput := put_of_forall_lt hlast entry.2
    rw [List.append_cons] at h ⊢
    rw [List.map_cons, ofFields?, natural?, Option.bind_eq_bind, Option.bind_some, hput, ih h]

theorem Ordered.writes {c : Counts} (h : c.Ordered) (hc : ∀ entry ∈ c, entry.2 < naturalLimit) :
    Writes Counts.decode? c c.encode := by
  refine ⟨.object fun f hf => ?_, ofFields?_map h⟩
  obtain ⟨entry, hentry, rfl⟩ := List.mem_map.mp hf
  exact .natural (hc entry hentry)

end Counts

theorem FileReport.Fits.writes {r : FileReport} (h : r.Fits) : Writes FileReport.decode? r r.encode := by
  have hpath := (writes_string r.filePath).required
  have hmigrations := (writes_migrations r.migrations).required
  have hchanged := (writes_bool r.changed).required
  have hwritten := (writes_bool r.written).defaulted false
  have hcounts := (h.ordered.writes h.counts).required
  have hdiagnostics := (writes_arrayOf fun d hd => Diagnostic.writes (h.locations d hd)).required
  have hencode : r.encode = .object (present (FileReport.keys.zip
      [some (.string r.filePath), some (arrayOf Migration.encode r.migrations), some (.bool r.changed),
        some (.bool r.written), some r.counts.encode, some (arrayOf Diagnostic.encode r.diagnostics)])) := rfl
  rw [hencode]
  refine writes_record (fun _ => rfl) (by decide) rfl ⟨hpath.exact, hmigrations.exact, hchanged.exact, hwritten.exact,
    hcounts.exact, hdiagnostics.exact⟩ ?_
  simp [hpath.read_eq, hmigrations.read_eq, hchanged.read_eq, hwritten.read_eq, hcounts.read_eq, hdiagnostics.read_eq]

/-- Every configuration and every report is read back from its text, in either layout. -/
theorem encoded_readBack (l : Layout) :
    (∀ c : Config, Config.parse? (c.encode.print l) = some c) ∧
      ∀ r : FileReport, r.Fits → (JsonValue.parse? (r.encode.print l).toList).bind FileReport.decode? = some r :=
  ⟨fun c => c.writes.parse?_print l, fun _ hr => hr.writes.parse?_print l⟩

theorem encoded_readBack_report : ∃ r : FileReport,
    r.filePath = "a \"b\"/\u0001\n.test.ts" ∧ r.counts = [("", 0), ("stub", naturalLimit - 1)] ∧
    r.diagnostics.map (·.message) = ["\\u0000 😀"] ∧ r.Fits ∧
    (JsonValue.parse? (r.encode.print .pretty).toList).bind FileReport.decode? = some r := by
  let location : Location := { line := 1, column := 2, endLine := some 3 }
  let r : FileReport :=
    { filePath := "a \"b\"/\u0001\n.test.ts", migrations := [.mocks, .mocks], changed := true
      counts := [("", 0), ("stub", naturalLimit - 1)]
      diagnostics := [{ severity := .info, message := "\\u0000 😀", location }] }
  have hcounts : r.counts.Ordered ∧ ∀ entry ∈ r.counts, entry.2 < naturalLimit := by
    unfold Counts.Ordered
    decide
  have hlocation : location.Fits := ⟨by decide, by decide, by decide, by decide⟩
  have hfits : r.Fits := ⟨hcounts.1, hcounts.2, List.forall_mem_singleton.mpr hlocation⟩
  exact ⟨r, rfl, rfl, rfl, hfits, (encoded_readBack .pretty).2 r hfits⟩

end TestMigration
