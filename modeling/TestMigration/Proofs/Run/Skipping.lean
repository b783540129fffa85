import TestMigration.Proofs.Mock.Bindings
import TestMigration.Proofs.Run.Unchanged
import TestMigration.Proofs.Tree.Listed

/-!
# Runs that only skip

When every rule that recognises a chain gives it up and nothing is registered, a run has one thing left that it may
do: the declarations without a value of a variable that holds a sandbox go together when nothing else names the
variable. The place that gives the variable its sandbox names it, so this needs a file that gives it inside of such
a declaration, which only a type can hold.

Main statement: `migrate_skipsOnly_iff`.
-/

namespace TestMigration

/-! ### Discovery -/

/-- The chain is kept, with a remark. -/
def Synthesis.Skips : Synthesis → Prop
  | .skip _ => True
  | _ => False

instance : DecidablePred Synthesis.Skips := fun s =>
  match s with
  | .skip _ => .isTrue trivial
  | .replace _ _ | .removeStatement _ | .removeSetup _ | .removeDeclaration _ _ | .configure _ => .isFalse id

namespace Run

variable {ctx : Context} {migrations : List Migration} {tree : Node}

theorem visit_of_skips {root : Site} (h : ∀ f ∈ found? ctx migrations root, f.2.2.Skips) (r : Run) :
    ∃ remarks, r.visit ctx migrations root = { r with diagnostics := r.diagnostics ++ remarks } := by
  rw [visit_eq]
  cases hfound : found? ctx migrations root with
  | none => exact ⟨[], by simp⟩
  | some f =>
    obtain ⟨m, rule, synthesis⟩ := f
    have hskips : synthesis.Skips := h _ (by rw [hfound]; rfl)
    cases synthesis with
    | skip reason => exact ⟨_, rfl⟩
    | replace | removeStatement | removeSetup | removeDeclaration | configure => exact hskips.elim

/-- Chains that are only skipped leave nothing but remarks. -/
theorem discover_of_skips
    (h : ∀ s ∈ tree.sites, s.isCandidate = true → ∀ f ∈ found? ctx migrations s, f.2.2.Skips) :
    ∃ remarks, discover ctx migrations tree = { diagnostics := remarks } := by
  have hfold (sites : List Site) (hsites : ∀ s ∈ sites, ∀ f ∈ found? ctx migrations s, f.2.2.Skips) (r : Run) :
      ∃ remarks, sites.foldl (visit ctx migrations) r = { r with diagnostics := r.diagnostics ++ remarks } := by
    induction sites generalizing r with
    | nil => exact ⟨[], by simp⟩
    | cons s rest ih =>
      obtain ⟨hs, hrest⟩ := List.forall_mem_cons.mp hsites
      obtain ⟨remarks, hvisit⟩ := visit_of_skips hs r
      obtain ⟨more, hmore⟩ := ih hrest (r.visit ctx migrations s)
      rw [List.foldl_cons, hmore, hvisit]
      exact ⟨remarks ++ more, by rw [List.append_assoc]⟩
  have hsites : ∀ s ∈ tree.sites.filter (·.isCandidate), ∀ f ∈ found? ctx migrations s, f.2.2.Skips := by
    intro s hs
    obtain ⟨hmem, hcandidate⟩ := List.mem_filter.mp hs
    exact h s hmem hcandidate
  obtain ⟨remarks, hremarks⟩ := hfold _ hsites {}
  exact ⟨remarks, by rw [discover, hremarks]; rfl⟩

/-- Where no sandbox goes, the migration of mocks does not touch the file. -/
theorem removeSandboxes_touched_of_edits_eq_nil {r : Run} (h : (r.removeSandboxes ctx tree).edits = []) :
    (r.removeSandboxes ctx tree).touched = r.touched := by
  generalize hdeclarations : sandboxDeclarations ctx tree r = declarations
  have hfold (names : List String) (hnames : ∀ n ∈ names, n ∈ declarations.map (·.2)) (r' : Run)
      (hnil : (names.foldl (removeSandbox ctx tree declarations) r').edits = []) :
      r'.edits = [] ∧ (names.foldl (removeSandbox ctx tree declarations) r').touched = r'.touched := by
    induction names generalizing r' with
    | nil => exact ⟨hnil, rfl⟩
    | cons n rest ih =>
      obtain ⟨hn, hrest⟩ := List.forall_mem_cons.mp hnames
      obtain ⟨hstep, htouched⟩ := ih hrest _ hnil
      obtain ⟨hbefore, hused⟩ := (removeSandbox_edits_eq_nil_iff hn).mp hstep
      have hkept : (r'.removeSandbox ctx tree declarations n).touched = r'.touched := by
        rw [← hbefore] at hused
        unfold removeSandbox
        rw [← sandboxStatements, if_pos hused]
      exact ⟨hbefore, htouched.trans hkept⟩
  have hrun : r.removeSandboxes ctx tree =
      (orderNames (declarations.map (·.2))).foldl (removeSandbox ctx tree declarations) r := by
    rw [← hdeclarations]
    rfl
  rw [hrun] at h ⊢
  exact (hfold _ (fun n hn => mem_orderNames.mp hn) r h).2

end Run

/-! ### The sandboxes that are left -/

/-- Every rule that recognises a chain gives it up, and with registrations enabled nothing is registered. -/
structure Settings.SkipsOnly (settings : Settings) (source : Text) (tree : Node) : Prop where
  chains : ∀ s ∈ tree.sites, s.isCandidate = true →
    ∀ f ∈ Run.found? (settings.context source tree) settings.migrations s, f.2.2.Skips
  registrations : settings.migrations.contains .registration = true →
    ∀ s ∈ tree.sites, s.registration? source = none

instance (settings : Settings) (source : Text) (tree : Node) : Decidable (settings.SkipsOnly source tree) :=
  decidable_of_iff
    ((∀ s ∈ tree.sites, s.isCandidate = true →
        ∀ f ∈ Run.found? (settings.context source tree) settings.migrations s, f.2.2.Skips) ∧
      (settings.migrations.contains .registration = true →
        ∀ s ∈ tree.sites, (s.registration? source).isNone = true))
    ⟨fun h => ⟨h.1, fun he s hs => Option.isNone_iff_eq_none.mp (h.2 he s hs)⟩,
      fun h => ⟨h.chains, fun he s hs => Option.isNone_iff_eq_none.mpr (h.registrations he s hs)⟩⟩

namespace Settings

variable (settings : Settings) (source : Text) (tree : Node)

/-- The declarations without a value of variables that hold sandboxes. -/
def openSandboxes : List (Site × String) :=
  (tree.sites.filterMap (·.uninitialized? source)).filter fun d =>
    (settings.context source tree).mocks.sandboxes.contains d.2

/-- The site lies in no declaration without a value of the sandbox `name`. -/
def OutsideOf (name : String) (s : Site) : Prop :=
  ∀ d ∈ settings.openSandboxes source tree, d.2 = name → d.1.span.contains s.span = false

instance (name : String) (s : Site) : Decidable (settings.OutsideOf source tree name s) :=
  inferInstanceAs (Decidable (∀ d ∈ _, _ → _))

/-- The sites where a variable is given a sandbox, each the name of the variable. -/
def sandboxTargets : List Site :=
  (mockValues tree).filterMap fun (name, value) => do
    let name ← name
    guard ((Chain.walk source value).isSandboxCreation source (settings.context source tree).names)
    return name

variable {settings source tree}

theorem isStillReferenced_open_iff {name : String} :
    isStillReferenced source tree name
        ((Run.sandboxStatements (settings.openSandboxes source tree) name).map (·.span)) [] = true ↔
      ∃ s ∈ tree.sites, s.isReference = true ∧ s.text source = name ∧ settings.OutsideOf source tree name s := by
  have hgone (s : Site) :
      isGone ((Run.sandboxStatements (settings.openSandboxes source tree) name).map (·.span)) [] s.span = false ↔
        settings.OutsideOf source tree name s := by
    simp only [isGone, Run.sandboxStatements, Edit.covers, List.any_nil, Bool.or_false, List.any_map,
      List.any_eq_false, List.mem_filter, OutsideOf, Function.comp_apply, and_imp, beq_iff_eq,
      Bool.not_eq_true]
  rw [isStillReferenced, List.any_eq_true]
  refine exists_congr fun s => and_congr_right fun _ => ?_
  simp only [Bool.and_eq_true, Bool.not_eq_true', beq_iff_eq, hgone, and_assoc]

/-- What is given a sandbox is a use of its name. -/
theorem reference_of_mem_sandboxTargets {s : Site} (h : s ∈ settings.sandboxTargets source tree) :
    s ∈ tree.sites ∧ s.isReference = true := by
  obtain ⟨⟨name, value⟩, hvalue, hname⟩ := List.mem_filterMap.mp h
  simp only [Option.bind_eq_bind, Option.bind_eq_some_iff] at hname
  obtain ⟨s', rfl, -, -, heq⟩ := hname
  cases heq
  obtain ⟨giver, hgiver, hgives⟩ := List.mem_filterMap.mp hvalue
  have hassigned {target given : Role}
      (hs : (do
        let name ← giver.child? target
        let v ← giver.child? given
        guard (name.kind == .identifier)
        return (some name, v.core) : Option (Option Site × Site)) = some (some s, value)) :
      s ∈ tree.sites ∧ s.isReference = true := by
    simp only [Option.bind_eq_bind, Option.bind_eq_some_iff] at hs
    obtain ⟨name, hname, v, -, _, hkind, heq⟩ := hs
    cases heq
    have hident : (s.kind == .identifier) = true := by
      by_contra hno
      simp [guard, hno] at hkind
    refine ⟨Node.mem_sitesBelow_trans (Site.mem_children_of_child? hname).1 hgiver, ?_⟩
    rw [Site.isReference, hident, Bool.true_or]
  dsimp only at hgives
  split at hgives
  · exact hassigned hgives
  · exact hassigned hgives
  · cases hgives
  · cases hgives

namespace SkipsOnly

theorem discovered_eq (h : settings.SkipsOnly source tree) :
    ∃ remarks, settings.discovered source tree = { diagnostics := remarks } :=
  Run.discover_of_skips h.chains

theorem sandboxes_eq (h : settings.SkipsOnly source tree) :
    settings.sandboxes source tree = settings.openSandboxes source tree := by
  obtain ⟨remarks, hremarks⟩ := h.discovered_eq
  rw [sandboxes, hremarks]
  rfl

theorem not_uses (h : settings.SkipsOnly source tree)
    (henabled : settings.migrations.contains .registration = true) (name : String) :
    ¬ RegistrationPass.Uses source tree name := by
  rintro ⟨s, hs, callee, hcallee, -⟩
  rw [h.registrations henabled s hs] at hcallee
  cases hcallee

/-- As long as no sandbox goes, no declaration of a legacy module is asked to go. -/
theorem request_legacy (h : settings.SkipsOnly source tree) (hedits : (settings.unboxed source tree).edits = []) :
    (settings.request source tree).legacy = [] := by
  obtain ⟨remarks, hremarks⟩ := h.discovered_eq
  have hunboxed : (settings.unboxed source tree).touched = [] := by
    rw [unboxed, Run.removeSandboxes_touched_of_edits_eq_nil hedits, hremarks]
    rfl
  have hcollected : (settings.collected source tree).touched = [] := by
    refine List.eq_nil_iff_forall_not_mem.mpr fun m hm => ?_
    rw [collected, Run.removeSetup_touched] at hm
    rcases Run.register_touched hm with hm | ⟨-, henabled⟩
    · rw [hunboxed] at hm
      cases hm
    · -- the pass finds nothing that is registered, so it does not touch the file either
      have hfound : ¬ (RegistrationPass.ofTree source tree (settings.unboxed source tree).edits).usage.found = true := by
        intro hfound
        have hnone : (RegistrationPass.ofTree source tree (settings.unboxed source tree).edits).edits = [] := by
          refine RegistrationPass.ofTree_edits_eq_nil_iff.mpr ⟨hedits, fun s hs callee hcallee => ?_⟩
          rw [h.registrations henabled s hs] at hcallee
          cases hcallee
        obtain ⟨name, hname⟩ := (RegistrationPass.ofTree_found_iff hnone).mp hfound
        exact h.not_uses henabled name hname
      rw [registered, Run.register, if_pos henabled, if_neg hfound] at hm
      rw [hunboxed] at hm
      cases hm
  show (List.flatMap _ (Migration.declared.filter (settings.collected source tree).touched.contains)).filter _ = []
  rw [hcollected]
  simp

theorem settled_iff (h : settings.SkipsOnly source tree) : settings.Settled source tree ↔
    ∀ d ∈ settings.openSandboxes source tree, ∃ s ∈ tree.sites, s.isReference = true ∧ s.text source = d.2 ∧
      settings.OutsideOf source tree d.2 s := by
  obtain ⟨remarks, hremarks⟩ := h.discovered_eq
  constructor
  · intro hsettled d hd
    have hused := hsettled.sandboxes d (by rw [h.sandboxes_eq]; exact hd)
    rw [h.sandboxes_eq] at hused
    exact isStillReferenced_open_iff.mp hused
  · intro hopen
    have hchains : ∀ s ∈ tree.sites, s.isCandidate = true →
        Run.Waits (settings.context source tree) settings.migrations s := by
      intro s hs hcandidate m rule synthesis hfound
      have hskips := h.chains s hs hcandidate _ (by rw [hfound]; rfl)
      cases synthesis with
      | skip reason => trivial
      | replace | removeStatement | removeSetup | removeDeclaration | configure => exact hskips.elim
    have hstubs : ∀ p ∈ (settings.discovered source tree).plans.withoutOverriding source,
        p.2.skipped.isSome = true := by
      rw [hremarks]
      simp [Plans.withoutOverriding]
    have hsandboxes : ∀ d ∈ settings.sandboxes source tree, isStillReferenced source tree d.2
        ((Run.sandboxStatements (settings.sandboxes source tree) d.2).map (·.span)) [] = true := by
      rw [h.sandboxes_eq]
      exact fun d hd => isStillReferenced_open_iff.mpr (hopen d hd)
    have hlegacy := h.request_legacy (unboxed_edits_eq_nil_iff.mpr ⟨hchains, hstubs, hsandboxes⟩)
    refine ⟨hchains, hstubs, hsandboxes, fun he s hs callee hcallee => ?_, fun he name huses => ?_, ?_, ?_⟩
    · rw [h.registrations he s hs] at hcallee
      cases hcallee
    · exact absurd huses (h.not_uses he name)
    · rw [hremarks]
      exact Or.inl rfl
    · intro d hd hcontains
      rw [hlegacy] at hcontains
      cases hcontains

end SkipsOnly

end Settings

/-- A run that only skips returns the file as it is exactly when every variable that holds a sandbox and is declared
without a value is named outside of these declarations; it is where it is given a sandbox outside of them. -/
theorem migrate_skipsOnly_iff (settings : Settings) (path text : String) {tree : Node}
    (hparse : Grammar.parse (Grammar.ofPath path) text.toList = some tree)
    (h : settings.SkipsOnly text.toList tree) :
    ((∃ o, migrate settings path text = some o ∧ o.Unchanged text) ↔
      ∀ d ∈ settings.openSandboxes text.toList tree, ∃ s ∈ tree.sites, s.isReference = true ∧
        s.text text.toList = d.2 ∧ settings.OutsideOf text.toList tree d.2 s) ∧
    ((∀ d ∈ settings.openSandboxes text.toList tree, ∃ s ∈ settings.sandboxTargets text.toList tree,
        s.text text.toList = d.2 ∧ settings.OutsideOf text.toList tree d.2 s) →
      ∃ o, migrate settings path text = some o ∧ o.Unchanged text) := by
  have hsettled : (∃ o, migrate settings path text = some o ∧ o.Unchanged text) ↔
      settings.Settled text.toList tree := by
    rw [migrate_unchanged_iff, hparse]
    simp
  rw [hsettled, h.settled_iff]
  refine ⟨Iff.rfl, fun hgiven d hd => ?_⟩
  obtain ⟨s, hs, hname, houtside⟩ := hgiven d hd
  obtain ⟨hsite, hreference⟩ := Settings.reference_of_mem_sandboxTargets hs
  exact ⟨s, hsite, hreference, hname, houtside⟩

set_option maxRecDepth 100000 in
theorem migrate_skipsOnly_kept : ∃ text tree,
    text = "const sinon = require('sinon');\nlet sandbox;\nsandbox = (sinon.createSandbox());\nsinon.stub(api, name);\n" ∧
    Grammar.parse (Grammar.ofPath "a.test.js") text.toList = some tree ∧
    Settings.SkipsOnly {} text.toList tree ∧ (Settings.openSandboxes {} text.toList tree).length = 1 ∧
    ∃ o, migrate {} "a.test.js" text = some o ∧ o.Unchanged text := by
  obtain ⟨text, htext⟩ : ∃ text, text =
      "const sinon = require('sinon');\nlet sandbox;\nsandbox = (sinon.createSandbox());\nsinon.stub(api, name);\n" :=
    ⟨_, rfl⟩
  have hfile : (Grammar.parse (Grammar.ofPath "a.test.js") text.toList).any (fun tree =>
      Settings.SkipsOnly {} text.toList tree ∧ (Settings.openSandboxes {} text.toList tree).length = 1 ∧
      ∀ d ∈ Settings.openSandboxes {} text.toList tree, ∃ s ∈ Settings.sandboxTargets {} text.toList tree,
        s.text text.toList = d.2 ∧ Settings.OutsideOf {} text.toList tree d.2 s) = true := by
    rw [htext]
    decide +kernel
  obtain ⟨tree, hparse, hfile⟩ := (Option.any_eq_true _ _).mp hfile
  obtain ⟨hskips, hopen, hgiven⟩ := of_decide_eq_true hfile
  exact ⟨text, tree, htext, hparse, hskips, hopen, (migrate_skipsOnly_iff {} "a.test.js" text hparse hskips).2 hgiven⟩

set_option maxRecDepth 100000 in
/-- A variable that is given its sandbox inside of its own declaration goes with it. -/
theorem migrate_skipsOnly_changed : ¬ ∀ (settings : Settings) (path text : String) (tree : Node),
    Grammar.parse (Grammar.ofPath path) text.toList = some tree → settings.SkipsOnly text.toList tree →
      ∃ o, migrate settings path text = some o ∧ o.output = text ∧ o.changed = false ∧ o.counts = [] := by
  intro h
  obtain ⟨text, htext⟩ : ∃ text, text =
      "let sandbox: \x7b [sandbox = sinon.createSandbox()]: number \x7d;\n" := ⟨_, rfl⟩
  have hfile : (Grammar.parse (Grammar.ofPath "a.test.js") text.toList).any (fun tree =>
      Settings.SkipsOnly {} text.toList tree) = true := by
    rw [htext]
    decide +kernel
  have hchanged : (migrate {} "a.test.js" text).all (·.changed) = true := by
    rw [htext]
    decide +kernel
  obtain ⟨tree, hparse, hfile⟩ := (Option.any_eq_true _ _).mp hfile
  obtain ⟨o, ho, -, hsame, -⟩ := h {} "a.test.js" text tree hparse (of_decide_eq_true hfile)
  rw [ho] at hchanged
  simp [hsame] at hchanged

end TestMigration
