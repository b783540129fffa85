import TestMigration.Proofs.Grammar.Parsed
import TestMigration.Proofs.Tree.Nested
import TestMigration.Scope

/-!
# Keys of stub configurations

The registration call around a configuration enters its key by its title and by where it starts. In a parsed file no
two registration calls start at the same byte, so the key tells all of them apart (`Site.scopeKey_eq_iff`). Outside of
all calls the key has the empty title and the offset zero, which a call may have too.
-/

namespace TestMigration

variable {source : Text} {tree : Node} {s t c : Site}

/-! ### Registration calls -/

/-- The callee of a registration call is a name, or a name with a modifier. -/
theorem Site.callee_of_registration? {callee : Registration.Callee} (h : s.registration? source = some callee) :
    s.kind = .call ∧ ∃ f, s.node.child? .callee = some f ∧
      (f.kind = .identifier ∨ f.kind = .member ∧ ∃ o, f.child? .object = some o ∧ o.kind = .identifier) := by
  unfold registration? at h
  obtain ⟨_, hcall, h⟩ := Option.bind_eq_some_iff.mp h
  obtain ⟨_, hcallee, h⟩ := Option.bind_eq_some_iff.mp h
  obtain ⟨f, hf, rfl⟩ := Option.map_eq_some_iff.mp hcallee
  have hcall : s.kind = .call := by simpa using hcall
  refine ⟨hcall, f, hf, ?_⟩
  split at h
  · rename_i hkind
    exact .inl hkind
  · rename_i hkind
    obtain ⟨_, hobject, h⟩ := Option.bind_eq_some_iff.mp h
    obtain ⟨o, ho, rfl⟩ := Option.map_eq_some_iff.mp hobject
    obtain ⟨_, -, h⟩ := Option.bind_eq_some_iff.mp h
    obtain ⟨_, hname, -⟩ := Option.bind_eq_some_iff.mp h
    have hname : ((s.down f).down o).kind = .identifier := by simpa using hname
    exact .inr ⟨hkind, o, ho, hname⟩
  · cases h

/-- What begins with a registration call and stands below it is no call. -/
theorem Site.eq_of_registration? {callee : Registration.Callee} (h : s.node.Orderly)
    (hcallee : s.registration? source = some callee) (ht : t ∈ s.sites) (hkind : t.kind = .call)
    (hstart : t.node.start = s.node.start) : t = s := by
  -- a name has no calls below
  have hname : ∀ {n : Node} {above : List Node}, n.Orderly → n.kind = .identifier → t ∉ n.sitesBelow above := by
    intro n above hn hidentifier ht
    rcases hn.isComment_below_identifier hidentifier ht with rfl | hcomment
    · exact absurd (hkind.symm.trans hidentifier) (by decide)
    · exact absurd (hkind.symm.trans (eq_of_beq hcomment)) (by decide)
  obtain ⟨hcall, f, hf, hfkind⟩ := callee_of_registration? hcallee
  have hforderly : f.Orderly := h.child_orderly (List.mem_of_find?_eq_some hf)
  have hfpart : f.isComment = false := by
    rcases hfkind with hfkind | ⟨hfkind, -⟩ <;> simp [Node.isComment, hfkind]
  have hhead : Role.callee ∈ s.node.kind.head? := by
    rw [show s.node.kind = .call from hcall]
    rfl
  rcases h.site_head hhead hf hfpart ht hstart with rfl | ⟨ht, hstart⟩
  · rfl
  rcases hfkind with hfkind | ⟨hfkind, o, ho, hokind⟩
  · exact absurd ht (hname hforderly hfkind)
  · have hopart : o.isComment = false := by simp [Node.isComment, hokind]
    have hohead : Role.object ∈ f.kind.head? := by
      rw [hfkind]
      rfl
    rcases hforderly.site_head hohead ho hopart ht hstart with rfl | ⟨ht, -⟩
    · exact absurd (hkind.symm.trans hfkind) (by decide)
    · exact absurd ht (hname (hforderly.child_orderly (List.mem_of_find?_eq_some ho)) hokind)

/-- Registration calls of a file that start at the same byte are the same. -/
theorem Site.registration?_inj {callee callee' : Registration.Callee} (h : tree.Orderly) (hs : s ∈ tree.sites)
    (ht : t ∈ tree.sites) (hscallee : s.registration? source = some callee)
    (htcallee : t.registration? source = some callee') (hstart : s.node.start = t.node.start) : s = t := by
  -- a call is not empty, since its callee is not
  have hlt : ∀ {u : Site} {callee : Registration.Callee}, u ∈ tree.sites → u.registration? source = some callee →
      u.node.start < u.node.stop := by
    intro u callee hu hcallee
    obtain ⟨-, f, hf, -⟩ := callee_of_registration? hcallee
    have hchild := (h.site_orderly hu).child (List.mem_of_find?_eq_some hf)
    omega
  have hslt := hlt hs hscallee
  have htlt := hlt ht htcallee
  rcases h.nested hs ht (by omega) (by omega) with ht' | hs'
  · exact (eq_of_registration? (h.site_orderly hs) hscallee ht' (callee_of_registration? htcallee).1 hstart.symm).symm
  · exact eq_of_registration? (h.site_orderly ht) htcallee hs' (callee_of_registration? hscallee).1 hstart

/-! ### Keys -/

/-- The nearest named test or suite around a site. -/
def Site.scopeCall? (s : Site) (source : Text) : Option Site := (s.enclosing? source).map (·.1)

/-- A key says of the call what it says outside of all calls. -/
def Site.Unmarked (s : Site) (source : Text) : Prop := s.title? source = some "" ∧ s.span.start = 0

theorem enclosingGo_eq_some {above : List Node} {title : String} (h : enclosingGo source above = some (c, title)) :
    c.title? source = some title := by
  induction above with
  | nil => cases h
  | cons p rest ih =>
    unfold enclosingGo at h
    split at h
    · rename_i htitle
      cases h
      exact htitle
    · exact ih h

theorem enclosingGo_within {above : List Node} {title : String} (hs : s.Within tree) (habove : s.above = above)
    (h : enclosingGo source above = some (c, title)) : c.Within tree := by
  induction above generalizing s with
  | nil => cases h
  | cons p rest ih =>
    have hp : (⟨p, rest⟩ : Site).Within tree := hs.parent? (by rw [Site.parent?, habove])
    unfold enclosingGo at h
    split at h
    · cases h
      exact hp
    · exact ih hp rfl h

/-- The call around a site is a site of the tree with a title, and both enter the key. -/
theorem Site.scopeCall?_spec (hs : s ∈ tree.sites) (h : s.scopeCall? source = some c) :
    c ∈ tree.sites ∧ ∃ title, c.title? source = some title ∧
      ∀ subject member, s.scopeKey subject member source = ⟨subject, member, title, c.span.start⟩ := by
  obtain ⟨⟨c, title⟩, henclosing, rfl⟩ := Option.map_eq_some_iff.mp h
  refine ⟨enclosingGo_within hs rfl henclosing, title, enclosingGo_eq_some henclosing, ?_⟩
  intro subject member
  unfold scopeKey
  rw [henclosing]

theorem Site.scopeKey_of_scopeCall?_none (h : s.scopeCall? source = none) (subject member : String) :
    s.scopeKey subject member source = ⟨subject, member, "", 0⟩ := by
  unfold scopeKey
  rw [Option.map_eq_none_iff.mp h]

theorem Site.title?_inj {title title' : String} (h : tree.Orderly) (hs : s ∈ tree.sites) (ht : t ∈ tree.sites)
    (hstitle : s.title? source = some title) (httitle : t.title? source = some title')
    (hstart : s.span.start = t.span.start) : s = t := by
  obtain ⟨callee, hscallee, -⟩ := Option.bind_eq_some_iff.mp hstitle
  obtain ⟨callee', htcallee, -⟩ := Option.bind_eq_some_iff.mp httitle
  exact registration?_inj h hs ht hscallee htcallee hstart

/-- The keys of two configurations are the same if they concern the same member inside the same call. Outside of all
calls and inside of a call without a title at the very beginning of the file they are the same, too. -/
theorem Site.scopeKey_eq_iff {grammar : Grammar} (h : Grammar.parse grammar source = some tree) (hs : s ∈ tree.sites)
    (ht : t ∈ tree.sites) {subject member subject' member' : String} :
    s.scopeKey subject member source = t.scopeKey subject' member' source ↔
      subject = subject' ∧ member = member' ∧ (s.scopeCall? source = t.scopeCall? source ∨
        (∀ c ∈ s.scopeCall? source, c.Unmarked source) ∧ ∀ c ∈ t.scopeCall? source, c.Unmarked source) := by
  have horderly := Grammar.parse_orderly h
  cases hscall : s.scopeCall? source with
  | none =>
    have hskey := scopeKey_of_scopeCall?_none hscall subject member
    cases htcall : t.scopeCall? source with
    | none =>
      rw [hskey, scopeKey_of_scopeCall?_none htcall]
      simp
    | some d =>
      obtain ⟨-, title, htitle, htkey⟩ := scopeCall?_spec ht htcall
      rw [hskey, htkey]
      simp [Unmarked, htitle, eq_comm]
  | some c =>
    obtain ⟨hc, title, htitle, hskey⟩ := scopeCall?_spec hs hscall
    cases htcall : t.scopeCall? source with
    | none =>
      rw [hskey, scopeKey_of_scopeCall?_none htcall]
      simp [Unmarked, htitle]
    | some d =>
      obtain ⟨hd, title', htitle', htkey⟩ := scopeCall?_spec ht htcall
      rw [hskey, htkey]
      have hinj := title?_inj horderly hc hd htitle htitle'
      simp only [ScopeKey.mk.injEq, Option.some.injEq, Option.mem_def, forall_eq']
      refine and_congr_right fun _ => and_congr_right fun _ => ⟨fun hkey => .inl (hinj hkey.2), ?_⟩
      rintro (rfl | ⟨hunmarked, hunmarked'⟩)
      · exact ⟨Option.some.inj (htitle.symm.trans htitle'), rfl⟩
      · obtain rfl := hinj (hunmarked.2.trans hunmarked'.2.symm)
        exact ⟨Option.some.inj (htitle.symm.trans htitle'), rfl⟩

set_option maxRecDepth 100000 in
/-- Two tests of one title have different keys. -/
theorem Site.scopeKey_ne_of_sameTitle : ∃ (text : String) (tree : Node), ∃ s ∈ tree.sites, ∃ t ∈ tree.sites,
    Grammar.parse .plain text.toList = some tree ∧ s.text text.toList = "f()" ∧ t.text text.toList = "f()" ∧
    (s.scopeKey "api" "get" text.toList).testName = (t.scopeKey "api" "get" text.toList).testName ∧
    s.scopeKey "api" "get" text.toList ≠ t.scopeKey "api" "get" text.toList := by
  obtain ⟨text, htext⟩ : ∃ text, text = "it('a', () => f());\nit('a', () => f());\n" := ⟨_, rfl⟩
  have hfile : (Grammar.parse .plain text.toList).any (fun tree =>
      tree.sites.any fun s => tree.sites.any fun t =>
        s.text text.toList == "f()" && t.text text.toList == "f()" &&
        (s.scopeKey "api" "get" text.toList).testName == (t.scopeKey "api" "get" text.toList).testName &&
        (s.scopeCall? text.toList).map (·.span.start) == some 20 &&
        (t.scopeCall? text.toList).map (·.span.start) == some 0) = true := by
    rw [htext]
    decide +kernel
  obtain ⟨tree, hparse, hfile⟩ := (Option.any_eq_true _ _).mp hfile
  obtain ⟨s, hs, hfile⟩ := List.any_eq_true.mp hfile
  obtain ⟨t, ht, hfile⟩ := List.any_eq_true.mp hfile
  simp only [Bool.and_eq_true, beq_iff_eq] at hfile
  obtain ⟨⟨⟨⟨hstext, httext⟩, htitle⟩, hscall⟩, htcall⟩ := hfile
  refine ⟨text, tree, s, hs, t, ht, hparse, hstext, httext, htitle, fun hkey => ?_⟩
  rcases ((Site.scopeKey_eq_iff hparse hs ht).mp hkey).2.2 with hcall | ⟨hunmarked, -⟩
  · rw [hcall, htcall] at hscall
    cases hscall
  · obtain ⟨c, hc, hstart⟩ := Option.map_eq_some_iff.mp hscall
    exact absurd (hstart.symm.trans (hunmarked c hc).2) (by decide)

set_option maxRecDepth 100000 in
/-- Inside of a test without a title at the very beginning of the file, a configuration has the key of one outside
of all tests. -/
theorem Site.scopeKey_outside_eq : ¬ ∀ (grammar : Grammar) (text : String) (tree : Node),
    Grammar.parse grammar text.toList = some tree → ∀ s ∈ tree.sites, ∀ t ∈ tree.sites,
    ∀ subject member subject' member' : String,
      s.scopeKey subject member text.toList = t.scopeKey subject' member' text.toList ↔
        subject = subject' ∧ member = member' ∧ s.scopeCall? text.toList = t.scopeCall? text.toList := by
  intro h
  obtain ⟨text, htext⟩ : ∃ text, text = "it('', () => \x7b f(); \x7d);\nf();\n" := ⟨_, rfl⟩
  have hfile : (Grammar.parse .plain text.toList).any (fun tree =>
      tree.sites.any fun s => tree.sites.any fun t =>
        (s.scopeCall? text.toList).isSome && (t.scopeCall? text.toList).isNone &&
        s.scopeKey "api" "get" text.toList == t.scopeKey "api" "get" text.toList) = true := by
    rw [htext]
    decide +kernel
  obtain ⟨tree, hparse, hfile⟩ := (Option.any_eq_true _ _).mp hfile
  obtain ⟨s, hs, hfile⟩ := List.any_eq_true.mp hfile
  obtain ⟨t, ht, hfile⟩ := List.any_eq_true.mp hfile
  simp only [Bool.and_eq_true, beq_iff_eq] at hfile
  obtain ⟨⟨hinside, houtside⟩, hkey⟩ := hfile
  have hcall := ((h .plain text tree hparse s hs t ht "api" "get" "api" "get").mp hkey).2.2
  rw [hcall, Option.isNone_iff_eq_none.mp houtside] at hinside
  cases hinside

end TestMigration
