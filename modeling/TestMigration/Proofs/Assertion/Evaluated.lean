import TestMigration.Proofs.Assertion.Composed
import TestMigration.Proofs.Assertion.Negation
import TestMigration.Proofs.Tree.Chained

/-!
# What assertions evaluate

A generated expression copies spans of the file, and a span that it copies twice is evaluated twice. `Expr.Uses` says
which spans an expression copies: those of the value under test, so many times, and some of the arguments, each once.
Every assertion copies its value once, except for one that ends with `within`, whose two comparisons both need it.

Main statement: `Assertion.Family.build_uses`.
-/

namespace TestMigration

/-! ### Spans of generated code -/

@[simp] theorem sources_embed (s : Site) : s.embed.sources = [s.span] := rfl

@[simp] theorem sourcesAll_embed (args : List Site) :
    Expr.sourcesAll (args.map Site.embed) = args.map Site.span := by
  induction args with
  | nil => rfl
  | cons s rest ih => rw [List.map_cons, Expr.sourcesAll, ih, List.map_cons]; rfl

@[simp] theorem sources_callPath (path : String) (args : List Expr) :
    (Expr.callPath path args).sources = Expr.sourcesAll args := rfl

@[simp] theorem sources_method (e : Expr) (name : String) (args : List Expr) :
    (e.method name args).sources = e.sources ++ Expr.sourcesAll args := rfl

@[simp] theorem sources_assertCall (ctx : Context) (method : String) (args : List Expr) :
    (assertCall ctx method args).sources = Expr.sourcesAll args := rfl

@[simp] theorem sources_predicate (ctx : Context) (e : Expr) (negated : Bool) :
    (predicate ctx e negated).sources = e.sources := by
  unfold predicate
  split <;> simp [Expr.sourcesAll, Expr.sources]

@[simp] theorem sources_property (e : Expr) (name : String) : (e.property name).sources = e.sources := by
  unfold Expr.property
  split <;> simp [Expr.sources]

@[simp] theorem sources_optionalProperty (e : Expr) (name : String) :
    (e.optionalProperty name).sources = e.sources := by
  unfold Expr.optionalProperty
  split <;> simp [Expr.sources]

theorem sources_foldl_optionalProperty (segments : List String) (e : Expr) :
    (segments.foldl Expr.optionalProperty e).sources = e.sources := by
  induction segments generalizing e with
  | nil => rfl
  | cons name segments ih => rw [List.foldl_cons, ih, sources_optionalProperty]

/-- The expression copies the spans of a value so many times, and besides them some of the arguments, each once. -/
def Expr.Uses (times : Nat) (value : List Span) (args : List Site) (e : Expr) : Prop :=
  ∃ used : List Site, used.Sublist args ∧
    e.sources.Perm ((List.replicate times value).flatten ++ used.map Site.span)

namespace Expr.Uses

variable {times : Nat} {value : List Span} {args args' : List Site} {e : Expr}

theorem mono (h : e.Uses times value args) (hsub : args.Sublist args') : e.Uses times value args' := by
  obtain ⟨used, hused, hperm⟩ := h
  exact ⟨used, hused.trans hsub, hperm⟩

theorem once {used : List Site} (hused : used.Sublist args) (h : e.sources.Perm (value ++ used.map Site.span)) :
    e.Uses 1 value args :=
  ⟨used, hused, by simpa using h⟩

theorem mem_sites {examined : Option Site} {used : List Site} {p : Span}
    (hperm : e.sources.Perm ((List.replicate times (examined.toList.map Site.span)).flatten ++ used.map Site.span))
    (hp : p ∈ e.sources) : ∃ s ∈ examined.toList ++ used, s.span = p := by
  rcases List.mem_append.mp (hperm.mem_iff.mp hp) with hp | hp
  · obtain ⟨spans, hspans, hp⟩ := List.mem_flatten.mp hp
    rw [List.eq_of_mem_replicate hspans] at hp
    obtain ⟨s, hs, rfl⟩ := List.mem_map.mp hp
    exact ⟨s, List.mem_append_left _ hs, rfl⟩
  · obtain ⟨s, hs, rfl⟩ := List.mem_map.mp hp
    exact ⟨s, List.mem_append_right _ hs, rfl⟩

/-- Of sites that share no byte, the examined one is copied so many times and all others at most once. No copied span
reaches into another. -/
theorem sources_of_separate {examined : Option Site} (h : e.Uses times (examined.toList.map Site.span) args)
    (hseparate : Site.Separate (examined.toList ++ args)) :
    (∀ s ∈ examined, e.sources.count s.span = times) ∧
    (∀ p, (∀ s ∈ examined, p ≠ s.span) → e.sources.count p ≤ 1) ∧
    ∀ p ∈ e.sources, ∀ q ∈ e.sources, p = q ∨ p.stop ≤ q.start ∨ q.stop ≤ p.start := by
  obtain ⟨used, hused, hperm⟩ := h
  have hseparate : Site.Separate (examined.toList ++ used) := hseparate.sublist (hused.append_left _)
  have hnodup : (examined.toList.map Site.span ++ used.map Site.span).Nodup := by
    rw [← List.map_append]
    exact hseparate.spans_nodup
  refine ⟨fun s hs => ?_, fun p hp => ?_, fun p hp q hq => ?_⟩
  · obtain rfl := Option.mem_def.mp hs
    have hother : s.span ∉ used.map Site.span := by
      have hcons : (s.span :: used.map Site.span).Nodup := by simpa using hnodup
      exact (List.nodup_cons.mp hcons).1
    rw [hperm.count_eq, List.count_append, List.count_eq_zero.mpr hother]
    simp
  · have hexamined : p ∉ (List.replicate times (examined.toList.map Site.span)).flatten := by
      intro hmem
      obtain ⟨spans, hspans, hmem⟩ := List.mem_flatten.mp hmem
      rw [List.eq_of_mem_replicate hspans] at hmem
      obtain ⟨s, hs, heq⟩ := List.mem_map.mp hmem
      exact hp s (by simpa using hs) heq.symm
    rw [hperm.count_eq, List.count_append, List.count_eq_zero.mpr hexamined, Nat.zero_add]
    exact List.nodup_iff_count.mp (List.nodup_append.mp hnodup).2.1 p
  · obtain ⟨s, hs, rfl⟩ := mem_sites hperm hp
    obtain ⟨t, ht, rfl⟩ := mem_sites hperm hq
    by_cases hst : s = t
    · exact .inl (congrArg Site.span hst)
    · have : Std.Symm Site.Apart := ⟨fun _ _ h => h.symm⟩
      exact .inr (hseparate.apart.forall hs ht hst)

end Expr.Uses

/-! ### Assertions -/

namespace View

/-- The last word calls `within` with two bounds. -/
def isBounded (v : View) : Bool :=
  v.words.getLast?.any fun w => w.isCall && w.name == "within" && w.args.length == 2

/-- How often an assertion evaluates its value: two bounds are compared with it one by one. -/
def evaluations (v : View) : Nat := if v.isBounded then 2 else 1

/-- The expression copies the value of the view as often as the assertion evaluates it, and arguments of its words. -/
def Uses (v : View) (e : Expr) : Prop := e.Uses v.evaluations v.value.sources (v.words.flatMap Step.args)

variable {v : View} {w : Step} {e : Expr} {names : List String} {least most : Nat}

theorem words_of_single? (h : v.single? = some w) : v.words = [w] := by
  unfold single? at h
  split at h
  · cases h
    assumption
  · cases h

theorem words_of_called? (h : v.called? names least most = some w) :
    v.words = [w] ∧ w.isCall = true ∧ w.name ∈ names ∧ least ≤ w.args.length ∧ w.args.length ≤ most := by
  obtain ⟨hsingle, hcalled⟩ := Option.filter_eq_some_iff.mp h
  exact ⟨words_of_single? hsingle, by simpa [and_assoc] using hcalled⟩

theorem uses_of_word (used : List Site) (hwords : v.words = [w]) (hplain : w.name ≠ "within" ∨ w.args.length ≠ 2)
    (hused : used.Sublist w.args) (h : e.sources.Perm (v.value.sources ++ used.map Site.span)) : v.Uses e := by
  have honce : v.evaluations = 1 := by
    rcases hplain with hplain | hplain <;> simp [evaluations, isBounded, hwords, hplain]
  rw [Uses, honce, hwords, List.flatMap_singleton]
  exact .once hused h

theorem uses_of_called? {used : List Site} (hword : v.called? names least most = some w)
    (hnames : "within" ∉ names) (hused : used.Sublist w.args)
    (h : e.sources.Perm (v.value.sources ++ used.map Site.span)) : v.Uses e := by
  obtain ⟨hwords, -, hname, -⟩ := words_of_called? hword
  exact uses_of_word used hwords (.inl fun heq => hnames (heq ▸ hname)) hused h

theorem uses_of_bare? (hword : v.bare? names = some w) (h : e.sources = v.value.sources) : v.Uses e := by
  obtain ⟨hwords, hargs⟩ := Assertion.words_of_bare? hword
  exact uses_of_word [] hwords (.inr (by simp [hargs])) (List.nil_sublist _) (by simp [h])

end View

namespace Assertion

variable {ctx : Context} {v : View} {e : Expr}

theorem deepEquality_uses (h : deepEquality ctx v = some e) : v.Uses e := by
  simp only [deepEquality, Option.bind_eq_bind, Option.bind_eq_some_iff] at h
  obtain ⟨word, hword, heq⟩ := h
  cases heq
  have hperm : (assertCall ctx (comparison true v.negated) (v.value :: word.args.map Site.embed)).sources.Perm
      (v.value.sources ++ word.args.map Site.span) := by simp [Expr.sourcesAll]
  simp only [Option.orElse_eq_orElse, Option.orElse_eq_or, Option.or_eq_some_iff] at hword
  rcases hword with hword | ⟨-, hword⟩
  · exact View.uses_of_called? hword (by decide) (List.Sublist.refl _) hperm
  · exact View.uses_of_called? (Option.eq_some_of_filter_eq_some hword) (by decide) (List.Sublist.refl _) hperm

theorem strictEquality_uses (h : strictEquality ctx v = some e) : v.Uses e := by
  simp only [strictEquality, Option.bind_eq_bind, Option.bind_eq_some_iff] at h
  obtain ⟨-, -, word, hword, heq⟩ := h
  cases heq
  exact View.uses_of_called? hword (by decide) (List.Sublist.refl _) (by simp [Expr.sourcesAll])

theorem existence_uses (h : existence ctx v = some e) : v.Uses e := by
  simp only [existence, Option.bind_eq_bind, Option.bind_eq_some_iff] at h
  obtain ⟨word, hword, h⟩ := h
  have hexists : (exists' ctx v).sources = v.value.sources := by
    unfold exists'
    split <;> simp [Expr.sources, Expr.sourcesAll]
  refine View.uses_of_bare? hword ?_
  split at h
  · cases h
    exact hexists
  · cases h
    exact hexists
  · cases h
    simp [Expr.sources, Expr.sourcesAll]
  · cases h
    simp [Expr.sourcesAll]
  · cases h
    simp [Expr.sources, Expr.sourcesAll]

theorem boolean_uses (h : boolean ctx v = some e) : v.Uses e := by
  simp only [boolean, Option.bind_eq_bind, Option.bind_eq_some_iff] at h
  obtain ⟨word, hword, h⟩ := h
  refine View.uses_of_bare? hword ?_
  split at h
  · split at h
    · cases h
    · cases h
      simp [Expr.sourcesAll]
  · cases h
    simp [Expr.sources, Expr.sourcesAll]

/-! ### Words that look into a value -/

theorem nestedPath?_word {segments : List String} {expected : Option Expr}
    (h : nestedPath? ctx v = some (segments, expected)) : ∃ w, v.words = [w] ∧ w.name ≠ "within" ∧
      ∃ used : List Site, used.Sublist w.args ∧ expected.toList = used.map Site.embed := by
  unfold nestedPath? at h
  split at h
  · rename_i word hword
    obtain ⟨hwords, -, hname, -⟩ := View.words_of_called? (Option.eq_some_of_filter_eq_some hword)
    simp only [Option.bind_eq_bind, Option.bind_eq_some_iff] at h
    obtain ⟨path, -, heq⟩ := h
    cases heq
    have hplain : word.name ≠ "within" := by
      rw [List.mem_singleton.mp hname]
      decide
    refine ⟨word, hwords, hplain, (word.args[1]?).toList, ?_, by cases word.args[1]? <;> rfl⟩
    cases hexpected : word.args[1]? with
    | none => exact List.nil_sublist _
    | some expected => exact List.singleton_sublist.mpr (List.mem_of_getElem? hexpected)
  · split at h
    · rename_i word hword
      split at h
      · rename_i hpath
        obtain ⟨texts, -, heq⟩ := Option.map_eq_some_iff.mp h
        cases heq
        have hname : word.name = "propertyByPath" := by simp_all
        exact ⟨word, View.words_of_single? hword, by rw [hname]; decide, [], List.nil_sublist _, rfl⟩
      · cases h
    · cases h

theorem nestedProperty_uses (h : nestedProperty ctx v = some e) : v.Uses e := by
  simp only [nestedProperty, Option.bind_eq_bind, Option.bind_eq_some_iff] at h
  obtain ⟨⟨segments, expected⟩, hpath, -, -, h⟩ := h
  obtain ⟨w, hwords, hname, used, hused, hexpected⟩ := nestedPath?_word hpath
  refine View.uses_of_word _ hwords (.inl hname) hused ?_
  have haccess := sources_foldl_optionalProperty segments v.value
  cases expected with
  | none =>
    cases h
    obtain rfl : used = [] := by simpa using hexpected.symm
    simp [Expr.sources, Expr.sourcesAll, haccess]
  | some expected =>
    cases h
    obtain ⟨s, rfl, rfl⟩ : ∃ s, used = [s] ∧ s.embed = expected := by
      simpa [List.map_eq_singleton_iff] using hexpected.symm
    simp [compareValue, Expr.sourcesAll, haccess]

theorem ownProperty_uses (h : ownProperty ctx v = some e) : v.Uses e := by
  simp only [ownProperty, Option.bind_eq_bind, Option.bind_eq_some_iff] at h
  obtain ⟨word, hword, name, hname, heq⟩ := h
  cases heq
  have hused : [name].Sublist word.args := List.singleton_sublist.mpr (List.mem_of_mem_head? hname)
  simp only [Option.orElse_eq_orElse, Option.orElse_eq_or, Option.or_eq_some_iff] at hword
  rcases hword with hword | ⟨-, hword⟩
  · exact View.uses_of_called? hword (by decide) hused (by simp [Expr.sourcesAll])
  · exact View.uses_of_called? (Option.eq_some_of_filter_eq_some hword) (by decide) hused (by simp [Expr.sourcesAll])

theorem within_sources (v : View) (low high : Expr) :
    (within v low high).sources = v.value.sources ++ low.sources ++ (v.value.sources ++ high.sources) := by
  unfold within
  split <;> rfl

theorem range_uses (h : range ctx v = some e) : v.Uses e := by
  unfold range at h
  split at h
  · rename_i low high hargs
    obtain ⟨word, hword, hargs⟩ := Option.map_eq_some_iff.mp hargs
    cases h
    obtain ⟨hwords, hcall, hname, -⟩ := View.words_of_called? hword
    have hname : word.name = "within" := List.mem_singleton.mp hname
    have htwice : v.evaluations = 2 := by simp [View.evaluations, View.isBounded, hwords, hcall, hname, hargs]
    refine ⟨[low, high], by simp [hwords, hargs], ?_⟩
    rw [htwice]
    simp only [sources_assertCall, Expr.sourcesAll, within_sources, sources_embed, List.append_nil]
    refine List.perm_iff_count.mpr fun p => ?_
    simp only [List.replicate, List.flatten_cons, List.flatten_nil, List.map_cons, List.map_nil, List.count_append,
      List.count_cons, List.count_nil]
    omega
  · simp only [Option.bind_eq_bind, Option.bind_eq_some_iff] at h
    obtain ⟨word, hword, h⟩ := h
    split at h
    · rename_i bound hargs
      obtain ⟨⟨op, complement⟩, -, heq⟩ := Option.bind_eq_some_iff.mp h
      cases heq
      exact View.uses_of_word [bound] (View.words_of_single? hword) (.inr (by simp [hargs])) (by simp [hargs])
        (by simp [Expr.sources, Expr.sourcesAll])
    · cases h

theorem affix_uses (h : affix ctx v = some e) : v.Uses e := by
  simp only [affix, Option.bind_eq_bind, Option.bind_eq_some_iff] at h
  obtain ⟨word, hword, heq⟩ := h
  cases heq
  exact View.uses_of_called? hword (by decide) (List.Sublist.refl _) (by simp)

theorem contained_uses (h : contained ctx v = some e) : v.Uses e := by
  simp only [contained, Option.bind_eq_bind, Option.bind_eq_some_iff] at h
  obtain ⟨word, hword, -, -, heq⟩ := h
  cases heq
  exact View.uses_of_called? hword (by decide) (List.Sublist.refl _) (by simp)

theorem matching_uses (h : matching ctx v = some e) : v.Uses e := by
  simp only [matching, Option.bind_eq_bind, Option.bind_eq_some_iff] at h
  obtain ⟨word, hword, heq⟩ := h
  cases heq
  exact View.uses_of_called? hword (by decide) (List.Sublist.refl _) (by simp [Expr.sourcesAll])

theorem instance'_uses (h : instance' ctx v = some e) : v.Uses e := by
  simp only [instance', Option.bind_eq_bind, Option.bind_eq_some_iff] at h
  obtain ⟨word, hword, cls, hcls, heq⟩ := h
  cases heq
  have hused : [cls].Sublist word.args := List.singleton_sublist.mpr (List.mem_of_mem_head? hcls)
  exact View.uses_of_called? hword (by decide) hused (by simp [Expr.sources])

theorem typeCheck_uses (h : typeCheck ctx v = some e) : v.Uses e := by
  simp only [typeCheck, Option.bind_eq_bind, Option.bind_eq_some_iff] at h
  obtain ⟨name, hname, heq⟩ := h
  have hsources : e.sources = v.value.sources := by
    cases heq
    rw [sources_predicate]
    split_ifs <;> simp [Expr.sources, Expr.sourcesAll]
  unfold typeName? at hname
  split at hname
  · rename_i word hword
    exact View.uses_of_called? hword (by decide) (List.nil_sublist _) (by simp [hsources])
  · obtain ⟨word, hword, -⟩ := Option.map_eq_some_iff.mp hname
    exact View.uses_of_bare? hword hsources

section
variable {w : Step} {onward : Expr → Option Expr}

theorem property_uses (hwords : v.words = [w]) (h : property ctx v onward = some e) : v.Uses e := by
  simp only [property, Option.bind_eq_bind, Option.bind_eq_some_iff, hwords, List.head?_cons, Option.some.injEq] at h
  obtain ⟨_, rfl, _, hguard, name, -, h⟩ := h
  have hname : w.name ≠ "within" := by
    simp only [guard] at hguard
    split at hguard
    · rename_i hproperty
      simp only [Bool.and_eq_true, beq_iff_eq] at hproperty
      rw [hproperty.1.1.1]
      decide
    · cases hguard
  rcases hargs : w.args with _ | ⟨key, _ | ⟨expected, _ | _⟩⟩ <;> rw [hargs] at h <;> cases h
  · refine View.uses_of_word [key] hwords (.inl hname) (by simp [hargs]) ?_
    simpa [Expr.sources] using List.Perm.symm (List.perm_append_singleton key.span v.value.sources)
  · exact View.uses_of_word [expected] hwords (.inl hname) (by simp [hargs])
      (by simp [compareValue, Expr.sourcesAll])

theorem length_uses (hwords : v.words = [w]) (h : length ctx v onward = some e) : v.Uses e := by
  simp only [length, Option.bind_eq_bind, Option.bind_eq_some_iff, hwords, List.head?_cons, Option.some.injEq] at h
  obtain ⟨_, rfl, _, hguard, h⟩ := h
  have hname : w.name ≠ "within" := by
    simp only [guard] at hguard
    split at hguard
    · rename_i hlength
      simp only [Bool.or_eq_true, beq_iff_eq] at hlength
      rcases hlength with hlength | hlength <;> rw [hlength] <;> decide
    · cases hguard
  rcases hargs : w.arguments? with _ | _ | ⟨n, more⟩ <;> rw [hargs] at h
  · cases h
  · cases h
  · dsimp only at h
    split at h
    · cases h
      refine View.uses_of_word [n] hwords (.inl hname) ?_ (by simp [Expr.sources, Expr.sourcesAll])
      simp [Step.args, hargs]
    · cases h

theorem membershipWith_uses (hwords : v.words = [w]) (h : membershipWith ctx v onward = some e) : v.Uses e := by
  simp only [membershipWith, Option.orElse_eq_orElse, Option.orElse_eq_or, Option.or_eq_some_iff] at h
  rcases h with h | ⟨-, h | ⟨-, h | ⟨-, h | ⟨-, h | ⟨-, h | ⟨-, h | ⟨-, h | ⟨-, h | ⟨-, h⟩⟩⟩⟩⟩⟩⟩⟩⟩
  · exact nestedProperty_uses h
  · exact ownProperty_uses h
  · exact property_uses hwords h
  · exact length_uses hwords h
  · exact range_uses h
  · exact affix_uses h
  · exact contained_uses h
  · exact matching_uses h
  · exact instance'_uses h
  · exact typeCheck_uses h

end

/-! ### Several words -/

theorem leadsTo?_sources {access : Expr} (h : leadsTo? ctx v = some access) : access.sources = v.value.sources := by
  simp only [leadsTo?, Option.bind_eq_bind, Option.bind_eq_some_iff] at h
  obtain ⟨word, -, h⟩ := h
  split at h
  · simp only [Option.bind_eq_some_iff] at h
    obtain ⟨-, -, name, -, -, -, heq⟩ := h
    cases heq
    exact sources_property _ _
  · simp only [Option.bind_eq_some_iff] at h
    obtain ⟨-, -, heq⟩ := h
    cases heq
    rfl

theorem uses_of_shifted {first second : Step} {rest : List Step} {access : Expr}
    (hwords : v.words = first :: second :: rest) (haccess : access.sources = v.value.sources)
    (h : View.Uses { v with words := second :: rest, value := access } e) : v.Uses e := by
  have hbounded : v.isBounded = View.isBounded { v with words := second :: rest, value := access } := by
    simp only [View.isBounded, hwords, List.getLast?_cons_cons]
  rw [View.Uses, View.evaluations, hbounded, ← haccess]
  refine Expr.Uses.mono h ?_
  rw [hwords]
  exact List.sublist_append_right ..

theorem buildSyncFrom_uses {flags : View} {words : List Step} {value : Expr}
    (h : buildSyncFrom ctx flags words value = some e) : View.Uses { flags with words, value } e := by
  induction words generalizing value with
  | nil => cases h
  | cons first rest ih =>
    cases rest with
    | nil =>
      unfold buildSyncFrom at h
      simp only [Option.orElse_eq_orElse, Option.orElse_eq_or, Option.or_eq_some_iff] at h
      rcases h with h | ⟨-, h | ⟨-, h | ⟨-, h | ⟨-, h⟩⟩⟩⟩
      · exact deepEquality_uses h
      · exact strictEquality_uses h
      · exact existence_uses h
      · exact boolean_uses h
      · exact membershipWith_uses rfl h
    | cons second rest =>
      rw [buildSyncFrom_many] at h
      obtain ⟨access, haccess, h⟩ := Option.bind_eq_some_iff.mp h
      exact uses_of_shifted (v := { flags with words := first :: second :: rest, value }) rfl (leadsTo?_sources haccess)
        (ih h)

theorem membership_uses (h : membership ctx v = some e) : v.Uses e := by
  unfold membership at h
  rcases hwords : v.words with _ | ⟨first, _ | ⟨second, rest⟩⟩
  · rw [membershipWith_of_not_single (by simp [View.single?, hwords])] at h
    simp [property, length, hwords] at h
  · exact membershipWith_uses hwords h
  · rw [membershipWith_many hwords] at h
    obtain ⟨access, haccess, h⟩ := Option.bind_eq_some_iff.mp h
    rw [hwords, List.tail_cons] at h
    exact uses_of_shifted hwords (leadsTo?_sources haccess) (buildSyncFrom_uses h)

/-! ### Errors and promises -/

theorem errorMatcher?_sources {args : List Site} {matcher : List Expr} (h : errorMatcher? args = some matcher) :
    Expr.sourcesAll matcher = args.map Site.span := by
  unfold errorMatcher? at h
  split at h
  · cases h
    rfl
  · split at h <;> cases h <;> rfl
  · simp only [Option.bind_eq_bind] at h
    split at h
    · cases h
      rfl
    · cases h
      rfl
    · cases h
      rfl
    · cases h
  · cases h

theorem throws_uses (h : throws ctx v = some e) : v.Uses e := by
  simp only [throws, Option.bind_eq_bind, Option.bind_eq_some_iff] at h
  obtain ⟨word, hword, _, hname, h⟩ := h
  have hname : word.name ≠ "within" := by
    intro heq
    simp [heq, guard, failure] at hname
  split at h
  · simp only [Option.bind_eq_some_iff] at h
    obtain ⟨-, -, heq⟩ := h
    cases heq
    exact View.uses_of_word _ (View.words_of_single? hword) (.inl hname) (List.nil_sublist _)
      (by simp [Expr.sourcesAll])
  · simp only [Option.bind_eq_some_iff] at h
    obtain ⟨matcher, hmatcher, heq⟩ := h
    cases heq
    exact View.uses_of_word _ (View.words_of_single? hword) (.inl hname) (List.Sublist.refl _)
      (by simp [Expr.sourcesAll, errorMatcher?_sources hmatcher])

theorem settledWord?_word {expected : Site} {deep : Bool} (h : settledWord? v = some (expected, deep)) :
    ∃ names w, v.called? names 1 1 = some w ∧ "within" ∉ names ∧ expected ∈ w.args := by
  have hargument {names : List String} {flag : Bool} (hnames : "within" ∉ names)
      (h : (((v.called? names 1 1).bind (·.args.head?)).map fun a => (a, flag)) = some (expected, deep)) :
      ∃ names w, v.called? names 1 1 = some w ∧ "within" ∉ names ∧ expected ∈ w.args := by
    obtain ⟨a, ha, heq⟩ := Option.map_eq_some_iff.mp h
    cases heq
    obtain ⟨w, hw, ha⟩ := Option.bind_eq_some_iff.mp ha
    exact ⟨names, w, hw, hnames, List.mem_of_mem_head? ha⟩
  simp only [settledWord?, Option.orElse_eq_orElse, Option.orElse_eq_or, Option.or_eq_some_iff] at h
  rcases h with h | ⟨-, h | ⟨-, h⟩⟩
  · exact hargument (by decide) h
  · exact hargument (by decide) h
  · split at h
    · rcases Option.or_eq_some_iff.mp h with h | ⟨-, h⟩
      · exact hargument (by decide) h
      · exact hargument (by decide) h
    · cases h

theorem promise_uses (h : promise ctx v = some e) : v.Uses e := by
  unfold promise at h
  split at h
  · rename_i hbare
    obtain ⟨word, hword⟩ := Option.isSome_iff_exists.mp hbare
    cases h
    exact View.uses_of_bare? hword (by simp [Expr.sourcesAll])
  · split at h
    · rename_i hbare
      obtain ⟨word, hword⟩ := Option.isSome_iff_exists.mp hbare
      cases h
      exact View.uses_of_bare? hword (by simp [Expr.sourcesAll])
    · split at h
      · rename_i word hword
        split at h
        · cases h
        · obtain ⟨matcher, hmatcher, rfl⟩ := Option.map_eq_some_iff.mp h
          exact View.uses_of_called? hword (by decide) (List.Sublist.refl _)
            (by simp [Expr.sourcesAll, errorMatcher?_sources hmatcher])
      · obtain ⟨⟨expected, deep⟩, hsettled, rfl⟩ := Option.map_eq_some_iff.mp h
        obtain ⟨names, word, hword, hnames, hmem⟩ := settledWord?_word hsettled
        exact View.uses_of_called? hword hnames (List.singleton_sublist.mpr hmem)
          (by simp [Expr.sources, Expr.sourcesAll])

theorem Family.build_uses {f : Family} (h : f.build ctx v = some e) : v.Uses e := by
  cases f with
  | promise => exact promise_uses h
  | throws => exact throws_uses h
  | deepEquality => exact deepEquality_uses h
  | strictEquality => exact strictEquality_uses h
  | existence => exact existence_uses h
  | boolean => exact boolean_uses h
  | membership => exact membership_uses h

end Assertion

end TestMigration
