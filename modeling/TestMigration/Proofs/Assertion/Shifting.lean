import Mathlib.Logic.Function.Iterate
import TestMigration.Grammar.Source
import TestMigration.Proofs.Assertion.Negation

/-!
# Words that lead to another value

`property('p')` and `length` in front of other words hand the assertion on to the value that they lead to. No
family looks at more than one word otherwise, so each of these words is used up by one round of `buildSync`, and
after as many rounds as there are words the answer no longer depends on what would come next.

Main statement: `Assertion.buildSync_shifted`.
-/

namespace TestMigration

/-- The view of the words behind the first one, about the value that it leads to. -/
def View.shifted (v : View) (value : Expr) : View := { v with words := v.words.tail, value }

namespace Assertion

variable {ctx : Context} {v : View} {words : List Step} {value value' : Expr} {last : Step}

/-! ### Access -/

/-- The words lead from the first value to the second one: a property named by a literal and a length that is not
called are accessed in the order in which they stand. -/
inductive LeadsTo (ctx : Context) : List Step → Expr → Expr → Prop
  | nil {value : Expr} : LeadsTo ctx [] value value
  | property {word : Step} {key : Site} {name : String} {words : List Step} {value value' : Expr}
      (hname : word.name = "property") (hargs : word.arguments? = some [key])
      (hkey : key.stringValue? ctx.source = some name) (h : LeadsTo ctx words (value.property name) value') :
      LeadsTo ctx (word :: words) value value'
  | length {word : Step} {words : List Step} {value value' : Expr}
      (hname : word.name = "length" ∨ word.name = "lengthOf") (hargs : word.arguments? = none)
      (h : LeadsTo ctx words (value.member "length") value') : LeadsTo ctx (word :: words) value value'

theorem leadsTo?_property {word : Step} {key : Site} {name : String} (hwords : v.words = word :: words)
    (hown : v.own = false) (hnested : v.nested = false) (hname : word.name = "property")
    (hargs : word.arguments? = some [key]) (hkey : key.stringValue? ctx.source = some name) :
    leadsTo? ctx v = some (v.value.property name) := by
  have hliteral : literalArgument? ctx word 0 = some name := by simp [literalArgument?, Step.args, hargs, hkey]
  simp [leadsTo?, guard, hwords, hname, Step.isCall, Step.args, hargs, hown, hnested, hliteral]

theorem leadsTo?_length {word : Step} (hwords : v.words = word :: words)
    (hname : word.name = "length" ∨ word.name = "lengthOf") (hargs : word.arguments? = none) :
    leadsTo? ctx v = some (v.value.member "length") := by
  have hproperty : word.name ≠ "property" := by
    rcases hname with hname | hname <;> rw [hname] <;> decide
  simp [leadsTo?, guard, hwords, hproperty, hname, Step.isCall, hargs]

/-! ### Rounds -/

/-- What the families that check a value at once say about a view, where the argument answers for the views that
they hand on. -/
def round (ctx : Context) (onward : View → Option Expr) (v : View) : Option Expr :=
  deepEquality ctx v <|> strictEquality ctx v <|> existence ctx v <|> boolean ctx v
    <|> membershipWith ctx v fun access => onward (v.shifted access)

/-- The words and the value of the view that the flags are taken from do not matter. -/
theorem buildSyncFrom_shifted {access : Expr} (words : List Step) (value : Expr) :
    buildSyncFrom ctx (v.shifted access) words value = buildSyncFrom ctx v words value := by
  induction words generalizing value with
  | nil => rfl
  | cons word rest ih =>
    unfold buildSyncFrom
    rw [funext ih]
    rfl

theorem buildSync_eq_round (h : v.words ≠ []) : buildSync ctx v = round ctx (buildSync ctx) v := by
  obtain ⟨word, rest, hwords⟩ := List.exists_cons_of_ne_nil h
  have honward : (fun access => buildSync ctx (v.shifted access)) = buildSyncFrom ctx v rest := by
    funext access
    rw [buildSync, buildSyncFrom_shifted]
    simp only [View.shifted, hwords, List.tail_cons]
  rw [round, honward, buildSync, hwords, buildSyncFrom, ← hwords]

theorem round_single (h : v.words = [last]) (onward onward' : View → Option Expr) :
    round ctx onward v = round ctx onward' v := by
  have hproperty (f g : Expr → Option Expr) : property ctx v f = property ctx v g := by
    unfold property
    simp only [h, List.head?_cons, Option.bind_eq_bind, Option.bind_some]
    rcases last.args with _ | ⟨key, _ | ⟨expected, _ | _⟩⟩ <;> rfl
  have hlength (f g : Expr → Option Expr) : length ctx v f = length ctx v g := by
    unfold length
    simp only [h, List.head?_cons, Option.bind_eq_bind, Option.bind_some]
    rcases last.arguments? with _ | _ | ⟨n, more⟩ <;> rfl
  unfold round membershipWith
  rw [hproperty _ fun access => onward' (v.shifted access), hlength _ fun access => onward' (v.shifted access)]

/-- Several words only say what the words behind the first one say of the value that it leads to. -/
theorem round_many {first second : Step} (h : v.words = first :: second :: words) (onward : View → Option Expr) :
    round ctx onward v = (leadsTo? ctx v).bind fun access => onward (v.shifted access) := by
  have hsingle : v.single? = none := single?_eq_none h
  unfold round
  rw [membershipWith_many h]
  simp [deepEquality, strictEquality, existence, boolean, View.called?, View.bare?, hsingle]

/-- After as many rounds as there are words, the answer is the one of `buildSync`, whatever comes next. -/
theorem iterate_round (h : v.words = words ++ [last]) (onward : View → Option Expr) :
    (round ctx)^[v.words.length] onward v = buildSync ctx v := by
  induction words generalizing v with
  | nil =>
    have hone : v.words.length = 1 := by simp [h]
    rw [hone, Function.iterate_one, round_single h onward (buildSync ctx), ← buildSync_eq_round (by simp [h])]
  | cons first rest ih =>
    obtain ⟨second, others, hrest⟩ : ∃ second others, rest ++ [last] = second :: others :=
      List.exists_cons_of_ne_nil (by simp)
    have hwords : v.words = first :: second :: others := by rw [h, List.cons_append, hrest]
    -- the view that is handed on has one word less, whatever value it is about
    have hshifted (access : Expr) : (v.shifted access).words = rest ++ [last] := by
      simp [View.shifted, h]
    have hlength (access : Expr) : v.words.length = (v.shifted access).words.length + 1 := by
      simp [hshifted, h]
    rw [buildSync_eq_round (by simp [h]), round_many hwords]
    cases haccess : leadsTo? ctx v with
    | none =>
      rw [hlength v.value, Function.iterate_succ_apply', round_many hwords, haccess]
      rfl
    | some access =>
      rw [hlength access, Function.iterate_succ_apply', round_many hwords, haccess]
      exact ih (hshifted access)

/-! ### Shifted views -/

/-- A word that leads to another value is used up by one round. -/
theorem buildSync_cons {first : Step} {access : Expr} (h : v.words = first :: (words ++ [last]))
    (haccess : leadsTo? ctx v = some access) : buildSync ctx v = buildSync ctx (v.shifted access) := by
  obtain ⟨second, others, hrest⟩ : ∃ second others, words ++ [last] = second :: others :=
    List.exists_cons_of_ne_nil (by simp)
  rw [buildSync_eq_round (by simp [h]), round_many (h.trans (congrArg _ hrest)), haccess, Option.bind_some]

theorem buildSync_of_leadsTo (h : LeadsTo ctx words value value') (hown : v.own = false) (hnested : v.nested = false)
    (hwords : v.words = words ++ [last]) (hvalue : v.value = value) :
    buildSync ctx v = buildSync ctx { v with words := [last], value := value' } := by
  induction h generalizing v with
  | nil =>
    rw [List.nil_append] at hwords
    rw [← hwords, ← hvalue]
  | property hname hargs hkey h ih =>
    rw [buildSync_cons hwords (leadsTo?_property hwords hown hnested hname hargs hkey), hvalue]
    exact ih (v := v.shifted _) hown hnested (by simp [View.shifted, hwords]) rfl
  | length hname hargs h ih =>
    rw [buildSync_cons hwords (leadsTo?_length hwords hname hargs), hvalue]
    exact ih (v := v.shifted _) hown hnested (by simp [View.shifted, hwords]) rfl

/-- Words that lead to a value in front of the last word: `buildSync` comes to an answer after as many rounds as there
are words, and it is the answer of the last word alone about the value that the others lead to. -/
theorem buildSync_shifted (hown : v.own = false) (hnested : v.nested = false) (hwords : v.words = words ++ [last])
    (h : LeadsTo ctx words v.value value) :
    (∀ onward, (round ctx)^[v.words.length] onward v = buildSync ctx v) ∧
    buildSync ctx v = buildSync ctx { v with words := [last], value } :=
  ⟨iterate_round hwords, buildSync_of_leadsTo h hown hnested hwords rfl⟩

/-- The key of the property whose length the last word is about. -/
def lengthOf? (v : View) : Option Site :=
  match v.words with
  | [⟨"property", some [key], _⟩, ⟨"length", none, _⟩, _] => some key
  | _ => none

theorem lengthOf?_eq_some {key : Site} (h : lengthOf? v = some key) :
    ∃ property length above, v.words = [⟨"property", some [key], property⟩, ⟨"length", none, length⟩, above] := by
  unfold lengthOf? at h
  split at h
  · rename_i hwords
    cases h
    exact ⟨_, _, _, hwords⟩
  · cases h

set_option maxRecDepth 100000 in
theorem buildSync_shifted_length : ∃ text tree root ctx v property length above value,
    text = "expect(user).to.have.property('name').that.has.length.above(2);\n" ∧
    Grammar.parse .plain text.toList = some tree ∧ root ∈ tree.sites ∧ ctx.source = text.toList ∧
    View.ofChain? ctx (Chain.walk text.toList root) = some v ∧ v.own = false ∧ v.nested = false ∧
    v.words = [property, length, above] ∧ LeadsTo ctx [property, length] v.value value ∧
    (buildSync ctx v).isSome = true ∧ (round ctx)^[3] (fun _ => none) v = buildSync ctx v ∧
    buildSync ctx v = buildSync ctx { v with words := [above], value } := by
  obtain ⟨text, htext⟩ : ∃ text, text = "expect(user).to.have.property('name').that.has.length.above(2);\n" := ⟨_, rfl⟩
  obtain ⟨ctx, hctx⟩ : ∃ ctx : Context, ctx = { source := text.toList, names := {} } := ⟨_, rfl⟩
  have hfile : (Grammar.parse .plain text.toList).any (fun tree => tree.sites.any fun root =>
      (View.ofChain? ctx (Chain.walk text.toList root)).any fun v => !v.own && !v.nested && (buildSync ctx v).isSome &&
        (lengthOf? v).any fun key => (key.stringValue? ctx.source).isSome) = true := by
    rw [hctx, htext]
    decide +kernel
  obtain ⟨tree, hparse, hfile⟩ := (Option.any_eq_true _ _).mp hfile
  obtain ⟨root, hroot, hfile⟩ := List.any_eq_true.mp hfile
  obtain ⟨v, hv, hfile⟩ := (Option.any_eq_true _ _).mp hfile
  simp only [Bool.and_eq_true, Bool.not_eq_true'] at hfile
  obtain ⟨⟨⟨hown, hnested⟩, hbuild⟩, hfile⟩ := hfile
  obtain ⟨key, hlength, hfile⟩ := (Option.any_eq_true _ _).mp hfile
  obtain ⟨property, length, above, hwords⟩ := lengthOf?_eq_some hlength
  obtain ⟨name, hkey⟩ := Option.isSome_iff_exists.mp hfile
  have h : LeadsTo ctx [⟨"property", some [key], property⟩, ⟨"length", none, length⟩] v.value _ :=
    .property rfl rfl hkey (.length (Or.inl rfl) rfl .nil)
  obtain ⟨hrounds, hshifted⟩ := buildSync_shifted hown hnested hwords h
  rw [hwords] at hrounds
  exact ⟨text, tree, root, ctx, v, _, _, above, _, htext, hparse, hroot, by rw [hctx], hv, hown, hnested, hwords, h,
    hbuild, hrounds _, hshifted⟩

end Assertion

end TestMigration
