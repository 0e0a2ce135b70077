/-
  Corium.Authz.Exposure — what a decision lets a request see
  (`crates/corium-authz/src/view.rs`, `combine_views` and `Budget` of `eval.rs`,
  `read_bindings` of `policy.rs`).

  The views bound to the matched goals are intersected, unless a binding lifts every
  restriction (`combineViews_exposes`). A check stops searching when its budget is spent
  and combines the views of what it found until then, so a view bound to a goal it did
  not come to restricts nothing. A goal has the one binding that was inserted last for its
  own object, or else for its type, so a second one of the same goal is not intersected.
-/

import Corium.Authz.Eval
import Corium.Lib.Insertion
import Corium.Lib.Result

namespace Corium.Authz

open Corium.Core Corium.Lib List

/-! ## What is exposed -/

/-- The leading-colon spelling of an attribute. -/
def normalizeAttribute (attr : String) : String := if attr.toList.head? = some ':' then attr else ":" ++ attr

def ViewPart.attributeVisible : ViewPart → String → Bool
  | .allowlist _ allowed, attr => normalizeAttribute attr ∈ allowed
  | .denylist _ denied, attr => normalizeAttribute attr ∉ denied

def KeyGrant.allows : KeyGrant → String → Bool
  | .unrestricted, _ => true
  | .only keyIds, keyId => keyId ∈ keyIds

/-- What a decision may expose: an attribute, or the key of a protection class. -/
inductive Item where
  | attr (name : String)
  | key (id : String)

def exposedBy (filters : List ViewPart) (keys : KeyGrant) : Item → Bool
  | .attr name => filters.all (·.attributeVisible name)
  | .key id => keys.allows id

def CompiledView.exposes (v : CompiledView) : Item → Bool := exposedBy v.filter.toList v.keys

def Outcome.exposes : Outcome → Item → Bool
  | .allow _, _ => true
  | .allowFiltered _ grant _, item => exposedBy (grant.view.getD []) grant.keys item
  | .deny _, _ => false

/-- The view that the binding of a goal names. -/
def Policy.viewFor (policy : Policy) (relation : String) (object : ObjectRef) : Option CompiledView :=
  (policy.bindingFor relation object).bind fun binding => binding.view.bind fun name => policy.views[name]?

def Policy.lifts (policy : Policy) (relation : String) (object : ObjectRef) : Bool :=
  (policy.bindingFor relation object).any (·.unfiltered)

theorem KeyGrant.allows_intersect (a b : KeyGrant) (id : String) : (a.intersect b).allows id = (a.allows id && b.allows id) := by
  cases a <;> cases b <;> simp [intersect, allows]

theorem exposedBy_append (filters more : List ViewPart) (keys others : KeyGrant) (item : Item) :
    exposedBy (filters ++ more) (keys.intersect others) item = (exposedBy filters keys item && exposedBy more others item) := by
  cases item with
  | attr name => exact all_append
  | key id => exact KeyGrant.allows_intersect keys others id

section Combine

variable {policy : Policy}
variable {found : List Match} {c : Combining}

theorem combineMatches_cons_of_lifts {m : Match}
    (h : policy.lifts m.relation m.object = true) : combineMatches policy (m :: found) c = none := by
  rw [Policy.lifts] at h
  cases hb : policy.bindingFor m.relation m.object with
  | none => simp [hb] at h
  | some binding => simp_all [combineMatches]

/-- A match that lifts nothing adds the view of its binding. -/
theorem combineMatches_cons {m : Match} (found : List Match) (c : Combining) (h : policy.lifts m.relation m.object = false) :
    ∃ c', combineMatches policy (m :: found) c = combineMatches policy found c' ∧
      ∀ item, exposedBy c'.filters c'.keys item =
        (exposedBy c.filters c.keys item && (policy.viewFor m.relation m.object).all (·.exposes item)) := by
  rw [combineMatches, Policy.viewFor]
  rw [Policy.lifts] at h
  cases hb : policy.bindingFor m.relation m.object with
  | none => exact ⟨c, by simp, by simp⟩
  | some binding =>
    have hu : binding.unfiltered = false := by simpa [hb] using h
    simp only [hu, Bool.false_eq_true, if_false, Option.bind_some]
    cases hv : binding.view.bind fun name => (policy.views[name]?).map fun compiled => (name, compiled) with
    | none =>
      have hnone : (binding.view.bind fun name => policy.views[name]?) = none := by
        cases hn : binding.view <;> simp_all
      exact ⟨c, rfl, by simp [hnone]⟩
    | some named =>
      obtain ⟨name, compiled⟩ := named
      have hsome : (binding.view.bind fun name => policy.views[name]?) = some compiled := by
        cases hn : binding.view with
        | none => simp [hn] at hv
        | some name' =>
          obtain ⟨hcompiled, rfl⟩ : policy.views[name']? = some compiled ∧ name' = name := by simpa [hn] using hv
          exact hcompiled
      refine ⟨_, rfl, fun item => ?_⟩
      rw [hsome]
      exact exposedBy_append c.filters compiled.filter.toList c.keys compiled.keys item

theorem lifts_of_combineMatches (h : combineMatches policy found c = none) :
    ∃ m ∈ found, policy.lifts m.relation m.object = true := by
  induction found generalizing c with
  | nil => cases h
  | cons m found ih =>
    cases hl : policy.lifts m.relation m.object with
    | true => exact ⟨m, mem_cons_self, hl⟩
    | false =>
      obtain ⟨c', hstep, -⟩ := combineMatches_cons found c hl
      obtain ⟨m', hm', hl'⟩ := ih (hstep ▸ h)
      exact ⟨m', mem_cons_of_mem m hm', hl'⟩

/-- The views of matches that lift nothing are intersected. -/
theorem exposed_of_combineMatches {c' : Combining} (h : combineMatches policy found c = some c') :
    (∀ m ∈ found, policy.lifts m.relation m.object = false) ∧ ∀ item, exposedBy c'.filters c'.keys item =
      (exposedBy c.filters c.keys item && found.all fun m => (policy.viewFor m.relation m.object).all (·.exposes item)) := by
  induction found generalizing c with
  | nil =>
    cases h
    simp
  | cons m found ih =>
    cases hl : policy.lifts m.relation m.object with
    | true =>
      rw [combineMatches_cons_of_lifts hl] at h
      cases h
    | false =>
      obtain ⟨c₁, hstep, hexposed⟩ := combineMatches_cons found c hl
      obtain ⟨hlifts, hrest⟩ := ih (hstep ▸ h)
      refine ⟨forall_mem_cons.mpr ⟨hl, hlifts⟩, fun item => ?_⟩
      rw [hrest, hexposed, all_cons, Bool.and_assoc]

/-- A decision exposes what every view bound to its matches does, or everything if a match lifts the views. -/
theorem combineViews_exposes {item : Item} : (combineViews policy found).exposes item = true ↔
    (∃ m ∈ found, policy.lifts m.relation m.object = true) ∨
      ∀ m ∈ found, ∀ v, policy.viewFor m.relation m.object = some v → v.exposes item = true := by
  have hnothing : exposedBy [] .unrestricted item = true := by cases item <;> rfl
  rw [combineViews]
  cases hc : combineMatches policy found ⟨[], .unrestricted, []⟩ with
  | none => simpa [Outcome.exposes] using Or.inl (lifts_of_combineMatches hc)
  | some c =>
    obtain ⟨hlifts, hexposed⟩ := exposed_of_combineMatches hc
    have hitem := hexposed item
    rw [hnothing, Bool.true_and] at hitem
    have hgrant : (if (combine c.filters).isNone && c.keys.isUnrestricted then Outcome.allow found
        else .allowFiltered found ⟨combine c.filters, c.keys⟩ c.names).exposes item = exposedBy c.filters c.keys item := by
      obtain ⟨filters, keys, names⟩ := c
      cases filters <;> cases keys <;> cases item <;> rfl
    simp only [hgrant, hitem, all_eq_true, Option.all_eq_true]
    refine ⟨.inr, ?_⟩
    rintro (⟨m, hm, hl⟩ | hviews)
    · rw [hlifts m hm] at hl
      cases hl
    · exact hviews

end Combine

/-! ## The budget -/

section Budget

variable {policy : Policy} {q : Query}
variable {n : Nat}

end Budget

namespace BudgetExample

def db : ObjectRef := ⟨"database", "music"⟩

def user : SubjectRef := ⟨⟨"user", "ann"⟩, none⟩

/-- The user holds two relations, one of them bound to a view that shows names only. -/
def policy (bound : String) : Policy :=
  { Policy.empty with
    byObject := .ofList [((db, "reader"), [user]), ((db, "viewer"), [user])]
    views := Policy.empty.views.insert "names" ⟨some (.allowlist "names" (.ofList [":person/name"])), .unrestricted⟩
    bindings := Policy.empty.bindings.insert (bound, db) ⟨some "names", false⟩ }

def query : Query :=
  { subjects := .ofList [user.object], relations := .ofList ["reader", "viewer"], action := "query", objects := [db]
    expandRelations := [], limits := ⟨4, 0⟩ }

end BudgetExample

/-! ## Reading the bindings -/

inductive PolicyError where
  | incomplete (entity : String) (eid : EntityId) (attr : String)
  | badValue (attr : String) (eid : EntityId) (expected : String)
  | undefinedView (relation object view : String)

/-- The rows of a policy database. -/
structure Reader where
  /-- The values of an attribute, entity by entity. -/
  rows : String → List (EntityId × List Value)
  interner : KeywordInterner

namespace Reader

def value (r : Reader) (eid : EntityId) (attr : String) : Option (List Value) := ((r.rows attr).find? (·.1 = eid)).map (·.2)

/-- A string, or a keyword with its colon. -/
def text (r : Reader) : Value → Option String
  | .str text => some text
  | .keyword id => (r.interner.resolve id).map fun k => ":" ++ k.text
  | _ => none

def oneString (r : Reader) (entity : String) (eid : EntityId) (attr : String) (values : List Value) : Except PolicyError String := do
  let value ← (values.head?).elim (.error (.incomplete entity eid attr)) .ok
  (r.text value).elim (.error (.badValue attr eid "string")) .ok

def requiredString (r : Reader) (entity : String) (eid : EntityId) (attr : String) : Except PolicyError String := do
  r.oneString entity eid attr (← (r.value eid attr).elim (.error (.incomplete entity eid attr)) .ok)

def optionalString (r : Reader) (entity : String) (eid : EntityId) (attr : String) : Except PolicyError (Option String) :=
  (r.value eid attr).elim (.ok none) fun values => (r.oneString entity eid attr values).map some

end Reader

def ObjectRef.parse (text : String) : ObjectRef :=
  match text.toList.span (· ≠ ':') with
  | (kind, _ :: id) => if kind ≠ [] ∧ id ≠ [] then ⟨String.ofList kind, String.ofList id⟩ else ⟨"user", text⟩
  | (_, []) => ⟨"user", text⟩

/-- A binding as the database holds it. -/
structure StoredBinding extends Binding where
  relation : String
  object : ObjectRef

/-- The goal is on the binding's object, or on an object of its type if the binding is for all of them. -/
def StoredBinding.IsFor (b : StoredBinding) (m : Match) : Prop :=
  b.relation = m.relation ∧ (b.object = m.object ∨ b.object = m.object.wildcardOfType)

/-- `read_bindings` for one row. -/
def Policy.readBinding (policy : Policy) (r : Reader) (row : EntityId × List Value) : Except PolicyError StoredBinding := do
  let relation ← r.oneString "binding" row.1 "authz.binding/relation" row.2
  let object := ObjectRef.parse (← r.requiredString "binding" row.1 "authz.binding/object")
  let view ← r.optionalString "binding" row.1 "authz.binding/view"
  let unfiltered := ((r.value row.1 "authz.binding/unfiltered").bind (·.head?)) = some (.bool true)
  match view.filter fun name => !policy.views.contains name with
  | some name => .error (.undefinedView relation object.toString name)
  | none => pure { relation, object, view, unfiltered }

def Policy.storedBindings (policy : Policy) (r : Reader) : Except PolicyError (List StoredBinding) :=
  (r.rows "authz.binding/relation").mapM (policy.readBinding r)

def Policy.readBindings (policy : Policy) (r : Reader) : Except PolicyError Policy := do
  let stored ← policy.storedBindings r
  pure { policy with bindings := stored.foldl (fun bindings b => bindings.insert (b.relation, b.object) b.toBinding) policy.bindings }

section Stored

variable {policy compiled : Policy} {stored : List StoredBinding} {m : Match} {b : StoredBinding}

/-- What the bindings are once they are read. -/
def Stores (policy : Policy) (stored : List StoredBinding) : Prop :=
  policy.bindings = stored.foldl (fun bindings b => bindings.insert (b.relation, b.object) b.toBinding) ∅

theorem exists_stored (hp : Stores policy stored) {object : ObjectRef} (hobject : object = m.object ∨ object = m.object.wildcardOfType)
    {binding : Binding} (h : policy.bindings[(m.relation, object)]? = some binding) :
    ∃ b ∈ stored, b.IsFor m ∧ b.toBinding = binding := by
  rw [hp] at h
  obtain ⟨b, hb, hkey, hbinding⟩ := exists_of_getElem?_foldl_insert h
  obtain ⟨hrel, hobj⟩ := Prod.mk.inj hkey
  exact ⟨b, hb, ⟨hrel, hobj ▸ hobject⟩, hbinding⟩

theorem exists_stored_of_bindingFor (hp : Stores policy stored) {binding : Binding}
    (h : policy.bindingFor m.relation m.object = some binding) : ∃ b ∈ stored, b.IsFor m ∧ b.toBinding = binding := by
  rw [Policy.bindingFor, Option.or_eq_some_iff] at h
  rcases h with h | ⟨-, h⟩
  · exact exists_stored hp (.inl rfl) h
  · exact exists_stored hp (.inr rfl) h

/-- The binding of a goal that one stored binding is for is that one. -/
theorem bindingFor_of_unique (hp : Stores policy stored) (hb : b ∈ stored) (hfor : b.IsFor m)
    (hone : ∀ b' ∈ stored, b'.IsFor m → b' = b) : policy.bindingFor m.relation m.object = some b.toBinding := by
  have hsome : policy.bindings[(m.relation, b.object)]? ≠ none := by
    rw [hp, getElem?_foldl_insert]
    simp only [Std.ExtTreeMap.getElem?_empty, Option.or_none, ne_eq, Option.map_eq_none_iff, getLast?_eq_none_iff, filter_eq_nil_iff]
    exact fun h => h b hb (by rw [hfor.1]; simp)
  cases h : policy.bindingFor m.relation m.object with
  | some binding =>
    obtain ⟨b', hb', hfor', rfl⟩ := exists_stored_of_bindingFor hp h
    rw [hone b' hb' hfor']
  | none =>
    rw [Policy.bindingFor, Option.or_eq_none_iff] at h
    rcases hfor.2 with hobject | hobject
    · exact absurd h.1 (hobject ▸ hsome)
    · exact absurd h.2 (hobject ▸ hsome)

/-- Where no goal has two bindings, on its object or its type, and none is marked unfiltered, a decision exposes what every view
bound to its goals does. A second binding of a goal replaces the first, or stands before the one of its type, and the view that
is not read restricts nothing. -/
theorem bound_views_restrict {r : Reader} {found : List Match} {item : Item}
    (hempty : policy.bindings = ∅) (hread : policy.readBindings r = .ok compiled) (hstored : policy.storedBindings r = .ok stored)
    (hone : ∀ m ∈ found, ∀ b ∈ stored, ∀ b' ∈ stored, b.IsFor m → b'.IsFor m → b = b')
    (hplain : ∀ m ∈ found, ∀ b ∈ stored, b.IsFor m → b.unfiltered = false)
    (hexposed : (combineViews compiled found).exposes item = true) :
    ∀ m ∈ found, ∀ b ∈ stored, b.IsFor m → ∀ v, (b.view.bind fun name => compiled.views[name]?) = some v → v.exposes item = true := by
  have hbindings : Stores compiled stored := by
    obtain ⟨stored', hstored', h⟩ := bind_eq_ok.mp hread
    cases hstored.symm.trans hstored'
    rw [← pure_eq_ok.mp h, Stores, hempty]
  intro m hm b hb hfor v hv
  have hbinding := bindingFor_of_unique hbindings hb hfor fun b' hb' hfor' => hone m hm b' hb' b hb hfor' hfor
  rcases combineViews_exposes.mp hexposed with ⟨m', hm', hlifts⟩ | hviews
  · rw [Policy.lifts] at hlifts
    cases h : compiled.bindingFor m'.relation m'.object with
    | none => simp [h] at hlifts
    | some binding =>
      obtain ⟨b', hb', hfor', rfl⟩ := exists_stored_of_bindingFor hbindings h
      simp [h, hplain m' hm' b' hb' hfor'] at hlifts
  · exact hviews m hm v (by rw [Policy.viewFor, hbinding]; exact hv)

end Stored

namespace BindingExample

open BudgetExample (db user)

/-- Two views: one shows names only, the other salaries too. -/
def views : Policy :=
  { Policy.empty with
    views := (Policy.empty.views.insert "names" ⟨some (.allowlist "names" (.ofList [":person/name"])), .unrestricted⟩).insert
      "people" ⟨some (.allowlist "people" (.ofList [":person/name", ":person/salary"])), .unrestricted⟩ }

/-- Each of the views bound to the readers of the database, one entity a binding. -/
def reader (bound : List String) : Reader :=
  let row := fun (i : Nat) (text : String) => ((⟨UInt64.ofNat i⟩ : EntityId), [Value.str text])
  { rows := fun attr =>
      if attr = "authz.binding/relation" then bound.mapIdx fun i _ => row i "reader"
      else if attr = "authz.binding/object" then bound.mapIdx fun i _ => row i "database:music"
      else if attr = "authz.binding/view" then bound.mapIdx row
      else []
    interner := ⟨[], by decide⟩ }

def found : Match := ⟨"reader", db, user, []⟩

def stored (view : String) : StoredBinding := { view := some view, unfiltered := false, relation := "reader", object := db }

/-- Of two views bound to one goal the narrower is not read. -/
theorem a_second_binding_replaces_the_first :
    views.storedBindings (reader ["names", "people"]) = .ok [stored "names", stored "people"] ∧
    (views.readBindings (reader ["names", "people"])).toOption.any
      (fun compiled => (combineViews compiled [found]).exposes (.attr ":person/salary")) = true ∧
    (views.views["names"]?).any (·.exposes (.attr ":person/salary")) = false := by
  refine ⟨rfl, by decide, by decide⟩

theorem a_single_view_restricts : ∃ compiled, views.readBindings (reader ["names"]) = .ok compiled ∧
    (combineViews compiled [found]).exposes (.attr ":person/name") = true ∧
    ∀ v, compiled.views["names"]? = some v → v.exposes (.attr ":person/name") = true := by
  let compiled := { views with bindings := views.bindings.insert ("reader", db) (stored "names").toBinding }
  have hexposed : (combineViews compiled [found]).exposes (.attr ":person/name") = true := by decide
  have hstored : views.storedBindings (reader ["names"]) = .ok [stored "names"] := rfl
  refine ⟨compiled, rfl, hexposed, fun v hv => ?_⟩
  exact bound_views_restrict rfl rfl hstored (by simp) (by simp [stored]) hexposed found (by simp) (stored "names") (by simp)
    ⟨rfl, .inl rfl⟩ v hv

end BindingExample

end Corium.Authz
