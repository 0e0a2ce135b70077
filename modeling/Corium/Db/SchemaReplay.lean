/-
  Corium.Db.SchemaReplay — deriving a schema twice from the same datoms
  (`derive` of `crates/corium-db/src/schemadatoms.rs`).

  Recovery replays records over a schema that already has their effect. Every
  derived property overwrites what it was, or leaves it alone, so a second replay
  finds what the first left, with two exceptions. Coverage (`:db/index`) is held
  up by uniqueness, so an attribute loses it only where it is not unique
  (`Accepts`, which planned updates meet). A protection class is appended to a
  timeline whenever it is not the current one, so two different classes set in
  one log are appended again on every replay (`deriveAll_deriveAll_iff`).
-/

import Corium.Db.SchemaDatoms
import Corium.Lib.Replay

namespace Corium.SchemaDatoms

open Corium.Core Corium.Bootstrap Corium.Lib List Std

/-- A collapsed value of a transaction: its basis, entity and property, and the value. -/
abbrev Entry := Nat × ((EntityId × AttrId) × Option Value)

def deriveEntry (interner : KeywordInterner) (schema : Schema) (x : Entry) : Schema :=
  deriveAttribute interner x.1 schema x.2

/-- The entries of transactions one after another. -/
def deriveAll (interner : KeywordInterner) (schema : Schema) (xs : List Entry) : Schema :=
  xs.foldl (deriveEntry interner) schema

/-! ## One entry's effect, table by table -/

/-- What `deriveProperty` makes of an attribute's record. -/
def propertyRecord (interner : KeywordInterner) (property : AttrId) (value : Option Value) (record : Attribute) :
    Attribute :=
  let keyword := value.bind (keywordOf interner)
  if property = valueType then
    match keyword.bind valueTypeOf with
    | some vt => { record with valueType := vt }
    | none => record
  else if property = cardinality then
    match keyword.bind cardinalityOf with
    | some c => { record with cardinality := c }
    | none => record
  else if property = unique then
    match value with
    | none => { record with unique := none }
    | some _ =>
      match keyword.bind uniqueOf with
      | some u => { record with unique := some u }
      | none => record
  else if property = index then { record with indexed := value = some (.bool true) }
  else if property = isComponent then { record with isComponent := value = some (.bool true) }
  else if property = noHistory then { record with noHistory := value = some (.bool true) }
  else record

/-- The entry installs its entity: a value type that can be read. -/
def Installs (interner : KeywordInterner) (x : Entry) : Prop :=
  x.2.1.2 = valueType ∧ ((x.2.2.bind (keywordOf interner)).bind valueTypeOf).isSome = true

instance (interner : KeywordInterner) (x : Entry) : Decidable (Installs interner x) := inferInstanceAs (Decidable (_ ∧ _))

/-- An entry's effect on its attribute's record; uniqueness implies AVET coverage. -/
def attrStep (interner : KeywordInterner) (record : Attribute) (x : Entry) : Attribute :=
  let record := propertyRecord interner x.2.1.2 x.2.2 record
  { record with indexed := record.indexed || record.unique.isSome }

/-- The class a value of `:db/protection` names. -/
def classOf : Option Value → Option EntityId
  | some (.ref c) => some c
  | _ => none

section Entry

variable {interner : KeywordInterner} {schema : Schema} {t : Nat} {e : EntityId} {a : AttrId} {v : Option Value}

/-- The documentation a value of `:db/doc` is. -/
def docOf : Option Value → Option String
  | some (.str d) => some d
  | _ => none

/-- What a property changes beside the attribute table. -/
def tableStep (t : Nat) (schema : Schema) (e : EntityId) (a : AttrId) (v : Option Value) : Schema :=
  if a = doc then schema.setDoc e (docOf v)
  else if a = retired then schema.setRetired e (v = some (.bool true))
  else if a = protection ∧ (schema.protectionOf e).current ≠ classOf v then
    schema.setProtection e ⟨(schema.protectionOf e).entries ++ [(t, classOf v)]⟩
  else schema

theorem tableStep_of_property (h : a ∈ [valueType, cardinality, unique, index, isComponent, noHistory]) :
    tableStep t schema e a v = schema := by
  have hne : a ≠ doc ∧ a ≠ retired ∧ a ≠ protection :=
    (by decide : ∀ a ∈ [valueType, cardinality, unique, index, isComponent, noHistory],
      a ≠ doc ∧ a ≠ retired ∧ a ≠ protection) a h
  unfold tableStep
  rw [if_neg hne.1, if_neg hne.2.1, if_neg fun h => hne.2.2 h.1]

/-- The tables beside the attributes, the record a property makes, and whether it is installed. -/
theorem deriveProperty_spec : (deriveProperty interner t schema e a v).1 = tableStep t schema e a v ∧
    (deriveProperty interner t schema e a v).2.1 =
      propertyRecord interner a v ((schema.get e).getD (placeholder e)) ∧
    ((deriveProperty interner t schema e a v).2.2 = true ↔
      (schema.get e).isSome = true ∨ Installs interner (t, ((e, a), v))) := by
  have hno : a ≠ valueType → ((schema.get e).isSome = true ↔
      (schema.get e).isSome = true ∨ Installs interner (t, ((e, a), v))) := fun h => (or_iff_left fun hi => h hi.1).symm
  have htable := @tableStep_of_property schema t e a v
  unfold deriveProperty propertyRecord
  dsimp only
  split_ifs with h1 h2 h3 h4 h5 h6 h7 h8 h9 h10
  · subst h1
    rw [htable (by decide)]
    unfold Installs
    dsimp only
    cases (v.bind (keywordOf interner)).bind valueTypeOf <;> simp
  · rw [htable (by simp [h2])]
    generalize (v.bind (keywordOf interner)).bind cardinalityOf = c
    cases c <;> exact ⟨rfl, rfl, hno h1⟩
  · rw [htable (by simp [h3])]
    cases v with
    | none => exact ⟨rfl, rfl, hno h1⟩
    | some v =>
      generalize ((some v).bind (keywordOf interner)).bind uniqueOf = u
      cases u <;> exact ⟨rfl, rfl, hno h1⟩
  · exact ⟨(htable (by simp [h4])).symm, rfl, hno h1⟩
  · exact ⟨(htable (by simp [h5])).symm, rfl, hno h1⟩
  · exact ⟨(htable (by simp [h6])).symm, rfl, hno h1⟩
  · exact ⟨(if_pos h7).symm, rfl, hno h1⟩
  · exact ⟨by unfold tableStep; rw [if_neg h7, if_pos h8], rfl, hno h1⟩
  · exact ⟨by unfold tableStep; rw [if_neg h7, if_neg h8, if_pos ⟨h9, h10⟩]; rfl, rfl, hno h1⟩
  · exact ⟨by unfold tableStep; rw [if_neg h7, if_neg h8, if_neg fun h => h10 h.2], rfl, hno h1⟩
  · exact ⟨by unfold tableStep; rw [if_neg h7, if_neg h8, if_neg fun h => h9 h.1], rfl, hno h1⟩

theorem tableStep_attrs : (tableStep t schema e a v).attrs = schema.attrs ∧
    (tableStep t schema e a v).classes = schema.classes := by
  unfold tableStep Schema.setDoc Schema.setRetired Schema.setProtection
  split_ifs
  · cases docOf v <;> exact ⟨rfl, rfl⟩
  all_goals exact ⟨rfl, rfl⟩

theorem tableStep_docs (k : EntityId) : (tableStep t schema e a v).docs[k]? =
    if e = k ∧ a = doc then docOf v else schema.docs[k]? := by
  unfold tableStep
  by_cases ha : a = doc
  · rw [if_pos ha]
    by_cases hk : e = k
    · subst hk
      cases hd : docOf v <;> simp [Schema.setDoc, ha]
    · have hne : compare e k ≠ .eq := fun h => hk (eq_of_compare_eq h)
      cases hd : docOf v <;> simp [Schema.setDoc, ExtTreeMap.getElem?_insert, ExtTreeMap.getElem?_erase, hk, hne]
  · rw [if_neg ha, if_neg (show ¬ (e = k ∧ a = doc) from fun h => ha h.2)]
    unfold Schema.setRetired Schema.setProtection
    split_ifs <;> rfl

theorem tableStep_retired (k : EntityId) : k ∈ (tableStep t schema e a v).retired ↔
    if e = k ∧ a = retired then v = some (.bool true) else k ∈ schema.retired := by
  unfold tableStep
  by_cases ha : a = retired
  · have hdoc : a ≠ doc := by rw [ha]; decide
    rw [if_neg hdoc, if_pos ha]
    unfold Schema.setRetired
    by_cases hk : e = k
    · subst hk
      by_cases hv : v = some (.bool true) <;> simp [ha, hv]
    · by_cases hv : v = some (.bool true) <;> simp [hk, hv]
  · rw [if_neg (show ¬ (e = k ∧ a = retired) from fun h => ha h.2)]
    unfold Schema.setDoc Schema.setProtection
    split_ifs
    · cases docOf v <;> rfl
    all_goals rfl

theorem tableStep_protection (k : EntityId) : (tableStep t schema e a v).protection[k]? =
    if e = k ∧ a = protection ∧ (schema.protectionOf k).current ≠ classOf v then
      some ⟨(schema.protectionOf k).entries ++ [(t, classOf v)]⟩ else schema.protection[k]? := by
  unfold tableStep
  by_cases ha : a = protection
  · have hdoc : a ≠ doc := by rw [ha]; decide
    have hret : a ≠ retired := by rw [ha]; decide
    rw [if_neg hdoc, if_neg hret]
    by_cases hk : e = k
    · subst hk
      simp only [ha, true_and]
      split_ifs
      · simp [Schema.setProtection, ProtectionTimeline.isEmpty]
      · rfl
    · rw [if_neg (show ¬ (e = k ∧ _) from fun h => hk h.1)]
      split_ifs
      · have hne : compare e k ≠ .eq := fun h => hk (eq_of_compare_eq h)
        simp [Schema.setProtection, ProtectionTimeline.isEmpty, ExtTreeMap.getElem?_insert, hne]
      · rfl
  · rw [if_neg (show ¬ (e = k ∧ a = protection ∧ _) from fun h => ha h.2.1),
      if_neg (show ¬ (a = protection ∧ (schema.protectionOf e).current ≠ classOf v) from fun h => ha h.1)]
    unfold Schema.setDoc Schema.setRetired
    split_ifs
    · cases docOf v <;> rfl
    all_goals rfl

end Entry

/-- An attribute is kept under its id. -/
def Keyed (schema : Schema) : Prop := ∀ {e : EntityId} {r : Attribute}, schema.get e = some r → r.id = e

section Entries

variable {interner : KeywordInterner} {schema : Schema} {x : Entry}

/-- The entity an entry describes. -/
def Entry.entity (x : Entry) : EntityId := x.2.1.1

def Entry.property (x : Entry) : AttrId := x.2.1.2

def Entry.value (x : Entry) : Option Value := x.2.2

theorem deriveEntry_eq : deriveEntry interner schema x =
    if x.property = ident then schema else
      let next := tableStep x.1 schema x.entity x.property x.value
      if (schema.get x.entity).isSome = true ∨ Installs interner x then
        next.insert (attrStep interner ((schema.get x.entity).getD (placeholder x.entity)) x) else next := by
  obtain ⟨t, ⟨e, a⟩, v⟩ := x
  obtain ⟨htable, hrecord, hinstalled⟩ := @deriveProperty_spec interner schema t e a v
  unfold deriveEntry deriveAttribute Entry.property Entry.entity Entry.value
  dsimp only
  split_ifs <;> simp_all [attrStep]

theorem propertyRecord_id (a : AttrId) (v : Option Value) (r : Attribute) :
    (propertyRecord interner a v r).id = r.id := by
  unfold propertyRecord
  dsimp only
  split_ifs
  · split <;> rfl
  · split <;> rfl
  · split
    · rfl
    · split <;> rfl
  all_goals rfl

theorem attrStep_id (r : Attribute) : (attrStep interner r x).id = r.id := propertyRecord_id _ _ r

theorem deriveEntry_get (hs : Keyed schema) (k : EntityId) : (deriveEntry interner schema x).get k =
    if x.entity = k ∧ x.property ≠ ident ∧ ((schema.get k).isSome = true ∨ Installs interner x) then
      some (attrStep interner ((schema.get k).getD (placeholder k)) x) else schema.get k := by
  have hid : ∀ e, (attrStep interner ((schema.get e).getD (placeholder e)) x).id = e := by
    intro e
    rw [attrStep_id]
    cases hr : schema.get e with
    | none => rfl
    | some r => exact hs hr
  have htable : ∀ k, (tableStep x.1 schema x.entity x.property x.value).get k = schema.get k := fun k => by
    unfold Schema.get
    rw [tableStep_attrs.1]
  rw [deriveEntry_eq]
  by_cases ha : x.property = ident
  · rw [if_pos ha, if_neg fun h => h.2.1 ha]
  · rw [if_neg ha]
    dsimp only
    by_cases hi : (schema.get x.entity).isSome = true ∨ Installs interner x
    · rw [if_pos hi, Schema.get_insert, hid, htable]
      by_cases hk : x.entity = k
      · subst hk
        rw [if_pos rfl, if_pos ⟨rfl, ha, hi⟩]
      · rw [if_neg hk, if_neg fun h => hk h.1]
    · rw [if_neg hi, htable]
      by_cases hk : x.entity = k
      · subst hk
        rw [if_neg fun h => hi h.2.2]
      · rw [if_neg fun h => hk h.1]

theorem Keyed.deriveEntry (hs : Keyed schema) : Keyed (deriveEntry interner schema x) := by
  intro e r h
  rw [deriveEntry_get hs] at h
  split at h
  · cases h
    rw [attrStep_id]
    cases hr : schema.get e with
    | none => rfl
    | some r => exact hs hr
  · exact hs h

theorem deriveEntry_tables : (deriveEntry interner schema x).classes = schema.classes ∧
    (∀ k, (deriveEntry interner schema x).docs[k]? =
      if x.entity = k ∧ x.property = doc then docOf x.value else schema.docs[k]?) ∧
    (∀ k, k ∈ (deriveEntry interner schema x).retired ↔
      if x.entity = k ∧ x.property = retired then x.value = some (.bool true) else k ∈ schema.retired) ∧
    ∀ k, (deriveEntry interner schema x).protection[k]? =
      if x.entity = k ∧ x.property = protection ∧ (schema.protectionOf k).current ≠ classOf x.value then
        some ⟨(schema.protectionOf k).entries ++ [(x.1, classOf x.value)]⟩ else schema.protection[k]? := by
  rw [deriveEntry_eq]
  by_cases ha : x.property = ident
  · have hdoc : x.property ≠ doc := by rw [ha]; decide
    have hret : x.property ≠ retired := by rw [ha]; decide
    have hprot : x.property ≠ protection := by rw [ha]; decide
    rw [if_pos ha]
    exact ⟨rfl, fun k => (if_neg fun h => hdoc h.2).symm, fun k => by rw [if_neg fun h => hret h.2],
      fun k => (if_neg fun h => hprot h.2.1).symm⟩
  · rw [if_neg ha]
    dsimp only
    split <;> exact ⟨tableStep_attrs.2, tableStep_docs, tableStep_retired, tableStep_protection⟩

end Entries

/-! ## One attribute's record -/

section Record

variable {interner : KeywordInterner}

/-- Every property but coverage is overwritten or left alone. -/
theorem attrStep_overwrites (x : Entry) : Overwrites (attrStep interner) Attribute.valueType x ∧
    Overwrites (attrStep interner) Attribute.cardinality x ∧ Overwrites (attrStep interner) Attribute.unique x ∧
    Overwrites (attrStep interner) Attribute.isComponent x ∧ Overwrites (attrStep interner) Attribute.noHistory x := by
  obtain ⟨t, ⟨e, a⟩, v⟩ := x
  unfold Overwrites attrStep propertyRecord
  dsimp only
  split_ifs
  · cases (v.bind (keywordOf interner)).bind valueTypeOf
    · exact ⟨.inr fun _ => rfl, .inr fun _ => rfl, .inr fun _ => rfl, .inr fun _ => rfl, .inr fun _ => rfl⟩
    · exact ⟨.inl ⟨_, fun _ => rfl⟩, .inr fun _ => rfl, .inr fun _ => rfl, .inr fun _ => rfl, .inr fun _ => rfl⟩
  · cases (v.bind (keywordOf interner)).bind cardinalityOf
    · exact ⟨.inr fun _ => rfl, .inr fun _ => rfl, .inr fun _ => rfl, .inr fun _ => rfl, .inr fun _ => rfl⟩
    · exact ⟨.inr fun _ => rfl, .inl ⟨_, fun _ => rfl⟩, .inr fun _ => rfl, .inr fun _ => rfl, .inr fun _ => rfl⟩
  · cases v with
    | none => exact ⟨.inr fun _ => rfl, .inr fun _ => rfl, .inl ⟨_, fun _ => rfl⟩, .inr fun _ => rfl, .inr fun _ => rfl⟩
    | some v =>
      cases ((some v).bind (keywordOf interner)).bind uniqueOf
      · exact ⟨.inr fun _ => rfl, .inr fun _ => rfl, .inr fun _ => rfl, .inr fun _ => rfl, .inr fun _ => rfl⟩
      · exact ⟨.inr fun _ => rfl, .inr fun _ => rfl, .inl ⟨_, fun _ => rfl⟩, .inr fun _ => rfl, .inr fun _ => rfl⟩
  · exact ⟨.inr fun _ => rfl, .inr fun _ => rfl, .inr fun _ => rfl, .inr fun _ => rfl, .inr fun _ => rfl⟩
  · exact ⟨.inr fun _ => rfl, .inr fun _ => rfl, .inr fun _ => rfl, .inl ⟨_, fun _ => rfl⟩, .inr fun _ => rfl⟩
  · exact ⟨.inr fun _ => rfl, .inr fun _ => rfl, .inr fun _ => rfl, .inr fun _ => rfl, .inl ⟨_, fun _ => rfl⟩⟩
  · exact ⟨.inr fun _ => rfl, .inr fun _ => rfl, .inr fun _ => rfl, .inr fun _ => rfl, .inr fun _ => rfl⟩

theorem attrStep_covers (r : Attribute) (x : Entry) :
    (attrStep interner r x).unique.isSome = true → (attrStep interner r x).indexed = true := by
  intro h
  unfold attrStep at h ⊢
  dsimp only at h ⊢
  rw [h, Bool.or_true]

theorem attrStep_index {r : Attribute} {x : Entry} (hx : x.property = index) :
    (attrStep interner r x).indexed = (decide (x.value = some (.bool true)) || r.unique.isSome) ∧
      (attrStep interner r x).unique = r.unique := by
  have hrec : propertyRecord interner x.2.1.2 x.2.2 r = { r with indexed := x.value = some (.bool true) } := by
    unfold propertyRecord
    rw [show x.2.1.2 = index from hx]
    rfl
  unfold attrStep
  rw [hrec]
  exact ⟨rfl, rfl⟩

variable {r : Attribute} {xs : List Entry}

theorem attrStep_unique_other {x : Entry} (hx : x.property ≠ unique) : (attrStep interner r x).unique = r.unique := by
  have hx' : x.2.1.2 ≠ unique := hx
  unfold attrStep propertyRecord
  dsimp only
  split_ifs
  · split <;> rfl
  · split <;> rfl
  all_goals rfl

/-- Any other entry only adds coverage, for the uniqueness it leaves. -/
theorem attrStep_indexed {r : Attribute} {x : Entry} (hx : x.property ≠ index) :
    (attrStep interner r x).indexed = (r.indexed || (attrStep interner r x).unique.isSome) := by
  have hkeep : (propertyRecord interner x.2.1.2 x.2.2 r).indexed = r.indexed := by
    have hx' : x.2.1.2 ≠ index := hx
    unfold propertyRecord
    dsimp only
    split_ifs
    · split <;> rfl
    · split <;> rfl
    · split
      · rfl
      · split <;> rfl
    all_goals rfl
  show (_ || _) = _
  rw [hkeep]
  rfl

/-- Coverage is taken away only where no uniqueness needs it, from `r` on. -/
def Covered (interner : KeywordInterner) : Attribute → List Entry → Prop
  | _, [] => True
  | r, x :: xs => (x.property = index → x.value ≠ some (.bool true) → r.unique = none) ∧
      Covered interner (attrStep interner r x) xs

/-- A record after its entries. -/
def recordOf (interner : KeywordInterner) (r : Attribute) (xs : List Entry) : Attribute :=
  xs.foldl (attrStep interner) r

theorem recordOf_covers {xs : List Entry} {r : Attribute} (hr : r.unique.isSome = true → r.indexed = true) :
    (recordOf interner r xs).unique.isSome = true → (recordOf interner r xs).indexed = true := by
  induction xs generalizing r with
  | nil => exact hr
  | cons x xs ih => exact ih (attrStep_covers r x)

theorem recordOf_keeps_indexed {xs : List Entry} (hxs : ∀ x ∈ xs, x.property ≠ index) {r : Attribute}
    (hr : r.indexed = true) : (recordOf interner r xs).indexed = true := by
  induction xs generalizing r with
  | nil => exact hr
  | cons x xs ih =>
    refine ih (fun y hy => hxs y (mem_cons_of_mem _ hy)) ?_
    rw [attrStep_indexed (hxs x mem_cons_self), hr, Bool.true_or]

/-- Coverage after the entries, from a record `r'` that is as the first one was or
    as the entries leave it: the entries decide it from the last `:db/index` on. -/
theorem recordOf_indexed {r' : Attribute} (hcov : Covered interner r xs)
    (hu : r'.unique = r.unique ∨ r'.unique = (recordOf interner r xs).unique)
    (hi : (∃ x ∈ xs, x.property = index) ∨ r'.indexed = (recordOf interner r xs).indexed ∨
      (r'.unique = r.unique ∧ r'.indexed = r.indexed)) :
    (recordOf interner r' xs).indexed = (recordOf interner r xs).indexed := by
  induction xs generalizing r r' with
  | nil =>
    rcases hi with ⟨x, hx, -⟩ | hi | hi
    · cases hx
    · exact hi
    · exact hi.2
  | cons x xs ih =>
    have hcovers := @recordOf_covers interner xs (attrStep interner r x) (attrStep_covers r x)
    have hu' : (attrStep interner r' x).unique = (attrStep interner r x).unique ∨
        (attrStep interner r' x).unique = (recordOf interner (attrStep interner r x) xs).unique := by
      rcases (@attrStep_overwrites interner x).2.2.1 with ⟨c, hc⟩ | hkeep
      · exact .inl ((hc r').trans (hc r).symm)
      · rw [hkeep r', hkeep r]
        exact hu
    refine ih hcov.2 hu' ?_
    by_cases hrest : ∃ y ∈ xs, y.property = index
    · exact .inl hrest
    refine .inr ?_
    have hkeeps := @recordOf_keeps_indexed interner xs (fun y hy h => hrest ⟨y, hy, h⟩) (attrStep interner r x)
    by_cases hx : x.property = index
    · -- the last entry on coverage: what uniqueness adds to it, the entries add in the end
      obtain ⟨hri, hru⟩ := @attrStep_index interner r x hx
      obtain ⟨hri', hru'⟩ := @attrStep_index interner r' x hx
      by_cases hb : x.value = some (.bool true)
      · refine .inl ?_
        rw [hkeeps (by rw [hri, decide_eq_true hb, Bool.true_or]), hri', decide_eq_true hb, Bool.true_or]
      · have hnone := hcov.1 hx hb
        rcases hu' with hsame | hlast
        · exact .inr ⟨hsame, by rw [hri, hri', ← hru, ← hru', hsame]⟩
        · cases hlu : (recordOf interner (attrStep interner r x) xs).unique with
          | none =>
            rw [hlu] at hlast
            exact .inr ⟨by rw [hlast, hru, hnone], by rw [hri, hri', ← hru', hlast, hnone]⟩
          | some u =>
            refine .inl ?_
            rw [hcovers (by rw [hlu]; rfl), hri', ← hru', hlast, hlu]
            simp
    · have hri := @attrStep_indexed interner r x hx
      have hri' := @attrStep_indexed interner r' x hx
      rcases hi with ⟨y, hy, hyi⟩ | hi | hi
      · rcases mem_cons.mp hy with rfl | hy
        · exact absurd hyi hx
        · exact absurd ⟨y, hy, hyi⟩ hrest
      · -- no entry on coverage is left, so it can only be added, and what adds it is in the end result
        refine .inl ?_
        rw [hri', hi]
        cases hfinal : (recordOf interner (attrStep interner r x) xs).indexed with
        | true =>
          rw [show (recordOf interner r (x :: xs)).indexed = true from hfinal, Bool.true_or]
        | false =>
          rw [show (recordOf interner r (x :: xs)).indexed = false from hfinal, Bool.false_or]
          have hfu : (recordOf interner (attrStep interner r x) xs).unique.isSome = false :=
            Bool.eq_false_iff.mpr fun h => by rw [hcovers h] at hfinal; cases hfinal
          have hru : (attrStep interner r x).unique.isSome = false :=
            Bool.eq_false_iff.mpr fun h => by
              rw [hkeeps (by rw [hri, h, Bool.or_true])] at hfinal
              cases hfinal
          rcases hu' with hu' | hu' <;> rw [hu']
          exacts [hru, hfu]
      · have hsame : (attrStep interner r' x).unique = (attrStep interner r x).unique := by
          rcases (@attrStep_overwrites interner x).2.2.1 with ⟨c, hc⟩ | hkeep
          · exact (hc r').trans (hc r).symm
          · rw [hkeep r', hkeep r, hi.1]
        exact .inr ⟨hsame, by rw [hri', hri, hi.2, hsame]⟩

theorem recordOf_id (xs : List Entry) (r : Attribute) : (recordOf interner r xs).id = r.id := by
  induction xs generalizing r with
  | nil => rfl
  | cons x xs ih => exact (ih _).trans (attrStep_id r)

/-- A record's entries, taken again, leave it as it is. -/
theorem recordOf_recordOf (hcov : Covered interner r xs) :
    recordOf interner (recordOf interner r xs) xs = recordOf interner r xs := by
  have hid := @recordOf_id interner xs (recordOf interner r xs)
  have hover := fun x (_ : x ∈ xs) => @attrStep_overwrites interner x
  have hvt := foldl_foldl_overwrites (fun x hx => (hover x hx).1) r
  have hcard := foldl_foldl_overwrites (fun x hx => (hover x hx).2.1) r
  have hunique := foldl_foldl_overwrites (fun x hx => (hover x hx).2.2.1) r
  have hcomp := foldl_foldl_overwrites (fun x hx => (hover x hx).2.2.2.1) r
  have hhist := foldl_foldl_overwrites (fun x hx => (hover x hx).2.2.2.2) r
  have hindexed := recordOf_indexed hcov (.inr rfl) (.inr (.inl rfl))
  exact Attribute.mk.injEq .. ▸ ⟨hid, hvt, hcard, hunique, hcomp, hindexed, hhist⟩

end Record

/-! ## The attribute table -/

section Attributes

variable {interner : KeywordInterner} {schema : Schema}

/-- The entry describes the attribute `k`. -/
def Entry.about (k : EntityId) (x : Entry) : Bool := x.entity = k ∧ x.property ≠ ident

/-- A property is derived for an installed attribute or with the type that installs
    it, and coverage is taken away only where no uniqueness needs it. -/
def Accepts (interner : KeywordInterner) : Schema → List Entry → Prop
  | _, [] => True
  | schema, x :: xs => (x.property ≠ ident → ((schema.get x.entity).isSome = true ∨ Installs interner x) ∧
        (x.property = index → x.value ≠ some (.bool true) → ∀ r, schema.get x.entity = some r → r.unique = none)) ∧
      Accepts interner (deriveEntry interner schema x) xs

theorem Keyed.deriveAll (hs : Keyed schema) (xs : List Entry) : Keyed (deriveAll interner schema xs) := by
  induction xs generalizing schema with
  | nil => exact hs
  | cons x xs ih => exact ih hs.deriveEntry

theorem deriveEntry_get_about (hs : Keyed schema) {k : EntityId} {x : Entry} (hx : x.about k = true)
    (hi : (schema.get k).isSome = true ∨ Installs interner x) : (deriveEntry interner schema x).get k =
      some (attrStep interner ((schema.get k).getD (placeholder k)) x) := by
  simp only [Entry.about, decide_eq_true_eq] at hx
  rw [deriveEntry_get hs, if_pos ⟨hx.1, hx.2, hi⟩]

theorem deriveEntry_get_other (hs : Keyed schema) {k : EntityId} {x : Entry} (hx : x.about k = false) :
    (deriveEntry interner schema x).get k = schema.get k := by
  simp only [Entry.about, decide_eq_false_iff_not] at hx
  rw [deriveEntry_get hs, if_neg fun h => hx ⟨h.1, h.2.1⟩]

theorem deriveAll_get_some (hs : Keyed schema) {k : EntityId} {r : Attribute} (hr : schema.get k = some r)
    (xs : List Entry) :
    (deriveAll interner schema xs).get k = some (recordOf interner r (xs.filter (Entry.about k))) := by
  induction xs generalizing schema r with
  | nil => exact hr
  | cons x xs ih =>
    cases hx : x.about k with
    | true =>
      rw [filter_cons_of_pos hx]
      refine ih hs.deriveEntry ?_
      rw [deriveEntry_get_about hs hx (.inl (by rw [hr]; rfl)), hr]
      rfl
    | false =>
      rw [filter_cons_of_neg (by simp [hx])]
      exact ih hs.deriveEntry ((deriveEntry_get_other hs hx).trans hr)

variable {xs : List Entry}

theorem covered_of_accepts (hs : Keyed schema) {k : EntityId} {r : Attribute} (hr : schema.get k = some r)
    (hacc : Accepts interner schema xs) : Covered interner r (xs.filter (Entry.about k)) := by
  induction xs generalizing schema r with
  | nil => trivial
  | cons x xs ih =>
    cases hx : x.about k with
    | true =>
      have hx' := hx
      simp only [Entry.about, decide_eq_true_eq] at hx'
      rw [filter_cons_of_pos hx]
      refine ⟨fun hi hv => (hacc.1 hx'.2).2 hi hv r (hx'.1 ▸ hr), ih hs.deriveEntry ?_ hacc.2⟩
      rw [deriveEntry_get_about hs hx (.inl (by rw [hr]; rfl)), hr]
      rfl
    | false =>
      rw [filter_cons_of_neg (by simp [hx])]
      exact ih hs.deriveEntry ((deriveEntry_get_other hs hx).trans hr) hacc.2

/-- An attribute no entry describes is left alone. -/
theorem deriveAll_get_other (hs : Keyed schema) {k : EntityId}
    (hxs : ∀ x ∈ xs, x.about k = false) : (deriveAll interner schema xs).get k = schema.get k := by
  induction xs generalizing schema with
  | nil => rfl
  | cons x xs ih =>
    exact (ih hs.deriveEntry fun y hy => hxs y (mem_cons_of_mem _ hy)).trans
      (deriveEntry_get_other hs (hxs x mem_cons_self))

/-- Any other has the record its entries lead to, from a placeholder where they install it. -/
theorem deriveAll_get_about (hs : Keyed schema) (k : EntityId) (hacc : Accepts interner schema xs) :
    (∀ x ∈ xs, x.about k = false) ∨
      (Covered interner ((schema.get k).getD (placeholder k)) (xs.filter (Entry.about k)) ∧
        (deriveAll interner schema xs).get k =
          some (recordOf interner ((schema.get k).getD (placeholder k)) (xs.filter (Entry.about k)))) := by
  induction xs generalizing schema with
  | nil => exact .inl nofun
  | cons x xs ih =>
    cases hx : x.about k with
    | true =>
      have hx' := hx
      simp only [Entry.about, decide_eq_true_eq] at hx'
      have hinst := (hacc.1 hx'.2).1
      rw [hx'.1] at hinst
      have hget := deriveEntry_get_about hs hx hinst
      rw [filter_cons_of_pos hx]
      refine .inr ⟨⟨fun hi hv => ?_, covered_of_accepts hs.deriveEntry hget hacc.2⟩,
        deriveAll_get_some hs.deriveEntry hget xs⟩
      cases hr : schema.get k with
      | none => rfl
      | some r => exact (hacc.1 hx'.2).2 hi hv r (hx'.1 ▸ hr)
    | false =>
      have hother := @deriveEntry_get_other interner schema hs k x hx
      rw [filter_cons_of_neg (by simp [hx]), ← hother]
      exact (ih hs.deriveEntry hacc.2).imp_left fun h y hy => (mem_cons.mp hy).elim (fun e => e ▸ hx) (h y)

theorem deriveAll_deriveAll_get (hs : Keyed schema) (hacc : Accepts interner schema xs)
    (k : EntityId) : (deriveAll interner (deriveAll interner schema xs) xs).get k =
      (deriveAll interner schema xs).get k := by
  rcases deriveAll_get_about hs k hacc with hnone | ⟨hcov, hget⟩
  · exact deriveAll_get_other (hs.deriveAll xs) hnone
  · rw [deriveAll_get_some (hs.deriveAll xs) hget, hget, recordOf_recordOf hcov]

end Attributes

/-! ## Timelines -/

section Timelines

variable {interner : KeywordInterner} {schema : Schema} {k : EntityId}

/-- The entry sets the protection of `k`. -/
def Entry.protects (k : EntityId) (x : Entry) : Prop := x.entity = k ∧ x.property = protection

theorem deriveEntry_protection_same {x : Entry}
    (hx : x.protects k → (schema.protectionOf k).current = classOf x.value) :
    (deriveEntry interner schema x).protection[k]? = schema.protection[k]? := by
  rw [deriveEntry_tables.2.2.2, if_neg fun h => h.2.2 (hx ⟨h.1, h.2.1⟩)]

theorem deriveEntry_protection_pushed {x : Entry} (hx : x.protects k)
    (hc : (schema.protectionOf k).current ≠ classOf x.value) : ((deriveEntry interner schema x).protectionOf k).entries =
      (schema.protectionOf k).entries ++ [(x.1, classOf x.value)] := by
  unfold Schema.protectionOf
  rw [deriveEntry_tables.2.2.2, if_pos ⟨hx.1, hx.2, hc⟩]
  rfl

theorem protectionOf_congr {s s' : Schema} (h : s'.protection[k]? = s.protection[k]?) :
    s'.protectionOf k = s.protectionOf k := by
  unfold Schema.protectionOf
  rw [h]

/-- An entry on a timeline leaves its class current. -/
theorem deriveEntry_current {x : Entry} (hx : x.protects k) :
    ((deriveEntry interner schema x).protectionOf k).current = classOf x.value := by
  by_cases hc : (schema.protectionOf k).current = classOf x.value
  · rw [protectionOf_congr (deriveEntry_protection_same fun _ => hc), hc]
  · unfold ProtectionTimeline.current
    rw [deriveEntry_protection_pushed hx hc]
    simp

variable {xs : List Entry}

theorem deriveAll_protection_same (h : ∀ x ∈ xs, x.protects k → (schema.protectionOf k).current = classOf x.value) :
    (deriveAll interner schema xs).protection[k]? = schema.protection[k]? := by
  induction xs generalizing schema with
  | nil => rfl
  | cons x xs ih =>
    have hsame := @deriveEntry_protection_same interner schema k x (h x mem_cons_self)
    refine (ih fun y hy hp => ?_).trans hsame
    rw [protectionOf_congr hsame]
    exact h y (mem_cons_of_mem _ hy) hp

/-- Timelines only grow. -/
theorem deriveAll_entries_grow (xs : List Entry) :
    (schema.protectionOf k).entries <+: ((deriveAll interner schema xs).protectionOf k).entries := by
  induction xs generalizing schema with
  | nil => exact prefix_refl _
  | cons x xs ih =>
    refine List.IsPrefix.trans ?_ ih
    by_cases hx : x.protects k ∧ (schema.protectionOf k).current ≠ classOf x.value
    · rw [deriveEntry_protection_pushed hx.1 hx.2]
      exact prefix_append _ _
    · rw [protectionOf_congr (deriveEntry_protection_same fun hp => not_not.mp fun hc => hx ⟨hp, hc⟩)]

/-- A timeline that did not grow was set to its current class only. -/
theorem current_of_deriveAll_same (h : (deriveAll interner schema xs).protectionOf k = schema.protectionOf k) :
    ∀ x ∈ xs, x.protects k → (schema.protectionOf k).current = classOf x.value := by
  induction xs generalizing schema with
  | nil => exact nofun
  | cons x xs ih =>
    have hx : x.protects k → (schema.protectionOf k).current = classOf x.value := by
      intro hp
      by_contra hc
      have hlen := (@deriveAll_entries_grow interner (deriveEntry interner schema x) k xs).length_le
      rw [deriveEntry_protection_pushed hp hc, length_append, length_singleton] at hlen
      have heq : (((deriveAll interner schema (x :: xs)).protectionOf k).entries).length =
        (schema.protectionOf k).entries.length := by rw [h]
      change ((deriveAll interner (deriveEntry interner schema x) xs).protectionOf k).entries.length = _ at heq
      omega
    have hsame := protectionOf_congr (@deriveEntry_protection_same interner schema k x hx)
    intro y hy hp
    rcases mem_cons.mp hy with rfl | hy
    · exact hx hp
    · rw [← hsame]
      exact ih (h.trans hsame.symm) y hy hp

/-- Entries of one class leave it current. -/
theorem deriveAll_current {c : Option EntityId} (hc : ∀ x ∈ xs, x.protects k → classOf x.value = c)
    (h : (schema.protectionOf k).current = c ∨ ∃ x ∈ xs, x.protects k) :
    ((deriveAll interner schema xs).protectionOf k).current = c := by
  induction xs generalizing schema with
  | nil => exact h.resolve_right nofun
  | cons x xs ih =>
    refine ih (fun y hy => hc y (mem_cons_of_mem _ hy)) ?_
    by_cases hx : x.protects k
    · exact .inl ((deriveEntry_current hx).trans (hc x mem_cons_self hx))
    · rw [protectionOf_congr (deriveEntry_protection_same fun hp => absurd hp hx)]
      refine h.imp_right fun ⟨y, hy, hp⟩ => ?_
      rcases mem_cons.mp hy with rfl | hy
      · exact absurd hp hx
      · exact ⟨y, hy, hp⟩

/-- The entries set no attribute's protection to two different classes. -/
def OneClassEach (xs : List Entry) : Prop :=
  ∀ k, ∀ x ∈ xs, ∀ y ∈ xs, x.protects k → y.protects k → classOf x.value = classOf y.value

theorem deriveAll_deriveAll_protection_iff {xs : List Entry} :
    (∀ k : EntityId, (deriveAll interner (deriveAll interner schema xs) xs).protection[k]? =
      (deriveAll interner schema xs).protection[k]?) ↔ OneClassEach xs := by
  constructor
  · intro h k x hx y hy hxk hyk
    have hcur := current_of_deriveAll_same (protectionOf_congr (h k))
    exact (hcur x hx hxk).symm.trans (hcur y hy hyk)
  · intro h k
    refine deriveAll_protection_same fun x hx hxk => ?_
    exact deriveAll_current (fun y hy hyk => h k y hy x hx hyk hxk) (.inr ⟨x, hx, hxk⟩)

end Timelines

/-! ## The whole schema -/

theorem schema_ext {s s' : Schema} (hattrs : ∀ k, s.get k = s'.get k) (hclasses : s.classes = s'.classes)
    (hprot : ∀ k : EntityId, s.protection[k]? = s'.protection[k]?) (hdocs : ∀ k : EntityId, s.docs[k]? = s'.docs[k]?)
    (hretired : ∀ k, k ∈ s.retired ↔ k ∈ s'.retired) : s = s' := by
  obtain ⟨a, c, p, d, r⟩ := s
  obtain ⟨a', c', p', d', r'⟩ := s'
  obtain rfl : a = a' := ExtTreeMap.ext_getElem? hattrs
  obtain rfl : p = p' := ExtTreeMap.ext_getElem? hprot
  obtain rfl : d = d' := ExtTreeMap.ext_getElem? hdocs
  obtain rfl : r = r' := ExtTreeSet.ext_mem hretired
  obtain rfl : c = c' := hclasses
  rfl

/-- Deriving again from the same entries: the same schema exactly when no attribute
    was given two classes. -/
theorem deriveAll_deriveAll_iff {interner : KeywordInterner} {schema : Schema} (hs : Keyed schema) {xs : List Entry}
    (hacc : Accepts interner schema xs) :
    deriveAll interner (deriveAll interner schema xs) xs = deriveAll interner schema xs ↔ OneClassEach xs := by
  rw [← @deriveAll_deriveAll_protection_iff interner schema]
  constructor
  · intro h k
    rw [h]
  · intro hprot
    refine schema_ext (deriveAll_deriveAll_get hs hacc) ?_ hprot (fun k => ?_) fun k => ?_
    · exact foldl_foldl_overwrites (π := Schema.classes) (fun x _ => .inr fun s => deriveEntry_tables.1) schema
    · refine foldl_foldl_overwrites (π := fun s : Schema => s.docs[k]?) (fun x _ => ?_) schema
      by_cases hx : x.entity = k ∧ x.property = doc
      · exact .inl ⟨docOf x.value, fun s => (deriveEntry_tables.2.1 k).trans (if_pos hx)⟩
      · exact .inr fun s => (deriveEntry_tables.2.1 k).trans (if_neg hx)
    · refine iff_of_eq (foldl_foldl_overwrites (π := fun s : Schema => k ∈ s.retired) (fun x _ => ?_) schema)
      by_cases hx : x.entity = k ∧ x.property = retired
      · exact .inl ⟨x.value = some (.bool true), fun s => propext ((deriveEntry_tables.2.2.1 k).trans (by rw [if_pos hx]))⟩
      · exact .inr fun s => propext ((deriveEntry_tables.2.2.1 k).trans (by rw [if_neg hx]))

/-! ## Planned transactions -/

/-- The entries of the transaction at basis `t`, in (entity, property) order. -/
def entriesOf (t : Nat) (datoms : List Datom) : List Entry := (finalValues datoms).toList.map fun x => (t, x)

theorem deriveSchema_eq_deriveAll (interner : KeywordInterner) (schema : Schema) (t : Nat) (datoms : List Datom) :
    deriveSchema schema interner t datoms = deriveAll interner schema (entriesOf t datoms) := by
  unfold deriveSchema deriveAll entriesOf
  rw [foldl_map]
  rfl

theorem mem_entriesOf {t : Nat} {datoms : List Datom} {x : Entry} :
    x ∈ entriesOf t datoms ↔ x.1 = t ∧ (finalValues datoms)[(x.entity, x.property)]? = some x.value := by
  obtain ⟨t', ⟨e, a⟩, v⟩ := x
  unfold entriesOf Entry.entity Entry.property Entry.value
  simp only [mem_map, Prod.mk.injEq]
  constructor
  · rintro ⟨y, hy, rfl, rfl⟩
    exact ⟨rfl, ExtTreeMap.mem_toList_iff_getElem?_eq_some.mp hy⟩
  · rintro ⟨rfl, h⟩
    exact ⟨_, ExtTreeMap.mem_toList_iff_getElem?_eq_some.mpr h, rfl, rfl⟩

/-- What a planned schema transaction is, against the schema it is planned for: a
    new attribute comes with a type that can be read, and coverage is asked off
    only with the uniqueness gone. -/
structure Planned (interner : KeywordInterner) (schema : Schema) (datoms : List Datom) : Prop where
  installs : ∀ {e a v}, (finalValues datoms)[(e, a)]? = some v → a ≠ ident → schema.get e = none →
    ∃ v', (finalValues datoms)[(e, valueType)]? = some v' ∧
      ((v'.bind (keywordOf interner)).bind valueTypeOf).isSome = true
  covers : ∀ {e v}, (finalValues datoms)[(e, index)]? = some v → v ≠ some (.bool true) →
    (finalValues datoms)[(e, unique)]? = some none ∨
      ((finalValues datoms)[(e, unique)]? = none ∧ ∀ r, schema.get e = some r → r.unique = none)

section Planned

variable {interner : KeywordInterner} {schema : Schema}
variable {xs : List Entry}

theorem accepts_append {ys : List Entry} (h : Accepts interner schema xs)
    (h' : Accepts interner (deriveAll interner schema xs) ys) : Accepts interner schema (xs ++ ys) := by
  induction xs generalizing schema with
  | nil => exact h'
  | cons x xs ih => exact ⟨h.1, ih h.2 h'⟩

/-- An attribute some entry installs, or that was there, is there after. -/
theorem deriveAll_get_isSome (hs : Keyed schema) {k : EntityId}
    (h : (schema.get k).isSome = true ∨ ∃ x ∈ xs, x.about k = true ∧ Installs interner x) :
    ((deriveAll interner schema xs).get k).isSome = true := by
  induction xs generalizing schema with
  | nil => exact h.resolve_right nofun
  | cons x xs ih =>
    refine ih hs.deriveEntry ?_
    rw [deriveEntry_get hs]
    rcases h with h | ⟨y, hy, hk, hi⟩
    · split
      · exact .inl rfl
      · exact .inl h
    · rcases mem_cons.mp hy with rfl | hy
      · simp only [Entry.about, decide_eq_true_eq] at hk
        rw [if_pos ⟨hk.1, hk.2, .inr hi⟩]
        exact .inl rfl
      · exact .inr ⟨y, hy, hk, hi⟩

/-- A record whose uniqueness was only cleared is not unique. -/
theorem recordOf_unique_none {r : Attribute} (hxs : ∀ x ∈ xs, x.property = unique → x.value = none)
    (h : r.unique = none ∨ ∃ x ∈ xs, x.property = unique) : (recordOf interner r xs).unique = none := by
  induction xs generalizing r with
  | nil => exact h.resolve_right nofun
  | cons x xs ih =>
    refine ih (fun y hy => hxs y (mem_cons_of_mem _ hy)) ?_
    by_cases hx : x.property = unique
    · refine .inl ?_
      have hv : x.2.2 = none := hxs x mem_cons_self hx
      unfold attrStep propertyRecord
      rw [show x.2.1.2 = unique from hx, hv]
      rfl
    · rcases h with h | ⟨y, hy, hu⟩
      · exact .inl ((attrStep_unique_other hx).trans h)
      · rcases mem_cons.mp hy with rfl | hy
        · exact absurd hu hx
        · exact .inr ⟨y, hy, hu⟩

theorem entriesOf_sorted (t : Nat) (datoms : List Datom) :
    (entriesOf t datoms).Pairwise fun x y => compare x.2.1 y.2.1 = .lt := by
  unfold entriesOf
  rw [pairwise_map]
  exact ExtTreeMap.ordered_keys_toList

/-- Of the properties of one entity the type comes first, and uniqueness before coverage. -/
theorem compare_property {e : EntityId} {a b : AttrId} (h : compare (e, a) (e, b) = .lt) : compare a b = .lt := by
  have hlex : compare (e, a) (e, b) = (compare e e).then (compare a b) := rfl
  rwa [hlex, compare_same, Ordering.then] at h

theorem not_before_valueType {a : AttrId} (ha : isSchemaAttribute a = true) (hne : a ≠ ident) :
    compare a valueType ≠ .lt := by
  simp only [isSchemaAttribute, mem_cons, not_mem_nil, or_false, decide_eq_true_eq] at ha
  rcases ha with rfl | rfl | rfl | rfl | rfl | rfl | rfl | rfl | rfl | rfl
  · exact absurd rfl hne
  all_goals decide

/-- A planned transaction is accepted entry by entry. -/
theorem Planned.accepts {datoms : List Datom} (hs : Keyed schema) (h : Planned interner schema datoms) (t : Nat) :
    Accepts interner schema (entriesOf t datoms) := by
  suffices hpre : ∀ pre, pre <+: entriesOf t datoms → Accepts interner schema pre from hpre _ (prefix_refl _)
  intro pre
  induction pre using List.reverseRecOn with
  | nil => exact fun _ => trivial
  | append_singleton pre x ih =>
    rintro ⟨post, hpost⟩
    have hacc := ih ⟨x :: post, by rw [← hpost]; simp⟩
    have hsorted := entriesOf_sorted t datoms
    rw [← hpost, append_assoc, singleton_append, pairwise_append] at hsorted
    have hmem : ∀ {y}, y ∈ entriesOf t datoms → y ∈ pre ∨ y = x ∨ y ∈ post := by
      intro y hy
      rw [← hpost] at hy
      simpa [or_assoc] using hy
    have hentry : ∀ {y}, y ∈ pre ∨ y = x ∨ y ∈ post → y ∈ entriesOf t datoms := by
      intro y hy
      rw [← hpost]
      simpa [or_assoc] using hy
    have hlater : ∀ {y}, y ∈ post → compare x.2.1 y.2.1 = .lt := fun hy => (pairwise_cons.mp hsorted.2.1).1 _ hy
    have hx := mem_entriesOf.mp (hentry (.inr (.inl rfl)))
    refine accepts_append hacc ⟨fun hident => ⟨?_, fun hindex hv r hr => ?_⟩, trivial⟩
    · cases hget : schema.get x.entity with
      | some r => exact .inl (deriveAll_get_isSome hs (.inl (by rw [hget]; rfl)))
      | none =>
        obtain ⟨v, hvt, hread⟩ := h.installs hx.2 hident hget
        have hy : ((t, ((x.entity, valueType), v)) : Entry) ∈ entriesOf t datoms := mem_entriesOf.mpr ⟨rfl, hvt⟩
        rcases hmem hy with hy | hy | hy
        · refine .inl (deriveAll_get_isSome hs (.inr ⟨_, hy, ?_, rfl, hread⟩))
          simp [Entry.about, Entry.entity, Entry.property, show valueType ≠ ident by decide]
        · exact .inr (hy ▸ ⟨rfl, hread⟩)
        · have hmem' : (x.entity, x.property) ∈ finalValues datoms :=
            ExtTreeMap.mem_iff_isSome_getElem?.mpr (by rw [hx.2]; rfl)
          obtain ⟨d, -, hd, hkey⟩ := mem_finalValues hmem'
          have ha : d.a = x.property := congrArg (·.2) hkey
          have hlt : compare (x.entity, x.property) (x.entity, valueType) = .lt := hlater hy
          exact absurd (compare_property hlt) (not_before_valueType (ha ▸ hd) hident)
    · rw [hindex] at hx
      have huniq : ∀ y ∈ pre, y.about x.entity = true → y.property = unique →
          (finalValues datoms)[(x.entity, unique)]? = some y.value := by
        intro y hy hk hu
        simp only [Entry.about, decide_eq_true_eq] at hk
        have := (mem_entriesOf.mp (hentry (.inl hy))).2
        rwa [hk.1, hu] at this
      rcases h.covers hx.2 hv with hclear | ⟨hnone, hplain⟩
      · -- cleared in this transaction, before coverage is looked at
        have hy : ((t, ((x.entity, unique), none)) : Entry) ∈ pre := by
          rcases hmem (show (t, ((x.entity, unique), none)) ∈ _ from mem_entriesOf.mpr ⟨rfl, hclear⟩) with hy | hy | hy
          · exact hy
          · rw [← hy] at hindex
            exact absurd hindex (by decide : unique ≠ index)
          · have hlt : compare (x.entity, x.property) (x.entity, unique) = .lt := hlater hy
            rw [hindex] at hlt
            exact absurd (compare_property hlt) (by decide)
        have habout : Entry.about x.entity (t, ((x.entity, unique), none)) = true := by
          simp [Entry.about, Entry.entity, Entry.property, show unique ≠ ident by decide]
        rcases deriveAll_get_about hs x.entity hacc with hno | ⟨-, hget⟩
        · exact absurd (hno _ hy) (by simp [habout])
        · rw [hget] at hr
          cases hr
          refine recordOf_unique_none (fun y hy hu => ?_) (.inr ⟨_, mem_filter.mpr ⟨hy, habout⟩, rfl⟩)
          obtain ⟨hy, hk⟩ := mem_filter.mp hy
          exact Option.some.inj ((huniq y hy hk hu).symm.trans hclear)
      · rcases deriveAll_get_about hs x.entity hacc with hno | ⟨-, hget⟩
        · rw [deriveAll_get_other hs hno] at hr
          exact hplain r hr
        · rw [hget] at hr
          cases hr
          refine recordOf_unique_none (fun y hy hu => ?_) (.inl ?_)
          · obtain ⟨hy, hk⟩ := mem_filter.mp hy
            exact absurd ((huniq y hy hk hu).symm.trans hnone) nofun
          · cases hr0 : schema.get x.entity with
            | none => rfl
            | some r0 => exact hplain r0 hr0

end Planned

end Corium.SchemaDatoms
