/-
  Corium.Db.SchemaDatoms — deriving a schema and an ident registry from schema
  datoms (`crates/corium-db/src/schemadatoms.rs`).

  `finalValues` collapses a transaction's datoms to one value per (entity,
  attribute); `derive` folds the collapsed values, in (entity, attribute) order,
  names first. A transaction whose only vocabulary datoms are `:db/ident` leaves
  the schema alone (`deriveSchema_of_only_idents`).
-/

import Corium.Db.Bootstrap

namespace Corium.SchemaDatoms

open Corium.Core Corium.Bootstrap List

def touchesNaming (datoms : List Datom) : Bool := datoms.any fun d => isSchemaAttribute d.a

/-- On a db-partition entity the vocabulary is schema; elsewhere `:db/ident` is just a name. -/
def changesSchema (datoms : List Datom) : Bool :=
  datoms.any fun d => isSchemaAttribute d.a && d.e.inPartition .db

abbrev Resolved := Std.ExtTreeMap (EntityId × AttrId) (Option Value)

def finalValuesStep (resolved : Resolved) (d : Datom) : Resolved :=
  if isSchemaAttribute d.a then
    let slot := resolved[(d.e, d.a)]?.getD none
    resolved.insert (d.e, d.a) (if d.added then some d.v else if slot = some d.v then none else slot)
  else resolved

def finalValues (datoms : List Datom) : Resolved := datoms.foldl finalValuesStep ∅

def keywordOf (interner : KeywordInterner) : Value → Option Keyword
  | .keyword id => interner.resolve id
  | _ => none

def valueTypeOf (k : Keyword) : Option ValueType :=
  if k.name = "string" then some .str
  else if k.name = "long" then some .long
  else if k.name = "double" then some .double
  else if k.name = "boolean" then some .bool
  else if k.name = "instant" then some .instant
  else if k.name = "uuid" then some .uuid
  else if k.name = "keyword" then some .keyword
  else if k.name = "bytes" then some .bytes
  else if k.name = "ref" then some .ref
  else none

def cardinalityOf (k : Keyword) : Option Cardinality :=
  if k.name = "one" then some .one else if k.name = "many" then some .many else none

def uniqueOf (k : Keyword) : Option Unique :=
  if k.name = "identity" then some .identity else if k.name = "value" then some .value else none

/-- Names: the last name asserted for an entity is registered. -/
def deriveIdent (interner : KeywordInterner) (idents : Idents) (entry : (EntityId × AttrId) × Option Value) : Idents :=
  if entry.1.2 = ident then
    match entry.2.bind (keywordOf interner) with
    | some name => idents.insert name entry.1.1
    | none => idents
  else idents

/-- The typed placeholder of an entity with no attribute record yet. -/
def placeholder (entity : EntityId) : Attribute := simple entity .str

/-- One property of one attribute entity: the schema (for the properties kept
    beside the attribute table), the attribute's record, and whether it is
    installed. -/
def deriveProperty (interner : KeywordInterner) (t : Nat) (schema : Schema) (entity : EntityId)
    (property : AttrId) (value : Option Value) : Schema × Attribute × Bool :=
  let existing := schema.get entity
  let record := existing.getD (placeholder entity)
  let installed := existing.isSome
  let keyword := value.bind (keywordOf interner)
  if property = valueType then
    match keyword.bind valueTypeOf with
    | some vt => (schema, { record with valueType := vt }, true)
    | none => (schema, record, installed)
  else if property = cardinality then
    match keyword.bind cardinalityOf with
    | some c => (schema, { record with cardinality := c }, installed)
    | none => (schema, record, installed)
  else if property = unique then
    match value with
    | none => (schema, { record with unique := none }, installed)
    | some _ =>
      match keyword.bind uniqueOf with
      | some u => (schema, { record with unique := some u }, installed)
      -- an unreadable mode leaves the installed one in place
      | none => (schema, record, installed)
  else if property = index then (schema, { record with indexed := value = some (.bool true) }, installed)
  else if property = isComponent then (schema, { record with isComponent := value = some (.bool true) }, installed)
  else if property = noHistory then (schema, { record with noHistory := value = some (.bool true) }, installed)
  else if property = doc then
    (schema.setDoc entity (match value with | some (.str d) => some d | _ => none), record, installed)
  else if property = retired then (schema.setRetired entity (value = some (.bool true)), record, installed)
  else if property = protection then
    let cls := match value with | some (.ref c) => some c | _ => none
    let timeline := schema.protectionOf entity
    -- forward-only: the entry is appended at `t`, never edited in place
    if timeline.current ≠ cls then
      (schema.setProtection entity ⟨timeline.entries ++ [(t, cls)]⟩, record, installed)
    else (schema, record, installed)
  else (schema, record, installed)

/-- One collapsed value's effect on the schema; uniqueness implies AVET coverage. -/
def deriveAttribute (interner : KeywordInterner) (t : Nat) (schema : Schema)
    (entry : (EntityId × AttrId) × Option Value) : Schema :=
  if entry.1.2 = ident then schema
  else
    let (schema, record, installed) := deriveProperty interner t schema entry.1.1 entry.1.2 entry.2
    if installed then schema.insert { record with indexed := record.indexed || record.unique.isSome } else schema

def deriveIdents (idents : Idents) (interner : KeywordInterner) (datoms : List Datom) : Idents :=
  (finalValues datoms).toList.foldl (deriveIdent interner) idents

def deriveSchema (schema : Schema) (interner : KeywordInterner) (t : Nat) (datoms : List Datom) : Schema :=
  (finalValues datoms).toList.foldl (deriveAttribute interner t) schema

/-! ## What is collapsed -/

/-- One datom's effect on the collapsed value of its entity and attribute. -/
def slotStep (slot : Option (Option Value)) (d : Datom) : Option (Option Value) :=
  some (if d.added then some d.v else if slot.getD none = some d.v then none else slot.getD none)

/-- The datoms of one entity and one vocabulary attribute. -/
def slotDatoms (key : EntityId × AttrId) (datoms : List Datom) : List Datom :=
  datoms.filter fun d => isSchemaAttribute d.a ∧ (d.e, d.a) = key

/-- A collapsed value is decided by the datoms of its entity and attribute alone. -/
theorem finalValues_getElem? (datoms : List Datom) (key : EntityId × AttrId) :
    (finalValues datoms)[key]? = (slotDatoms key datoms).foldl slotStep none := by
  suffices hgen : ∀ (ds : List Datom) (r : Resolved),
      (ds.foldl finalValuesStep r)[key]? = (slotDatoms key ds).foldl slotStep r[key]? by
    have h := hgen datoms ∅
    rwa [Std.ExtTreeMap.getElem?_empty] at h
  intro ds
  induction ds with
  | nil => exact fun r => rfl
  | cons d ds ih =>
    intro r
    rw [foldl_cons, ih]
    unfold slotDatoms finalValuesStep
    by_cases hs : isSchemaAttribute d.a = true
    · by_cases hk : (d.e, d.a) = key
      · subst hk
        simp [hs, slotStep]
      · have hne : compare (d.e, d.a) key ≠ .eq := fun h => hk (Corium.Lib.eq_of_compare_eq h)
        simp [hs, hk, Std.ExtTreeMap.getElem?_insert, hne]
    · simp [hs]

variable {datoms : List Datom} {key : EntityId × AttrId}

theorem mem_slotDatoms {d : Datom} :
    d ∈ slotDatoms key datoms ↔ d ∈ datoms ∧ isSchemaAttribute d.a = true ∧ (d.e, d.a) = key := by
  simp [slotDatoms]

/-- A collapsed entry stands for a vocabulary datom of the transaction. -/
theorem mem_finalValues (h : key ∈ finalValues datoms) :
    ∃ d ∈ datoms, isSchemaAttribute d.a = true ∧ (d.e, d.a) = key := by
  have hsome := Std.ExtTreeMap.mem_iff_isSome_getElem?.mp h
  rw [finalValues_getElem?] at hsome
  rcases hds : slotDatoms key datoms with _ | ⟨d, ds⟩
  · rw [hds] at hsome
    cases hsome
  · exact ⟨d, mem_slotDatoms.mp (hds ▸ mem_cons_self)⟩

/-- What is retracted and never asserted is cleared. -/
theorem finalValues_retracted
    (h : ∀ d ∈ slotDatoms key datoms, d.added = false) (hne : slotDatoms key datoms ≠ []) :
    (finalValues datoms)[key]? = some none := by
  rw [finalValues_getElem?]
  have hstep : ∀ ds : List Datom, (∀ d ∈ ds, d.added = false) → ∀ slot : Option (Option Value), slot.getD none = none →
      (ds.foldl slotStep slot).getD none = none := by
    intro ds hds
    induction ds with
    | nil => exact fun slot h => h
    | cons d ds ih =>
      intro slot hslot
      refine ih (fun x hx => hds x (mem_cons_of_mem _ hx)) _ ?_
      simp [slotStep, hds d mem_cons_self, hslot]
  rcases eq_nil_or_concat (slotDatoms key datoms) with hnil | ⟨ds, d, heq⟩
  · exact absurd hnil hne
  · rw [heq, concat_eq_append] at h ⊢
    rw [foldl_append]
    simp [slotStep, h d (by simp), hstep ds (fun x hx => h x (mem_append_left _ hx)) none rfl]

/-- What is only asserted has a value asserted. -/
theorem finalValues_asserted
    (h : ∀ d ∈ slotDatoms key datoms, d.added = true) (hne : slotDatoms key datoms ≠ []) :
    ∃ d ∈ slotDatoms key datoms, (finalValues datoms)[key]? = some (some d.v) := by
  rw [finalValues_getElem?]
  rcases eq_nil_or_concat (slotDatoms key datoms) with hnil | ⟨ds, d, heq⟩
  · exact absurd hnil hne
  · rw [heq, concat_eq_append] at h ⊢
    refine ⟨d, by simp, ?_⟩
    rw [foldl_append]
    simp [slotStep, h d (by simp)]

theorem deriveSchema_of_only_idents (schema : Schema) (interner : KeywordInterner) (t : Nat)
    (h : ∀ d ∈ datoms, isSchemaAttribute d.a = true → d.a = ident) :
    deriveSchema schema interner t datoms = schema := by
  have hkeys : ∀ entry ∈ (finalValues datoms).toList, entry.1.2 = ident := by
    intro entry hentry
    have hget : (finalValues datoms)[entry.1]? = some entry.2 :=
      Std.ExtTreeMap.mem_toList_iff_getElem?_eq_some.mp hentry
    have hmem : entry.1 ∈ finalValues datoms := Std.ExtTreeMap.mem_iff_isSome_getElem?.mpr (by rw [hget]; rfl)
    obtain ⟨d, hd, hs, hk⟩ := mem_finalValues hmem
    rw [← hk]
    exact h d hd hs
  unfold deriveSchema
  generalize (finalValues datoms).toList = entries at hkeys
  induction entries with
  | nil => rfl
  | cons entry entries ih =>
    have hstep : deriveAttribute interner t schema entry = schema := by
      unfold deriveAttribute
      rw [if_pos (hkeys entry mem_cons_self)]
    rw [foldl_cons, hstep]
    exact ih fun e he => hkeys e (mem_cons_of_mem _ he)

end Corium.SchemaDatoms
