/-
  Corium.Forms.SchemaTx — what a compiled schema plan writes.

  Every datom of a plan describes an attribute the plan adds, under a fresh id
  and with a type that can be read, or changes one property of an installed
  attribute a file may manage. A plan that takes coverage away takes uniqueness
  away with it, since a declaration that is unique is covered. So a compiled plan
  is a planned transaction in the sense of schema derivation (`compile_planned`),
  and it leaves the engine's own attributes alone (`compile_not_engine`).
-/

import Corium.Db.SchemaReplay
import Corium.Forms.SchemaPlan
import Corium.Lib.Counter

namespace Corium.Forms

open Corium.Core Corium.Lib List SchemaDatoms

/-! ## Installed attributes -/

variable {current : InstalledAttribute} {id : AttrId}

/-- An installed attribute is one of the schema, under the name its id has. -/
theorem installedSchema_some {db : Db} {ident : String} (h : (installedSchema db)[ident]? = some current) :
    ∃ id attr, db.schema.get id = some attr ∧ current = installedAttribute db id attr ∧ ident = installedIdent db id := by
  revert h
  unfold installedSchema
  apply List.foldlRecOn (motive := fun s : InstalledSchema => s[ident]? = some current →
    ∃ id attr, db.schema.get id = some attr ∧ current = installedAttribute db id attr ∧ ident = installedIdent db id)
  · simp
  · intro s hs x hx h
    rw [Std.ExtTreeMap.getElem?_insert] at h
    split at h
    · cases h
      exact ⟨x.1, x.2, Std.ExtTreeMap.mem_toList_iff_getElem?_eq_some.mp hx, rfl, (eq_of_compare_eq ‹_›).symm⟩
    · exact hs h

/-- Two names of one attribute are one name. -/
theorem installed_eq_of_id {db : Db} {ident ident' : String} {current' : InstalledAttribute}
    (h : (installedSchema db)[ident]? = some current) (h' : (installedSchema db)[ident']? = some current')
    (hid : current.id = current'.id) : ident = ident' := by
  obtain ⟨id, attr, -, rfl, rfl⟩ := installedSchema_some h
  obtain ⟨id', attr', -, rfl, rfl⟩ := installedSchema_some h'
  exact congrArg (installedIdent db) hid

/-! ## Steps of a plan -/

/-- What a plan's step stands for. -/
inductive StepOf (desired : DesiredSchema) (db : Db) (steps : List PlanStep) (step : PlanStep) : Prop where
  | add {d : DesiredAttribute} : step.kind = .add → desired.get step.ident = some d → StepOf desired db steps step
  | retire {current : InstalledAttribute} : step.kind = .retire → (installedSchema db)[step.ident]? = some current →
      current.engine = false → StepOf desired db steps step
  /-- One property that differs; every other one that does has its step too. -/
  | property {current : InstalledAttribute} {d : DesiredAttribute} {p : SchemaProperty} : step.kind = .property p →
      (installedSchema db)[step.ident]? = some current → desired.get step.ident = some d → current.engine = false →
      p.differs current d = true →
      (∀ q, SchemaProperty.differs current d q = true → ∃ step' ∈ steps, step'.ident = step.ident ∧ step'.kind = .property q) →
      StepOf desired db steps step

theorem propertyStep_ident (db : Db) (current : InstalledAttribute) (d : DesiredAttribute) (p : SchemaProperty) :
    (propertyStep db current d p).ident = current.ident ∧ (propertyStep db current d p).kind = .property p := by
  unfold propertyStep
  cases p <;> dsimp only <;> (try split_ifs) <;> (try split) <;> exact ⟨rfl, rfl⟩

theorem mem_propertySteps {db : Db} {d : DesiredAttribute} {step : PlanStep} :
    step ∈ propertySteps db current d ↔ ∃ p, SchemaProperty.differs current d p = true ∧ propertyStep db current d p = step := by
  unfold propertySteps
  simp only [mem_map, mem_filter]
  refine exists_congr fun p => and_congr_left fun _ => and_iff_right ?_
  cases p <;> simp

theorem planAgainst_steps {desired : DesiredSchema} {db : Db} {prune : Bool} {steps : List PlanStep}
    (h : planAgainst desired db (installedSchema db) prune = .ok steps) {step : PlanStep} (hstep : step ∈ steps) :
    StepOf desired db steps step := by
  unfold planAgainst at h
  simp only [bind_eq_ok, pure_eq_ok] at h
  obtain ⟨declared, hdeclared, rfl⟩ := h
  have hmem : ∀ {s}, s ∈ List.insertionSort (fun a b : PlanStep => a.key ≤ b.key) (declared.flatten ++
      if prune then pruneSteps desired db (installedSchema db) else []) ↔
      s ∈ declared.flatten ∨ s ∈ if prune then pruneSteps desired db (installedSchema db) else [] := by
    intro s
    rw [mem_insertionSort, mem_append]
  rcases hmem.mp hstep with hs | hs
  · obtain ⟨part, hpart, hs⟩ := mem_flatten.mp hs
    obtain ⟨⟨ident, d⟩, hd, hsteps⟩ := mem_of_mapM_ok hdeclared part hpart
    have hget : desired.get ident = some d := Std.ExtTreeMap.mem_toList_iff_getElem?_eq_some.mp hd
    unfold declarationSteps at hsteps
    split at hsteps
    · cases hsteps
      rw [mem_singleton.mp hs]
      exact .add rfl hget
    · rename_i current hcurrent
      split at hsteps
      · cases hsteps
      · rename_i hengine
        split at hsteps
        · cases hsteps
          cases hs
        · cases hsteps
          obtain ⟨id, attr, -, rfl, rfl⟩ := installedSchema_some hcurrent
          obtain ⟨p, hp, rfl⟩ := mem_propertySteps.mp hs
          obtain ⟨hident, hkind⟩ := propertyStep_ident db (installedAttribute db id attr) d p
          refine .property hkind (hident ▸ hcurrent) (hident ▸ hget) (Bool.eq_false_iff.mpr hengine) hp fun q hq => ?_
          obtain ⟨hident', hkind'⟩ := propertyStep_ident db (installedAttribute db id attr) d q
          exact ⟨_, hmem.mpr (.inl (mem_flatten.mpr ⟨_, hpart, mem_propertySteps.mpr ⟨q, hq, rfl⟩⟩)),
            hident'.trans hident.symm, hkind'⟩
  · cases prune with
    | false => cases hs
    | true =>
      obtain ⟨current, hcurrent, rfl⟩ := mem_map.mp hs
      obtain ⟨hcurrent, hprune⟩ := mem_filter.mp hcurrent
      obtain ⟨⟨ident, current⟩, hmem, rfl⟩ := mem_map.mp hcurrent
      have hget := Std.ExtTreeMap.mem_toList_iff_getElem?_eq_some.mp hmem
      obtain ⟨id, attr, -, rfl, rfl⟩ := installedSchema_some hget
      exact .retire rfl hget (by simpa using (Bool.and_eq_true_iff.mp (Bool.and_eq_true_iff.mp hprune).1).1)

/-! ## Fresh ids -/

/-- `id` is past every attribute there is, and past the engine's. -/
structure FreeFrom (db : Db) (id : AttrId) : Prop where
  partition : id.inPartition .db = true
  engine : firstAttrId ≤ id.sequence
  past : ∀ {e attr}, db.schema.get e = some attr → e.inPartition .db = true → e.sequence < id.sequence

theorem FreeFrom.get {db : Db} (h : FreeFrom db id) : db.schema.get id = none := by
  cases hget : db.schema.get id with
  | none => rfl
  | some attr => exact absurd (h.past hget h.partition) (Nat.lt_irrefl _)

theorem FreeFrom.not_engine {db : Db} (h : FreeFrom db id) : isEngineAttribute id = false := by
  unfold isEngineAttribute
  rw [decide_eq_false (Nat.not_lt.mpr h.engine), Bool.and_false]

theorem new_inPartition (p : Partition) (n : Nat) : (EntityId.new p.id n).inPartition p = true := by
  unfold EntityId.inPartition
  rw [EntityId.new_partition n (by cases p <;> decide)]
  simp

/-- The next id is past every db-partition id that is looked at. -/
theorem nextAttributeId_past {db : Db} {installed : InstalledSchema} {id : AttrId}
    (h : nextAttributeId db installed = .ok id) {e : EntityId} (hdb : e.inPartition .db = true)
    (he : e ∈ db.schema.attrs.toList.map (·.1) ++ db.schema.classes.toList.map (·.1) ++
      db.idents.byKeyword.toList.map (·.2) ++ installed.toList.map (·.2.id)) : e.sequence < id.sequence := by
  unfold nextAttributeId at h
  dsimp only at h
  generalize db.schema.attrs.toList.map (·.1) ++ db.schema.classes.toList.map (·.1) ++
    db.idents.byKeyword.toList.map (·.2) ++ installed.toList.map (·.2.id) = ids at h he
  have hmax := foldl_max_le_iff.mp (Nat.le_refl
    (((ids.filter fun id => id.inPartition .db).map fun id => id.sequence + 1).foldl max firstAttrId))
  generalize ((ids.filter fun id => id.inPartition .db).map fun id => id.sequence + 1).foldl max firstAttrId = highest
    at h hmax
  split at h
  case isTrue => cases h
  case isFalse hseq =>
    cases h
    rw [not_not.mp hseq]
    exact hmax.2 _ (mem_map.mpr ⟨e, mem_filter.mpr ⟨he, hdb⟩, rfl⟩)

theorem nextAttributeId_free {db : Db} {installed : InstalledSchema}
    (h : nextAttributeId db installed = .ok id) : FreeFrom db id := by
  have hpast := fun {e} => @nextAttributeId_past db installed id h e
  unfold nextAttributeId at h
  dsimp only at h
  have hmin := (foldl_max_le_iff.mp (Nat.le_refl (List.foldl max firstAttrId (List.map (fun id => id.sequence + 1)
    (List.filter (fun id => id.inPartition .db) (db.schema.attrs.toList.map (·.1) ++ db.schema.classes.toList.map (·.1) ++
      db.idents.byKeyword.toList.map (·.2) ++ installed.toList.map (·.2.id))))))).1
  split at h
  case isTrue => cases h
  case isFalse hseq =>
    cases h
    refine ⟨new_inPartition .db _, by rw [not_not.mp hseq]; exact hmin, fun {e attr} hget hdb => hpast hdb ?_⟩
    simp only [mem_append, mem_map]
    exact .inl (.inl (.inl ⟨(e, attr), Std.ExtTreeMap.mem_toList_iff_getElem?_eq_some.mpr hget, rfl⟩))

theorem FreeFrom.advance {db : Db} {id' : AttrId} (h : FreeFrom db id) (hadv : advanceId id = .ok id') :
    FreeFrom db id' := by
  unfold advanceId at hadv
  dsimp only at hadv
  split at hadv
  · cases hadv
  · rename_i hseq
    cases hadv
    rw [not_not] at hseq
    have hpart : id.partition = Partition.db.id := by simpa [EntityId.inPartition] using h.partition
    refine ⟨?_, by rw [hseq]; exact Nat.le_succ_of_le h.engine, fun hget hdb => ?_⟩
    · rw [hpart]
      exact new_inPartition .db _
    · rw [hseq]
      exact Nat.lt_succ_of_lt (h.past hget hdb)

/-! ## Names minted -/

/-- A value type the interner can read. -/
def ReadableType (interner : KeywordInterner) (v : Value) : Prop :=
  ((keywordOf interner v).bind valueTypeOf).isSome = true

variable {i j : KeywordInterner}

theorem ReadableType.mono (hij : i.Extends j) {v : Value} (h : ReadableType i v) : ReadableType j v := by
  cases v with
  | keyword id =>
    cases hk : i.resolve id with
    | none => simp [ReadableType, keywordOf, hk] at h
    | some k => simpa [ReadableType, keywordOf, hk, hij.resolve hk] using h
  | _ => cases h

theorem keywordValue_extends (i : KeywordInterner) (k : Keyword) : i.Extends (keywordValue i k).2 :=
  KeywordInterner.intern_extends i k

theorem valueTypeValue_readable (i : KeywordInterner) (t : ValueType) (hlen : (valueTypeValue i t).2.len ≤ 2 ^ 64) :
    ReadableType (valueTypeValue i t).2 (valueTypeValue i t).1 := by
  have hresolve := KeywordInterner.resolve_intern (i := i) ⟨some "db.type", valueTypeName t⟩ hlen
  have hkeyword : keywordOf (valueTypeValue i t).2 (valueTypeValue i t).1 =
      some ⟨some "db.type", valueTypeName t⟩ := hresolve
  unfold ReadableType
  rw [hkeyword]
  cases t <;> decide

theorem KeywordInterner.Extends.len_le (h : i.Extends j) : i.len ≤ j.len :=
  List.IsPrefix.length_le h

/-! ## What a step writes -/

section Steps

variable {tx : TxId} {db : Db} {interner : KeywordInterner}

/-- An installation: assertions on the new id, with a type that can be read and
    coverage only switched on. -/
structure InstallDatoms (id : AttrId) (interner : KeywordInterner) (ds : List Datom) : Prop where
  entity : ∀ x ∈ ds, x.e = id ∧ x.added = true
  typed : ∃ x ∈ ds, x.a = Bootstrap.valueType
  readable : ∀ x ∈ ds, x.a = Bootstrap.valueType → ReadableType interner x.v
  index : ∀ x ∈ ds, x.a = Bootstrap.index → x.v = .bool true

theorem installCardinality_spec (id : AttrId) (d : DesiredAttribute) :
    interner.Extends (installCardinality tx id d interner).2 ∧
      ∀ x ∈ (installCardinality tx id d interner).1, ∃ v, x = assertFact tx id Bootstrap.cardinality v := by
  unfold installCardinality
  split
  · exact ⟨keywordValue_extends _ _, fun x hx => ⟨_, mem_singleton.mp hx⟩⟩
  · exact ⟨.refl _, nofun⟩

theorem installUnique_spec (id : AttrId) (d : DesiredAttribute) :
    interner.Extends (installUnique tx id d interner).2 ∧ ∀ x ∈ (installUnique tx id d interner).1,
      (∃ v, x = assertFact tx id Bootstrap.unique v) ∨ x = assertFact tx id Bootstrap.index (.bool true) := by
  unfold installUnique
  split
  · exact ⟨keywordValue_extends _ _, fun x hx => .inl ⟨_, mem_singleton.mp hx⟩⟩
  · refine ⟨.refl _, fun x hx => .inr ?_⟩
    split at hx
    · exact mem_singleton.mp hx
    · cases hx

variable {interner' : KeywordInterner} {d : DesiredAttribute} {ident : String} {ds : List Datom}
variable {id : AttrId}

/-- What an installation writes, one property after another. -/
theorem installAttribute_spec (h : installAttribute tx id d db interner ident = .ok (ds, interner')) :
    ∃ i name type, keywordValue interner d.ident = (name, i) ∧ (valueTypeValue i d.valueType).1 = type ∧
      (valueTypeValue i d.valueType).2.Extends interner' ∧ assertFact tx id Bootstrap.valueType type ∈ ds ∧
      ∀ x ∈ ds, x = assertFact tx id Bootstrap.ident name ∨ x = assertFact tx id Bootstrap.valueType type ∨
        x = assertFact tx id Bootstrap.index (.bool true) ∨
        ∃ a v, x = assertFact tx id a v ∧ a ≠ Bootstrap.ident ∧ a ≠ Bootstrap.valueType ∧ a ≠ Bootstrap.index := by
  unfold installAttribute at h
  dsimp only at h
  simp only [bind_eq_ok, pure_eq_ok, Prod.mk.injEq] at h
  obtain ⟨cls, -, hds, hi⟩ := h
  have hcard := @installCardinality_spec tx (valueTypeValue (keywordValue interner d.ident).2 d.valueType).2 id d
  have huniq := @installUnique_spec tx
    (installCardinality tx id d (valueTypeValue (keywordValue interner d.ident).2 d.valueType).2).2 id d
  refine ⟨(keywordValue interner d.ident).2, (keywordValue interner d.ident).1, _, rfl, rfl,
    hi ▸ hcard.1.trans huniq.1, ?_, ?_⟩
  · rw [← hds]
    simp
  · intro x hx
    rw [← hds] at hx
    simp only [mem_append, mem_cons, not_mem_nil, or_false] at hx
    have hother : ∀ {a v}, x = assertFact tx id a v → a ≠ Bootstrap.ident ∧ a ≠ Bootstrap.valueType ∧ a ≠ Bootstrap.index →
        ∃ a v, x = assertFact tx id a v ∧ a ≠ Bootstrap.ident ∧ a ≠ Bootstrap.valueType ∧ a ≠ Bootstrap.index :=
      fun hx ha => ⟨_, _, hx, ha⟩
    rcases hx with ((((((hx | hx) | hx) | hx) | hx) | hx) | hx) | hx
    · exact .inl hx
    · exact .inr (.inl hx)
    · obtain ⟨v, hx⟩ := hcard.2 x hx
      exact .inr (.inr (.inr (hother hx (by decide))))
    · rcases huniq.2 x hx with ⟨v, hx⟩ | hx
      · exact .inr (.inr (.inr (hother hx (by decide))))
      · exact .inr (.inr (.inl hx))
    · split at hx
      · exact .inr (.inr (.inr (hother (mem_singleton.mp hx) (by decide))))
      · cases hx
    · split at hx
      · exact .inr (.inr (.inr (hother (mem_singleton.mp hx) (by decide))))
      · cases hx
    · obtain ⟨doc, -, hx⟩ := mem_map.mp hx
      exact .inr (.inr (.inr (hother hx.symm (by decide))))
    · obtain ⟨cls, -, hx⟩ := mem_map.mp hx
      exact .inr (.inr (.inr (hother hx.symm (by decide))))

theorem installAttribute_ok (h : installAttribute tx id d db interner ident = .ok (ds, interner')) :
    interner.Extends interner' ∧ (interner'.len ≤ 2 ^ 64 → InstallDatoms id interner' ds) := by
  obtain ⟨i, name, type, hname, htype, hi', hmem, hds⟩ := installAttribute_spec h
  have hi : interner.Extends i := by
    have := keywordValue_extends interner d.ident
    rwa [hname] at this
  refine ⟨hi.trans ((keywordValue_extends _ _).trans hi'), fun hlen => ⟨fun x hx => ?_, ⟨_, hmem, rfl⟩, fun x hx ha => ?_,
    fun x hx ha => ?_⟩⟩
  · rcases hds x hx with rfl | rfl | rfl | ⟨a, v, rfl, -⟩ <;> exact ⟨rfl, rfl⟩
  · rcases hds x hx with rfl | rfl | rfl | ⟨a, v, rfl, -, hne, -⟩
    · exact absurd ha (by decide : Bootstrap.ident ≠ Bootstrap.valueType)
    · rw [← htype]
      exact (valueTypeValue_readable i d.valueType (Nat.le_trans (KeywordInterner.Extends.len_le hi') hlen)).mono hi'
    · exact absurd ha (by decide : Bootstrap.index ≠ Bootstrap.valueType)
    · exact absurd ha hne
  · rcases hds x hx with rfl | rfl | rfl | ⟨a, v, rfl, -, -, hne⟩
    · exact absurd ha (by decide : Bootstrap.ident ≠ Bootstrap.index)
    · exact absurd ha (by decide : Bootstrap.valueType ≠ Bootstrap.index)
    · rfl
    · exact absurd ha hne

theorem keywordOf_mono {i j : KeywordInterner} (hij : i.Extends j) {v : Value} {k : Keyword}
    (h : keywordOf i v = some k) : keywordOf j v = some k := by
  cases v with
  | keyword id => exact hij.resolve h
  | _ => cases h

/-- An installation names its attribute as declared. -/
theorem installAttribute_ident (h : installAttribute tx id d db interner ident = .ok (ds, interner'))
    (hlen : interner'.len ≤ 2 ^ 64) {x : Datom} (hx : x ∈ ds) (ha : x.a = Bootstrap.ident) :
    keywordOf interner' x.v = some d.ident := by
  obtain ⟨i, name, type, hname, -, hi', -, hds⟩ := installAttribute_spec h
  have hext : i.Extends interner' := (keywordValue_extends _ _).trans hi'
  rcases hds x hx with rfl | rfl | rfl | ⟨a, v, rfl, hne, -⟩
  · have hresolve := KeywordInterner.resolve_intern (i := interner) d.ident
    unfold keywordValue at hname
    cases hname
    exact keywordOf_mono hext (hresolve (Nat.le_trans (KeywordInterner.Extends.len_le hext) hlen))
  · exact absurd ha (by decide : Bootstrap.valueType ≠ Bootstrap.ident)
  · exact absurd ha (by decide : Bootstrap.index ≠ Bootstrap.ident)
  · exact absurd ha hne

theorem installedValue_extends (p : SchemaProperty) (current : InstalledAttribute) :
    interner.Extends (installedValue p current interner).2 := by
  cases p with
  | valueType => exact keywordValue_extends _ _
  | cardinality => exact keywordValue_extends _ _
  | unique =>
    unfold installedValue
    dsimp only
    split
    · exact keywordValue_extends _ _
    · exact .refl _
  | _ => exact .refl _

variable {p : SchemaProperty}

theorem desiredValue_extends {v : Option Value} (h : desiredValue p d db interner ident = .ok (v, interner')) :
    interner.Extends interner' := by
  cases p with
  | valueType => cases h
  | cardinality =>
    cases h
    exact keywordValue_extends _ _
  | unique =>
    unfold desiredValue at h
    dsimp only at h
    split at h
    · cases h
      exact keywordValue_extends _ _
    · cases h
      exact .refl _
  | protection =>
    unfold desiredValue at h
    cases hc : desiredClass db d ident with
    | error e => rw [hc] at h; cases h
    | ok cls =>
      rw [hc] at h
      cases h
      exact .refl _
  | _ =>
    cases h
    exact .refl _

/-- What a change of one property writes: about that property, and not about a type. -/
structure ChangeDatoms (p : SchemaProperty) (current : InstalledAttribute) (d : DesiredAttribute) (ds : List Datom) :
    Prop where
  type : p ≠ .valueType
  entity : ∀ x ∈ ds, x.e = current.id ∧ x.a = attributeOf p
  /-- Dropped uniqueness is retracted, and nothing asserted. -/
  unique : p = .unique → d.unique = none → (∀ x ∈ ds, x.added = false) ∧ (current.unique ≠ none → ds ≠ [])
  index : p = .index → d.indexed = true → current.indexed = false → ∀ x ∈ ds, x.added = true ∧ x.v = .bool true

theorem changeProperty_ok {current : InstalledAttribute}
   
    (h : changeProperty tx p current d db interner ident = .ok (ds, interner')) :
    interner.Extends interner' ∧ ChangeDatoms p current d ds := by
  unfold changeProperty at h
  dsimp only at h
  simp only [bind_eq_ok, pure_eq_ok, Prod.mk.injEq] at h
  obtain ⟨⟨desired, i⟩, hdesired, hds, hi⟩ := h
  dsimp only at hds hi
  subst hi
  refine ⟨(installedValue_extends p current).trans (desiredValue_extends hdesired), ?_, fun x hx => ?_,
    fun hp hu => ?_, fun hp hd hc => ?_⟩
  · rintro rfl
    cases hdesired
  · rw [← hds] at hx
    rcases mem_append.mp hx with hx | hx
    · obtain ⟨v, -, rfl⟩ := mem_map.mp hx
      exact ⟨rfl, rfl⟩
    · obtain ⟨v, -, rfl⟩ := mem_map.mp hx
      exact ⟨rfl, rfl⟩
  · subst hp
    unfold desiredValue at hdesired
    rw [hu] at hdesired
    cases hdesired
    refine ⟨fun x hx => ?_, fun hcur hnil => ?_⟩
    · rw [← hds] at hx
      rcases mem_append.mp hx with hx | hx
      · obtain ⟨v, -, rfl⟩ := mem_map.mp hx
        rfl
      · cases hx
    · obtain ⟨u, hu⟩ := Option.ne_none_iff_exists'.mp hcur
      rw [← hds] at hnil
      simp [installedValue, hu] at hnil
  · subst hp
    cases hdesired
    intro x hx
    rw [← hds] at hx
    simp only [installedValue, hc, hd, Bool.false_eq_true, if_false, reduceCtorEq, Option.toList_none,
      filter_nil, map_nil, nil_append, Option.toList_some, map_cons, mem_singleton] at hx
    rw [hx]
    exact ⟨rfl, rfl⟩

end Steps

/-! ## The whole transaction -/

section Compile

variable {tx : TxId} {desired : DesiredSchema} {db : Db} {steps : List PlanStep}

/-- Where a compiled datom comes from. -/
inductive DatomOf (desired : DesiredSchema) (db : Db) (steps : List PlanStep) (interner : KeywordInterner)
    (datoms : List Datom) (x : Datom) : Prop where
  | installed {id : AttrId} {ds : List Datom} : FreeFrom db id → InstallDatoms id interner ds → x ∈ ds →
      (∀ y ∈ ds, y ∈ datoms) → DatomOf desired db steps interner datoms x
  | retired {current : InstalledAttribute} {step : PlanStep} : (installedSchema db)[step.ident]? = some current →
      current.engine = false → x.e = current.id → x.a = Bootstrap.retired → DatomOf desired db steps interner datoms x
  | changed {step : PlanStep} {p : SchemaProperty} {current : InstalledAttribute} {d : DesiredAttribute} {ds : List Datom} :
      step ∈ steps → step.kind = .property p → (installedSchema db)[step.ident]? = some current →
      desired.get step.ident = some d → ChangeDatoms p current d ds → x ∈ ds →
      DatomOf desired db steps interner datoms x

/-- What some steps write: every datom comes from one of them, and a changed
    property's datoms are there. -/
structure StepsWrite (desired : DesiredSchema) (db : Db) (steps l : List PlanStep) (interner : KeywordInterner)
    (ds : List Datom) : Prop where
  origin : ∀ {final datoms}, interner.Extends final → final.len ≤ 2 ^ 64 → (∀ y ∈ ds, y ∈ datoms) →
    ∀ x ∈ ds, DatomOf desired db steps final datoms x
  changes : ∀ {step p current d}, step ∈ l → step.kind = .property p → (installedSchema db)[step.ident]? = some current →
    desired.get step.ident = some d → ∃ ds', ChangeDatoms p current d ds' ∧ ∀ x ∈ ds', x ∈ ds

theorem InstallDatoms.mono {id : AttrId} {i j : KeywordInterner} {ds : List Datom} (h : InstallDatoms id i ds)
    (hij : i.Extends j) : InstallDatoms id j ds :=
  ⟨h.entity, h.typed, fun x hx ha => (h.readable x hx ha).mono hij, h.index⟩

variable {c c' : Compiling} {step : PlanStep}

theorem compileStep_ok (hfree : FreeFrom db c.nextId) (hmem : step ∈ steps)
    (hstep : StepOf desired db steps step) (h : compileStep tx desired db (installedSchema db) c step = .ok c') :
    FreeFrom db c'.nextId ∧ c.interner.Extends c'.interner ∧
      ∃ ds, c'.datoms = c.datoms ++ ds ∧ StepsWrite desired db steps [step] c'.interner ds := by
  unfold compileStep at h
  simp only [bind_eq_ok, require_eq_ok] at h
  obtain ⟨_, -, h⟩ := h
  cases hstep with
  | add hkind hget =>
    rw [hkind, hget] at h
    simp only [bind_eq_ok, pure_eq_ok] at h
    obtain ⟨nextId, hnext, ⟨ds, interner⟩, hinstall, rfl⟩ := h
    obtain ⟨hext, hds⟩ := installAttribute_ok hinstall
    refine ⟨hfree.advance hnext, hext, ds, rfl, ⟨fun {final datoms} hfinal hlen hsub x hx => ?_,
      fun hs hk => ?_⟩⟩
    · have hlen' := Nat.le_trans (KeywordInterner.Extends.len_le hfinal) hlen
      exact .installed hfree ((hds hlen').mono hfinal) hx hsub
    · rw [mem_singleton.mp hs, hkind] at hk
      cases hk
  | retire hkind hget hengine =>
    rw [hkind] at h
    simp only [hget, pure_eq_ok] at h
    subst h
    refine ⟨hfree, .refl _, _, rfl, ⟨fun _ _ _ x hx => ?_, fun hs hk => ?_⟩⟩
    · rw [mem_singleton.mp hx]
      exact .retired hget hengine rfl rfl
    · rw [mem_singleton.mp hs, hkind] at hk
      cases hk
  | property hkind hcurrent hget hengine hdiffers hall =>
    rw [hkind] at h
    simp only [hcurrent, hget, bind_eq_ok, pure_eq_ok] at h
    obtain ⟨⟨ds, interner⟩, hchange, rfl⟩ := h
    obtain ⟨hext, hds⟩ := changeProperty_ok hchange
    refine ⟨hfree, hext, ds, rfl, ⟨fun _ _ _ x hx => .changed hmem hkind hcurrent hget hds hx, fun hs hk hc hd => ?_⟩⟩
    rw [mem_singleton.mp hs] at hk hc hd
    cases hkind.symm.trans hk
    cases hcurrent.symm.trans hc
    cases hget.symm.trans hd
    exact ⟨ds, hds, fun x hx => hx⟩

theorem compileSteps_ok {l : List PlanStep} (hfree : FreeFrom db c.nextId)
    (hl : ∀ step ∈ l, step ∈ steps ∧ StepOf desired db steps step)
    (h : l.foldlM (compileStep tx desired db (installedSchema db)) c = .ok c') : c.interner.Extends c'.interner ∧
      ∃ ds, c'.datoms = c.datoms ++ ds ∧ StepsWrite desired db steps l c'.interner ds := by
  induction l generalizing c with
  | nil =>
    rw [foldlM_nil, pure_eq_ok] at h
    subst h
    exact ⟨.refl _, [], by simp, ⟨fun _ _ _ => nofun, nofun⟩⟩
  | cons step l ih =>
    rw [foldlM_cons, bind_eq_ok] at h
    obtain ⟨c1, hstep, h⟩ := h
    obtain ⟨hmem, hof⟩ := hl step mem_cons_self
    obtain ⟨hfree1, hext1, ds1, hds1, hw1⟩ := compileStep_ok hfree hmem hof hstep
    obtain ⟨hext, ds, hds, hw⟩ := ih hfree1 (fun s hs => hl s (mem_cons_of_mem _ hs)) h
    refine ⟨hext1.trans hext, ds1 ++ ds, by rw [hds, hds1, append_assoc],
      ⟨fun {final datoms} hfinal hlen hsub x hx => ?_, fun {step' p current d} hs hk hc hd => ?_⟩⟩
    · rcases mem_append.mp hx with hx | hx
      · exact hw1.origin (hext.trans hfinal) hlen (fun y hy => hsub y (mem_append_left _ hy)) x hx
      · exact hw.origin hfinal hlen (fun y hy => hsub y (mem_append_right _ hy)) x hx
    · rcases mem_cons.mp hs with rfl | hs
      · obtain ⟨ds', hch, hin⟩ := hw1.changes (mem_singleton.mpr rfl) hk hc hd
        exact ⟨ds', hch, fun x hx => mem_append_left _ (hin x hx)⟩
      · obtain ⟨ds', hch, hin⟩ := hw.changes hs hk hc hd
        exact ⟨ds', hch, fun x hx => mem_append_right _ (hin x hx)⟩

variable {prune : Bool}

theorem compile_ok {interner interner' : KeywordInterner} {datoms : List Datom}
    (hplan : planAgainst desired db (installedSchema db) prune = .ok steps)
    (h : compile tx steps desired db (installedSchema db) interner = .ok (datoms, interner')) :
    interner.Extends interner' ∧ StepsWrite desired db steps steps interner' datoms := by
  unfold compile at h
  simp only [bind_eq_ok, pure_eq_ok, Prod.mk.injEq] at h
  obtain ⟨nextId, hnext, c, hc, rfl, rfl⟩ := h
  obtain ⟨hext, ds, hds, hw⟩ := compileSteps_ok (nextAttributeId_free hnext)
    (fun step hs => ⟨hs, planAgainst_steps hplan hs⟩) hc
  rw [hds, nil_append]
  exact ⟨hext, hw⟩

theorem installed_get {ident : String} {current : InstalledAttribute}
    (h : (installedSchema db)[ident]? = some current) : ∃ attr, db.schema.get current.id = some attr ∧
      current.unique = attr.unique ∧ (current.engine = false → isEngineAttribute current.id = false) := by
  obtain ⟨id, attr, hattr, rfl, -⟩ := installedSchema_some h
  exact ⟨attr, hattr, rfl, fun he => (Bool.or_eq_false_iff.mp he).1⟩

theorem attributeOf_inj {p q : SchemaProperty} (h : attributeOf p = attributeOf q) : p = q := by
  revert h
  cases p <;> cases q <;> decide

section Planned

variable {interner : KeywordInterner} {datoms : List Datom}
  (horigin : ∀ x ∈ datoms, DatomOf desired db steps interner datoms x)

include horigin

variable {x : Datom}

/-- What describes an entity the schema does not have belongs to its installation. -/
theorem installs_of_origin (hx : x ∈ datoms) (hnone : db.schema.get x.e = none) :
    ∃ y ∈ datoms, y.e = x.e ∧ y.a = Bootstrap.valueType := by
  cases horigin x hx with
  | installed _ hds hmem hsub =>
    obtain ⟨y, hy, ha⟩ := hds.typed
    exact ⟨y, hsub y hy, (hds.entity y hy).1.trans (hds.entity x hmem).1.symm, ha⟩
  | retired hget _ he =>
    obtain ⟨attr, hattr, -⟩ := installed_get hget
    rw [he, hattr] at hnone
    cases hnone
  | changed _ _ hget _ hds hmem =>
    obtain ⟨attr, hattr, -⟩ := installed_get hget
    rw [(hds.entity x hmem).1, hattr] at hnone
    cases hnone

theorem valueType_of_origin (hx : x ∈ datoms) (ha : x.a = Bootstrap.valueType) :
    x.added = true ∧ ReadableType interner x.v := by
  cases horigin x hx with
  | installed _ hds hmem _ => exact ⟨(hds.entity x hmem).2, hds.readable x hmem ha⟩
  | retired _ _ _ hret => exact absurd (ha.symm.trans hret) (by decide)
  | changed _ _ _ _ hds hmem =>
    exact absurd (attributeOf_inj (q := .valueType) ((hds.entity x hmem).2.symm.trans ha)) hds.type

/-- Of a property of an installed attribute, only its own step writes. -/
theorem changed_of_origin (hx : x ∈ datoms) {ident : String} {current : InstalledAttribute}
    (hcurrent : (installedSchema db)[ident]? = some current) (he : x.e = current.id) {p : SchemaProperty}
    (ha : x.a = attributeOf p) : ∃ step ∈ steps, step.ident = ident ∧ step.kind = .property p ∧
      ∃ d ds, desired.get ident = some d ∧ ChangeDatoms p current d ds ∧ x ∈ ds := by
  cases horigin x hx with
  | installed hfree hds hmem _ =>
    obtain ⟨attr, hattr, -⟩ := installed_get hcurrent
    rw [← he, (hds.entity x hmem).1, hfree.get] at hattr
    cases hattr
  | retired _ _ _ hret =>
    rw [ha] at hret
    exact absurd hret (by cases p <;> decide)
  | @changed step q current' d ds hstep hkind hget hd hds hmem =>
    obtain rfl : q = p := attributeOf_inj ((hds.entity x hmem).2.symm.trans ha)
    obtain rfl : step.ident = ident := installed_eq_of_id hget hcurrent ((hds.entity x hmem).1.symm.trans he)
    cases hget.symm.trans hcurrent
    exact ⟨step, hstep, rfl, hkind, d, ds, hd, hds, hmem⟩

/-- What asks coverage off is the step of a declaration without it. -/
theorem index_off_of_origin (hsteps : ∀ step ∈ steps, StepOf desired db steps step) (hx : x ∈ datoms)
    (ha : x.a = attributeOf .index) (hoff : ¬ (x.added = true ∧ x.v = .bool true)) :
    ∃ (step : PlanStep) (current : InstalledAttribute) (d : DesiredAttribute),
      (installedSchema db)[step.ident]? = some current ∧ desired.get step.ident = some d ∧
      (∀ q, SchemaProperty.differs current d q = true →
        ∃ step' ∈ steps, step'.ident = step.ident ∧ step'.kind = .property q) ∧
      current.id = x.e ∧ d.indexed = false := by
  cases horigin x hx with
  | installed _ hds hmem _ => exact absurd ⟨(hds.entity x hmem).2, hds.index x hmem ha⟩ hoff
  | retired _ _ _ hret => exact absurd (hret.symm.trans ha) (by decide)
  | @changed step p current d ds hstep hkind hget hd hds hmem =>
    obtain rfl : p = .index := attributeOf_inj ((hds.entity x hmem).2.symm.trans ha)
    cases hsteps step hstep with
    | add hk => rw [hkind] at hk; cases hk
    | retire hk => rw [hkind] at hk; cases hk
    | property hk hget' hd' _ hdiffers hall =>
      cases hkind.symm.trans hk
      cases hget.symm.trans hget'
      cases hd.symm.trans hd'
      refine ⟨step, current, d, hget, hd, hall, (hds.entity x hmem).1.symm, ?_⟩
      by_contra hon
      rw [Bool.not_eq_false] at hon
      refine hoff (hds.index rfl hon ?_ x hmem)
      unfold SchemaProperty.differs at hdiffers
      rw [hon] at hdiffers
      simpa using hdiffers

theorem not_engine_of_origin (hx : x ∈ datoms) (hsteps : ∀ step ∈ steps, StepOf desired db steps step) :
    isEngineAttribute x.e = false := by
  cases horigin x hx with
  | installed hfree hds hmem _ =>
    rw [(hds.entity x hmem).1]
    exact hfree.not_engine
  | retired hget hengine he =>
    obtain ⟨attr, -, -, hno⟩ := installed_get hget
    rw [he]
    exact hno hengine
  | @changed step p current d ds hstep hkind hget _ hds hmem =>
    obtain ⟨attr, -, -, hno⟩ := installed_get hget
    rw [(hds.entity x hmem).1]
    cases hsteps step hstep with
    | add hk => rw [hkind] at hk; cases hk
    | retire hk => rw [hkind] at hk; cases hk
    | property _ hget' _ hengine =>
      cases hget.symm.trans hget'
      exact hno hengine

end Planned

/-- A compiled plan, with anything beside the schema vocabulary, is a planned transaction. -/
theorem compile_planned {interner interner' final : KeywordInterner} {datoms rest : List Datom}
    (hplan : planAgainst desired db (installedSchema db) prune = .ok steps)
    (h : compile tx steps desired db (installedSchema db) interner = .ok (datoms, interner'))
    (hfinal : interner'.Extends final) (hlen : final.len ≤ 2 ^ 64)
    (hrest : ∀ d ∈ rest, Bootstrap.isSchemaAttribute d.a = false) :
    SchemaDatoms.Planned final db.schema (datoms ++ rest) := by
  obtain ⟨-, hw⟩ := compile_ok hplan h
  have horigin := hw.origin hfinal hlen fun y (hy : y ∈ datoms) => hy
  have hslot : ∀ {key x}, x ∈ slotDatoms key (datoms ++ rest) → x ∈ datoms ∧ (x.e, x.a) = key := by
    intro key x hx
    obtain ⟨hx, hs, hk⟩ := SchemaDatoms.mem_slotDatoms.mp hx
    rcases mem_append.mp hx with hx | hx
    · exact ⟨hx, hk⟩
    · rw [hrest x hx] at hs
      cases hs
  have hmem : ∀ {x}, x ∈ datoms → Bootstrap.isSchemaAttribute x.a = true →
      x ∈ slotDatoms (x.e, x.a) (datoms ++ rest) := fun hx hs =>
    SchemaDatoms.mem_slotDatoms.mpr ⟨mem_append_left _ hx, hs, rfl⟩
  have hne : ∀ {key v}, (finalValues (datoms ++ rest))[key]? = some v →
      slotDatoms key (datoms ++ rest) ≠ [] := by
    intro key v hv hnil
    rw [finalValues_getElem?, hnil] at hv
    cases hv
  constructor
  · intro e a v hv hident hnone
    obtain ⟨x, hx⟩ := exists_mem_of_ne_nil _ (hne hv)
    obtain ⟨hx, hkey⟩ := hslot hx
    have hxe : x.e = e := congrArg (·.1) hkey
    obtain ⟨y, hy, hye, hya⟩ := installs_of_origin horigin hx (by rw [hxe]; exact hnone)
    have hyslot := hmem hy (by rw [hya]; decide)
    rw [hye, hya, hxe] at hyslot
    have hval : ∀ z ∈ slotDatoms (e, Bootstrap.valueType) (datoms ++ rest),
        z.added = true ∧ ReadableType final z.v := by
      intro z hz
      obtain ⟨hz, hkey⟩ := hslot hz
      exact valueType_of_origin horigin hz (congrArg (·.2) hkey)
    obtain ⟨z, hz, hfin⟩ := finalValues_asserted (fun z hz => (hval z hz).1) (ne_nil_of_mem hyslot)
    exact ⟨some z.v, hfin, (hval z hz).2⟩
  · intro e v hv hfalse
    -- the datom that asks coverage off
    obtain ⟨x, hx, hoff⟩ : ∃ x ∈ slotDatoms (e, Bootstrap.index) (datoms ++ rest),
        ¬ (x.added = true ∧ x.v = .bool true) := by
      by_contra hall
      have hon : ∀ x ∈ slotDatoms (e, Bootstrap.index) (datoms ++ rest), x.added = true ∧ x.v = .bool true :=
        fun x hx => not_not.mp fun hn => hall ⟨x, hx, hn⟩
      obtain ⟨x, hx, hfin⟩ := finalValues_asserted (fun x hx => (hon x hx).1) (hne hv)
      rw [hv, (hon x hx).2] at hfin
      exact hfalse (Option.some.inj hfin)
    obtain ⟨hx, hkey⟩ := hslot hx
    have hxe : x.e = e := congrArg (·.1) hkey
    have hxa : x.a = attributeOf .index := congrArg (·.2) hkey
    obtain ⟨step, current, d, hcurrent, hd, hall, hcid, hcov⟩ :=
      index_off_of_origin horigin (fun step hs => planAgainst_steps hplan hs) hx hxa hoff
    rw [hxe] at hcid
    have hunique : d.unique = none := by
      cases hu : d.unique with
      | none => rfl
      | some u => rw [d.covered (by rw [hu]; rfl)] at hcov; cases hcov
    obtain ⟨attr, hattr, hcu, -⟩ := installed_get hcurrent
    -- whatever the plan writes about uniqueness retracts it
    have hretract : ∀ y ∈ slotDatoms (e, Bootstrap.unique) (datoms ++ rest), y.added = false := by
      intro y hy
      obtain ⟨hy, hkey⟩ := hslot hy
      obtain ⟨-, -, -, -, d', ds, hd', hds, hmem⟩ := changed_of_origin horigin hy hcurrent
        ((congrArg (·.1) hkey).trans hcid.symm) (p := .unique) (congrArg (·.2) hkey)
      cases hd.symm.trans hd'
      exact (hds.unique rfl hunique).1 y hmem
    by_cases hslots : slotDatoms (e, Bootstrap.unique) (datoms ++ rest) = []
    · refine .inr ⟨by rw [finalValues_getElem?, hslots]; rfl, fun r hr => ?_⟩
      rw [← hcid, hattr] at hr
      cases hr
      rw [← hcu]
      by_contra hcur
      obtain ⟨step', hstep', hident, hkind'⟩ := hall .unique (by simp [SchemaProperty.differs, hunique, hcur])
      obtain ⟨ds, hds, hsub⟩ := hw.changes hstep' hkind' (by rw [hident]; exact hcurrent) (by rw [hident]; exact hd)
      obtain ⟨y, hy⟩ := exists_mem_of_ne_nil _ ((hds.unique rfl hunique).2 hcur)
      obtain ⟨hye, hya⟩ := hds.entity y hy
      have hyslot := hmem (hsub y hy) (by rw [hya]; decide)
      rw [hye, hya, hcid, show attributeOf .unique = Bootstrap.unique from rfl, hslots] at hyslot
      cases hyslot
    · exact .inl (finalValues_retracted hretract hslots)

/-- The engine's attributes are not described. -/
theorem compile_not_engine {interner interner' : KeywordInterner} {datoms : List Datom}
    (hplan : planAgainst desired db (installedSchema db) prune = .ok steps)
    (h : compile tx steps desired db (installedSchema db) interner = .ok (datoms, interner'))
    (hlen : interner'.len ≤ 2 ^ 64) : ∀ x ∈ datoms, isEngineAttribute x.e = false := by
  obtain ⟨-, hw⟩ := compile_ok hplan h
  intro x hx
  exact not_engine_of_origin (hw.origin (.refl _) hlen fun y (hy : y ∈ datoms) => hy) hx
    fun step hs => planAgainst_steps hplan hs

theorem attributeOf_ne_ident (p : SchemaProperty) : attributeOf p ≠ Bootstrap.ident := by
  cases p <;> decide

/-- A plan adds what is not installed. -/
theorem planAgainst_add (hplan : planAgainst desired db (installedSchema db) prune = .ok steps)
    (hstep : step ∈ steps) (hkind : step.kind = .add) : (installedSchema db)[step.ident]? = none := by
  unfold planAgainst at hplan
  simp only [bind_eq_ok, pure_eq_ok] at hplan
  obtain ⟨declared, hdeclared, rfl⟩ := hplan
  rw [mem_insertionSort, mem_append] at hstep
  rcases hstep with hs | hs
  · obtain ⟨part, hpart, hs⟩ := mem_flatten.mp hs
    obtain ⟨⟨ident, d⟩, -, hsteps⟩ := mem_of_mapM_ok hdeclared part hpart
    unfold declarationSteps at hsteps
    split at hsteps
    · rename_i hnone
      cases hsteps
      rw [mem_singleton.mp hs]
      exact hnone
    · split_ifs at hsteps
      · cases hsteps
        cases hs
      · cases hsteps
        obtain ⟨p, -, rfl⟩ := mem_propertySteps.mp hs
        rw [(propertyStep_ident _ _ _ _).2] at hkind
        cases hkind
  · split at hs
    · obtain ⟨current, -, rfl⟩ := mem_map.mp hs
      cases hkind
    · cases hs

/-- Where a name a plan writes comes from. -/
def NamedByStep (desired : DesiredSchema) (steps : List PlanStep) (interner : KeywordInterner) (x : Datom) : Prop :=
  ∃ step ∈ steps, step.kind = .add ∧ ∃ d, desired.get step.ident = some d ∧
    ∀ final, interner.Extends final → final.len ≤ 2 ^ 64 → keywordOf final x.v = some d.ident

theorem compileStep_ident (hmem : step ∈ steps) (h : compileStep tx desired db (installedSchema db) c step = .ok c') :
    c.interner.Extends c'.interner ∧ ∃ ds, c'.datoms = c.datoms ++ ds ∧
      ∀ x ∈ ds, x.a = Bootstrap.ident → NamedByStep desired steps c'.interner x := by
  unfold compileStep at h
  simp only [bind_eq_ok, require_eq_ok] at h
  obtain ⟨_, -, h⟩ := h
  split at h
  · rename_i hkind
    split at h
    · cases h
    · rename_i d hget
      simp only [bind_eq_ok, pure_eq_ok] at h
      obtain ⟨nextId, -, ⟨ds, interner⟩, hinstall, rfl⟩ := h
      refine ⟨(installAttribute_ok hinstall).1, ds, rfl, fun x hx ha => ⟨step, hmem, hkind, d, hget, fun final hf hlen => ?_⟩⟩
      exact keywordOf_mono hf (installAttribute_ident hinstall
        (Nat.le_trans (KeywordInterner.Extends.len_le hf) hlen) hx ha)
  · split at h
    · cases h
    · rw [pure_eq_ok] at h
      subst h
      refine ⟨.refl _, _, rfl, fun x hx ha => ?_⟩
      rw [mem_singleton.mp hx] at ha
      exact absurd ha (by decide : Bootstrap.retired ≠ Bootstrap.ident)
  · split at h
    · cases h
    · split at h
      · cases h
      · simp only [bind_eq_ok, pure_eq_ok] at h
        obtain ⟨⟨ds, interner⟩, hchange, rfl⟩ := h
        obtain ⟨hext, hds⟩ := changeProperty_ok hchange
        refine ⟨hext, ds, rfl, fun x hx ha => ?_⟩
        rw [(hds.entity x hx).2] at ha
        exact absurd ha (attributeOf_ne_ident _)

/-- The names a plan writes are the idents of attributes it adds. -/
theorem compile_ident {interner interner' : KeywordInterner} {datoms : List Datom}
    (h : compile tx steps desired db (installedSchema db) interner = .ok (datoms, interner')) :
    ∀ x ∈ datoms, x.a = Bootstrap.ident → NamedByStep desired steps interner' x := by
  unfold compile at h
  simp only [bind_eq_ok, pure_eq_ok, Prod.mk.injEq] at h
  obtain ⟨nextId, -, c, hc, rfl, rfl⟩ := h
  refine foldlM_inv (P := fun c => ∀ x ∈ c.datoms, x.a = Bootstrap.ident → NamedByStep desired steps c.interner x)
    (fun step hstep c c' hall hc' => ?_) (forall_mem_nil _) hc
  obtain ⟨hext, ds, hds, hnew⟩ := compileStep_ident hstep hc'
  intro x hx ha
  rw [hds] at hx
  rcases mem_append.mp hx with hx | hx
  · obtain ⟨step', hs', hk, d, hd, hname⟩ := hall x hx ha
    exact ⟨step', hs', hk, d, hd, fun final hf => hname final (hext.trans hf)⟩
  · exact hnew x hx ha

end Compile

end Corium.Forms
