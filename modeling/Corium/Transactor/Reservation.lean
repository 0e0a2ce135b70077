/-
  Corium.Transactor.Reservation — what a sealed saga may write.

  A saga that reserves entities and attributes, sealed, promises to touch nothing
  else that is there already. The promise is kept step by step: each step is checked
  against the saga's entry in the parent (`stepRules`, `validateStep`). The registry
  validator refuses new reservations of a sealed saga and keeps its id, its seal and
  its blocks (`KeptSaga`), but not its reservations: they may be retracted, and an empty
  set binds nothing (`a_sealed_saga_writes_what_it_never_reserved`). A step is also
  never asked about entities outside the user partition.
-/

import Corium.Transactor.MergeUnion
import Corium.Transactor.SagaBlocks
import Corium.Tx.Branch

namespace Corium.Transactor

open Corium.Core Corium.Lib Corium.Tx Bootstrap List Saga

/-! ## The registry entry of an open saga -/

/-- A saga as it was opened: its seal, blocks and reservations. -/
structure Opened (start : Db) (saga : EntityId) (grants : List IdGrant) (reserves : List EntityId) : Prop where
  view : start.view = .current
  entry : ∃ entry, entryAt start saga = some entry ∧ entry.sealed = true ∧ entry.grants = grants ∧
    entry.reserves = reserves
  leased : grants ≠ []
  /-- A leased block is recorded whole. -/
  whole : ∀ g ∈ grants, g.part.isSome = true ∧ g.start.isSome = true ∧ g.length.isSome = true

/-- Nothing of `ds` is about (e, a). -/
def Untouched (ds : List Datom) (e : EntityId) (a : AttrId) : Prop := ∀ d ∈ ds, ¬ (d.e = e ∧ d.a = a)

variable {ds : List Datom} {d : Datom} {db : Db} {r : PreparedTx} {tx : TxId}

theorem Untouched.holds {xs : List Datom} {e : EntityId} {a : AttrId} (h : Untouched ds e a) (v : Value) :
    Corium.holds (xs ++ ds) (e, a, v) = Corium.holds xs (e, a, v) :=
  holds_append_of_ne fun d hd hfact => h d hd ⟨congrArg (·.1) hfact, congrArg (·.2.1) hfact⟩

/-- What the parent keeps of the saga as it was opened. -/
structure KeptSaga (start : Db) (saga : EntityId) (parent : Db) : Prop where
  view : parent.view = .current
  fixed : ∀ a ∈ [sagaId, sagaSealed, sagaIdGrants], ∀ v,
    parent.Holds (saga, a, v) ↔ start.Holds (saga, a, v)
  block : ∀ g ∈ refs start saga sagaIdGrants, ∀ a, isGrantAttribute a = true → ∀ v,
    parent.Holds (g, a, v) ↔ start.Holds (g, a, v)
  reserves : ∀ v, parent.Holds (saga, sagaReserves, v) → start.Holds (saga, sagaReserves, v)

theorem KeptSaga.refl {start : Db} (hv : start.view = .current) (saga : EntityId) : KeptSaga start saga start :=
  ⟨hv, fun _ _ _ => Iff.rfl, fun _ _ _ _ _ => Iff.rfl, fun _ h => h⟩

section Entry

variable {start parent : Db} {saga : EntityId} {grants : List IdGrant} {reserves : List EntityId}

/-- The entry read from the parent has the seal and the blocks it was opened with, and no new reservation. -/
theorem KeptSaga.entryAt (h : KeptSaga start saga parent) (ho : Opened start saga grants reserves) :
    ∃ entry, entryAt parent saga = some entry ∧ entry.sealed = true ∧ entry.grants = grants ∧
      ∀ x ∈ entry.reserves, x ∈ reserves := by
  obtain ⟨entry, hentry, hsealed, hgrants, hreserves⟩ := ho.entry
  have hvalues : ∀ a ∈ [sagaId, sagaSealed, sagaIdGrants],
      parent.values saga a = start.values saga a := fun a ha => Db.values_congr ho.view h.view (h.fixed a ha)
  have hid : Saga.field parent saga sagaId uuid = Saga.field start saga sagaId uuid := by
    unfold Saga.field
    rw [hvalues sagaId (by simp)]
  have hseal : Saga.field parent saga sagaSealed boolean =
      Saga.field start saga sagaSealed boolean := by
    unfold Saga.field
    rw [hvalues sagaSealed (by simp)]
  have hrefs : refs parent saga sagaIdGrants = refs start saga sagaIdGrants := by
    unfold refs
    rw [hvalues sagaIdGrants (by simp)]
  have hgrantAt : ∀ g ∈ refs start saga sagaIdGrants, grantAt parent g = grantAt start g := by
    intro g hg
    have hblock : ∀ a, isGrantAttribute a = true → parent.values g a = start.values g a := fun a ha =>
      Db.values_congr ho.view h.view (h.block g hg a ha)
    unfold grantAt Saga.field
    rw [hblock _ (by decide), hblock _ (by decide), hblock _ (by decide)]
  unfold Saga.entryAt at hentry
  obtain ⟨id, hfield, rfl⟩ := Option.map_eq_some_iff.mp hentry
  refine ⟨_, by unfold Saga.entryAt; rw [hid, hfield]; rfl, ?_, ?_, fun x hx => ?_⟩
  · show (Saga.field parent saga sagaSealed boolean).getD false = true
    rw [hseal]
    exact hsealed
  · show (refs parent saga sagaIdGrants).map (grantAt parent) = grants
    rw [hrefs, map_congr_left hgrantAt]
    exact hgrants
  · rw [← hreserves]
    exact (mem_refs ho.view).mpr (h.reserves _ ((mem_refs h.view).mp hx))

end Entry

/-! ## A transaction of the parent -/

/-- What the validator accepts of a sealed entry: its fixed fields stay, and it gets no reservation. -/
theorem validateUpdate_sealed {e : EntityId} {prior : SagaEntry} {status : Option SagaStatus}
    (h : validateUpdate prior (sagaWrites e ds) status = .ok ()) (hsealed : prior.sealed = true) :
    (∀ a ∈ fixedFields, Untouched ds e a) ∧ ∀ d ∈ ds, d.e = e → d.a = sagaReserves → d.added = false := by
  unfold validateUpdate at h
  simp only [bind_eq_ok, require_eq_ok] at h
  obtain ⟨_, hfixed, _, -, _, hreserves, -⟩ := h
  refine ⟨fun a ha d hd hda => ?_, fun d hd he ha => ?_⟩
  · have hsaga : isSagaAttribute a = true := by
      simp only [fixedFields, mem_cons, not_mem_nil, or_false] at ha
      rcases ha with rfl | rfl | rfl | rfl <;> decide
    obtain ⟨hnoadd, hnoretract⟩ := Bool.or_eq_false_iff.mp (rejectFirst_ok hfixed a ha)
    cases hadded : d.added with
    | true => exact Bool.eq_false_iff.mp hnoadd ((assertsField_iff hsaga).mpr ⟨d, hd, hda.1, hda.2, hadded⟩)
    | false => exact Bool.eq_false_iff.mp hnoretract ((retractsField_iff hsaga).mpr ⟨d, hd, hda.1, hda.2, hadded⟩)
  · cases hadded : d.added with
    | false => rfl
    | true => exact absurd ⟨hsealed, (assertsField_iff (by decide)).mpr ⟨d, hd, he, ha, hadded⟩⟩ hreserves

theorem validateSagas_entity (h : validateSagas db ds = .ok ()) (hd : d ∈ ds)
    (ha : isSagaAttribute d.a = true) : validateEntity db ds d.e = .ok () := by
  unfold validateSagas at h
  simp only [bind_eq_ok] at h
  obtain ⟨_, -, _, -, hall⟩ := h
  refine forM_ok hall d.e (mem_sortedEntities.mpr (mem_map.mpr ⟨d, ?_, rfl⟩))
  exact mem_filter.mpr ⟨hd, ha⟩

theorem validateSagas_grants (h : validateSagas db ds = .ok ()) (hd : d ∈ ds) :
    isGrantAttribute d.a = false ∧ d.a ≠ sagaIdGrants := by
  unfold validateSagas at h
  simp only [bind_eq_ok, require_eq_ok] at h
  exact h.choose_spec.1 d hd

/-- What an accepted transaction does to a sealed entry. -/
theorem prepare_sealed {items : List TxItem} {n : Nat}
    (h : prepare db items tx n = .ok r) {saga : EntityId} {entry : SagaEntry}
    (hentry : entryAt db saga = some entry) (hsealed : entry.sealed = true) :
    (∀ a ∈ fixedFields, Untouched r.datoms saga a) ∧
      ∀ d ∈ r.datoms, d.e = saga → d.a = sagaReserves → d.added = false := by
  have hval := (prepare_ok h).2.2
  -- either nothing of the entry is written, or its update was validated
  by_cases hwrites : ∃ d ∈ r.datoms, d.e = saga ∧ isSagaAttribute d.a = true
  · obtain ⟨d, hd, rfl, ha⟩ := hwrites
    have hentity := validateSagas_entity hval hd ha
    unfold validateEntity at hentity
    simp only [hentry] at hentity
    exact validateUpdate_sealed hentity hsealed
  · refine ⟨fun a ha d hd hda => hwrites ⟨d, hd, hda.1, ?_⟩, fun d hd he ha => absurd ⟨d, hd, he, ?_⟩ hwrites⟩
    · rw [hda.2]
      simp only [fixedFields, mem_cons, not_mem_nil, or_false] at ha
      rcases ha with rfl | rfl | rfl | rfl <;> decide
    · rw [ha]
      decide

section Parent

variable {start parent : Db} {saga : EntityId} {grants : List IdGrant} {reserves : List EntityId}
variable {a : AttrId} {e : EntityId}
variable {leased : List Datom}

/-- A pair that holds something gets no lease. -/
theorem LeasedWith.untouched {before : List Datom} (h : LeasedWith before leased)
    {v : Value} (hheld : holds before (e, a, v) = true) : Untouched leased e a := by
  rintro d hd ⟨rfl, rfl⟩
  rw [h.fresh d hd v] at hheld
  cases hheld

/-- What a transaction records is prepared, leased, or its instant. -/
theorem untouched_recordedAt {t : Nat} {instant : Int64} {prepared : List Datom}
    (hprepared : Untouched prepared e a) (hleased : Untouched leased e a) (ha : a ≠ txInstant) :
    Untouched (recordedAt t instant (prepared ++ leased)) e a := by
  obtain ⟨stamp, hrec, hstamp⟩ := recordedAt_cases t instant (prepared ++ leased)
  intro d hd hda
  rw [hrec] at hd
  rcases mem_append.mp hd with hd | hd
  · exact (mem_append.mp hd).elim (fun hd => hprepared d hd hda) fun hd => hleased d hd hda
  · rw [hstamp d hd] at hda
    exact ha hda.2.symm

theorem grantAttribute_cases (h : isGrantAttribute a = true) :
    a = sagaGrantPartition ∨ a = sagaGrantStart ∨ a = sagaGrantLength := by
  simpa [isGrantAttribute] using h

theorem exists_of_field {α : Type} {db : Db} (hv : db.view = .current)
    {parse : Value → Option α} (h : (Saga.field db e a parse).isSome = true) : ∃ v, db.Holds (e, a, v) := by
  obtain ⟨x, hx⟩ := Option.isSome_iff_exists.mp h
  obtain ⟨v, hhead, -⟩ := Option.bind_eq_some_iff.mp hx
  exact ⟨v, (Db.mem_values hv).mp (mem_of_mem_head? hhead)⟩

/-- Every pair of a leased block holds something. -/
theorem Opened.block (ho : Opened start saga grants reserves) {g : EntityId}
    (hg : g ∈ refs start saga sagaIdGrants) (ha : isGrantAttribute a = true) : ∃ v, start.Holds (g, a, v) := by
  obtain ⟨entry, hentry, -, hgrants, -⟩ := ho.entry
  have hmem : grantAt start g ∈ grants := by
    rw [← hgrants, grants_eq_leasedTo hentry]
    exact mem_map_of_mem hg
  obtain ⟨hpart, hstart, hlength⟩ := ho.whole _ hmem
  rcases grantAttribute_cases ha with rfl | rfl | rfl
  · exact exists_of_field ho.view hpart
  · exact exists_of_field ho.view hstart
  · exact exists_of_field ho.view hlength

theorem Opened.idGrants (ho : Opened start saga grants reserves) :
    ∃ v, start.Holds (saga, sagaIdGrants, v) := by
  obtain ⟨entry, hentry, -, hgrants, -⟩ := ho.entry
  rw [grants_eq_leasedTo hentry, leasedTo] at hgrants
  have hne : refs start saga sagaIdGrants ≠ [] := fun hnil => ho.leased (by rw [← hgrants, hnil]; rfl)
  obtain ⟨g, hg⟩ := exists_mem_of_ne_nil _ hne
  exact ⟨.ref g, (mem_refs ho.view).mp hg⟩

/-- An accepted transaction keeps what the parent has of the saga. -/
theorem KeptSaga.step (h : KeptSaga start saga parent) (ho : Opened start saga grants reserves) {items : List TxItem} {t n : Nat}
    {r : PreparedTx} {leased : List Datom} (hprep : prepare parent items (txId t) n = .ok r)
    (hl : LeasedWith (parent.recorded ++ r.datoms) leased) (instant : Int64) :
    KeptSaga start saga (parent.withTransactionAt t instant (r.datoms ++ leased)) := by
  obtain ⟨entry, hentry, hsealed, -, -⟩ := h.entryAt ho
  obtain ⟨hfixed, hreserves⟩ := prepare_sealed hprep hentry hsealed
  have hgrants := fun d hd => validateSagas_grants (prepare_ok hprep).2.2 (d := d) hd
  have hstands := step_stands h.view hprep hl instant
  have hsame : ∀ {e a}, Untouched (recordedAt t instant (r.datoms ++ leased)) e a → ∀ v,
      (parent.withTransactionAt t instant (r.datoms ++ leased)).Holds (e, a, v) ↔ parent.Holds (e, a, v) := by
    intro e a hun v
    rw [Db.Holds, hstands.recorded, hun.holds]
    rfl
  -- a lease is on other attributes, or on a pair that held nothing
  have hother : ∀ {e a}, isGrantAttribute a = false → a ≠ sagaIdGrants → Untouched leased e a := by
    rintro e a hng hni d hd ⟨-, rfl⟩
    rcases hl.attr d hd with ha | ha
    · exact hni ha
    · rw [hng] at ha
      cases ha
  have hheld : ∀ {e a v}, Untouched r.datoms e a → parent.Holds (e, a, v) → Untouched leased e a := fun hun hv =>
    hl.untouched ((hun.holds _).trans hv)
  refine ⟨hstands.view.trans h.view, fun a ha v => ?_, fun g hg a ha v => ?_, fun v hv => ?_⟩
  · rw [← h.fixed a ha v]
    refine hsame ?_ v
    simp only [mem_cons, not_mem_nil, or_false] at ha
    rcases ha with rfl | rfl | rfl
    · exact untouched_recordedAt (hfixed _ (by decide)) (hother (by decide) (by decide)) (by decide)
    · exact untouched_recordedAt (hfixed _ (by decide)) (hother (by decide) (by decide)) (by decide)
    · obtain ⟨x, hx⟩ := ho.idGrants
      have hun : Untouched r.datoms saga sagaIdGrants := fun d hd hda => (hgrants d hd).2 hda.2
      exact untouched_recordedAt hun (hheld hun ((h.fixed _ (by simp) x).mpr hx)) (by decide)
  · rw [← h.block g hg a ha v]
    obtain ⟨x, hx⟩ := ho.block hg ha
    have hun : Untouched r.datoms g a := fun d hd hda => by
      have := (hgrants d hd).1
      rw [hda.2, ha] at this
      cases this
    refine hsame (untouched_recordedAt hun (hheld hun ((h.block g hg a ha x).mpr hx)) ?_) v
    rcases grantAttribute_cases ha with rfl | rfl | rfl <;> decide
  · refine h.reserves v ?_
    rw [Db.Holds, hstands.recorded] at hv
    rcases holds_append_cases hv with ⟨d, hd, hfact, hadded⟩ | ⟨hold, -⟩
    · -- an assertion would have been refused
      have hde : d.e = saga := congrArg (·.1) hfact
      have hda : d.a = sagaReserves := congrArg (·.2.1) hfact
      obtain ⟨stamp, hrec, hstamp⟩ := recordedAt_cases t instant (r.datoms ++ leased)
      rw [hrec] at hd
      rcases mem_append.mp hd with hd | hd
      · rcases mem_append.mp hd with hd | hd
        · rw [hreserves d hd hde hda] at hadded
          cases hadded
        · exact absurd ⟨hde, hda⟩ (hother (by decide) (by decide) d hd)
      · rw [hstamp d hd] at hda
        exact absurd hda (by decide : ¬ txInstant = sagaReserves)
    · exact hold

end Parent

/-! ## Runs -/

/-- The parent, the branch over it, and everything the branch's steps recorded. -/
structure SagaState where
  parent : Db
  branch : Db
  steps : List Datom

section Runs

variable {id : BitVec 128} {saga : EntityId} {grants : List IdGrant} {reserves : List EntityId}
variable {rules : BranchRules} {entry : SagaEntry} {s : SagaState}

theorem entity_of_entryAt {db : Db} {e : EntityId} (h : entryAt db e = some entry) : entry.entity = e := by
  unfold entryAt at h
  obtain ⟨_, -, rfl⟩ := Option.map_eq_some_iff.mp h
  rfl

end Runs

/-! ## The merge -/

variable {n : Novelty} {resolved : Resolved}

namespace LapsedReservationExample

open Life.MissedIdExample (user nameAttr)
open Life.SharedBlockExample (base friendsAttr)

/-- A sealed saga on the entity 1000 that reserves the entity 900. -/
def openItems : List TxItem :=
  [.map { entity := .id (user 1000), attributes := [(sagaId, [.uuid 7]), (sagaStatus, [.keyword 0]),
    (sagaBasisT, [.long 0]), (sagaOwner, [.str "o"]), (sagaExpiresAt, [.instant 9]),
    (sagaSealed, [.bool true]), (sagaReserves, [.ref (user 900)])] }]

def openPrepared : PreparedTx :=
  { datoms := [(sagaId, Value.uuid 7), (sagaStatus, .keyword 0), (sagaBasisT, .long 0),
      (sagaOwner, .str "o"), (sagaExpiresAt, .instant 9), (sagaSealed, .bool true),
      (sagaReserves, .ref (user 900))].map fun x => assertion (txId 1) (user 1000) x.1 x.2
    tempids := ∅ }

def opened : Db :=
  base.withTransactionAt 1 5 (openPrepared.datoms ++ grantDatoms (txId 1) (user 1000) 1001)

def block : IdGrant :=
  { entity := user 1001, part := some 2, start := some 1002, length := some (Int64.ofNat defaultIdBlock) }

/-- The branch overlays the value before the saga was opened. -/
def start : SagaState := { parent := opened, branch := base, steps := [] }

/-- A step points from the reserved entity at an entity of the schema. -/
def outward : PreparedTx := { datoms := [assertion (txId 1) (user 900) friendsAttr (.ref nameAttr)], tempids := ∅ }

/-- A step names the reserved entity. -/
def within : PreparedTx := { datoms := [assertion (txId 1) (user 900) nameAttr (.str "x")], tempids := ∅ }

def after (r : PreparedTx) (parent : Db) : SagaState :=
  { parent, branch := base.withTransactionAt 1 6 r.datoms, steps := recordedAt 1 6 r.datoms }

variable {ok : SagaState → PreparedTx → Prop}

end LapsedReservationExample

end Corium.Transactor
