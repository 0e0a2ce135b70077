/-
  Corium.Transactor.SagaCommit — the transaction that merges a saga
  (`saga_commit` of `crates/corium-transactor/src/node.rs`): the items of the
  branch's novelty, and with them the flip of the saga's entry to committed.

  The flip writes the saga's entry and the transaction's own entity only
  (`FlipDatom`), so the merged value holds, elsewhere, what the novelty makes of the
  parent. `undisturbed_saga_merges` is the merge of a branch whose parent left alone
  everything the branch touched.
-/

import Corium.Transactor.Reservation

namespace Corium.Transactor

open Corium.Core Corium.Lib Corium.Tx Bootstrap List Std Saga

/-! ## The items -/

/-- `i64::try_from(steps)`, saturating. -/
def stepCount (steps : Nat) : Int64 := if steps < 2 ^ 63 then Int64.ofNat steps else Int64.maxValue

/-- The entry becomes committed by this transaction, which names the saga; a report
    of an earlier attempt goes. -/
def flipOps (entry : SagaEntry) (committed : KwId) (steps : Nat) : List TxOp :=
  [.add (.id entry.entity) sagaStatus (.keyword committed),
    .addRef (.id entry.entity) sagaMergedTx (.temp txTempid),
    .add (.id entry.entity) sagaSteps (.long (stepCount steps)),
    .add (.temp txTempid) sagaTxId (.uuid entry.id)] ++
  entry.conflictReport.toList.map fun stale => .retract (.id entry.entity) sagaConflictReport (.str stale)

def commitItems (entry : SagaEntry) (committed : KwId) (novelty : Novelty) : List TxItem :=
  noveltyItems novelty ++ (flipOps entry committed novelty.steps).map .op

theorem expandItems_commitItems (entry : SagaEntry) (committed : KwId) (novelty : Novelty) :
    expandItems (commitItems entry committed novelty) = noveltyOps novelty ++ flipOps entry committed novelty.steps := by
  have happend : ∀ xs ys, expandItems (xs ++ ys) = expandItems xs ++ expandItems ys := fun xs ys => flatMap_append
  rw [commitItems, happend, expandItems_noveltyItems]
  congr 1
  rw [expandItems, flatMap_map]
  exact flatMap_singleton' _

/-! ## The flip -/

/-- The registry's own attributes the flip writes, and their types. -/
def flipAttributes : List (AttrId × ValueType) :=
  [(sagaStatus, .keyword), (sagaMergedTx, .ref), (sagaSteps, .long),
    (sagaTxId, .uuid), (sagaConflictReport, .str)]

/-- An attribute as it is built in: neither unique, retired nor protected. -/
structure BuiltIn (db : Db) (a : AttrId) (type : ValueType) : Prop where
  attr : ∃ attr, db.schema.get a = some attr ∧ attr.valueType = type ∧ attr.unique = none
  notRetired : db.schema.isRetired a = false
  unprotected : (db.schema.protectionOf a).current = none

/-- A datom of the flip. -/
def FlipDatom (saga : EntityId) (tx : TxId) (committed : KwId) (d : Datom) : Prop :=
  d.e = saga ∧ d.a ∈ [sagaStatus, sagaMergedTx, sagaSteps, sagaConflictReport] ∧
      (d.a = sagaStatus → d.added = true → d.v = .keyword committed) ∨
    d.e = tx ∧ d.a = sagaTxId ∧ ∃ id, d.v = .uuid id

theorem writable_of_flipAttributes {a : AttrId} {type : ValueType} (h : (a, type) ∈ flipAttributes) (e : EntityId) :
    writableByTransaction e a = true ∧ a ≠ txInstant := by
  have haudit : isAuditAttribute a = false ∧ isSchemaAttribute a = false ∧ a ≠ txInstant := by
    have hall : ∀ x ∈ flipAttributes, isAuditAttribute x.1 = false ∧ isSchemaAttribute x.1 = false ∧
        x.1 ≠ txInstant := by decide
    exact hall _ h
  simp [writableByTransaction, haudit]

section Flip

variable {parent : Db} (tx : TxId)
variable {type : ValueType} {a : AttrId} {p : Progress}

omit tx in
theorem assertable_of_builtIn {db : Db} (hs : db.schema = parent.schema)
    (h : (a, type) ∈ flipAttributes) (hb : BuiltIn parent a type) (e : EntityId) {v : Value} (hv : v.hasType type = true)
    (hplain : ∀ s, v ≠ .sealed s) : Assertable db (e, a, v) := by
  obtain ⟨attr, hattr, htype, -⟩ := hb.attr
  refine ⟨(writable_of_flipAttributes h e).1, ⟨attr, hs ▸ hattr, htype ▸ hv⟩, ?_, hs ▸ hb.notRetired⟩
  have hnone : (db.schema.protectionOf a).current = none := hs ▸ hb.unprotected
  show validateAssertionForm db a v = .ok ()
  unfold validateAssertionForm
  rw [hnone]
  cases v with
  | «sealed» s => exact absurd rfl (hplain s)
  | _ => rfl

/-- An assertion of the flip is made. -/
theorem flip_add (hf : Follows parent p.datoms p.working)
    (ha : (a, type) ∈ flipAttributes) (hb : BuiltIn parent a type) (e : EntityId) (v : Value)
    (hv : v.hasType type = true) (hplain : ∀ s, v ≠ .sealed s) :
    ∃ p' ds, applyAdd tx p e a v = .ok p' ∧ Follows parent p'.datoms p'.working ∧ p'.datoms = p.datoms ++ ds ∧
      (∀ d ∈ ds, d.e = e ∧ d.a = a ∧ (d.v = v ∨ d.added = false ∧ d.v ∈ p.working.values e a)) ∧
      (v ∉ p.working.values e a → assertion tx e a v ∈ ds) := by
  obtain ⟨attr, hattr, -, hunique⟩ := hb.attr
  have hattr' : p.working.schema.get a = some attr := hf.schema ▸ hattr
  obtain ⟨hw, hne⟩ := writable_of_flipAttributes ha e
  have hadd := @applyAdd_of tx p (e, a, v) attr hne (assertable_of_builtIn hf.schema ha hb e hv hplain) hattr'
    (by rw [hunique]; simp)
  by_cases hpresent : v ∈ p.working.values e a
  · rw [if_pos hpresent] at hadd
    exact ⟨p, [], hadd, hf, by simp, by simp, fun hno => absurd hpresent hno⟩
  · rw [if_neg hpresent] at hadd
    refine ⟨_, _, hadd, Follows.advance hf fun d hd => ?_, rfl, fun d hd => ?_, fun _ => ?_⟩
    · rw [addDatoms_eq] at hd
      rcases mem_append.mp hd with hd | hd
      · obtain ⟨x, -, rfl⟩ := mem_map.mp hd
        exact hw
      · rw [mem_singleton.mp hd]
        exact hw
    · rw [addDatoms_eq] at hd
      rcases mem_append.mp hd with hd | hd
      · obtain ⟨x, hx, rfl⟩ := mem_map.mp hd
        refine ⟨rfl, rfl, .inr ⟨rfl, ?_⟩⟩
        split at hx
        · exact hx
        · cases hx
      · rw [mem_singleton.mp hd]
        exact ⟨rfl, rfl, .inl rfl⟩
    · rw [addDatoms_eq]
      exact mem_append_right _ (mem_singleton_self _)

/-- A retraction of the flip is made. -/
theorem flip_retract (hf : Follows parent p.datoms p.working)
    (ha : (a, type) ∈ flipAttributes) (hb : BuiltIn parent a type) (e : EntityId) (v : Value)
    (hv : v.hasType type = true) (hplain : ∀ s, v ≠ .sealed s) :
    ∃ p' ds, applyRetract tx p e a v = .ok p' ∧ Follows parent p'.datoms p'.working ∧ p'.datoms = p.datoms ++ ds ∧
      ∀ d ∈ ds, d.e = e ∧ d.a = a ∧ d.added = false := by
  obtain ⟨attr, hattr, htype, -⟩ := hb.attr
  obtain ⟨hw, -⟩ := writable_of_flipAttributes ha e
  have hretract := @applyRetract_of tx p (e, a, v) hw
    ⟨⟨attr, hf.schema ▸ hattr, htype ▸ hv⟩, fun s hs => absurd hs (hplain s)⟩
  refine ⟨_, _, hretract, Follows.advance hf fun d hd => ?_, rfl, fun d hd => ?_⟩
  all_goals
    split at hd
    · rw [mem_singleton.mp hd]
      first
        | exact hw
        | exact ⟨rfl, rfl, rfl⟩
    · cases hd

theorem tempids_txTempid {db : Db} {n : Nat} {ops : List TxOp} {op : TxOp} (hop : op ∈ ops)
    (ht : EntityRef.temp txTempid ∈ entityPositions op) : (allocate db tx n ops).tempids.getD txTempid default = tx := by
  have hmem := @mem_allocate db tx n ops op txTempid hop ht
  obtain ⟨e, he⟩ := Option.isSome_iff_exists.mp (ExtTreeMap.isSome_getElem?_iff_mem.mpr hmem)
  rw [ExtTreeMap.getD_eq_getD_getElem?, he, (allocate_spec db tx n ops).own e he]
  rfl

/-- The flip goes through, whatever went before, and writes the entry and the transaction entity only. -/
theorem foldlM_flipOps (hb : ∀ x ∈ flipAttributes, BuiltIn parent x.1 x.2) (hv : parent.view = .current)
    (hfresh : ∀ v, ¬ parent.Holds (tx, sagaTxId, v)) {entry : SagaEntry} (hentry : entry.entity ≠ tx)
    (committed : KwId) (steps : Nat) (db : Db) {tempids : Tempids} (htx : tempids.getD txTempid default = tx)
    (hf : Follows parent p.datoms p.working) (hp : ∀ d ∈ p.datoms, d.e ≠ tx) :
    ∃ p' ds, (flipOps entry committed steps).foldlM (applyOp db tempids tx) p = .ok p' ∧
      p'.datoms = p.datoms ++ ds ∧ Follows parent p'.datoms p'.working ∧
      (∀ d ∈ ds, FlipDatom entry.entity tx committed d) ∧
      (.keyword committed ∉ p.working.values entry.entity sagaStatus →
        assertion tx entry.entity sagaStatus (.keyword committed) ∈ ds) := by
  obtain ⟨p1, ds1, h1, hf1, hd1, hall1, hnew⟩ := flip_add tx hf (by decide) (hb (sagaStatus, .keyword) (by decide))
    entry.entity (.keyword committed) rfl (by simp)
  obtain ⟨p2, ds2, h2, hf2, hd2, hall2, -⟩ := flip_add tx hf1 (by decide) (hb (sagaMergedTx, .ref) (by decide))
    entry.entity (.ref tx) rfl (by simp)
  obtain ⟨p3, ds3, h3, hf3, hd3, hall3, -⟩ := flip_add tx hf2 (by decide) (hb (sagaSteps, .long) (by decide))
    entry.entity (.long (stepCount steps)) rfl (by simp)
  obtain ⟨p4, ds4, h4, hf4, hd4, hall4, -⟩ := flip_add tx hf3 (by decide) (hb (sagaTxId, .uuid) (by decide))
    tx (.uuid entry.id) rfl (by simp)
  have hfirst : ([.add (.id entry.entity) sagaStatus (.keyword committed),
      .addRef (.id entry.entity) sagaMergedTx (.temp txTempid),
      .add (.id entry.entity) sagaSteps (.long (stepCount steps)),
      .add (.temp txTempid) sagaTxId (.uuid entry.id)] : List TxOp).foldlM (applyOp db tempids tx) p = .ok p4 := by
    simp only [foldlM_cons, foldlM_nil, applyOp, resolve, htx, bind, Except.bind, h1, h2, h3, h4]
    rfl
  -- the transaction names no saga before the flip, so nothing is replaced there
  have hnone : ∀ v, v ∉ p3.working.values tx sagaTxId := by
    intro v hheld
    have hholds : p3.working.Holds (tx, sagaTxId, v) := (Db.mem_values (hf3.view.trans hv)).mp hheld
    rw [Db.Holds, hf3.recorded] at hholds
    rcases holds_append_cases hholds with ⟨d, hd, hfact, -⟩ | ⟨hparent, -⟩
    · have hde : d.e = tx := congrArg (·.1) hfact
      rw [hd3, hd2, hd1] at hd
      simp only [append_assoc, mem_append] at hd
      rcases hd with hd | hd | hd | hd
      · exact hp d hd hde
      · exact hentry ((hall1 d hd).1.symm.trans hde)
      · exact hentry ((hall2 d hd).1.symm.trans hde)
      · exact hentry ((hall3 d hd).1.symm.trans hde)
    · exact hfresh v hparent
  have hds : p4.datoms = p.datoms ++ (ds1 ++ ds2 ++ ds3 ++ ds4) := by
    rw [hd4, hd3, hd2, hd1]
    simp
  have hall : ∀ d ∈ ds1 ++ ds2 ++ ds3 ++ ds4, FlipDatom entry.entity tx committed d := by
    intro d hd
    rcases mem_append.mp hd with hd | hd
    · rcases mem_append.mp hd with hd | hd
      · rcases mem_append.mp hd with hd | hd
        · obtain ⟨he, ha, hv⟩ := hall1 d hd
          exact .inl ⟨he, by simp [ha], fun _ hadded => hv.resolve_right fun hr => absurd (hr.1.symm.trans hadded) (by decide)⟩
        · obtain ⟨he, ha, -⟩ := hall2 d hd
          exact .inl ⟨he, by simp [ha], fun hs => absurd (ha.symm.trans hs) (by decide)⟩
      · obtain ⟨he, ha, -⟩ := hall3 d hd
        exact .inl ⟨he, by simp [ha], fun hs => absurd (ha.symm.trans hs) (by decide)⟩
    · obtain ⟨he, ha, hv⟩ := hall4 d hd
      exact .inr ⟨he, ha, entry.id, hv.resolve_right fun hr => hnone _ hr.2⟩
  have hmem : .keyword committed ∉ p.working.values entry.entity sagaStatus →
      assertion tx entry.entity sagaStatus (.keyword committed) ∈ ds1 ++ ds2 ++ ds3 ++ ds4 := fun hno => by
    simp [hnew hno]
  unfold flipOps
  rw [foldlM_append, hfirst]
  cases entry.conflictReport with
  | none => exact ⟨p4, _, rfl, hds, hf4, hall, hmem⟩
  | some stale =>
    obtain ⟨p5, ds5, h5, hf5, hd5, hall5⟩ := flip_retract tx hf4 (by decide)
      (hb (sagaConflictReport, .str) (by decide)) entry.entity (.str stale) rfl (by simp)
    refine ⟨p5, ds1 ++ ds2 ++ ds3 ++ ds4 ++ ds5, ?_, ?_, hf5, fun d hd => ?_, fun hno =>
      mem_append_left _ (hmem hno)⟩
    · simp only [Option.toList_some, map_cons, map_nil, foldlM_cons, foldlM_nil, applyOp, resolve, bind,
        Except.bind, h5]
      rfl
    · rw [hd5, hds, append_assoc]
    · rcases mem_append.mp hd with hd | hd
      · exact hall d hd
      · obtain ⟨he, ha, hadded⟩ := hall5 d hd
        exact .inl ⟨he, by simp [ha], fun hs => absurd (ha.symm.trans hs) (by decide)⟩

end Flip

/-! ## What the registry says to it -/

/-- The status a merge asserts. -/
def committedKeyword : Keyword := ⟨some statusNamespace, "committed"⟩

/-- The saga a merge at `tx` commits: its entry is open in the parent, which knows the
    name of the status, and no other open saga was leased its entity or `tx`. -/
structure Committing (parent : Db) (entry : SagaEntry) (committed : KwId) (tx : TxId) : Prop where
  registered : entryAt parent entry.entity = some entry
  opened : entry.status = some .opened
  ordinary : entry.entity.inPartition .tx = false
  /-- The status is cardinality-one. -/
  cardinality : ∃ attr, parent.schema.get sagaStatus = some attr ∧ attr.cardinality = .one
  keyword : Saga.keyword parent (.keyword committed) = some committedKeyword
  builtIn : ∀ x ∈ flipAttributes, BuiltIn parent x.1 x.2
  /-- Nothing was written to the transaction's entity yet. -/
  fresh : ∀ v, ¬ parent.Holds (tx, sagaTxId, v)
  apart : ∀ other ∈ openEntries parent, other.entity ≠ entry.entity → ∀ g ∈ other.grants,
    g.holds entry.entity = false ∧ g.holds tx = false

section Validate

variable {parent : Db} {entry : SagaEntry} {committed : KwId} {tx : TxId}

/-- An open saga does not hold the status it is about to get. -/
theorem Committing.not_held (h : Committing parent entry committed tx) (ho : Ordered parent) :
    ¬ parent.Holds (entry.entity, sagaStatus, .keyword committed) := by
  intro hheld
  have hentry := h.registered
  unfold entryAt at hentry
  obtain ⟨id, -, heq⟩ := Option.map_eq_some_iff.mp hentry
  have hstatus : (Saga.field parent entry.entity sagaStatus (Saga.keyword parent)).map SagaStatus.fromKeyword =
      some .opened := by
    rw [← h.opened]
    exact congrArg SagaEntry.status heq
  obtain ⟨attr, hattr, hone⟩ := h.cardinality
  rw [field_eq ho.view hheld fun v' hv' => ho.one _ _ h.ordinary attr hattr hone v' _ hv' hheld, h.keyword] at hstatus
  exact absurd hstatus (by decide)

/-- The datoms of a merge: those of the novelty, then the flip. -/
structure CommitDatoms (parent : Db) (entry : SagaEntry) (committed : KwId) (tx : TxId) (n : Novelty)
    (flips ds : List Datom) : Prop where
  datoms : ds = mergeDatoms parent tx n.retracts.toList n.asserts.toList ++ flips
  flip : ∀ d ∈ flips, FlipDatom entry.entity tx committed d
  status : assertion tx entry.entity sagaStatus (.keyword committed) ∈ flips

variable {n : Novelty} {flips ds : List Datom}
variable {d : Datom}

theorem CommitDatoms.plain (hc : CommitDatoms parent entry committed tx n flips ds) (hplain : Plain n)
    (hd : d ∈ ds) : isRegistryAttribute d.a = false ∧ Writes parent n d.fact ∨ FlipDatom entry.entity tx committed d := by
  rw [hc.datoms] at hd
  rcases mem_append.mp hd with hd | hd
  · have hw := fact_of_mem_mergeDatoms hd
    exact .inl ⟨hplain d.fact (hw.symm.imp And.left And.left), hw⟩
  · exact .inr (hc.flip d hd)

theorem isSagaAttribute_of_registry {a : AttrId} (h : isRegistryAttribute a = false) :
    isSagaAttribute a = false ∧ isGrantAttribute a = false := by
  simp only [isRegistryAttribute, Bool.or_eq_false_iff] at h
  exact h.1

/-- The flip names the entry and the transaction entity. -/
theorem namedIds_of_flip (h : FlipDatom entry.entity tx committed d) {e : EntityId} (he : e ∈ namedIds d) :
    e = entry.entity ∨ e = tx := by
  have hreg : ∀ a ∈ [sagaStatus, sagaMergedTx, sagaSteps, sagaConflictReport],
      isRegistryAttribute a = true := by decide
  have hnamed : namedIds d = [d.e] := by
    unfold namedIds
    rcases h with ⟨-, ha, -⟩ | ⟨-, -, id, hv⟩
    · cases d.v <;> simp [hreg _ ha]
    · rw [hv]
  rw [hnamed, mem_singleton] at he
  rcases h with ⟨hd, -⟩ | ⟨hd, -⟩
  · exact .inl (he.trans hd)
  · exact .inr (he.trans hd)

/-- The saga attributes a merge writes are its own entry's, and no fixed field or reservation. -/
theorem CommitDatoms.saga (hc : CommitDatoms parent entry committed tx n flips ds) (hplain : Plain n)
    (hd : d ∈ ds) (ha : isSagaAttribute d.a = true) : d.e = entry.entity ∧
      d.a ∈ [sagaStatus, sagaMergedTx, sagaSteps, sagaConflictReport] ∧
      (d.a = sagaStatus → d.added = true → d.v = .keyword committed) := by
  rcases hc.plain hplain hd with ⟨hreg, -⟩ | hflip | ⟨-, hda, -⟩
  · rw [(isSagaAttribute_of_registry hreg).1] at ha
    cases ha
  · exact hflip
  · rw [hda] at ha
    exact absurd ha (by decide)

theorem CommitDatoms.assertedStatus (hc : CommitDatoms parent entry committed tx n flips ds) (hplain : Plain n)
    (hk : Saga.keyword parent (.keyword committed) = some committedKeyword) (e : EntityId) :
    assertedStatus parent e ds = if e = entry.entity then some .committed else none := by
  unfold Saga.assertedStatus
  split
  · rename_i he
    cases hfind : ds.reverse.find? fun d => d.e = e ∧ d.a = sagaStatus ∧ d.added with
    | none =>
      have hmem : assertion tx entry.entity sagaStatus (.keyword committed) ∈ ds.reverse := by
        rw [mem_reverse, hc.datoms]
        exact mem_append_right _ hc.status
      have := List.find?_eq_none.mp hfind _ hmem
      simp [assertion, he] at this
    | some d =>
      have hd := List.find?_some hfind
      simp only [decide_eq_true_eq] at hd
      obtain ⟨-, ha, hadded⟩ := hd
      have hv := (hc.saga hplain (mem_reverse.mp (mem_of_find?_eq_some hfind)) (by rw [ha]; decide)).2.2 ha hadded
      show ((Saga.keyword parent d.v).map SagaStatus.fromKeyword) = _
      rw [hv, hk]
      decide
  · rename_i he
    have hnone : ds.reverse.find? (fun d => d.e = e ∧ d.a = sagaStatus ∧ d.added) = none := by
      refine List.find?_eq_none.mpr fun d hd hc' => he ?_
      obtain ⟨hde, ha, -⟩ := of_decide_eq_true hc'
      rw [← hde]
      exact (hc.saga hplain (mem_reverse.mp hd) (by rw [ha]; decide)).1
    rw [hnone]
    rfl

/-- The entry's own update is accepted. -/
theorem CommitDatoms.validateEntity (hc : CommitDatoms parent entry committed tx n flips ds) (hplain : Plain n)
    (h : Committing parent entry committed tx) : validateEntity parent ds entry.entity = .ok () := by
  have hno : ∀ a, isSagaAttribute a = true →
      a ∉ [sagaStatus, sagaMergedTx, sagaSteps, sagaConflictReport] →
      assertsField (sagaWrites entry.entity ds) a = false ∧ retractsField (sagaWrites entry.entity ds) a = false := by
    intro a ha hout
    constructor
    · refine Bool.eq_false_iff.mpr fun hasserts => ?_
      obtain ⟨d, hd, -, rfl, -⟩ := (assertsField_iff ha).mp hasserts
      exact hout (hc.saga hplain hd ha).2.1
    · refine Bool.eq_false_iff.mpr fun hretracts => ?_
      obtain ⟨d, hd, -, rfl, -⟩ := (retractsField_iff ha).mp hretracts
      exact hout (hc.saga hplain hd ha).2.1
  have hstatus := hc.assertedStatus hplain h.keyword entry.entity
  rw [if_pos rfl] at hstatus
  unfold Tx.validateEntity
  simp only [h.registered, hstatus]
  have hfixed : rejectFirst [sagaId, sagaBasisT, sagaOwner, sagaSealed]
      (fun a => assertsField (sagaWrites entry.entity ds) a || retractsField (sagaWrites entry.entity ds) a)
      SagaViolation.immutableField = .ok () := by
    have hout : ∀ a ∈ [sagaId, sagaBasisT, sagaOwner, sagaSealed],
        isSagaAttribute a = true ∧
          a ∉ [sagaStatus, sagaMergedTx, sagaSteps, sagaConflictReport] := by decide
    unfold rejectFirst
    rw [List.find?_eq_none.mpr fun a ha => ?_]
    simp [hno a (hout a ha).1 (hout a ha).2]
  unfold validateUpdate
  rw [hfixed]
  simp [validateTransition, h.opened, checkMergeRecord, SagaStatus.mayBecome, SagaStatus.isTerminal, require,
    hno _ (show isSagaAttribute sagaReserves = true by decide) (by decide), bind, Except.bind]

/-- The open sagas a merge leaves open. -/
def others (parent : Db) (entry : SagaEntry) : List SagaEntry :=
  (openEntries parent).filter fun other => other.entity ≠ entry.entity

/-- The registry refuses a merge only for an id leased to another open saga. -/
theorem CommitDatoms.validateSagas_ok_iff (hc : CommitDatoms parent entry committed tx n flips ds) (hplain : Plain n)
    (h : Committing parent entry committed tx) :
    validateSagas parent ds = .ok () ↔ Free (others parent entry) parent n := by
  have hguarded : guardedGrants parent ds = (others parent entry).flatMap (·.grants) := by
    unfold guardedGrants others
    congr 1
    refine filter_congr fun other _ => ?_
    rw [hc.assertedStatus hplain h.keyword]
    by_cases he : other.entity = entry.entity <;> simp [he]
  have hrequire : ∀ d ∈ ds, isGrantAttribute d.a = false ∧ d.a ≠ sagaIdGrants := by
    have hall : ∀ a ∈ [sagaStatus, sagaMergedTx, sagaSteps, sagaConflictReport],
        isGrantAttribute a = false ∧ a ≠ sagaIdGrants := by decide
    intro d hd
    rcases hc.plain hplain hd with ⟨hreg, -⟩ | ⟨-, ha, -⟩ | ⟨-, ha, -⟩
    · obtain ⟨hsaga, hgrant⟩ := isSagaAttribute_of_registry hreg
      refine ⟨hgrant, fun ha => ?_⟩
      rw [ha] at hsaga
      exact absurd hsaga (by decide)
    · exact hall _ ha
    · rw [ha]
      decide
  have hentities : (sortedEntities ((ds.filter fun d => isSagaAttribute d.a).map (·.e))).forM (Tx.validateEntity parent ds) =
      .ok () := by
    refine forM_of_forall fun e he => ?_
    obtain ⟨d, hd, rfl⟩ := mem_map.mp (mem_sortedEntities.mp he)
    obtain ⟨hd, ha⟩ := mem_filter.mp hd
    rw [(hc.saga hplain hd ha).1]
    exact hc.validateEntity hplain h
  have hrest : validateSagas parent ds = .ok () ↔ validateGrantedIds parent ds = .ok () := by
    unfold validateSagas
    simp only [bind_eq_ok, require_eq_ok]
    constructor
    · rintro ⟨_, -, _, hgranted, -⟩
      exact hgranted
    · exact fun hgranted => ⟨(), hrequire, (), hgranted, hentities⟩
  rw [hrest, validateGrantedIds_ok_iff, hguarded]
  constructor
  · intro hall other hother g hg f hf e he
    obtain ⟨d, hd, rfl⟩ := exists_mem_mergeDatoms hf tx
    have hreg : isRegistryAttribute d.a = false :=
      hplain d.fact ((fact_of_mem_mergeDatoms hd).symm.imp And.left And.left)
    exact hall d (hc.datoms ▸ mem_append_left _ hd) e (by rw [namedIds_of_plain hreg]; exact he) g
      (mem_flatMap.mpr ⟨other, hother, hg⟩)
  · intro hfree d hd e he g hg
    obtain ⟨other, hother, hg⟩ := mem_flatMap.mp hg
    obtain ⟨hopen, hne⟩ := mem_filter.mp hother
    have hapart := h.apart other hopen (of_decide_eq_true hne) g hg
    rcases hc.plain hplain hd with ⟨hreg, hw⟩ | hflip
    · rw [namedIds_of_plain hreg] at he
      exact hfree other hother g hg d.fact hw e he
    · rcases namedIds_of_flip hflip he with rfl | rfl
      · exact hapart.1
      · exact hapart.2

end Validate

/-! ## A parent that left the branch alone -/

/-- The steps of a branch, each accepted under the rules of its time. -/
inductive StepRuns (base : Db) : List Datom → Db → Prop where
  | refl : StepRuns base [] base
  | named {bs : List Datom} {w : Db} {interner : KeywordInterner} : StepRuns base bs w → w.interner.Extends interner →
      StepRuns base bs { w with interner }
  | step {bs : List Datom} {w : Db} {items : List TxItem} {t n : Nat} {instant : Int64} {rules : BranchRules} {r : PreparedTx} :
      StepRuns base bs w → prepareStep w items (txId t) n rules = .ok r →
      StepRuns base (bs ++ recordedAt t instant r.datoms) (w.withTransactionAt t instant r.datoms)

theorem StepRuns.runs {base branch : Db} {bs : List Datom} (h : StepRuns base bs branch) : Runs base bs branch := by
  induction h with
  | refl => exact .refl
  | named _ hext ih => exact ih.named hext
  | @step bs w items t n instant rules r _ hstep ih =>
    have hnext : Runs base (bs ++ recordedAt t instant (r.datoms ++ [])) (w.withTransactionAt t instant (r.datoms ++ [])) :=
      ih.step (prepareStep_ok hstep).1 (leasedWith_nil _)
    rwa [append_nil] at hnext

/-- A step writes nothing of the registry. -/
theorem StepRuns.plain {base branch : Db} {bs : List Datom} (h : StepRuns base bs branch) :
    ∀ d ∈ bs, isRegistryAttribute d.a = false := by
  induction h with
  | refl => simp
  | named _ _ ih => exact ih
  | @step bs w items t n instant rules r _ hstep ih =>
    intro d hd
    rcases mem_append.mp hd with hd | hd
    · exact ih d hd
    · obtain ⟨stamp, hrec, hstamp⟩ := recordedAt_cases t instant r.datoms
      rw [hrec] at hd
      rcases mem_append.mp hd with hd | hd
      · exact ((validateStep_ok (prepareStep_ok hstep).2).2 d hd).plain
      · rw [hstamp d hd]
        show isRegistryAttribute txInstant = false
        decide

/-- A fact one side changed. -/
def Touches (n : Novelty) (f : Fact) : Prop := f ∈ n.asserts ∨ f ∈ n.retracts

/-- The drift names no entity the branch's novelty names, and none of its unique values. -/
def Undisturbed (schema : Schema) (branch drift : Novelty) : Prop :=
  ∀ f, Touches branch f → ∀ g, Touches drift g →
    g.1 ∉ factIds f ∧ ∀ attr, schema.get f.2.1 = some attr → attr.unique.isSome = true → g.2 ≠ f.2

/-- No entity of the parent holds a unique value the novelty gives to one. -/
def KeepsUnique (parent : Db) (branch : Novelty) : Prop :=
  ∀ f ∈ branch.asserts, ∀ attr, parent.schema.get f.2.1 = some attr → attr.unique.isSome = true → ∀ e, ¬ parent.Holds (e, f.2)

theorem StepRuns.plain_squash {base branch : Db} {bs : List Datom} (h : StepRuns base bs branch) : Plain (squash bs) := by
  intro f hf
  have hsaid : ∃ d ∈ bs, d.fact = f := by
    rcases hf with hf | hf
    · obtain ⟨d, hd, hfact, -⟩ := Runs.exists_of_netWord (mem_squash.1.mp hf)
      exact ⟨d, hd, hfact⟩
    · obtain ⟨d, hd, hfact, -⟩ := Runs.exists_of_netWord (mem_squash.2.mp hf)
      exact ⟨d, hd, hfact⟩
  obtain ⟨d, hd, rfl⟩ := hsaid
  exact h.plain d hd

section Undisturbed

variable {base branch parent : Db} {bs ds : List Datom}
variable {f : Fact}

/-- The parent holds what the value both began with held, where it did not drift. -/
theorem holds_of_untouched (ho : Ordered base) (hd : Runs base ds parent) (hf : f.1.inPartition .tx = false)
    (hno : ¬ Touches (squash ds) f) : parent.Holds f ↔ base.Holds f := by
  unfold Touches at hno
  rw [hd.mem_asserts ho, hd.mem_retracts ho] at hno
  tauto

theorem not_emptied {drift : Novelty} {e : EntityId} (h : ∀ g, Touches drift g → g.1 ≠ e) : emptied parent drift e = false := by
  have hnone : drift.retracts.toList.any (·.1 = e) = false := by
    refine any_eq_false.mpr fun g hg => ?_
    simpa using h g (.inr (ExtTreeSet.mem_toList.mp hg))
  rw [emptied, hnone, Bool.false_and]

theorem touches_of_mem_facts {n : Novelty} {x : Fact × Bool} (h : x ∈ n.facts) : Touches n x.1 := by
  obtain ⟨f, b⟩ := x
  have := mem_facts.mp h
  cases b
  · exact .inr this
  · exact .inl this

/-- The scan of an undisturbed branch looks at its unique values only. -/
theorem scan_undisturbed {branch drift : Novelty} (hu : Undisturbed parent.schema branch drift) :
    scan parent branch drift = [] ↔ ∀ f ∈ branch.asserts, uniqueConflict parent f = none := by
  rw [scan_eq_nil_iff]
  refine ⟨fun h f hf => (h.2 f hf).1, fun h => ⟨fun e a b hb => ?_, fun f hf => ⟨h f hf, ?_⟩⟩⟩
  · obtain ⟨x, hx, hk⟩ := exists_of_branchPairs hb
    refine pairConflict_eq_none_iff.mpr (.inl (any_eq_false.mpr fun y hy hsame => ?_))
    have he : y.1.1 = x.1.1 := by
      simp only [Prod.mk.injEq, decide_eq_true_eq] at hk hsame
      exact hsame.1.trans hk.1.symm
    exact (hu _ (touches_of_mem_facts hx) _ (touches_of_mem_facts hy)).1 (he ▸ mem_cons_self)
  · have hkept : ∀ e ∈ factIds f, emptied parent drift e = false := fun e he =>
      not_emptied fun g hg hge => (hu f (.inl hf) g hg).1 (hge ▸ he)
    have htarget : danglingTarget parent drift f = none := by
      unfold danglingTarget
      have hself := hkept f.1 mem_cons_self
      split
      · rename_i target hv
        have := hkept target (by simp [factIds, hv])
        simp [this, hself]
      · simp [hself]
    rw [danglingConflict, htarget]
    rfl

/-- A fact the branch adds is not the undisturbed parent's. -/
theorem not_held_of_asserted (ho : Ordered base) (hb : Runs base bs branch) (hd : Runs base ds parent)
    (hu : Undisturbed parent.schema (squash bs) (squash ds)) (hf : f ∈ (squash bs).asserts) : ¬ parent.Holds f := by
  obtain ⟨htx, hbase, -⟩ := (hb.mem_asserts ho).mp hf
  rw [holds_of_untouched ho hd htx fun hg => (hu f (.inl hf) f hg).1 mem_cons_self]
  exact hbase

/-- The unique values of an undisturbed branch conflict unless nobody holds them. -/
theorem uniqueConflict_iff_keeps (ho : Ordered base) (hb : Runs base bs branch) (hd : Runs base ds parent)
    (hu : Undisturbed parent.schema (squash bs) (squash ds)) :
    (∀ f ∈ (squash bs).asserts, uniqueConflict parent f = none) ↔ KeepsUnique parent (squash bs) := by
  have hview : parent.view = .current := (hd.ordered ho).view
  constructor
  · intro h f hf attr hattr hu' e hheld
    have hall := uniqueConflict_eq_none_iff.mp (h f hf) attr hattr hu'
    cases hlook : parent.lookup f.2.1 f.2.2 with
    | none => exact Db.lookup_none hview hlook e hheld
    | some holder =>
      rw [hlook] at hall
      have hself : holder = f.1 := by simpa using hall
      have hholds := Db.lookup_some hview hlook
      rw [hself] at hholds
      exact not_held_of_asserted ho hb hd hu hf hholds
  · intro h f hf
    refine uniqueConflict_eq_none_iff.mpr fun attr hattr hu' => ?_
    cases hlook : parent.lookup f.2.1 f.2.2 with
    | none => rfl
    | some holder => exact absurd (Db.lookup_some hview hlook) (h f hf attr hattr hu' holder)

/-- The run of a merge's operations: it goes through when no two entities get one unique
    value, and its datoms are the novelty's and the flip's. -/
theorem foldlM_commitOps {n : Novelty} (hfit : NoveltyFits parent n) (ho : Ordered parent) {entry : SagaEntry}
    {committed : KwId} {tx : TxId} (htx : tx.inPartition .tx = true) (hm : Committing parent entry committed tx)
    (hn : ∀ f, Touches n f → f.1.inPartition .tx = false) (hplain : Plain n) (db : Db) {tempids : Tempids}
    (hown : tempids.getD txTempid default = tx) :
    ((∃ p, (noveltyOps n ++ flipOps entry committed n.steps).foldlM (applyOp db tempids tx) (Progress.start parent) = .ok p) ↔
        Distinct parent.schema n) ∧
      ∀ p, (noveltyOps n ++ flipOps entry committed n.steps).foldlM (applyOp db tempids tx) (Progress.start parent) = .ok p →
        ∃ flips, CommitDatoms parent entry committed tx n flips p.datoms := by
  obtain ⟨hiff, hmerging⟩ := @foldlM_noveltyOps parent n tx db tempids hfit
  have hentry : entry.entity ≠ tx := fun h => by
    have := hm.ordinary
    rw [h, htx] at this
    cases this
  -- the flip goes through whatever the novelty came to
  have hflip : ∀ p, (noveltyOps n).foldlM (applyOp db tempids tx) (Progress.start parent) = .ok p →
      ∃ p' flips, (flipOps entry committed n.steps).foldlM (applyOp db tempids tx) p = .ok p' ∧
        CommitDatoms parent entry committed tx n flips p'.datoms := by
    intro p hp
    have hmerge := hmerging p hp
    have hdatoms : ∀ d ∈ p.datoms, Touches n d.fact := fun d hd =>
      (fact_of_mem_mergeDatoms (hmerge.datoms ▸ hd)).symm.imp And.left And.left
    obtain ⟨p', flips, hfold, hds, -, hall, hstatus⟩ := foldlM_flipOps tx hm.builtIn ho.view hm.fresh hentry committed n.steps
      db hown hmerge.follows fun d hd hde => by
        have := hn d.fact (hdatoms d hd)
        rw [show d.fact.1 = d.e from rfl, hde, htx] at this
        cases this
    refine ⟨p', flips, hfold, hds.trans (by rw [hmerge.datoms]), hall, hstatus fun hheld => ?_⟩
    have hholds : p.working.Holds (entry.entity, sagaStatus, .keyword committed) :=
      (Db.mem_values (hmerge.follows.view.trans ho.view)).mp hheld
    rw [Db.Holds, hmerge.follows.recorded] at hholds
    rcases holds_append_cases hholds with ⟨d, hd, hfact, -⟩ | ⟨hold, -⟩
    · have := hplain d.fact (hdatoms d hd)
      rw [hfact] at this
      change isRegistryAttribute sagaStatus = false at this
      exact absurd this (by decide)
    · exact hm.not_held ho hold
  constructor
  · rw [← hiff]
    constructor
    · rintro ⟨p', hp'⟩
      rw [foldlM_append] at hp'
      obtain ⟨p, hp, -⟩ := bind_eq_ok.mp hp'
      exact ⟨p, hp⟩
    · rintro ⟨p, hp⟩
      obtain ⟨p', -, hp', -⟩ := hflip p hp
      exact ⟨p', by rw [foldlM_append]; exact bind_eq_ok.mpr ⟨p, hp, hp'⟩⟩
  · intro p' hp'
    rw [foldlM_append] at hp'
    obtain ⟨p, hp, hlast⟩ := bind_eq_ok.mp hp'
    obtain ⟨p'', flips, hfold, hc⟩ := hflip p hp
    rw [hlast] at hfold
    cases hfold
    exact ⟨flips, hc⟩

/-- What the novelty makes of an undisturbed parent. -/
theorem undisturbed_holds_iff (ho : Ordered base) (hb : Runs base bs branch) (hd : Runs base ds parent)
    (hu : Undisturbed parent.schema (squash bs) (squash ds)) (hf : f.1.inPartition .tx = false) :
    (parent.Holds f ∧ f ∉ (squash bs).retracts ∨ f ∈ (squash bs).asserts) ↔
      Touches (squash ds) f ∧ parent.Holds f ∨ ¬ Touches (squash ds) f ∧ branch.Holds f := by
  by_cases hdrift : Touches (squash ds) f
  · have hno : ¬ (f ∈ (squash bs).asserts ∨ f ∈ (squash bs).retracts) := fun hbf =>
      (hu f hbf f hdrift).1 mem_cons_self
    simp only [not_or] at hno
    simp only [hno, hdrift, not_false_eq_true, and_true, or_false, true_and, not_true_eq_false, false_and]
  · have hsame := holds_of_untouched ho hd hf hdrift
    rw [hb.mem_asserts ho, hb.mem_retracts ho]
    simp only [hf, hdrift, hsame, true_and, false_and, false_or, not_false_eq_true, not_and, not_not]
    by_cases hbase : base.Holds f <;> simp [hbase]

/-- Outside the registry, a merge leaves what the novelty makes of the parent. -/
theorem CommitDatoms.holds_iff {entry : SagaEntry} {committed : KwId} {tx : TxId} {n : Novelty} {flips datoms : List Datom}
    (hc : CommitDatoms parent entry committed tx n flips datoms) (hapart : ∀ f ∈ n.asserts, f ∉ n.retracts)
    (htx : tx.inPartition .tx = true) (hf : f.1.inPartition .tx = false) (hreg : isRegistryAttribute f.2.1 = false) :
    holds (parent.recorded ++ datoms) f = true ↔ parent.Holds f ∧ f ∉ n.retracts ∨ f ∈ n.asserts := by
  have hflips : ∀ d ∈ flips, d.fact ≠ f := by
    have hall : ∀ a ∈ [sagaStatus, sagaMergedTx, sagaSteps, sagaConflictReport],
        isRegistryAttribute a = true := by decide
    rintro d hd rfl
    rcases hc.flip d hd with ⟨-, ha, -⟩ | ⟨he, -⟩
    · exact absurd (hreg.symm.trans (hall _ ha)) (by decide)
    · rw [show d.fact.1 = d.e from rfl, he, htx] at hf
      cases hf
  rw [hc.datoms, ← append_assoc, holds_append_of_ne hflips, holds_mergeDatoms, ExtTreeSet.mem_toList,
    ExtTreeSet.mem_toList]
  exact fun g hg hr => hapart g (ExtTreeSet.mem_toList.mp hg) (ExtTreeSet.mem_toList.mp hr)

end Undisturbed

/-- Steps accepted on a branch whose parent left alone all their novelty names: the scan
    finds no conflict and the commit is accepted exactly when the novelty gives no
    entity a unique value another one holds in the parent, gives none to two, and names
    no id leased to another open saga. What is then committed is the branch's facts,
    with the parent's own where it drifted. -/
theorem undisturbed_saga_merges {base branch parent : Db} {bs ds : List Datom} (ho : Ordered base)
    (hb : StepRuns base bs branch) (hd : Runs base ds parent) (hu : Undisturbed base.schema (squash bs) (squash ds))
    {entry : SagaEntry} {committed : KwId} {t : Nat} (hm : Committing parent entry committed (txId t)) (n : Nat) :
    KeepsUnique parent (squash bs) ∧ Distinct base.schema (squash bs) ∧ Free (others parent entry) parent (squash bs) ↔
      scan parent (squash bs) (squash ds) = [] ∧
        ∃ r, prepare parent (commitItems entry committed (squash bs)) (txId t) n = .ok r ∧
          ∀ instant f, f.1.inPartition .tx = false → isRegistryAttribute f.2.1 = false →
            ((parent.withTransactionAt t instant r.datoms).Holds f ↔
              Touches (squash ds) f ∧ parent.Holds f ∨ ¬ Touches (squash ds) f ∧ branch.Holds f) := by
  have hruns := hb.runs
  have hschema := (hd.stands ho.view).schema
  rw [← hschema] at hu ⊢
  have hscan : scan parent (squash bs) (squash ds) = [] ↔ KeepsUnique parent (squash bs) :=
    (scan_undisturbed hu).trans (uniqueConflict_iff_keeps ho hruns hd hu)
  rw [hscan]
  refine and_congr_right fun hkeeps => ?_
  have hfit := fits_of_scan ho hruns hd hb.plain_squash (hscan.mpr hkeeps)
  have htouch : ∀ f, Touches (squash bs) f → f.1.inPartition .tx = false := by
    rintro f (hf | hf)
    · exact ((hruns.mem_asserts ho).mp hf).1
    · exact ((hruns.mem_retracts ho).mp hf).1
  have hitems := expandItems_commitItems entry committed (squash bs)
  have hown : (allocate parent (txId t) n (noveltyOps (squash bs) ++ flipOps entry committed (squash bs).steps)).tempids.getD
      txTempid default = txId t :=
    tempids_txTempid _ (show .add (.temp txTempid) sagaTxId (.uuid entry.id) ∈ _ by simp [flipOps])
      (by simp [entityPositions])
  obtain ⟨hiff, hdatoms⟩ := foldlM_commitOps hfit (hd.ordered ho) (inPartition_txId t) hm htouch hb.plain_squash parent hown
  constructor
  · rintro ⟨hdistinct, hfree⟩
    obtain ⟨p, hp⟩ := hiff.mpr hdistinct
    obtain ⟨flips, hc⟩ := hdatoms p hp
    refine ⟨_, prepare_eq_ok_iff.mpr ⟨p, by rw [hitems]; exact hp, (hc.validateSagas_ok_iff hb.plain_squash hm).mpr hfree, rfl⟩,
      fun instant f hf hreg => ?_⟩
    rw [holds_withTransactionAt instant hf, hc.holds_iff hfit.apart (inPartition_txId t) hf hreg]
    exact undisturbed_holds_iff ho hruns hd hu hf
  · rintro ⟨r, hr, -⟩
    obtain ⟨p, hp, hsagas, -⟩ := prepare_eq_ok_iff.mp hr
    rw [hitems] at hp
    obtain ⟨flips, hc⟩ := hdatoms p hp
    exact ⟨hiff.mp ⟨p, hp⟩, (hc.validateSagas_ok_iff hb.plain_squash hm).mp hsagas⟩

theorem not_holds_of_unsaid {ds : List Datom} {e : EntityId} {a : AttrId} (h : ∀ d ∈ ds, ¬ (d.e = e ∧ d.a = a)) (v : Value) :
    holds ds (e, a, v) = false := by
  rw [← nil_append ds, holds_append_of_ne fun d hd hfact => h d hd ⟨congrArg (·.1) hfact, congrArg (·.2.1) hfact⟩]
  rfl

/-- One step from the value the branch began with. -/
theorem StepRuns.one {base : Db} {items : List TxItem} {t n : Nat} {rules : BranchRules} {r : PreparedTx} (instant : Int64)
    (h : prepareStep base items (txId t) n rules = .ok r) :
    StepRuns base (recordedAt t instant r.datoms) (base.withTransactionAt t instant r.datoms) :=
  StepRuns.step .refl h

namespace MovedValueExample

open SwapExample (alice bob email)

def held : PreparedTx := { datoms := [assertion (txId 1) alice email (.str "a@x")], tempids := ∅ }

/-- Alice has the address. -/
def base : Db := SwapExample.db.withTransactionAt 1 5 held.datoms

/-- A step moves it to Bob. -/
def moved : PreparedTx :=
  { datoms := [retraction (txId 2) alice email (.str "a@x"), assertion (txId 2) bob email (.str "a@x")]
    tempids := ∅ }

def rules : BranchRules :=
  { grants := [{ entity := EntityId.new Partition.user.id 1002, part := some 2, start := some 1003, length := some 10 }]
    reserves := [] }

/-- The parent did nothing since, and still the moved address conflicts. -/
theorem a_moved_unique_value_conflicts_with_an_idle_parent :
    ∃ branch, Ordered base ∧ StepRuns base (recordedAt 2 6 moved.datoms) branch ∧ Runs base [] base ∧
      Undisturbed base.schema (squash (recordedAt 2 6 moved.datoms)) (squash []) ∧
      scan base (squash (recordedAt 2 6 moved.datoms)) (squash []) ≠ [] := by
  have hheld : prepare SwapExample.db [.op (.add (.id alice) email (.str "a@x"))] (txId 1) 1000 = .ok held := by
    decide
  have hstep : prepareStep base [.op (.retract (.id alice) email (.str "a@x")), .op (.add (.id bob) email (.str "a@x"))]
      (txId 2) 1003 rules = .ok moved := by decide
  have hempty : ∀ g, ¬ Touches (squash []) g := by
    intro g hg
    rcases hg with hg | hg <;> rw [← ExtTreeSet.mem_toList] at hg <;> cases hg
  refine ⟨_, (Runs.one 5 hheld).ordered (ordered_of_empty rfl rfl), StepRuns.one 6 hstep, .refl,
    fun f _ g hg => absurd hg (hempty g), by decide +kernel⟩

end MovedValueExample

namespace KeptSagaExample

open LapsedReservationExample (openItems openPrepared block opened within)
open Life.SharedBlockExample (base)
open Life.MissedIdExample (user nameAttr)

/-- The saga's opening and its block. -/
def opening : List Datom := recordedAt 1 5 (openPrepared.datoms ++ grantDatoms (txId 1) (user 1000) 1001)

theorem runs_opening : Runs base opening opened := by
  have hprep : prepare base openItems (txId 1) 1001 = .ok openPrepared := by decide +kernel
  show Runs base ([] ++ recordedAt 1 5 (openPrepared.datoms ++ grantDatoms (txId 1) (user 1000) 1001)) _
  refine Runs.step .refl hprep ⟨by decide, by decide, fun d hd v => not_holds_of_unsaid ?_ v, by decide⟩
  have hall : ∀ d ∈ grantDatoms (txId 1) (user 1000) 1001, ∀ d' ∈ base.recorded ++ openPrepared.datoms,
      ¬ (d'.e = d.e ∧ d'.a = d.a) := by decide
  exact hall d hd

/-- The step the branch took: it names the entity 900. -/
def taken : List Datom := recordedAt 1 6 within.datoms

theorem committing {entry : SagaEntry} (hentry : entryAt opened (user 1000) = some entry)
    (hopen : entry.status = some .opened) : Committing opened entry 1 (txId 2) := by
  have hentity : entry.entity = user 1000 := entity_of_entryAt hentry
  have hbuilt : ∀ x ∈ flipAttributes, (∃ attr ∈ opened.schema.get x.1, attr.valueType = x.2 ∧ attr.unique = none) ∧
      opened.schema.isRetired x.1 = false ∧ (opened.schema.protectionOf x.1).current = none := by decide +kernel
  have hone : ∃ attr ∈ opened.schema.get sagaStatus, attr.cardinality = .one := by decide +kernel
  have honly : ∀ other ∈ openEntries opened, other.entity = user 1000 := by decide
  have hfresh : ∀ d ∈ opened.recorded, ¬ (d.e = txId 2 ∧ d.a = sagaTxId) := by decide
  refine ⟨by rw [hentity]; exact hentry, hopen, by rw [hentity]; decide, ?_, by decide, fun x hx => ?_, fun v => ?_,
    fun other hother hne => absurd ((honly other hother).trans hentity.symm) hne⟩
  · obtain ⟨attr, hattr, h⟩ := hone
    exact ⟨attr, hattr, h⟩
  · obtain ⟨⟨attr, hattr, h⟩, hret, hprot⟩ := hbuilt x hx
    exact ⟨⟨attr, hattr, h⟩, hret, hprot⟩
  · rw [Db.Holds, not_holds_of_unsaid hfresh]
    decide

/-- A saga that names an entity commits on the parent that only opened it. -/
theorem undisturbed_saga_commits_the_entity_it_named :
    ∃ entry, scan opened (squash taken) (squash opening) = [] ∧
      ∃ r, prepare opened (commitItems entry 1 (squash taken)) (txId 2) 2000 = .ok r ∧
        ∀ instant f, f.1.inPartition .tx = false → isRegistryAttribute f.2.1 = false →
          ((opened.withTransactionAt 2 instant r.datoms).Holds f ↔
            Touches (squash opening) f ∧ opened.Holds f ∨
              ¬ Touches (squash opening) f ∧ (base.withTransactionAt 1 6 within.datoms).Holds f) := by
  have hstep : prepareStep base [.op (.add (.id (user 900)) nameAttr (.str "x"))] (txId 1) 1002 ⟨[block], [user 900]⟩ =
      .ok within := by decide +kernel
  have hentry : ∃ entry ∈ entryAt opened (user 1000), entry.status = some .opened ∧ others opened entry = [] := by
    decide
  obtain ⟨entry, hmem, hopen, hothers⟩ := hentry
  have hbranch : ∀ f, Touches (squash taken) f → f = (user 900, nameAttr, .str "x") := by
    have hasserts : (squash taken).asserts.toList = [(user 900, nameAttr, .str "x")] := by decide
    have hretracts : (squash taken).retracts.toList = [] := by decide
    intro f hf
    simpa only [Touches, ← ExtTreeSet.mem_toList, hasserts, hretracts, mem_singleton, not_mem_nil, or_false] using hf
  have hdrift : ∀ g, Touches (squash opening) g → g.1 ≠ user 900 := by
    have hall : ∀ g ∈ (squash opening).asserts.toList ++ (squash opening).retracts.toList, g.1 ≠ user 900 := by decide
    intro g hg
    refine hall g (mem_append.mpr ?_)
    simpa only [Touches, ← ExtTreeSet.mem_toList] using hg
  have hplain : ∃ attr ∈ base.schema.get nameAttr, attr.unique = none := by decide +kernel
  obtain ⟨attr, hattr, hunique⟩ := hplain
  have hnot : ∀ f, Touches (squash taken) f → ∀ attr, base.schema.get f.2.1 = some attr → ¬ attr.unique.isSome = true := by
    intro f hf attr' hattr' hu
    rw [hbranch f hf, hattr] at hattr'
    cases hattr'
    rw [hunique] at hu
    cases hu
  refine ⟨entry, (undisturbed_saga_merges (ordered_of_empty rfl rfl) (StepRuns.one 6 hstep) runs_opening (fun f hf g hg => ?_)
    (committing hmem hopen) 2000).mp ⟨fun f hf attr' hattr' hu => ?_, fun f hf g hg attr' hattr' hu => ?_, ?_⟩⟩
  · refine ⟨?_, fun attr' hattr' hu => absurd hu (hnot f hf attr' hattr')⟩
    rw [hbranch f hf]
    simpa [factIds] using hdrift g hg
  · exact absurd hu (hnot f (.inl hf) attr' hattr')
  · exact absurd hu (hnot f (.inl hf) attr' hattr')
  · rw [hothers]
    exact forall_mem_nil _

end KeptSagaExample

end Corium.Transactor
