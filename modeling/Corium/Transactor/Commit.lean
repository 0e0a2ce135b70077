/-
  Corium.Transactor.Commit — the serialized transactor
  (`crates/corium-transactor/src/lib.rs`): committing a transaction and
  recovering from the log or from a published snapshot.

  A commit prepares the transaction, leases id blocks to the sagas it opens,
  settles its instant and appends one record to the log. `State` holds what the
  source keeps under its lock and what its `BatchCursor` carries. Left out are
  subscribers and the asynchronous path, which commits the same way, and saga
  branches, which are written through `prepare_step`.
-/

import Corium.Tx.Effects

namespace Corium.Transactor

open Corium.Core Corium.Lib Corium.Tx Bootstrap

/-- One durable log record (`crates/corium-log/src/lib.rs`). -/
structure TxRecord where
  t : Nat
  txInstant : Int64
  datoms : List Datom
  deriving DecidableEq

structure State where
  db : Db
  nextUser : Nat
  lastInstant : Int64
  deriving DecidableEq

/-! ## Transaction time -/

def saturatingSucc (i : Int64) : Int64 := if i = Int64.maxValue then i else i + 1

/-- Transaction data may assert its own instant, later than the last; otherwise
    the transactor stamps `max(now, last + 1)` and records it. -/
def sealTxInstant (datoms : List Datom) (t : Nat) (nowMs lastInstant : Int64) :
    Except TxError (List Datom × Int64) :=
  match assertedInstant t datoms with
  | some supplied =>
    if supplied ≤ lastInstant then .error (.txInstantNotMonotonic supplied lastInstant) else .ok (datoms, supplied)
  | none =>
    let instant := max nowMs (saturatingSucc lastInstant)
    .ok (datoms ++ [txInstantDatom t instant], instant)

def effectiveTxInstant (record : TxRecord) : Int64 :=
  (assertedInstant record.t record.datoms).getD record.txInstant

/-! ## Entity-id allocation -/

/-- One past the highest user-partition entity of `datoms`, at least `floor`. -/
def nextUserId (datoms : List Datom) (floor : Nat) : Nat :=
  ((datoms.filter fun d => d.e.inPartition .user).map fun d => d.e.sequence + 1).foldl max floor

/-- A leased block is spent, whether or not a datom uses it. -/
def floorPastGrants (db : Db) (nextUser : Nat) : Nat := max nextUser (Saga.grantCeiling db Partition.user.id)

/-- The datoms recording the block `[next + 1, next + 1 + defaultIdBlock)` on the
    grant entity `next`. -/
def grantDatoms (tx : TxId) (saga : EntityId) (next : Nat) : List Datom :=
  let grant := EntityId.new Partition.user.id next
  [assertion tx saga sagaIdGrants (.ref grant),
    assertion tx grant sagaGrantPartition (.long (Int64.ofNat Partition.user.id)),
    assertion tx grant sagaGrantStart (.long (Int64.ofNat (next + 1))),
    assertion tx grant sagaGrantLength (.long (Int64.ofNat Saga.defaultIdBlock))]

/-- Leases a block to each saga the datoms open, carved from the counter `next`. -/
def leaseSagaGrants (before : Db) (datoms : List Datom) (tx : TxId) (next : Nat) : List Datom × Nat :=
  let opened := ((datoms.filter fun d => d.a = sagaId ∧ d.added).map (·.e)).filter fun e =>
    (Saga.entryAt before e).isNone
  opened.foldl (fun acc saga =>
    (acc.1 ++ grantDatoms tx saga acc.2, min (acc.2 + 1 + Saga.defaultIdBlock) (2 ^ 64 - 1))) (datoms, next)

/-- The datoms with the blocks they lease, and the counter past every id
    allocated for a tempid and past the blocks. -/
def advanceAllocation (before : Db) (prepared : PreparedTx) (tx : TxId) (nextUser : Nat) : List Datom × Nat :=
  let next := ((prepared.tempids.toList.filter fun x => x.2.inPartition .user).map fun x => x.2.sequence + 1).foldl
    max nextUser
  leaseSagaGrants before prepared.datoms tx next

/-! ## Committing -/

/-- The transaction id the next commit takes. -/
def State.nextTx (s : State) : TxId := txId (s.db.basisT + 1)

/-- `BatchCursor::prepare`: the record to append and the state once it is
    durable. A transaction refused for its instant still has advanced the
    allocation counter. -/
def prepareTransaction (s : State) (items : List TxItem) (nowMs : Int64) :
    Except TxError (TxRecord × Tempids) × State :=
  let t := s.db.basisT + 1
  match prepare s.db items s.nextTx s.nextUser with
  | .error e => (.error e, s)
  | .ok prepared =>
    let (datoms, nextUser) := advanceAllocation s.db prepared s.nextTx s.nextUser
    match sealTxInstant datoms t nowMs s.lastInstant with
    | .error e => (.error e, { s with nextUser })
    | .ok (datoms, txInstant) =>
      (.ok ({ t, txInstant, datoms }, prepared.tempids),
        { db := s.db.withTransactionAt t txInstant datoms, nextUser, lastInstant := txInstant })

/-- `transact`: the same commit on the live state, which a refusal leaves as it is. -/
def transact (s : State) (items : List TxItem) (nowMs : Int64) : Except TxError (TxRecord × Tempids × State) :=
  match prepareTransaction s items nowMs with
  | (.error e, _) => .error e
  | (.ok (record, tempids), s') => .ok (record, tempids, s')

/-- `prepare_datoms`: a transaction of datoms that are already resolved, as a
    schema update compiles to. -/
def prepareDatoms (s : State) (datoms : List Datom) (nowMs : Int64) : Except TxError (TxRecord × State) :=
  let t := s.db.basisT + 1
  match sealTxInstant datoms t nowMs s.lastInstant with
  | .error e => .error e
  | .ok (datoms, txInstant) =>
    .ok ({ t, txInstant, datoms },
      { s with db := s.db.withTransactionAt t txInstant datoms, lastInstant := txInstant })

/-! ## Recovery -/

def applyRecord (db : Db) (record : TxRecord) : Db := db.withTransactionAt record.t record.txInstant record.datoms

def replayLog (base : Db) (log : List TxRecord) : Db := log.foldl applyRecord base

/-- Recovery by replaying the whole log over the creation value. -/
def recoverFrom (base : Db) (log : List TxRecord) : State :=
  let db := replayLog base log
  { db
    nextUser := floorPastGrants db (nextUserId db.recorded firstUserId)
    lastInstant := (log.map effectiveTxInstant).foldl max Int64.minValue }

def txRange (log : List TxRecord) (start : Nat) : List TxRecord := log.filter fun r => start ≤ r.t

/-- Recovery from a published snapshot and the log after its basis. -/
def recoverFromSnapshot (snapshot : Db) (nextEntityId : Nat) (lastTxInstant : Int64) (log : List TxRecord) : State :=
  let tail := txRange log (snapshot.basisT + 1)
  let db := replayLog snapshot tail
  { db
    nextUser := floorPastGrants db
      (tail.foldl (fun next r => max next (nextUserId r.datoms next)) (max nextEntityId firstUserId))
    lastInstant := (tail.map effectiveTxInstant).foldl max lastTxInstant }

/-- The EAVT key streams a publication of `db` stores. -/
structure Published where
  basisT : Nat
  currentKeys : List Bytes
  historyKeys : List Bytes
  nextEntityId : Nat
  lastTxInstant : Int64

def publish (s : State) : Published :=
  { basisT := s.db.basisT
    currentKeys := (s.db.datomsAt .eavt).map (·.key .eavt)
    historyKeys := (s.db.history.datomsAt .eavt).map (·.key .eavt)
    nextEntityId := s.nextUser
    lastTxInstant := s.lastInstant }

/-- `load_history_snapshot`: the value at a published basis, decoded from its key streams. -/
def loadHistorySnapshot (root : Published) (schema : Schema) (idents : Idents) (interner : KeywordInterner) :
    Except DecodeError Db := do
  let current ← root.currentKeys.mapM (Datom.fromKey .eavt)
  let history ← root.historyKeys.mapM (Datom.fromKey .eavt)
  pure (Db.fromHistorySnapshotWithNextUser root.basisT root.nextEntityId schema idents interner history current)

/-- Recovery the way a database is opened: from the published snapshot where it
    decodes, else from the whole log. -/
def recoverTransactor (root : Published) (schema : Schema) (idents : Idents) (interner : KeywordInterner)
    (log : List TxRecord) : State :=
  match loadHistorySnapshot root schema idents interner with
  | .ok snapshot => recoverFromSnapshot snapshot root.nextEntityId root.lastTxInstant log
  | .error _ => recoverFrom ((Db.new schema).withNaming idents interner) log

/-! ## Runs of commits -/

/-- The value a database is created with. -/
def creation (schema : Schema) (idents : Idents) (interner : KeywordInterner) : Db :=
  (Db.new schema).withNaming idents interner

/-- The states a transactor passes through from `base`, with the log so far: each
    step commits one accepted transaction, or attaches the names interned since. -/
inductive Commits (base : Db) : List TxRecord → State → Prop where
  | start : Commits base [] (recoverFrom base [])
  | naming {log : List TxRecord} {s : State} {interner : KeywordInterner} : Commits base log s →
      s.db.interner.Extends interner → Commits base log { s with db := s.db.withNaming s.db.idents interner }
  | commit {log : List TxRecord} {s s' : State} {items : List TxItem} {nowMs : Int64} {record : TxRecord}
      {tempids : Tempids} : Commits base log s → transact s items nowMs = .ok (record, tempids, s') →
      Commits base (log ++ [record]) s'

/-! ## What a commit records -/

/-- The stages of an accepted commit. -/
structure Committed (s : State) (items : List TxItem) (nowMs : Int64) (record : TxRecord) (tempids : Tempids)
    (s' : State) (prepared : PreparedTx) (leased : List Datom) : Prop where
  prepare : prepare s.db items s.nextTx s.nextUser = .ok prepared
  tempids : tempids = prepared.tempids
  advance : advanceAllocation s.db prepared s.nextTx s.nextUser = (leased, s'.nextUser)
  sealed : sealTxInstant leased (s.db.basisT + 1) nowMs s.lastInstant = .ok (record.datoms, record.txInstant)
  t : record.t = s.db.basisT + 1
  db : s'.db = applyRecord s.db record
  lastInstant : s'.lastInstant = record.txInstant

variable {items : List TxItem} {record : TxRecord} {nowMs : Int64} {s s' : State} {tempids : Tempids}

theorem transact_ok
    (h : transact s items nowMs = .ok (record, tempids, s')) :
    ∃ prepared leased, Committed s items nowMs record tempids s' prepared leased := by
  unfold transact prepareTransaction at h
  cases hp : prepare s.db items s.nextTx s.nextUser with
  | error e => simp [hp] at h
  | ok prepared =>
    simp only [hp] at h
    cases ha : advanceAllocation s.db prepared s.nextTx s.nextUser with
    | mk leased next =>
      simp only [ha] at h
      cases hs : sealTxInstant leased (s.db.basisT + 1) nowMs s.lastInstant with
      | error e => simp [hs] at h
      | ok sealed =>
        simp only [hs, Except.ok.injEq, Prod.mk.injEq] at h
        obtain ⟨rfl, rfl, rfl⟩ := h
        exact ⟨prepared, leased, hp, rfl, ha, hs, rfl, rfl, rfl⟩

theorem prepareTransaction_ok
    (h : prepareTransaction s items nowMs = (.ok (record, tempids), s')) :
    transact s items nowMs = .ok (record, tempids, s') := by
  unfold transact
  rw [h]

/-- A refusal leaves the value; only the allocation counter may have moved. -/
theorem prepareTransaction_error {e : TxError}
    (h : prepareTransaction s items nowMs = (.error e, s')) : s'.db = s.db ∧ s'.lastInstant = s.lastInstant := by
  unfold prepareTransaction at h
  cases hp : prepare s.db items s.nextTx s.nextUser with
  | error e =>
    rw [hp] at h
    cases h
    exact ⟨rfl, rfl⟩
  | ok prepared =>
    simp only [hp] at h
    split at h
    · cases h
      exact ⟨rfl, rfl⟩
    · cases h

theorem prepareDatoms_ok {datoms : List Datom}
    (h : prepareDatoms s datoms nowMs = .ok (record, s')) :
    s'.db = applyRecord s.db record ∧ record.t = s.db.basisT + 1 ∧ s'.lastInstant = record.txInstant ∧
      s'.nextUser = s.nextUser ∧
      sealTxInstant datoms (s.db.basisT + 1) nowMs s.lastInstant = .ok (record.datoms, record.txInstant) := by
  unfold prepareDatoms at h
  dsimp only at h
  split at h
  · cases h
  · rename_i hseal
    cases h
    exact ⟨rfl, rfl, rfl, rfl, hseal⟩

theorem assertedInstant_concat (t : Nat) (datoms : List Datom) (instant : Int64) :
    assertedInstant t (datoms ++ [txInstantDatom t instant]) = some instant := by
  unfold assertedInstant
  rw [List.foldl_append]
  simp [assertedInstantStep, txInstantDatom]

variable {sealed : List Datom} {instant lastInstant : Int64} {t : Nat}

/-- A supplied instant is later than the last; any other is stamped. -/
theorem sealTxInstant_cases {datoms : List Datom} {nowMs : Int64}
    (h : sealTxInstant datoms t nowMs lastInstant = .ok (sealed, instant)) :
    (assertedInstant t datoms = some instant ∧ lastInstant < instant ∧ sealed = datoms) ∨
      (assertedInstant t datoms = none ∧ instant = max nowMs (saturatingSucc lastInstant) ∧
        sealed = datoms ++ [txInstantDatom t instant]) := by
  unfold sealTxInstant at h
  split at h
  · rename_i supplied hs
    split at h
    · cases h
    · rename_i hlate
      cases h
      exact .inl ⟨hs, Int64.not_le.mp hlate, rfl⟩
  · rename_i hs
    cases h
    exact .inr ⟨hs, rfl, rfl⟩

/-- A sealed transaction asserts the instant it is stamped with. -/
theorem sealTxInstant_ok {datoms : List Datom} {nowMs : Int64}
    (h : sealTxInstant datoms t nowMs lastInstant = .ok (sealed, instant)) :
    (sealed = datoms ∨ sealed = datoms ++ [txInstantDatom t instant]) ∧
      assertedInstant t sealed = some instant := by
  rcases sealTxInstant_cases h with ⟨hs, -, rfl⟩ | ⟨-, -, rfl⟩
  · exact ⟨.inl rfl, hs⟩
  · exact ⟨.inr rfl, assertedInstant_concat _ _ _⟩

/-! ## The transaction clock -/

theorem int64_max_eq (a b : Int64) : max a b = if a ≤ b then b else a := rfl

theorem int64_le_max (a b : Int64) : a ≤ max a b ∧ b ≤ max a b := by
  rw [int64_max_eq]
  split
  · exact ⟨‹_›, Int64.le_refl b⟩
  · exact ⟨Int64.le_refl a, Int64.le_of_lt (Int64.not_le.mp ‹_›)⟩

theorem lt_saturatingSucc {i : Int64} (h : i ≠ Int64.maxValue) : i < saturatingSucc i := by
  unfold saturatingSucc
  rw [if_neg h, Int64.lt_iff_toInt_lt, Int64.toInt_add]
  have hmax : i.toInt ≠ 2 ^ 63 - 1 := fun heq => h (Int64.toInt_inj.mp (heq.trans Int64.toInt_maxValue.symm))
  have hlt := Int64.toInt_lt i
  have hle := Int64.le_toInt i
  have hone : (1 : Int64).toInt = 1 := rfl
  rw [hone, Int.bmod_eq_of_le (by omega) (by omega)]
  omega

/-- The clock never goes back, and moves on until it stands at its last instant. -/
theorem sealTxInstant_clock {datoms : List Datom} {nowMs : Int64}
    (h : sealTxInstant datoms t nowMs lastInstant = .ok (sealed, instant)) :
    lastInstant ≤ instant ∧ (lastInstant ≠ Int64.maxValue → lastInstant < instant) := by
  rcases sealTxInstant_cases h with ⟨-, hlate, -⟩ | ⟨-, rfl, -⟩
  · exact ⟨Int64.le_of_lt hlate, fun _ => hlate⟩
  · have hle := (int64_le_max nowMs (saturatingSucc lastInstant)).2
    by_cases hmax : lastInstant = Int64.maxValue
    · refine ⟨Int64.le_trans ?_ hle, fun hne => absurd hmax hne⟩
      unfold saturatingSucc
      rw [if_pos hmax]
      exact Int64.le_refl _
    · have hlt := Int64.lt_of_lt_of_le (lt_saturatingSucc hmax) hle
      exact ⟨Int64.le_of_lt hlt, fun _ => hlt⟩

/-- Leasing appends grant datoms. -/
theorem leaseSagaGrants_datoms (before : Db) (datoms : List Datom) (tx : TxId) (next : Nat) :
    ∃ grants, (leaseSagaGrants before datoms tx next).1 = datoms ++ grants ∧
      ∀ d ∈ grants, ∃ saga n, d ∈ grantDatoms tx saga n := by
  unfold leaseSagaGrants
  generalize ((datoms.filter _).map _).filter _ = opened
  apply List.foldlRecOn (motive := fun acc : List Datom × Nat => ∃ grants, acc.1 = datoms ++ grants ∧
    ∀ d ∈ grants, ∃ saga n, d ∈ grantDatoms tx saga n)
  · exact ⟨[], by simp, by simp⟩
  · intro acc hacc saga _
    obtain ⟨grants, hg, hmem⟩ := hacc
    refine ⟨grants ++ grantDatoms tx saga acc.2, by simp [hg], ?_⟩
    intro d hd
    rcases List.mem_append.mp hd with hd | hd
    · exact hmem d hd
    · exact ⟨saga, acc.2, hd⟩

theorem mem_grantDatoms {tx : TxId} {saga : EntityId} {n : Nat} {d : Datom} (h : d ∈ grantDatoms tx saga n) :
    d.tx = tx ∧ d.added = true ∧ (d.a = sagaIdGrants ∨ Saga.isGrantAttribute d.a = true) := by
  simp only [grantDatoms, List.mem_cons, List.not_mem_nil, or_false] at h
  rcases h with rfl | rfl | rfl | rfl
  · exact ⟨rfl, rfl, Or.inl rfl⟩
  · exact ⟨rfl, rfl, Or.inr (by decide : Saga.isGrantAttribute sagaGrantPartition = true)⟩
  · exact ⟨rfl, rfl, Or.inr (by decide : Saga.isGrantAttribute sagaGrantStart = true)⟩
  · exact ⟨rfl, rfl, Or.inr (by decide : Saga.isGrantAttribute sagaGrantLength = true)⟩

/-- What a commit's record holds: the prepared datoms, the grants it leases, and
    its instant where the transaction asserts none. -/
theorem Committed.datoms
    {prepared : PreparedTx} {leased : List Datom}
    (h : Committed s items nowMs record tempids s' prepared leased) :
    ∃ grants stamp, record.datoms = prepared.datoms ++ grants ++ stamp ∧ leased = prepared.datoms ++ grants ∧
      (∀ d ∈ grants, ∃ saga n, d ∈ grantDatoms s.nextTx saga n) ∧
      ∀ d ∈ stamp, d = txInstantDatom (s.db.basisT + 1) record.txInstant := by
  obtain ⟨grants, hg, hmem⟩ := leaseSagaGrants_datoms s.db prepared.datoms s.nextTx
    (((prepared.tempids.toList.filter fun x => x.2.inPartition .user).map fun x => x.2.sequence + 1).foldl max s.nextUser)
  have hleased : leased = prepared.datoms ++ grants := by
    rw [← hg]
    exact (congrArg Prod.fst h.advance).symm
  rcases (sealTxInstant_ok h.sealed).1 with hs | hs
  · exact ⟨grants, [], by rw [hs, hleased]; simp, hleased, hmem, by simp⟩
  · exact ⟨grants, _, by rw [hs, hleased], hleased, hmem, by simp⟩

/-- Every datom of a commit is the transaction's, and none describes an attribute. -/
theorem Committed.mem
    {prepared : PreparedTx} {leased : List Datom} (hv : s.db.view = .current)
    (h : Committed s items nowMs record tempids s' prepared leased) {d : Datom} (hd : d ∈ record.datoms) :
    d.tx = s.nextTx ∧ (isSchemaAttribute d.a = true → d.a = ident) := by
  obtain ⟨grants, stamp, hds, -, hgrants, hstamp⟩ := h.datoms
  rw [hds] at hd
  rcases List.mem_append.mp hd with hd | hd
  · rcases List.mem_append.mp hd with hd | hd
    · obtain ⟨w, heff⟩ := prepare_effects hv h.prepare
      obtain ⟨htx, hw⟩ := heff.mem hd
      exact ⟨htx, ident_of_writable hw⟩
    · obtain ⟨saga, n, hd⟩ := hgrants d hd
      obtain ⟨htx, -, ha⟩ := mem_grantDatoms hd
      refine ⟨htx, fun hs => ?_⟩
      rcases ha with ha | ha
      · rw [ha] at hs
        exact absurd hs (by decide)
      · simp only [Saga.isGrantAttribute, List.mem_cons, List.not_mem_nil, or_false, decide_eq_true_eq] at ha
        rcases ha with ha | ha | ha <;> (rw [ha] at hs; exact absurd hs (by decide))
  · rw [hstamp d hd]
    exact ⟨rfl, fun hs => absurd hs (by decide : ¬ isSchemaAttribute Bootstrap.txInstant = true)⟩

end Corium.Transactor
