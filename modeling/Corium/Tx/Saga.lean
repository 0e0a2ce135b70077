/-
  Corium.Tx.Saga — the registry invariants an ordinary transaction must not
  break (`crates/corium-tx/src/saga.rs`), checked against the database before the
  transaction and the datoms the transaction leaves behind.

  The checks read which attributes of an entity are asserted or retracted by some
  datom of the transaction, not what the transaction leaves in force.
-/

import Corium.Db.Saga
import Corium.Lib.Result

namespace Corium.Tx

open Corium.Core Corium.Bootstrap Corium.Saga Corium.Lib

inductive SagaViolation where
  | notASaga (e : EntityId)
  | incompleteOpen (name : String)
  | opensFinished (status : SagaStatus)
  | illegalTransition (source target : SagaStatus)
  | statusCleared
  | statusMissing (e : EntityId)
  | immutableField (name : String)
  | finished (status : SagaStatus) (name : String)
  | sealedReservation
  | mergeRecordWithoutCommit (name : String)
  | grantNotLeased
  | grantedId (e : EntityId)
  deriving DecidableEq, Repr

/-- The registry attribute's keyword, for an error a person has to read. -/
def nameOf (a : AttrId) : String :=
  if a = sagaId then ":db.saga/id"
  else if a = sagaStatus then ":db.saga/status"
  else if a = sagaBasisT then ":db.saga/basis-t"
  else if a = sagaDescription then ":db.saga/description"
  else if a = sagaOwner then ":db.saga/owner"
  else if a = sagaExpiresAt then ":db.saga/expires-at"
  else if a = sagaIdGrants then ":db.saga/id-grants"
  else if a = sagaFootprint then ":db.saga/footprint"
  else if a = sagaReserves then ":db.saga/reserves"
  else if a = sagaSealed then ":db.saga/sealed"
  else if a = sagaMergedTx then ":db.saga/merged-tx"
  else if a = sagaSteps then ":db.saga/steps"
  else if a = sagaConflictReport then ":db.saga/conflict-report"
  else if a = sagaOnAbortTx then ":db.saga/on-abort-tx"
  else if a = sagaOnAbortFn then ":db.saga/on-abort-fn"
  else if a = sagaOnAbortError then ":db.saga/on-abort-error"
  else if a = sagaCompensations then ":db.saga/compensations"
  else if a = sagaRetainFor then ":db.saga/retain-for"
  else "a saga registry attribute"

/-- The grants of open sagas that this transaction does not commit. -/
def guardedGrants (db : Db) (datoms : List Datom) : List IdGrant :=
  ((openEntries db).filter fun entry => assertedStatus db entry.entity datoms ≠ some .committed).flatMap (·.grants)

/-- The ids a datom names: its entity, and an ordinary reference's target. -/
def namedIds (d : Datom) : List EntityId :=
  d.e :: match d.v with
    | .ref e => if isRegistryAttribute d.a then [] else [e]
    | _ => []

def validateGrantedIds (db : Db) (datoms : List Datom) : Except SagaViolation Unit :=
  let grants := guardedGrants db datoms
  match (datoms.flatMap namedIds).find? fun e => grants.any (·.holds e) with
  | some e => .error (.grantedId e)
  | none => .ok ()

def assertsField (writes : List Datom) (a : AttrId) : Bool := writes.any fun d => d.a = a ∧ d.added

def retractsField (writes : List Datom) (a : AttrId) : Bool := writes.any fun d => d.a = a ∧ ¬ d.added

/-- The registry datoms of one entity. -/
def sagaWrites (entity : EntityId) (datoms : List Datom) : List Datom :=
  datoms.filter fun d => d.e = entity ∧ isSagaAttribute d.a

/-- Fail, with the error of the first of `attrs` that meets `bad`. -/
def rejectFirst (attrs : List AttrId) (bad : AttrId → Bool) (err : String → SagaViolation) :
    Except SagaViolation Unit :=
  match attrs.find? bad with
  | some a => .error (err (nameOf a))
  | none => .ok ()

/-- The merge's own record is written by the transaction that commits the saga. -/
def checkMergeRecord (writes : List Datom) (status : Option SagaStatus) : Except SagaViolation Unit :=
  if status = some .committed then .ok ()
  else rejectFirst [sagaMergedTx, sagaSteps] (assertsField writes) .mergeRecordWithoutCommit

/-- A new entry: `:db.saga/id` makes the entity a saga, created open and complete. -/
def validateOpen (entity : EntityId) (writes : List Datom) (status : Option SagaStatus) :
    Except SagaViolation Unit := do
  require (assertsField writes sagaId) (.notASaga entity)
  match status with
  | some .opened => pure ()
  | some other => .error (.opensFinished other)
  | none => .error (.incompleteOpen (nameOf sagaStatus))
  rejectFirst [sagaBasisT, sagaOwner, sagaExpiresAt] (fun a => !assertsField writes a) .incompleteOpen
  checkMergeRecord writes status

/-- The transition an existing entry makes, if any; with none it must still be
    open to be written to beyond its compensation ledger. -/
def validateTransition (prior : SagaEntry) (writes : List Datom) (status : Option SagaStatus) :
    Except SagaViolation Unit :=
  match prior.status, status with
  | none, _ => .error (.statusMissing prior.entity)
  | some current, some next => require (current.mayBecome next) (.illegalTransition current next)
  | some current, none => do
    require (¬ retractsField writes sagaStatus) .statusCleared
    match writes.find? fun d => d.a ≠ sagaCompensations with
    | some d => require (current = .opened) (.finished current (nameOf d.a))
    | none => pure ()

/-- An existing entry: fixed fields, then the transition, then the reservation set. -/
def validateUpdate (prior : SagaEntry) (writes : List Datom) (status : Option SagaStatus) :
    Except SagaViolation Unit := do
  rejectFirst [sagaId, sagaBasisT, sagaOwner, sagaSealed]
    (fun a => assertsField writes a || retractsField writes a) .immutableField
  validateTransition prior writes status
  require (¬ (prior.sealed ∧ assertsField writes sagaReserves)) .sealedReservation
  checkMergeRecord writes status

def validateEntity (db : Db) (datoms : List Datom) (entity : EntityId) : Except SagaViolation Unit :=
  let writes := sagaWrites entity datoms
  let status := assertedStatus db entity datoms
  match entryAt db entity with
  | none => validateOpen entity writes status
  | some prior => validateUpdate prior writes status

def validateSagas (db : Db) (datoms : List Datom) : Except SagaViolation Unit := do
  require (∀ d ∈ datoms, isGrantAttribute d.a = false ∧ d.a ≠ sagaIdGrants) .grantNotLeased
  validateGrantedIds db datoms
  (sortedEntities ((datoms.filter fun d => isSagaAttribute d.a).map (·.e))).forM (validateEntity db datoms)

end Corium.Tx
