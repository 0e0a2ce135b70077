/-
  Corium.Db.Saga — reading the saga registry out of a database value
  (`crates/corium-db/src/saga.rs`): statuses, entity-id grants, entries.

  A registry field is the first value its entity holds; an entry exists where
  `:db.saga/id` holds a uuid.
-/

import Corium.Db.Views

namespace Corium.Saga

open Corium.Core Corium.Bootstrap

def statusNamespace : String := "db.saga.status"

/-- Sequences in one leased block. -/
def defaultIdBlock : Nat := 2 ^ 20

inductive SagaStatus where
  | opened
  | committed
  | aborted
  | expired
  | unknown (keyword : Keyword)
  deriving DecidableEq, Repr

namespace SagaStatus

def fromKeyword (k : Keyword) : SagaStatus :=
  if k.ns = some statusNamespace then
    if k.name = "open" then .opened
    else if k.name = "committed" then .committed
    else if k.name = "aborted" then .aborted
    else if k.name = "expired" then .expired
    else .unknown k
  else .unknown k

def isTerminal : SagaStatus → Bool
  | .committed | .aborted | .expired => true
  | _ => false

def mayBecome (s next : SagaStatus) : Bool := s = .opened && next.isTerminal

end SagaStatus

/-! ## Grants -/

/-- An entity-id block leased to a saga. -/
structure IdGrant where
  entity : EntityId
  part : Option Int64
  start : Option Int64
  length : Option Int64
  deriving DecidableEq, Repr

namespace IdGrant

/-- One past the block's last sequence; none when it does not fit `i64`. -/
def stop (g : IdGrant) : Option Int :=
  match g.start, g.length with
  | some s, some l => if s.toInt + l.toInt < 2 ^ 63 ∧ -(2 ^ 63) ≤ s.toInt + l.toInt then some (s.toInt + l.toInt) else none
  | _, _ => none

def contains (g : IdGrant) (part sequence : Int) : Bool :=
  g.part.map Int64.toInt = some part && g.start.any (fun s => s.toInt ≤ sequence) && g.stop.any (sequence < ·)

/-- Sequences have 42 bits, so every one fits `i64`. -/
def holds (g : IdGrant) (e : EntityId) : Bool := g.contains e.partition e.sequence

end IdGrant

/-! ## Attribute groups -/

def isSagaAttribute (a : AttrId) : Bool :=
  a ∈ [sagaId, sagaStatus, sagaBasisT, sagaDescription, sagaOwner, sagaExpiresAt, sagaIdGrants, sagaFootprint,
    sagaReserves, sagaSealed, sagaMergedTx, sagaSteps, sagaConflictReport, sagaOnAbortTx, sagaOnAbortFn,
    sagaOnAbortError, sagaCompensations, sagaRetainFor]

def isGrantAttribute (a : AttrId) : Bool := a ∈ [sagaGrantPartition, sagaGrantStart, sagaGrantLength]

def isCompensationAttribute (a : AttrId) : Bool :=
  a ∈ [sagaCompensationKey, sagaCompensationStatus, sagaCompensationDetail, sagaCompensationCompletedAt,
    sagaCompensationError]

def isRegistryAttribute (a : AttrId) : Bool :=
  isSagaAttribute a || isGrantAttribute a || isCompensationAttribute a

/-! ## Fields -/

def uuid : Value → Option (BitVec 128)
  | .uuid u => some u
  | _ => none

def long : Value → Option Int64
  | .long i => some i
  | _ => none

def instant : Value → Option Int64
  | .instant i => some i
  | _ => none

def text : Value → Option String
  | .str s => some s
  | _ => none

def boolean : Value → Option Bool
  | .bool b => some b
  | _ => none

def reference : Value → Option EntityId
  | .ref e => some e
  | _ => none

def keyword (db : Db) : Value → Option Keyword
  | .keyword id => db.interner.resolve id
  | _ => none

def field {α : Type} (db : Db) (e : EntityId) (a : AttrId) (parse : Value → Option α) : Option α :=
  (db.values e a).head?.bind parse

def refs (db : Db) (e : EntityId) (a : AttrId) : List EntityId :=
  ((db.values e a).filterMap reference).insertionSort fun x y => (compare x y).isLE = true

def grantAt (db : Db) (entity : EntityId) : IdGrant :=
  { entity
    part := field db entity sagaGrantPartition long
    start := field db entity sagaGrantStart long
    length := field db entity sagaGrantLength long }

structure Compensation where
  entity : EntityId
  key : Option String
  status : Option Keyword
  detail : Option String
  completedAt : Option Int64
  error : Option String
  deriving DecidableEq, Repr

def compensationAt (db : Db) (entity : EntityId) : Compensation :=
  { entity
    key := field db entity sagaCompensationKey text
    status := field db entity sagaCompensationStatus (keyword db)
    detail := field db entity sagaCompensationDetail text
    completedAt := field db entity sagaCompensationCompletedAt instant
    error := field db entity sagaCompensationError text }

/-- The instant of the transaction that finished the saga, if it is finished. -/
def finishedAt (db : Db) (entity : EntityId) : Option Int64 := do
  let status ← (db.datomsPrefix .eavt (keyPrefix .eavt (some entity) (some sagaStatus) none)).head?
  if (keyword db status.v).any fun k => (SagaStatus.fromKeyword k).isTerminal then
    field db status.tx txInstant instant
  else none

/-! ## Entries -/

structure SagaEntry where
  entity : EntityId
  id : BitVec 128
  status : Option SagaStatus
  basisT : Option Int64
  description : Option String
  owner : Option String
  expiresAt : Option Int64
  grants : List IdGrant
  footprint : List EntityId
  reserves : List EntityId
  sealed : Bool
  mergedTx : Option EntityId
  steps : Option Int64
  conflictReport : Option String
  onAbortTx : Option String
  onAbortFn : Option EntityId
  onAbortError : Option String
  retainFor : Option Int64
  finishedAt : Option Int64
  compensations : List Compensation
  deriving DecidableEq

def SagaEntry.isOpen (entry : SagaEntry) : Bool := entry.status = some .opened

def entryAt (db : Db) (entity : EntityId) : Option SagaEntry :=
  (field db entity sagaId uuid).map fun id =>
    { entity
      id
      status := (field db entity sagaStatus (keyword db)).map SagaStatus.fromKeyword
      basisT := field db entity sagaBasisT long
      description := field db entity sagaDescription text
      owner := field db entity sagaOwner text
      expiresAt := field db entity sagaExpiresAt instant
      grants := (refs db entity sagaIdGrants).map (grantAt db)
      footprint := refs db entity sagaFootprint
      reserves := refs db entity sagaReserves
      sealed := (field db entity sagaSealed boolean).getD false
      mergedTx := field db entity sagaMergedTx reference
      steps := field db entity sagaSteps long
      conflictReport := field db entity sagaConflictReport text
      onAbortTx := field db entity sagaOnAbortTx text
      onAbortFn := field db entity sagaOnAbortFn reference
      onAbortError := field db entity sagaOnAbortError text
      retainFor := field db entity sagaRetainFor long
      finishedAt := finishedAt db entity
      compensations := (refs db entity sagaCompensations).map (compensationAt db) }

/-- `datoms_for_attribute`: one attribute's datoms in AEVT order. -/
def datomsForAttribute (db : Db) (a : AttrId) : List Datom := db.datomsPrefix .aevt (keyPrefix .aevt none (some a) none)

/-- Sorted, without duplicates. -/
def sortedEntities (es : List EntityId) : List EntityId := (Std.ExtTreeSet.ofList es compare).toList

def entries (db : Db) : List SagaEntry :=
  (sortedEntities ((datomsForAttribute db sagaId).map (·.e))).filterMap (entryAt db)

def openEntries (db : Db) : List SagaEntry := (entries db).filter SagaEntry.isOpen

/-- Every grant ever leased, whatever its saga's status. -/
def grants (db : Db) : List IdGrant :=
  (sortedEntities ((datomsForAttribute db sagaGrantStart).map (·.e))).map (grantAt db)

/-- One past the highest sequence ever leased in `part`. -/
def grantCeiling (db : Db) (part : Nat) : Nat :=
  (((grants db).filter fun g => g.part.map Int64.toInt = some (part : Int)).filterMap fun g =>
    g.stop.map Int.toNat).foldl max 0

/-- The status a transaction's datoms assert for `e`: the last assertion, even
    one a later datom of the transaction retracts. -/
def assertedStatus (db : Db) (e : EntityId) (datoms : List Datom) : Option SagaStatus :=
  ((datoms.reverse.find? fun d => d.e = e ∧ d.a = sagaStatus ∧ d.added).bind fun d =>
    keyword db d.v).map SagaStatus.fromKeyword

end Corium.Saga
