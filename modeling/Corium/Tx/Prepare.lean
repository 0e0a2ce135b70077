/-
  Corium.Tx.Prepare — transaction expansion, entity resolution and validation
  (`crates/corium-tx/src/lib.rs`).

  `prepare` expands map forms, unifies tempids with existing entities through
  identity attributes, allocates the rest from `nextUserSequence`, and then
  checks the operations one after another against a working value that each
  operation's datoms advance. Lookup refs and identities are resolved against the
  database before the transaction; everything else reads the working value.
-/

import Corium.Tx.Saga

namespace Corium.Tx

open Corium.Core Corium.Lib Bootstrap

/-- The reserved tempid naming the transaction's own entity. -/
def txTempid : String := "datomic.tx"

inductive EntityRef where
  | id (e : EntityId)
  | temp (name : String)
  /-- A unique attribute and its value. -/
  | lookup (a : AttrId) (v : Value)
  deriving DecidableEq, Repr

inductive TxOp where
  | add (e : EntityRef) (a : AttrId) (v : Value)
  /-- Assert a reference whose value is an entity position. -/
  | addRef (e : EntityRef) (a : AttrId) (target : EntityRef)
  | retract (e : EntityRef) (a : AttrId) (v : Value)
  /-- Compare and swap a cardinality-one value. -/
  | cas (e : EntityRef) (a : AttrId) (old : Option Value) (new : Value)
  /-- Retract an entity with its component children. -/
  | retractEntity (e : EntityRef)
  deriving DecidableEq, Repr

/-- A map-form entity: each value of each attribute is one addition. -/
structure EntityMap where
  entity : EntityRef
  attributes : List (AttrId × List Value)
  deriving DecidableEq, Repr

inductive TxItem where
  | op (op : TxOp)
  | map (m : EntityMap)
  deriving DecidableEq, Repr

abbrev Tempids := Std.ExtTreeMap String EntityId

structure PreparedTx where
  datoms : List Datom
  /-- Allocations and upserts for the caller's tempids. -/
  tempids : Tempids
  deriving DecidableEq

inductive TxError where
  | unknownAttribute (a : AttrId)
  | typeMismatch (a : AttrId)
  | lookupNotFound
  | lookupNotUnique
  | uniqueConflict
  | casFailed
  | casCardinality
  | txInstantNotMonotonic (supplied last : Int64)
  | invalidTxInstantOperation
  | unprotectedValue (a : AttrId)
  | unexpectedProtection (a : AttrId)
  | staleProtectionForm (attr : AttrId) (expectedClass : EntityId) (expectedEpoch : UInt32) (cls : EntityId)
      (epoch : UInt32)
  | schemaAttribute (a : AttrId)
  | retiredAttribute (a : AttrId)
  | saga (violation : SagaViolation)
  | foreignProtectionClass (attr : AttrId) (cls : EntityId)
  deriving DecidableEq, Repr

/-! ## Checks on one operation -/

/-- Whether an ordinary transaction may write `a` on `e`: no audit trail, and of
    the schema vocabulary only a name on an entity outside the db partition. -/
def writableByTransaction (e : EntityId) (a : AttrId) : Bool :=
  if isAuditAttribute a then false
  else if !isSchemaAttribute a then true
  else a = ident && !e.inPartition .db

def validate (db : Db) (e : EntityId) (a : AttrId) (v : Value) : Except TxError Unit :=
  if !writableByTransaction e a then .error (.schemaAttribute a)
  else match db.schema.get a with
    | none => .error (.unknownAttribute a)
    | some attr => if v.hasType attr.valueType then .ok () else .error (.typeMismatch a)

def validateNotRetired (db : Db) (a : AttrId) : Except TxError Unit :=
  if db.schema.isRetired a then .error (.retiredAttribute a) else .ok ()

/-- An assertion uses the form its attribute has now. -/
def validateAssertionForm (db : Db) (a : AttrId) (v : Value) : Except TxError Unit :=
  match (db.schema.protectionOf a).current, v with
  | some expectedClass, .sealed s =>
    let expectedEpoch := match db.schema.cls expectedClass with
      | some cls => cls.currentEpoch
      | none => s.epoch
    if s.cls = expectedClass ∧ s.epoch = expectedEpoch then .ok ()
    else .error (.staleProtectionForm a expectedClass expectedEpoch s.cls s.epoch)
  | some _, _ => .error (.unprotectedValue a)
  | none, .sealed _ => .error (.unexpectedProtection a)
  | none, _ => .ok ()

/-- A retraction may use any form its attribute has had. -/
def validateHistoricalForm (db : Db) (a : AttrId) : Value → Except TxError Unit
  | .sealed s =>
    if s.cls ∈ (db.schema.protectionOf a).classes then .ok () else .error (.foreignProtectionClass a s.cls)
  | _ => .ok ()

/-- A compare-and-swap's old value may use any form too. -/
def validateOld (db : Db) (a : AttrId) : Option Value → Except TxError Unit
  | some old => validateHistoricalForm db a old
  | none => .ok ()

/-! ## Tempids -/

def expandItem : TxItem → List TxOp
  | .op op => [op]
  | .map m => m.attributes.flatMap fun entry => entry.2.map fun v => .add m.entity entry.1 v

def expandItems (items : List TxItem) : List TxOp := items.flatMap expandItem

def isIdentity (db : Db) (a : AttrId) : Bool := (db.schema.get a).bind (·.unique) = some .identity

/-- An identity assertion on a tempid unifies it with the entity that has the identity. -/
def unifyIdentity (db : Db) (tempids : Tempids) : TxOp → Tempids
  | .add (.temp t) a v =>
    if t ≠ txTempid ∧ isIdentity db a then
      match db.lookup a v with
      | some e => tempids.insert t e
      | none => tempids
    else tempids
  | _ => tempids

structure Allocation where
  tempids : Tempids
  next : Nat

def entityPositions : TxOp → List EntityRef
  | .add e _ _ => [e]
  | .retract e _ _ => [e]
  | .cas e _ _ _ => [e]
  | .retractEntity e => [e]
  | .addRef e _ target => [e, target]

/-- A tempid not seen yet gets the next user sequence. -/
def allocateRef (tx : TxId) (alloc : Allocation) : EntityRef → Allocation
  | .temp t =>
    if t = txTempid then { alloc with tempids := alloc.tempids.insert t tx }
    else if t ∈ alloc.tempids then alloc
    else
      { tempids := alloc.tempids.insert t (EntityId.new Partition.user.id alloc.next)
        next := alloc.next + 1 }
  | _ => alloc

def allocate (db : Db) (tx : TxId) (nextUserSequence : Nat) (ops : List TxOp) : Allocation :=
  (ops.flatMap entityPositions).foldl (allocateRef tx)
    { tempids := ops.foldl (unifyIdentity db) ∅, next := max nextUserSequence firstUserId }

/-- Every tempid in an entity position has been allocated by now. -/
def resolve (db : Db) (tempids : Tempids) : EntityRef → Except TxError EntityId
  | .id e => .ok e
  | .temp t => .ok (tempids.getD t default)
  | .lookup a v =>
    match db.schema.get a with
    | none => .error (.unknownAttribute a)
    | some attr =>
      if attr.unique.isNone then .error .lookupNotUnique
      else match db.lookup a v with
        | some e => .ok e
        | none => .error .lookupNotFound

/-! ## Retracting an entity -/

abbrev FactSet := Std.ExtTreeSet Fact

/-- The facts collected and the entities visited. -/
abbrev Collected := FactSet × Std.ExtTreeSet EntityId

def isComponentAttr (db : Db) (a : AttrId) : Bool :=
  match db.schema.get a with
  | some attr => attr.isComponent
  | none => false

/-- The facts `:db/retractEntity` removes for `e`: its own, references to it, and
    its component children's. The source recurses with a set of visited
    entities; every call that goes further adds a referenced entity to it, so the
    depth is bounded by the live datoms (`fuel`). -/
def collectEntityRetractions (db : Db) : Nat → EntityId → Collected → Collected
  | 0, _, acc => acc
  | fuel + 1, e, (facts, seen) =>
    if e ∈ seen then (facts, seen)
    else (db.datomsAt .eavt).foldl (fun acc d =>
      if d.e = e then
        let acc := match d.v with
          | .ref child => if isComponentAttr db d.a then collectEntityRetractions db fuel child acc else acc
          | _ => acc
        (acc.1.insert d.fact, acc.2)
      else if d.v = .ref e then (acc.1.insert d.fact, acc.2)
      else acc) (facts, seen.insert e)

def entityRetractions (db : Db) (e : EntityId) : List Fact :=
  (collectEntityRetractions db ((db.datomsAt .eavt).length + 2) e (∅, ∅)).1.toList

/-! ## One operation after another -/

/-- Datoms so far, the value they leave, and whether `:db/txInstant` was asserted. -/
structure Progress where
  datoms : List Datom
  working : Db
  txInstantAsserted : Bool

/-- Record an operation's datoms and advance the working value by them. -/
def Progress.advance (p : Progress) (datoms : List Datom) : Progress :=
  { p with
    datoms := p.datoms ++ datoms
    working := p.working.withTransaction (p.working.basisT + 1) datoms }

def assertion (tx : TxId) (e : EntityId) (a : AttrId) (v : Value) : Datom := { e, a, v, tx, added := true }

def retraction (tx : TxId) (e : EntityId) (a : AttrId) (v : Value) : Datom := { e, a, v, tx, added := false }

/-- `:db/txInstant` may be asserted once, on the transaction's own entity. -/
def Progress.noteInstant (p : Progress) (a : AttrId) : Progress :=
  { p with txInstantAsserted := p.txInstantAsserted || a = txInstant }

/-- What an addition records: on a cardinality-one attribute the values it replaces, then the fact. -/
def addDatoms (tx : TxId) (working : Db) (attr : Attribute) (e : EntityId) (a : AttrId) (v : Value) : List Datom :=
  (if attr.cardinality = .one then (working.values e a).map (retraction tx e a) else []) ++ [assertion tx e a v]

def applyAdd (tx : TxId) (p : Progress) (e : EntityId) (a : AttrId) (v : Value) : Except TxError Progress := do
  require (a = txInstant → e = tx ∧ p.txInstantAsserted = false) .invalidTxInstantOperation
  validate p.working e a v
  validateNotRetired p.working a
  validateAssertionForm p.working a v
  match p.working.schema.get a with
  | some attr =>
    require (attr.unique.isSome → (p.working.lookup a v).all (· = e)) .uniqueConflict
    -- re-asserting a present fact records nothing
    if v ∈ p.working.values e a then pure (p.noteInstant a)
    else pure ((p.noteInstant a).advance (addDatoms tx p.working attr e a v))
  | none => pure ((p.noteInstant a).advance [assertion tx e a v])

def applyRetract (tx : TxId) (p : Progress) (e : EntityId) (a : AttrId) (v : Value) : Except TxError Progress := do
  validate p.working e a v
  validateHistoricalForm p.working a v
  -- retracting an absent fact records nothing
  pure (p.advance (if v ∈ p.working.values e a then [retraction tx e a v] else []))

def applyCas (tx : TxId) (p : Progress) (e : EntityId) (a : AttrId) (old : Option Value) (new : Value) :
    Except TxError Progress := do
  validate p.working e a new
  validateNotRetired p.working a
  validateAssertionForm p.working a new
  validateOld p.working a old
  require (¬ (p.working.schema.get a).all (·.cardinality ≠ .one)) .casCardinality
  let current := (p.working.values e a).head?
  require (current = old) .casFailed
  pure (p.advance (current.toList.map (retraction tx e a) ++ [assertion tx e a new]))

def applyRetractEntity (tx : TxId) (p : Progress) (e : EntityId) : Except TxError Progress := do
  let facts := entityRetractions p.working e
  require (∀ f ∈ facts, f.2.1 ≠ txInstant) .invalidTxInstantOperation
  match facts.find? fun f => !writableByTransaction f.1 f.2.1 with
  | some f => .error (.schemaAttribute f.2.1)
  | none => pure (p.advance (facts.map fun f => retraction tx f.1 f.2.1 f.2.2))

/-- A reference to a transaction-local entity is an ordinary assertion once both
    positions are resolved. -/
def applyOp (db : Db) (tempids : Tempids) (tx : TxId) (p : Progress) : TxOp → Except TxError Progress
  | .add entity a v => do
    let e ← resolve db tempids entity
    applyAdd tx p e a v
  | .addRef entity a target => do
    let target ← resolve db tempids target
    let e ← resolve db tempids entity
    applyAdd tx p e a (.ref target)
  | .retract entity a v => do
    require (a ≠ txInstant) .invalidTxInstantOperation
    let e ← resolve db tempids entity
    applyRetract tx p e a v
  | .cas entity a old new => do
    require (a ≠ txInstant) .invalidTxInstantOperation
    let e ← resolve db tempids entity
    applyCas tx p e a old new
  | .retractEntity entity => do
    let e ← resolve db tempids entity
    applyRetractEntity tx p e

def prepare (db : Db) (items : List TxItem) (tx : TxId) (nextUserSequence : Nat) : Except TxError PreparedTx := do
  let ops := expandItems items
  let tempids := (allocate db tx nextUserSequence ops).tempids
  let p ← ops.foldlM (applyOp db tempids tx) { datoms := [], working := db, txInstantAsserted := false }
  (validateSagas db p.datoms).mapError .saga
  pure { datoms := p.datoms, tempids }

end Corium.Tx
