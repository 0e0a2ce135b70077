/-
  Corium.Db.Bootstrap — the attributes the engine installs in every database
  (`crates/corium-db/src/bootstrap.rs`), and the ident registry they are named
  in (`Idents` of `crates/corium-db/src/lib.rs`).

  Engine attributes live in the db partition below sequence `firstAttrId`.
-/

import Corium.Core.Datom
import Corium.Core.Keyword

namespace Corium

open Corium.Core

/-- Sequence of the first installable attribute; everything below is the engine's. -/
def firstAttrId : Nat := 100

/-- The first user-assignable sequence. -/
def firstUserId : Nat := 1000

/-! ## Idents -/

/-- Registry of `:db/ident` names. Naming an entity anew does not remove the
    name it had. -/
structure Idents where
  byKeyword : Std.ExtTreeMap Keyword EntityId
  byId : Std.ExtTreeMap EntityId Keyword
  deriving DecidableEq

namespace Idents

def empty : Idents := ⟨∅, ∅⟩

def insert (i : Idents) (keyword : Keyword) (id : EntityId) : Idents :=
  ⟨i.byKeyword.insert keyword id, i.byId.insert id keyword⟩

def entid (i : Idents) (keyword : Keyword) : Option EntityId := i.byKeyword[keyword]?

def ident (i : Idents) (id : EntityId) : Option Keyword := i.byId[id]?

end Idents

namespace Bootstrap

/-! ## The engine's vocabulary -/

/-- An attribute id in the db partition. -/
def dbAttr (sequence : Nat) : AttrId := EntityId.new Partition.db.id sequence

def ident : AttrId := dbAttr 10
def valueType : AttrId := dbAttr 40
def cardinality : AttrId := dbAttr 41
def unique : AttrId := dbAttr 42
def isComponent : AttrId := dbAttr 43
def index : AttrId := dbAttr 44
def noHistory : AttrId := dbAttr 45
def txInstant : AttrId := dbAttr 50
def doc : AttrId := dbAttr 62
def sagaId : AttrId := dbAttr 63
def sagaStatus : AttrId := dbAttr 64
def sagaBasisT : AttrId := dbAttr 65
def sagaDescription : AttrId := dbAttr 66
def sagaOwner : AttrId := dbAttr 67
def sagaExpiresAt : AttrId := dbAttr 68
def sagaIdGrants : AttrId := dbAttr 69
def sagaFootprint : AttrId := dbAttr 70
def sagaReserves : AttrId := dbAttr 71
def sagaSealed : AttrId := dbAttr 72
def sagaMergedTx : AttrId := dbAttr 73
def sagaSteps : AttrId := dbAttr 74
def sagaConflictReport : AttrId := dbAttr 75
def sagaOnAbortTx : AttrId := dbAttr 76
def sagaOnAbortFn : AttrId := dbAttr 77
def sagaOnAbortError : AttrId := dbAttr 78
def sagaCompensations : AttrId := dbAttr 79
def protection : AttrId := dbAttr 80
def retired : AttrId := dbAttr 81
def sagaGuard : AttrId := dbAttr 82
def sagaGrantPartition : AttrId := dbAttr 83
def sagaGrantStart : AttrId := dbAttr 84
def sagaGrantLength : AttrId := dbAttr 85
def sagaCompensationKey : AttrId := dbAttr 86
def sagaCompensationStatus : AttrId := dbAttr 87
def sagaCompensationDetail : AttrId := dbAttr 88
def sagaCompensationCompletedAt : AttrId := dbAttr 89
def updateRequester : AttrId := dbAttr 90
def updateDesiredDigest : AttrId := dbAttr 91
def updatePlanDigest : AttrId := dbAttr 92
def updateObservedBasis : AttrId := dbAttr 93
def updateTool : AttrId := dbAttr 94
def updateClass : AttrId := dbAttr 95
def updateAck : AttrId := dbAttr 96
def sagaCompensationError : AttrId := dbAttr 97
def sagaTxId : AttrId := dbAttr 98
def sagaRetainFor : AttrId := dbAttr 99

def simple (id : AttrId) (valueType : ValueType) : Attribute :=
  { id, valueType, cardinality := .one, unique := none, isComponent := false, indexed := false, noHistory := false }

def txInstantIdent : Keyword := ⟨some "db", "txInstant"⟩

def txInstantAttribute : Attribute := { simple txInstant .instant with indexed := true }

def attributes : List (Keyword × Attribute) := [
  (⟨some "db", "ident"⟩, { simple ident .keyword with unique := some .identity, indexed := true }),
  (⟨some "db", "valueType"⟩, simple valueType .keyword),
  (⟨some "db", "cardinality"⟩, simple cardinality .keyword),
  (⟨some "db", "unique"⟩, simple unique .keyword),
  (⟨some "db", "isComponent"⟩, simple isComponent .bool),
  (⟨some "db", "index"⟩, simple index .bool),
  (⟨some "db", "noHistory"⟩, simple noHistory .bool),
  (txInstantIdent, txInstantAttribute),
  (⟨some "db", "doc"⟩, simple doc .str),
  (⟨some "db.saga", "id"⟩, { simple sagaId .uuid with unique := some .identity, indexed := true }),
  (⟨some "db.saga", "status"⟩, { simple sagaStatus .keyword with indexed := true }),
  (⟨some "db.saga", "basis-t"⟩, simple sagaBasisT .long),
  (⟨some "db.saga", "description"⟩, simple sagaDescription .str),
  (⟨some "db.saga", "owner"⟩, simple sagaOwner .str),
  (⟨some "db.saga", "expires-at"⟩, { simple sagaExpiresAt .instant with indexed := true }),
  (⟨some "db.saga", "id-grants"⟩, { simple sagaIdGrants .ref with cardinality := .many, isComponent := true }),
  (⟨some "db.saga", "footprint"⟩, { simple sagaFootprint .ref with cardinality := .many }),
  (⟨some "db.saga", "reserves"⟩, { simple sagaReserves .ref with cardinality := .many }),
  (⟨some "db.saga", "sealed"⟩, simple sagaSealed .bool),
  (⟨some "db.saga", "merged-tx"⟩, simple sagaMergedTx .ref),
  (⟨some "db.saga", "steps"⟩, simple sagaSteps .long),
  (⟨some "db.saga", "conflict-report"⟩, simple sagaConflictReport .str),
  (⟨some "db.saga", "on-abort-tx"⟩, simple sagaOnAbortTx .str),
  (⟨some "db.saga", "on-abort-fn"⟩, simple sagaOnAbortFn .ref),
  (⟨some "db.saga", "on-abort-error"⟩, simple sagaOnAbortError .str),
  (⟨some "db.saga", "compensations"⟩, { simple sagaCompensations .ref with cardinality := .many, isComponent := true }),
  (⟨some "db", "protection"⟩, simple protection .ref),
  (⟨some "db", "retired"⟩, simple retired .bool),
  (⟨some "db.saga", "guard"⟩, { simple sagaGuard .str with cardinality := .many }),
  (⟨some "db.saga", "tx-id"⟩, { simple sagaTxId .uuid with indexed := true }),
  (⟨some "db.saga.grant", "partition"⟩, simple sagaGrantPartition .long),
  (⟨some "db.saga.grant", "start"⟩, simple sagaGrantStart .long),
  (⟨some "db.saga.grant", "length"⟩, simple sagaGrantLength .long),
  (⟨some "db.saga.compensation", "key"⟩, simple sagaCompensationKey .str),
  (⟨some "db.saga.compensation", "status"⟩, simple sagaCompensationStatus .keyword),
  (⟨some "db.saga.compensation", "detail"⟩, simple sagaCompensationDetail .str),
  (⟨some "db.saga.compensation", "completed-at"⟩, simple sagaCompensationCompletedAt .instant),
  (⟨some "db.schemaUpdate", "requester"⟩, simple updateRequester .str),
  (⟨some "db.schemaUpdate", "desiredDigest"⟩, simple updateDesiredDigest .str),
  (⟨some "db.schemaUpdate", "planDigest"⟩, simple updatePlanDigest .str),
  (⟨some "db.schemaUpdate", "observedBasis"⟩, simple updateObservedBasis .long),
  (⟨some "db.schemaUpdate", "tool"⟩, simple updateTool .str),
  (⟨some "db.schemaUpdate", "class"⟩, { simple updateClass .str with cardinality := .many }),
  (⟨some "db.schemaUpdate", "ack"⟩, { simple updateAck .str with cardinality := .many }),
  (⟨some "db.saga.compensation", "error"⟩, simple sagaCompensationError .str),
  (⟨some "db.saga", "retain-for"⟩, simple sagaRetainFor .long)]

/-- The schema-update audit trail. -/
def isAuditAttribute (a : AttrId) : Bool :=
  a ∈ [updateRequester, updateDesiredDigest, updatePlanDigest, updateObservedBasis, updateTool, updateClass, updateAck]

/-- The vocabulary that describes attributes. -/
def isSchemaAttribute (a : AttrId) : Bool :=
  a ∈ [ident, valueType, cardinality, unique, isComponent, index, noHistory, doc, protection, retired]

def installSchema (schema : Schema) : Schema := attributes.foldl (fun s entry => s.insert entry.2) schema

def installIdents (idents : Idents) : Idents :=
  attributes.foldl (fun i entry => i.insert entry.1 entry.2.id) idents

/-! ## Transaction instants -/

/-- The id of transaction `t`. -/
def txId (t : Nat) : TxId := EntityId.new Partition.tx.id t

def txInstantDatom (t : Nat) (instant : Int64) : Datom :=
  { e := txId t, a := txInstant, v := .instant instant, tx := txId t, added := true }

/-- One datom's effect on the instant asserted so far: the last assertion on the
    transaction entity, unless a matching retraction follows it. -/
def assertedInstantStep (t : Nat) (asserted : Option Int64) (d : Datom) : Option Int64 :=
  match d.v with
  | .instant i =>
    if d.e = txId t ∧ d.a = txInstant then
      if d.added then some i else if asserted = some i then none else asserted
    else asserted
  | _ => asserted

def assertedInstant (t : Nat) (datoms : List Datom) : Option Int64 :=
  datoms.foldl (assertedInstantStep t) none

end Bootstrap

/-! ## Transaction ids -/

theorem txId_raw (t : Nat) : (Bootstrap.txId t).raw.toNat = 2 ^ 42 + t % 2 ^ 42 := by
  unfold Bootstrap.txId
  rw [EntityId.new_raw_toNat]
  show (1 * 2 ^ 42 + t % 2 ^ 42) % 2 ^ 64 = _
  omega

theorem txId_inPartition (t : Nat) : (Bootstrap.txId t).inPartition .tx = true := by
  unfold EntityId.inPartition Bootstrap.txId
  rw [EntityId.new_partition t (by decide)]
  rfl

theorem txId_sequence {t : Nat} (h : t < sequenceLimit) : (Bootstrap.txId t).sequence = t := by
  unfold Bootstrap.txId
  rw [EntityId.new_sequence]
  exact Nat.mod_eq_of_lt h

end Corium
