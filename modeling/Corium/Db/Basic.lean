/-
  Corium.Db.Basic — the immutable database value (`crates/corium-db/src/lib.rs`):
  recorded datoms, time views as folds over them, covering indexes, and applying
  a transaction.

  The source materialises a view's four indexes once and, when a transaction is
  applied without a schema change, extends the parent's; here an index is the
  fold itself. Statistics, which no modelled function reads, are left out.
-/

import Corium.Db.SchemaDatoms
import Corium.Lib.Replay

namespace Corium

open Corium.Core Corium.Lib Bootstrap

inductive DbView where
  /-- Live facts as of the basis transaction. -/
  | current
  /-- Facts as they stood at basis `t` (inclusive). -/
  | asOf (t : Nat)
  /-- Only live facts added after `t` (exclusive). -/
  | since (t : Nat)
  /-- Every assertion and retraction, except of `:db/noHistory` attributes. -/
  | history
  deriving DecidableEq, Repr

/-! ## Covering indexes -/

abbrev Index := Std.ExtTreeMap Bytes Datom

/-- An index's datoms in key order. -/
def indexValues (index : Index) : List Datom := index.toList.map (·.2)

/-- Components up to the first missing one. -/
def joinComponents : List (Option Bytes) → Bytes
  | some b :: rest => b ++ joinComponents rest
  | _ => []

def keyPrefix (order : IndexOrder) (e : Option EntityId) (a : Option AttrId) (v : Option Value) : Bytes :=
  let e := e.map encodeEntityId
  let a := a.map encodeEntityId
  let v := v.map encodeValue
  joinComponents (match order with
    | .eavt => [e, a, v]
    | .aevt => [a, e, v]
    | .avet => [a, v, e]
    | .vaet => [v, a, e])

/-- The key of a current-view entry: components only, no transaction suffix. -/
def liveKey (order : IndexOrder) (d : Datom) : Bytes := keyPrefix order (some d.e) (some d.a) (some d.v)

def avetCovered (schema : Schema) (a : AttrId) : Bool :=
  match schema.get a with
  | some attr => attr.indexed || attr.unique.isSome
  | none => false

def Value.isRef : Value → Bool
  | .ref _ => true
  | _ => false

def covered (schema : Schema) (order : IndexOrder) (d : Datom) : Bool :=
  match order with
  | .eavt | .aevt => true
  | .avet => avetCovered schema d.a
  | .vaet => Value.isRef d.v

/-- The live facts after `datoms`, keyed in EAVT: an assertion enters its fact, a
    retraction removes it. -/
def foldLive (datoms : List Datom) : Index :=
  replay (liveKey .eavt) (fun d => if d.added then some d else none) ∅ datoms

/-- Another order's index, projected from the live facts it covers. -/
def projectIndex (schema : Schema) (order : IndexOrder) (live : Index) : Index :=
  (indexValues live).foldl (fun index d => if covered schema order d then index.insert (liveKey order d) d else index) ∅

def noHistoryOf (schema : Schema) (a : AttrId) : Bool :=
  match schema.get a with
  | some attr => attr.noHistory
  | none => false

/-- The history index: full keys of every retained datom the order covers. -/
def historyIndex (schema : Schema) (order : IndexOrder) (datoms : List Datom) : Index :=
  datoms.foldl (fun index d =>
    if noHistoryOf schema d.a then index
    else if covered schema order d then index.insert (d.key order) d else index) ∅

/-! ## Transaction instants -/

structure TxInstants where
  byT : Std.ExtTreeMap Nat Int64
  byInstant : Std.ExtTreeMap Int64 Nat
  deriving DecidableEq

namespace TxInstants

def empty : TxInstants := ⟨∅, ∅⟩

def record (i : TxInstants) (t : Nat) (instant : Int64) : TxInstants :=
  { byT := i.byT.insert t instant
    byInstant :=
      match i.byInstant[instant]? with
      | some held => if held < t then i.byInstant.insert instant t else i.byInstant
      | none => i.byInstant.insert instant t }

/-- The latest `t` committed at or before `instant`, or zero. -/
def tAt (i : TxInstants) (instant : Int64) : Nat :=
  match (i.byInstant.toList.filter fun x => x.1 ≤ instant).getLast? with
  | some (_, t) => t
  | none => 0

end TxInstants

/-! ## The database value -/

structure Db where
  basisT : Nat
  /-- Next unallocated user-partition sequence known to this value. -/
  nextUserSequence : Nat
  schema : Schema
  /-- Every assertion and retraction, in the order recorded. -/
  recorded : List Datom
  idents : Idents
  interner : KeywordInterner
  schemaGeneration : Nat
  view : DbView
  instants : TxInstants
  completeHistory : Bool
  deriving DecidableEq

/-- One past the highest user-partition entity of `datoms`, at least `floor`. -/
def userFloor (floor : Nat) (datoms : List Datom) : Nat :=
  datoms.foldl (fun acc d => if d.e.inPartition .user then max acc (d.e.sequence + 1) else acc) floor

/-- The instants that `:db/txInstant` assertions on transaction entities record. -/
def recordInstants (datoms : List Datom) : TxInstants :=
  datoms.foldl (fun i d =>
    match d.v with
    | .instant instant =>
      if d.added ∧ d.a = txInstant ∧ d.e = d.tx ∧ d.tx.inPartition .tx
      then i.record d.tx.sequence instant else i
    | _ => i) TxInstants.empty

namespace Db

/-- `Db::new`: the engine's attributes are installed over the caller's schema. -/
def new (schema : Schema) : Db :=
  { basisT := 0, nextUserSequence := firstUserId, schema := installSchema schema, recorded := [],
    idents := Idents.empty, interner := KeywordInterner.empty, schemaGeneration := 0, view := .current,
    instants := TxInstants.empty, completeHistory := true }

def withNaming (db : Db) (idents : Idents) (interner : KeywordInterner) : Db :=
  { db with schema := installSchema db.schema, idents := installIdents idents, interner }

/-- Live facts at `basisT` with their original transactions, as published. -/
def fromCurrentSnapshotWithNextUser (basisT nextUserSequence : Nat) (schema : Schema) (idents : Idents)
    (interner : KeywordInterner) (datoms : List Datom) : Db :=
  { basisT, nextUserSequence := userFloor (max nextUserSequence firstUserId) datoms,
    schema := installSchema schema, recorded := datoms, idents := installIdents idents, interner,
    schemaGeneration := 0, view := .current, instants := recordInstants datoms, completeHistory := false }

/-- Retained history at `basisT`, with the live values of `:db/noHistory`
    attributes, which history leaves out, taken from `current`. -/
def fromHistorySnapshotWithNextUser (basisT nextUserSequence : Nat) (schema : Schema) (idents : Idents)
    (interner : KeywordInterner) (history current : List Datom) : Db :=
  let schema := installSchema schema
  let recorded := history ++ current.filter fun d => noHistoryOf schema d.a
  { basisT, nextUserSequence := userFloor (max nextUserSequence firstUserId) recorded, schema, recorded,
    idents := installIdents idents, interner, schemaGeneration := 0, view := .current,
    instants := recordInstants recorded, completeHistory := true }

def withView (db : Db) (view : DbView) : Db := { db with view }

def asOf (db : Db) (t : Nat) : Db := db.withView (.asOf t)

def tAtInstant (db : Db) (instant : Int64) : Nat := db.instants.tAt instant

def asOfInstant (db : Db) (instant : Int64) : Db := db.asOf (db.tAtInstant instant)

def since (db : Db) (t : Nat) : Db := db.withView (.since t)

def history (db : Db) : Db := db.withView .history

/-- The datoms transactions after `t` recorded: the longest suffix past `t`. -/
def recordedSince (db : Db) (t : Nat) : List Datom :=
  (db.recorded.reverse.takeWhile fun d => t < d.tx.sequence).reverse

/-- The live facts of a current, as-of or since view. -/
def live (db : Db) : Index :=
  match db.view with
  | .asOf t => foldLive (db.recorded.filter fun d => d.tx.sequence ≤ t)
  | .since t => (foldLive db.recorded).filter fun _ d => t < d.tx.sequence
  | _ => foldLive db.recorded

def index (db : Db) (order : IndexOrder) : Index :=
  match db.view with
  | .history => historyIndex db.schema order db.recorded
  | _ =>
    match order with
    | .eavt => db.live
    | order => projectIndex db.schema order db.live

def datomsAt (db : Db) (order : IndexOrder) : List Datom := indexValues (db.index order)

/-- Datoms whose key in `order` starts with `pre`: from `pre` on, while it starts the key. -/
def datomsPrefix (db : Db) (order : IndexOrder) (pre : Bytes) : List Datom :=
  (((db.index order).toList.filter fun x => compare pre x.1 != .gt).takeWhile fun x => pre.isPrefixOf x.1).map (·.2)

def values (db : Db) (e : EntityId) (a : AttrId) : List Value :=
  (db.datomsPrefix .eavt (keyPrefix .eavt (some e) (some a) none)).map (·.v)

def lookup (db : Db) (a : AttrId) (v : Value) : Option EntityId :=
  if avetCovered db.schema a then
    (db.datomsPrefix .avet (keyPrefix .avet none (some a) (some v))).head?.map (·.e)
  else
    ((db.datomsPrefix .aevt (keyPrefix .aevt none (some a) none)).find? fun d => d.v = v).map (·.e)

/-- Schema effects come first, derived from the record as a whole. -/
def applyTransaction (db : Db) (t : Nat) (datoms : List Datom) : Db :=
  let named := SchemaDatoms.touchesNaming datoms
  { db with
    basisT := t
    nextUserSequence := userFloor db.nextUserSequence datoms
    schema := if named then SchemaDatoms.deriveSchema db.schema db.interner t datoms else db.schema
    idents := if named then SchemaDatoms.deriveIdents db.idents db.interner datoms else db.idents
    schemaGeneration :=
      if named && SchemaDatoms.changesSchema datoms then db.schemaGeneration + 1 else db.schemaGeneration
    recorded := db.recorded ++ datoms }

def withTransactionAt (db : Db) (t : Nat) (instant : Int64) (datoms : List Datom) : Db :=
  match assertedInstant t datoms with
  | some asserted =>
    let next := db.applyTransaction t datoms
    { next with instants := next.instants.record t asserted }
  | none =>
    let next := db.applyTransaction t (datoms ++ [txInstantDatom t instant])
    { next with instants := next.instants.record t instant }

def withTransaction (db : Db) (t : Nat) (datoms : List Datom) : Db :=
  match assertedInstant t datoms with
  | some instant => db.withTransactionAt t instant datoms
  | none => db.applyTransaction t datoms

end Db

end Corium
