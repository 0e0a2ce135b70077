/-
  Corium.Transactor.Hosted — a database as a node hosts it
  (`crates/corium-transactor/src/node.rs`).

  Durable are the metadata root (schema, idents and keyword names), the log and
  the published indexes. In memory are the transactor's live value and a cached
  naming (`state.naming`), which need not agree with it. Three things write:

  * `flushCommitBatch` drains queued requests: each is converted against the
    staged value, interning into the cached naming, and prepared. A request that
    mints names ends the batch; its names are published before the append.
  * `appendOne` commits one transaction the transactor composed (a saga's merge,
    its end), under names minted into a private copy.
  * `alterSchema` commits the datoms a schema plan compiles to, with the same
    steps.

  An operation stops where its `Fate` says: a lease check or a store call may
  fail before the metadata root is written or before the log is. A crash is
  `reopen` after any of these: it reads the durable part only. Left out are saga
  branches, the key fence (it refuses before anything is read) and what a
  deposed node still writes.
-/

import Corium.Forms.TxForms
import Corium.Transactor.Log

namespace Corium.Transactor

open Corium.Core Corium.Lib Corium.Tx Corium.Query Corium.Forms

structure Naming where
  schema : Schema
  idents : Idents
  interner : KeywordInterner

structure Hosted where
  /-- The metadata root. -/
  metaRoot : Naming
  log : List TxRecord
  /-- The index root, once published. -/
  root : Option Published
  /-- The naming cached beside the transactor. -/
  naming : Naming
  live : State

/-- How far an operation gets. -/
inductive Fate where
  /-- Nothing durable is written: the lease is lost or the metadata compare-and-set fails. -/
  | refused
  /-- The metadata root is written, and the append fails. -/
  | published
  | appended
  deriving DecidableEq

structure Config where
  /-- The `:db/fn` expander. -/
  expand : Db → List Edn → Except String (List Edn)
  maxCommitBatch : Nat
  maxCommitBatchBytes : Nat
  /-- The framed, encoded size of a record. -/
  framedSize : TxRecord → Nat

structure Request where
  forms : List Edn
  expectedBasisT : Option Nat

/-! ## The batch cursor's naming -/

/-- `BatchCursor::intern_naming`. -/
def State.internNaming (s : State) (interner : KeywordInterner) : State :=
  { s with db := s.db.withNaming s.db.idents interner }

/-- `update_naming`. -/
def State.updateNaming (s : State) (idents : Idents) (interner : KeywordInterner) : State :=
  { s with db := s.db.withNaming idents interner }

/-- `install_batch`. -/
def State.installBatch (s cursor : State) : State :=
  { db := cursor.db, nextUser := max s.nextUser cursor.nextUser, lastInstant := max s.lastInstant cursor.lastInstant }

/-! ## Group commit -/

/-- A batch being prepared: the cursor, the cached naming's interner as the
    conversions leave it, and the records so far. -/
structure Batch where
  cursor : State
  interner : KeywordInterner
  prepared : List TxRecord
  bytes : Nat
  namingChanged : Bool

/-- One request against the staged value. A refused one leaves the names its
    conversion interned. -/
def prepareRequest (c : Config) (nowMs : Int64) (b : Batch) (r : Request) : Batch :=
  if r.expectedBasisT.any (· ≠ b.cursor.db.basisT) then b
  else match c.expand b.cursor.db r.forms with
    | .error _ => b
    | .ok forms =>
      match (txItemsFromEdn b.cursor.db forms).on b.interner with
      | (.error _, interner) => { b with interner }
      | (.ok items, interner) =>
        let minted := b.interner.len < interner.len
        let cursor := if minted then b.cursor.internNaming interner else b.cursor
        match prepareTransaction cursor items nowMs with
        | (.error _, cursor) => { b with cursor, interner }
        | (.ok (record, _), cursor) =>
          { cursor, interner, prepared := b.prepared ++ [record], bytes := b.bytes + c.framedSize record
            namingChanged := minted }

/-- Looked at after an accepted request only. -/
def Batch.full (c : Config) (b : Batch) : Bool :=
  b.namingChanged || max c.maxCommitBatch 1 ≤ b.prepared.length || c.maxCommitBatchBytes ≤ b.bytes

/-- The batch, and the requests left for the next flush. -/
def prepareBatch (c : Config) (nowMs : Int64) : List Request → Batch → Batch × List Request
  | [], b => (b, [])
  | r :: rest, b =>
    let next := prepareRequest c nowMs b r
    if b.prepared.length < next.prepared.length ∧ next.full c then (next, rest) else prepareBatch c nowMs rest next

namespace Hosted

/-- The batch a flush starts from. -/
def batchCursor (h : Hosted) : Batch :=
  { cursor := h.live, interner := h.naming.interner, prepared := [], bytes := 0, namingChanged := false }

/-- Publish the names if any were minted, append the records, install. The idents
    published and installed with new names are the cached ones. -/
def commitBatch (h : Hosted) (b : Batch) (fate : Fate) : Hosted :=
  let naming := { h.naming with interner := b.interner }
  let h := { h with naming }
  if b.prepared.isEmpty then h
  else if b.namingChanged then
    match fate with
    | .refused => h
    | .published => { h with metaRoot := naming }
    | .appended =>
      { h with metaRoot := naming, log := h.log ++ b.prepared
               live := (h.live.installBatch b.cursor).updateNaming naming.idents naming.interner }
  else
    match fate with
    | .appended => { h with log := h.log ++ b.prepared, live := h.live.installBatch b.cursor }
    | _ => h

def flushCommitBatch (c : Config) (h : Hosted) (requests : List Request) (nowMs : Int64) (fate : Fate) : Hosted :=
  h.commitBatch (prepareBatch c nowMs requests h.batchCursor).1 fate

/-! ## One transaction -/

/-- `append_one`, with the names minted for it, if any; `alter_schema` ends the same way. -/
def appendOne (h : Hosted) (cursor : State) (record : TxRecord) (minted : Option KeywordInterner) (fate : Fate) :
    Hosted :=
  match minted with
  | none =>
    match fate with
    | .appended => { h with log := h.log ++ [record], live := h.live.installBatch cursor }
    | _ => h
  | some interner =>
    let naming : Naming := { schema := cursor.db.schema, idents := cursor.db.idents, interner }
    match fate with
    | .refused => h
    | .published => { h with metaRoot := naming }
    | .appended =>
      { h with metaRoot := naming, log := h.log ++ [record], naming
               live := (h.live.installBatch cursor).updateNaming naming.idents naming.interner }

/-- A saga's merge or end: its items name keywords of `interner`, a copy of the cached one with more names. -/
def compose (h : Hosted) (items : List TxItem) (interner : KeywordInterner) (nowMs : Int64) (fate : Fate) : Hosted :=
  match prepareTransaction (h.live.internNaming interner) items nowMs with
  | (.error _, _) => h
  | (.ok (record, _), cursor) =>
    h.appendOne cursor record (if h.naming.interner.len < interner.len then some interner else none) fate

/-- A merge's conflict report: under the names there are. -/
def report (h : Hosted) (items : List TxItem) (nowMs : Int64) (fate : Fate) : Hosted :=
  match prepareTransaction h.live items nowMs with
  | (.error _, _) => h
  | (.ok (record, _), cursor) => h.appendOne cursor record none fate

/-- The datoms a plan compiles to, naming keywords of `interner`. -/
def alterSchema (h : Hosted) (datoms : List Datom) (interner : KeywordInterner) (nowMs : Int64) (fate : Fate) : Hosted :=
  match prepareDatoms (h.live.internNaming interner) datoms nowMs with
  | .error _ => h
  | .ok (record, cursor) => h.appendOne cursor record (some interner) fate

/-! ## Opening -/

/-- `recover_transactor` over the metadata root. -/
def recover (naming : Naming) (root : Option Published) (log : List TxRecord) : State :=
  match root with
  | some root => recoverTransactor root naming.schema naming.idents naming.interner log
  | none => recoverFrom (creation naming.schema naming.idents naming.interner) log

/-- `open_db`, after a crash or a restart. -/
def reopen (h : Hosted) : Hosted := { h with naming := h.metaRoot, live := recover h.metaRoot h.root h.log }

/-- `create_db`: a schema and its idents, and no keyword named yet. -/
def create (schema : Schema) (idents : Idents) : Hosted :=
  let naming : Naming := { schema, idents, interner := KeywordInterner.empty }
  { metaRoot := naming, log := [], root := none, naming, live := recover naming none [] }

end Hosted

/-! ## Runs -/

inductive Event where
  | flush (requests : List Request) (nowMs : Int64) (fate : Fate)
  | compose (items : List TxItem) (interner : KeywordInterner) (nowMs : Int64) (fate : Fate)
  | report (items : List TxItem) (nowMs : Int64) (fate : Fate)
  | alter (datoms : List Datom) (interner : KeywordInterner) (nowMs : Int64) (fate : Fate)
  /-- Background indexing publishes the live value. -/
  | publish
  | reopen

def Hosted.after (c : Config) (h : Hosted) : Event → Hosted
  | .flush requests nowMs fate => h.flushCommitBatch c requests nowMs fate
  | .compose items interner nowMs fate => h.compose items interner nowMs fate
  | .report items nowMs fate => h.report items nowMs fate
  | .alter datoms interner nowMs fate => h.alterSchema datoms interner nowMs fate
  | .publish => { h with root := some (publish h.live) }
  | .reopen => h.reopen

/-- What the node composes itself: names are interned into a copy of the cached
    interner before they are used, a report writes text only, and a plan's datoms
    are the transaction's own. -/
def Event.Composed (h : Hosted) : Event → Prop
  | .compose items interner _ _ => h.naming.interner.Extends interner ∧ ItemsNamed interner items
  | .report items _ _ => ItemsNamed KeywordInterner.empty items
  | .alter datoms interner _ _ => h.naming.interner.Extends interner ∧
      ∀ d ∈ datoms, NamedIn interner d.v ∧ d.tx = h.live.nextTx
  | _ => True

/-- Runs whose events all meet `P`. -/
inductive Hosted.Reaches (c : Config) (P : Hosted → Event → Prop) (h : Hosted) : Hosted → Prop
  | refl : Reaches c P h h
  | step {h' : Hosted} {e : Event} : Reaches c P h h' → e.Composed h' → P h' e → Reaches c P h (h'.after c e)

end Corium.Transactor
