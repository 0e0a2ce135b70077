/-
  Corium.Transactor.Life — one database over commits, crashes and recoveries
  (`recover_from`, `recover_from_snapshot` of `crates/corium-transactor/src/lib.rs`,
  `recover_transactor` of `crates/corium-transactor/src/node.rs`).

  At any point the transactor may publish its indexes, crash, and come back by
  replaying the whole log over the creation metadata or from any index root
  published so far and the log after it. A recovered value may show facts the
  replay does not (`a_value_replaced_in_its_own_transaction_comes_back`), so what
  is kept here is what every recovery agrees on (`Grounded`): nothing is recorded
  that the log does not hold, and a fact the log never retracts is there.
-/

import Corium.Transactor.Recovery
import Corium.Tx.Alloc

namespace Corium.Transactor

open Corium.Core Corium.Lib Corium.Tx List

structure Life where
  log : List TxRecord
  live : State
  /-- The index roots published so far. -/
  roots : List Published
  /-- Every id newly allocated for a tempid of a committed transaction. -/
  allocated : List EntityId

namespace Life

inductive Event where
  | commit (items : List TxItem)
  | other

section Runs

variable (schema : Schema)

inductive Step : Life → Event → Life → Prop
  /-- Names interned since are attached. -/
  | naming (l : Life) {interner : KeywordInterner} : l.live.db.interner.Extends interner →
      Step l .other { l with live := { l.live with db := l.live.db.withNaming l.live.db.idents interner } }
  | commit (l : Life) {items : List TxItem} {nowMs : Int64} {record : TxRecord} {tempids : Tempids} {s : State} :
      transact l.live items nowMs = .ok (record, tempids, s) →
      Step l (.commit items) { l with
        log := l.log ++ [record], live := s
        allocated := l.allocated ++ freshIds l.live.db (expandItems items) tempids }
  /-- A refused transaction of a batch may leave the counter advanced. -/
  | refuse (l : Life) {items : List TxItem} {nowMs : Int64} {e : TxError} {s : State} :
      prepareTransaction l.live items nowMs = (.error e, s) → Step l .other { l with live := s }
  | publish (l : Life) : Step l .other { l with roots := l.roots ++ [Transactor.publish l.live] }
  /-- A crash, and recovery from the whole log. -/
  | replay (l : Life) (idents : Idents) :
      Step l .other { l with live := recoverFrom (creation schema idents l.live.db.interner) l.log }
  /-- A crash, and recovery from a published root and the log after it. -/
  | restore (l : Life) (idents : Idents) {root : Published} {snapshot : Db} : root ∈ l.roots →
      loadHistorySnapshot root schema idents l.live.db.interner = .ok snapshot →
      Step l .other { l with live := recoverFromSnapshot snapshot root.nextEntityId root.lastTxInstant l.log }

def start (idents : Idents) (interner : KeywordInterner) : Life :=
  { log := [], live := recoverFrom (creation schema idents interner) [], roots := [], allocated := [] }

/-- Runs whose every step meets `P`. -/
inductive Runs (P : Life → Event → Life → Prop) : Life → Prop
  | start (idents : Idents) (interner : KeywordInterner) : Runs P (start schema idents interner)
  | step {l l' : Life} {e : Event} : Runs P l → Step schema l e l' → P l e l' → Runs P l'

end Runs

/-- A commit of known outcome. -/
theorem Runs.commit {schema : Schema} {P : Life → Event → Life → Prop} {l : Life} {items : List TxItem} {nowMs : Int64}
    {record : TxRecord} {tempids : Tempids} {s : State} {fresh : List EntityId} (h : Runs schema P l)
    (hcommit : transact l.live items nowMs = .ok (record, tempids, s))
    (hfresh : freshIds l.live.db (expandItems items) tempids = fresh)
    (hP : P l (.commit items) ⟨l.log ++ [record], s, l.roots, l.allocated ++ fresh⟩) :
    Runs schema P ⟨l.log ++ [record], s, l.roots, l.allocated ++ fresh⟩ := by
  subst hfresh
  exact h.step (.commit l hcommit) hP

end Life

/-! ## What every recovery agrees on -/

theorem SoundLog.last_t {log : List TxRecord} {record : TxRecord} (h : SoundLog (log ++ [record])) :
    record.t = log.length + 1 := by
  have hn := congrArg List.getLast? h.numbered
  rw [map_append, length_append, length_singleton, List.range'_concat] at hn
  simp at hn
  omega

/-- Replaying the log after a prefix ends at the log's length. -/
theorem replayLog_basisT {base : Db} {pre post : List TxRecord} (h : SoundLog (pre ++ post))
    (hbase : base.basisT = pre.length) : (replayLog base post).basisT = (pre ++ post).length := by
  rcases eq_nil_or_concat post with rfl | ⟨post, record, rfl⟩
  · simpa [replayLog] using hbase
  · rw [concat_eq_append, ← append_assoc] at h
    rw [concat_eq_append, replayLog, foldl_append]
    show (applyRecord _ record).basisT = _
    rw [applyRecord_basisT (h.records record (by simp)).toSealedRecord, h.last_t, ← append_assoc]
    simp [Nat.add_assoc]

section Replayed

variable {schema : Schema} {idents : Idents} {interner : KeywordInterner} {log : List TxRecord} {s : State}

theorem Commits.clock (h : Commits (creation schema idents interner) log s) :
    (log.map effectiveTxInstant).foldl max Int64.minValue = s.lastInstant := by
  induction h with
  | start => rfl
  | naming _ _ ih => exact ih
  | commit hrun hcommit ih =>
    obtain ⟨prepared, leased, hc⟩ := transact_ok hcommit
    have hsealed := (hc.sound (creation_stands hrun).db.view).instant
    rw [map_append, foldl_append, ih, hc.lastInstant, map_singleton, effectiveTxInstant, hsealed]
    exact if_pos (sealTxInstant_clock hc.sealed).1

/-- After any run of commits, replaying the log recovers the basis, the clock, the schema and every view. -/
theorem replay_recovers_the_live_value (h : Commits (creation schema idents interner) log s) :
    let recovered := recoverFrom (creation schema idents interner) log
    recovered.db.basisT = s.db.basisT ∧ recovered.lastInstant = s.lastInstant ∧ recovered.db.schema = s.db.schema ∧
      ∀ view order, (recovered.db.withView view).datomsAt order = (s.db.withView view).datomsAt order := by
  have hs := creation_stands h
  have hr := replayLog_stands hs.sound.records (creation schema idents interner)
  have hrec := hr.recorded.trans hs.db.recorded.symm
  have hschema := hr.schema.trans hs.db.schema.symm
  have hbasis : (replayLog (creation schema idents interner) log).basisT = ([] ++ log).length := replayLog_basisT hs.sound rfl
  refine ⟨hbasis.trans (hs.basisT.trans (Nat.zero_add _)).symm, h.clock, hschema, ?_⟩
  intro view order
  unfold Db.datomsAt Db.index Db.live Db.withView
  rw [recoverFrom, hrec, hschema]

theorem replay_recovers_two_transactions :
    (recoverFrom ReplaceExample.base [ReplaceExample.first, ReplaceExample.second]).lastInstant = 6 :=
  (replay_recovers_the_live_value ReplaceExample.commits_second).2.1.trans (by decide)

end Replayed

/-- `f` is recorded in `datoms` and never retracted there. -/
def OnlyAsserted (datoms : List Datom) (f : Fact) : Prop :=
  (∃ d ∈ datoms, d.fact = f) ∧ ∀ d ∈ datoms, d.fact = f → d.added = true

theorem OnlyAsserted.holds {datoms : List Datom} {f : Fact} (h : OnlyAsserted datoms f) : holds datoms f = true := by
  obtain ⟨⟨d, hd, hf⟩, hadded⟩ := h
  rw [holds_iff]
  cases hl : lastDatom datoms f with
  | none => exact absurd hf (lastOn_eq_none_iff.mp hl d hd)
  | some d' =>
    have ha := hadded d' (mem_of_lastOn hl) (key_of_lastOn hl)
    exact ⟨d', by simp [liveDatom, hl, ha]⟩

/-- The live value `s` recovers or has kept from `log`. -/
structure Grounded (schema : Schema) (log : List TxRecord) (s : State) : Prop where
  sound : SoundLog log
  view : s.db.view = .current
  schema : s.db.schema = Bootstrap.installSchema schema
  basisT : s.db.basisT = log.length
  recorded : ∀ d ∈ s.db.recorded, d ∈ logDatoms log
  kept : ∀ f, OnlyAsserted (logDatoms log) f → ∃ d ∈ s.db.recorded, d.fact = f

section Grounded

variable {schema : Schema} {log : List TxRecord} {s : State}
variable {f : Fact} {s' : State}

theorem Grounded.onlyAsserted (h : Grounded schema log s) (hf : OnlyAsserted (logDatoms log) f) :
    OnlyAsserted s.db.recorded f := ⟨h.kept f hf, fun d hd => hf.2 d (h.recorded d hd)⟩

/-- A fact the log never retracts is live. -/
theorem Grounded.holds (h : Grounded schema log s) (hf : OnlyAsserted (logDatoms log) f) : s.db.Holds f :=
  (h.onlyAsserted hf).holds

theorem Grounded.of_holds (h : Grounded schema log s) (hf : s.db.Holds f) :
    ∃ d ∈ logDatoms log, d.fact = f ∧ d.added = true := by
  obtain ⟨d, hd⟩ := holds_iff.mp hf
  obtain ⟨hfact, hadded, hmem⟩ := liveDatom_some hd
  exact ⟨d, h.recorded d hmem, hfact, hadded⟩

/-- Only the value counts, not the counters. -/
theorem Grounded.of_db (h : Grounded schema log s) (hdb : s'.db = s.db) : Grounded schema log s' := by
  refine ⟨h.sound, ?_, ?_, ?_, ?_, ?_⟩ <;> rw [hdb]
  exacts [h.view, h.schema, h.basisT, h.recorded, h.kept]

theorem Grounded.naming (h : Grounded schema log s) (interner : KeywordInterner) :
    Grounded schema log { s with db := s.db.withNaming s.db.idents interner } := by
  refine ⟨h.sound, h.view, ?_, h.basisT, h.recorded, h.kept⟩
  show Bootstrap.installSchema s.db.schema = _
  rw [h.schema, installSchema_installSchema]

theorem Grounded.commit (h : Grounded schema log s) {items : List TxItem} {nowMs : Int64} {record : TxRecord}
    {tempids : Tempids} {prepared : PreparedTx} {leased : List Datom}
    (hc : Committed s items nowMs record tempids s' prepared leased) : Grounded schema (log ++ [record]) s' := by
  have hr := hc.sound h.view
  have hs := applyRecord_stands hr s.db
  have hlog : logDatoms (log ++ [record]) = logDatoms log ++ record.datoms := by simp [logDatoms]
  refine ⟨h.sound.concat hr (by rw [hc.t, h.basisT]), ?_, ?_, ?_, fun d hd => ?_, fun f hf => ?_⟩
  · rw [hc.db, hs.view, h.view]
  · rw [hc.db, hs.schema, h.schema]
  · rw [hc.db, applyRecord_basisT hr.toSealedRecord, hc.t, h.basisT, length_append]
    rfl
  · rw [hc.db, hs.recorded] at hd
    rw [hlog]
    exact (mem_append.mp hd).elim (fun hd => mem_append_left _ (h.recorded d hd)) (mem_append_right _)
  · rw [hlog] at hf
    rw [hc.db, hs.recorded]
    obtain ⟨⟨d, hd, hdf⟩, hadded⟩ := hf
    rcases mem_append.mp hd with hd | hd
    · obtain ⟨d', hd', hf'⟩ := h.kept f ⟨⟨d, hd, hdf⟩, fun x hx => hadded x (mem_append_left _ hx)⟩
      exact ⟨d', mem_append_left _ hd', hf'⟩
    · exact ⟨d, mem_append_right _ hd, hdf⟩

theorem grounded_replay (hlog : SoundLog log) (idents : Idents) (interner : KeywordInterner) :
    Grounded schema log (recoverFrom (creation schema idents interner) log) := by
  have hs := replayLog_stands hlog.records (creation schema idents interner)
  have hrec : (recoverFrom (creation schema idents interner) log).db.recorded = logDatoms log := by
    show (replayLog _ log).recorded = _
    rw [hs.recorded, creation_recorded, nil_append]
  refine ⟨hlog, hs.view, hs.schema.trans (creation_schema schema idents interner), ?_, ?_, ?_⟩
  · have hnil : SoundLog ([] ++ log) := hlog
    exact replayLog_basisT hnil rfl
  · rw [hrec]
    exact fun d hd => hd
  · rw [hrec]
    exact fun f hf => hf.1

/-- A snapshot of a grounded value, with the rest of the log replayed over it. -/
theorem Grounded.restore {post : List TxRecord} (h : Grounded schema log s) (hlog : SoundLog (log ++ post))
    {idents : Idents} {interner : KeywordInterner} {snapshot : Db}
    (hload : loadHistorySnapshot (publish s) schema idents interner = .ok snapshot) (nextEntityId : Nat)
    (lastTxInstant : Int64) :
    Grounded schema (log ++ post) (recoverFromSnapshot snapshot nextEntityId lastTxInstant (log ++ post)) := by
  have hb : ∀ d ∈ s.db.recorded, d.tx.raw.toNat < 2 ^ 63 := fun d hd => h.sound.raw_lt (h.recorded d hd)
  obtain ⟨snapshot', hload', hrec, hschema, hview, hbasis⟩ :=
    loadHistorySnapshot_of_publish h.view h.schema hb idents interner
  cases hload.symm.trans hload'
  have htail : txRange (log ++ post) (snapshot.basisT + 1) = post := by
    rw [hbasis, h.basisT]
    exact txRange_append hlog
  have hs := replayLog_stands (fun r hr => hlog.records r (mem_append_right _ hr)) snapshot
  have hdb : (recoverFromSnapshot snapshot nextEntityId lastTxInstant (log ++ post)).db = replayLog snapshot post := by
    show replayLog snapshot (txRange _ _) = _
    rw [htail]
  have hrec' : (replayLog snapshot post).recorded =
      snapshotDatoms (Bootstrap.installSchema schema) s.db.recorded ++ logDatoms post := by rw [hs.recorded, hrec]
  refine Grounded.of_db (s := { s with db := replayLog snapshot post }) ⟨hlog, hs.view.trans hview,
    hs.schema.trans hschema, ?_, fun d hd => ?_, fun f hf => ?_⟩ hdb
  · exact replayLog_basisT hlog (hbasis.trans h.basisT)
  · rw [logDatoms_append]
    rw [hrec'] at hd
    rcases mem_append.mp hd with hd | hd
    · exact mem_append_left _ (h.recorded d (mem_of_mem_snapshotDatoms hb hd))
    · exact mem_append_right _ hd
  · rw [logDatoms_append] at hf
    rw [hrec']
    obtain ⟨⟨d, hd, hdf⟩, hadded⟩ := hf
    rcases mem_append.mp hd with hd | hd
    · -- a retained fact is in the history, any other is live
      have hf' : OnlyAsserted (logDatoms log) f := ⟨⟨d, hd, hdf⟩, fun x hx => hadded x (mem_append_left _ hx)⟩
      obtain ⟨d', hd'⟩ := holds_iff.mp (h.holds hf')
      obtain ⟨hfact, -, hmem⟩ := liveDatom_some hd'
      refine ⟨d', mem_append_left _ ((mem_snapshotDatoms hb).mpr ?_), hfact⟩
      cases hn : noHistoryOf (Bootstrap.installSchema schema) d'.a with
      | false => exact .inl ⟨hmem, rfl⟩
      | true => exact .inr ⟨hfact ▸ hd', rfl⟩
    · exact ⟨d, mem_append_right _ hd, hdf⟩

end Grounded

end Corium.Transactor
