/-
  Corium.Transactor.Log — the log a transactor writes, and the value it stands
  for.

  Every committed record is numbered by its position, holds only datoms of its
  own transaction, asserts its instant and describes no attribute (`SoundLog`).
  The live value of a run is then the creation value with the log's datoms
  recorded over it (`commits_stands`), and replaying the log gives the same
  (`replayLog_stands`).
-/

import Corium.Transactor.Commit

namespace Corium.Transactor

open Corium.Core Corium.Lib Corium.Tx Bootstrap List

/-! ## Bootstrap is idempotent -/

theorem installSchema_eq (schema : Schema) : installSchema schema =
    { schema with attrs := replay (fun x => x.2.id) (fun x => some x.2) schema.attrs attributes } := by
  unfold installSchema
  generalize attributes = entries
  induction entries generalizing schema with
  | nil => rfl
  | cons x entries ih => exact ih (schema.insert x.2)

@[simp] theorem installSchema_installSchema (schema : Schema) :
    installSchema (installSchema schema) = installSchema schema := by
  rw [installSchema_eq, installSchema_eq]
  generalize attributes = entries
  rw [replay_replay]

theorem installSchema_get (schema : Schema) {a : AttrId} {entry : Keyword × Attribute}
    (h : lastOn (fun x : Keyword × Attribute => x.2.id) a attributes = some entry) :
    (installSchema schema).get a = some entry.2 := by
  rw [installSchema_eq]
  show (replay _ _ schema.attrs attributes)[a]? = _
  rw [getElem?_replay, h]

theorem installSchema_get_other (schema : Schema) {a : AttrId}
    (h : lastOn (fun x : Keyword × Attribute => x.2.id) a attributes = none) :
    (installSchema schema).get a = schema.get a := by
  rw [installSchema_eq]
  show (replay _ _ schema.attrs attributes)[a]? = _
  rw [getElem?_replay, h]
  rfl

/-! ## Sound records -/

/-- Every datom is the record's own, and the record asserts its instant. -/
structure SealedRecord (record : TxRecord) : Prop where
  own : ∀ d ∈ record.datoms, d.tx = txId record.t
  instant : assertedInstant record.t record.datoms = some record.txInstant

/-- Of the schema vocabulary an ordinary transaction records names only. -/
structure SoundRecord (record : TxRecord) : Prop extends SealedRecord record where
  names : ∀ d ∈ record.datoms, isSchemaAttribute d.a = true → d.a = ident

structure SoundLog (log : List TxRecord) : Prop where
  records : ∀ r ∈ log, SoundRecord r
  numbered : log.map (·.t) = List.range' 1 log.length

/-- The datoms of a log, in the order recorded. -/
def logDatoms (log : List TxRecord) : List Datom := log.flatMap (·.datoms)

@[simp] theorem logDatoms_append (xs ys : List TxRecord) : logDatoms (xs ++ ys) = logDatoms xs ++ logDatoms ys :=
  flatMap_append

/-- `db` is `base` with `datoms` recorded over it, perhaps under more names. -/
structure StandsFor (base : Db) (datoms : List Datom) (db : Db) : Prop where
  recorded : db.recorded = base.recorded ++ datoms
  schema : db.schema = base.schema
  view : db.view = base.view
  interner : base.interner.Extends db.interner

theorem StandsFor.refl (base : Db) : StandsFor base [] base := ⟨by simp, rfl, rfl, KeywordInterner.Extends.refl _⟩

theorem StandsFor.trans {a b c : Db} {ds ds' : List Datom} (h : StandsFor a ds b) (h' : StandsFor b ds' c) :
    StandsFor a (ds ++ ds') c :=
  ⟨by rw [h'.recorded, h.recorded, append_assoc], h'.schema.trans h.schema, h'.view.trans h.view,
    h.interner.trans h'.interner⟩

variable {record : TxRecord} {log : List TxRecord}

theorem applyRecord_eq (h : SealedRecord record) (db : Db) :
    ∃ instants, applyRecord db record = { db.applyTransaction record.t record.datoms with instants } := by
  unfold applyRecord Db.withTransactionAt
  rw [h.instant]
  exact ⟨_, rfl⟩

theorem applyRecord_basisT (h : SealedRecord record) (db : Db) :
    (applyRecord db record).basisT = record.t := by
  obtain ⟨_, heq⟩ := applyRecord_eq h db
  rw [heq]
  rfl

theorem applyRecord_stands (h : SoundRecord record) (db : Db) :
    StandsFor db record.datoms (applyRecord db record) := by
  obtain ⟨_, heq⟩ := applyRecord_eq h.toSealedRecord db
  rw [heq]
  exact ⟨rfl, db.applyTransaction_schema_of_only_idents record.t h.names, rfl, KeywordInterner.Extends.refl _⟩

theorem replayLog_stands (h : ∀ r ∈ log, SoundRecord r) (base : Db) :
    StandsFor base (logDatoms log) (replayLog base log) := by
  induction log generalizing base with
  | nil => exact StandsFor.refl base
  | cons r log ih =>
    have hr := applyRecord_stands (h r mem_cons_self) base
    exact hr.trans (ih (fun x hx => h x (mem_cons_of_mem _ hx)) (applyRecord base r))

/-! ## A run's log is sound -/

theorem Committed.sound {s s' : State} {items : List TxItem} {nowMs : Int64} {tempids : Tempids}
    {prepared : PreparedTx} {leased : List Datom} (hv : s.db.view = .current)
    (h : Committed s items nowMs record tempids s' prepared leased) : SoundRecord record := by
  refine ⟨⟨fun d hd => ?_, ?_⟩, fun d hd => (h.mem hv hd).2⟩
  · rw [(h.mem hv hd).1, h.t]
    rfl
  · rw [h.t]
    exact (sealTxInstant_ok h.sealed).2

theorem SoundLog.concat (h : SoundLog log) (hr : SoundRecord record)
    (ht : record.t = log.length + 1) : SoundLog (log ++ [record]) := by
  refine ⟨fun r hmem => ?_, ?_⟩
  · rcases List.mem_append.mp hmem with hmem | hmem
    · exact h.records r hmem
    · rw [List.mem_singleton.mp hmem]
      exact hr
  · rw [map_append, h.numbered, length_append, length_singleton, List.range'_concat]
    simp [ht, Nat.add_comm]

/-- What a run leaves: a sound log, and the live value it stands for. -/
structure Stands (base : Db) (log : List TxRecord) (s : State) : Prop where
  sound : SoundLog log
  db : StandsFor base (logDatoms log) s.db
  basisT : s.db.basisT = base.basisT + log.length

theorem commits_stands {base : Db} {s : State} (hv : base.view = .current)
    (ht : base.basisT = 0) (hs : installSchema base.schema = base.schema) (h : Commits base log s) :
    Stands base log s := by
  induction h with
  | start => exact ⟨⟨by simp, rfl⟩, StandsFor.refl base, rfl⟩
  | naming _ hext ih =>
    refine ⟨ih.sound, ⟨ih.db.recorded, ?_, ih.db.view, ih.db.interner.trans hext⟩, ih.basisT⟩
    show installSchema _ = _
    rw [ih.db.schema, hs]
  | commit _ hcommit ih =>
    obtain ⟨prepared, leased, hc⟩ := transact_ok hcommit
    have hr := hc.sound (ih.db.view.trans hv)
    refine ⟨ih.sound.concat hr (by rw [hc.t, ih.basisT]; omega), ?_, ?_⟩
    · rw [hc.db, logDatoms_append]
      have := applyRecord_stands hr
      exact ih.db.trans (by simpa [logDatoms] using this _)
    · rw [hc.db, applyRecord_basisT hr.toSealedRecord, hc.t, ih.basisT, length_append]
      rfl

/-! ## Creation values -/

@[simp] theorem creation_recorded (schema : Schema) (idents : Idents) (interner : KeywordInterner) :
    (creation schema idents interner).recorded = [] := rfl

@[simp] theorem creation_view (schema : Schema) (idents : Idents) (interner : KeywordInterner) :
    (creation schema idents interner).view = .current := rfl

@[simp] theorem creation_schema (schema : Schema) (idents : Idents) (interner : KeywordInterner) :
    (creation schema idents interner).schema = installSchema schema := installSchema_installSchema schema

theorem creation_stands {schema : Schema} {idents : Idents} {interner : KeywordInterner}
    {s : State} (h : Commits (creation schema idents interner) log s) :
    Stands (creation schema idents interner) log s :=
  commits_stands rfl rfl (by simp) h

end Corium.Transactor
