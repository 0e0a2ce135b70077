/-
  Corium.Transactor.SchemaAtomic — the schema a database reopens with, and the
  schema its log derives.

  `alter_schema` writes the new schema to the metadata root and then appends the
  record that justifies it; recovery starts from the metadata root and replays the
  log over it. So an alteration whose append fails is there after a restart
  (`a_failed_alteration_is_recovered`). Replaying over a schema that has the log's
  effects already repeats the protection timelines, and an ident that an ordinary
  transaction asserted is lost once the indexes are published past it.

  `schema_atomic_with_log` says that nothing else goes wrong: where every alteration
  that reaches the metadata root reaches the log, no attribute is moved between two
  classes, names are published and ordinary transactions assert no `:db/ident`, the
  metadata root always holds what the log derives, and a restart at any point
  recovers it.
-/

import Corium.Db.Idents
import Corium.Transactor.IdentRegistry
import Corium.Transactor.SchemaLog

namespace Corium.Transactor

open Corium.Core Corium.Lib Corium.Tx Corium.Forms Bootstrap List SchemaDatoms

/-! ## Registrations of a log -/

theorem registry_eq_register (i : KeywordInterner) (idents : Idents) (log : List TxRecord) :
    registry i idents log = idents.register (log.flatMap fun r => namesOf i r.datoms) := by
  induction log generalizing idents with
  | nil => rfl
  | cons r log ih =>
    rw [flatMap_cons, Idents.register_append, ← deriveIdents_eq_register]
    exact ih _

/-- Replaying the end of a log over the registry it led to changes nothing. -/
theorem registry_again (i : KeywordInterner) (idents : Idents) (pre post : List TxRecord) :
    registry i (registry i idents (pre ++ post)) post = registry i idents (pre ++ post) := by
  rw [registry_eq_register, registry_eq_register, flatMap_append]
  exact Idents.register_again _ _ _

/-! ## What an ordinary transaction leaves alone -/

/-- No `:db/ident` is asserted. -/
def NamesNothing (datoms : List Datom) : Prop := ∀ d ∈ datoms, d.a = ident → d.added = false

variable {record : TxRecord} {s : State} {j : KeywordInterner} {fate : Fate} {datoms : List Datom} {e : Event}

theorem transact_frame {s' : State} {items : List TxItem} {nowMs : Int64} {tempids : Tempids}
    (hv : s.db.view = .current) (h : transact s items nowMs = .ok (record, tempids, s')) :
    SoundRecord record ∧ record.t = s.db.basisT + 1 ∧ s'.db.basisT = record.t ∧ s'.db.schema = s.db.schema ∧
      s'.db.interner = s.db.interner ∧ (NamesNothing record.datoms → s'.db.idents = s.db.idents) := by
  obtain ⟨prepared, leased, hc⟩ := transact_ok h
  have hsound := hc.sound hv
  obtain ⟨hidents, hinterner⟩ := applyRecord_idents s.db record
  rw [hc.db]
  refine ⟨hsound, hc.t, applyRecord_basisT hsound.toSealedRecord s.db, (applyRecord_stands hsound s.db).schema,
    hinterner, fun hno => ?_⟩
  rw [hidents]
  exact deriveIdents_of_no_ident hno _ _

variable {db : Db} {log : List TxRecord} {b : Batch} {c : Config}

theorem acceptedLog_append {pre post : List TxRecord} (h : AcceptedLog db pre)
    (h' : AcceptedLog (replayLog db pre) post) : AcceptedLog db (pre ++ post) := by
  induction h with
  | nil => exact h'
  | ordinary hr _ ih => exact .ordinary hr (ih h')
  | altered hr _ ih => exact .altered hr (ih h')

theorem acceptedLog_of_sound (h : ∀ r ∈ log, SoundRecord r) (db : Db) : AcceptedLog db log := by
  induction log generalizing db with
  | nil => exact .nil
  | cons r log ih => exact .ordinary (h r mem_cons_self) (ih (fun x hx => h x (mem_cons_of_mem _ hx)) _)

/-- Ordinary transactions change no attribute's class. -/
theorem oneClassEach_append_sound {xs : List SchemaDatoms.Entry} (hxs : SchemaDatoms.OneClassEach xs)
    (h : ∀ r ∈ log, SoundRecord r) : SchemaDatoms.OneClassEach (xs ++ logEntries log) := by
  have hnone : ∀ x ∈ logEntries log, ∀ k, ¬ x.protects k := by
    intro x hx k hk
    obtain ⟨r, hr, hx⟩ := mem_flatMap.mp hx
    have hident := (h r hr).entries x hx
    rw [hk.2] at hident
    exact absurd hident (by decide)
  intro k x hx y hy hxk hyk
  rcases mem_append.mp hx with hx | hx
  · rcases mem_append.mp hy with hy | hy
    · exact hxs k x hx y hy hxk hyk
    · exact absurd hyk (hnone y hy k)
  · exact absurd hxk (hnone x hx k)

/-! ## The invariant -/

/-- A naming, once installed, is the value's. -/
def Naming.Installs (n : Naming) (db : Db) : Prop :=
  installSchema n.schema = db.schema ∧ installIdents n.idents = db.idents

structure Hosted.Atomic (schema : Schema) (idents : Idents) (h : Hosted) : Prop where
  named : h.Named
  interner : h.live.db.interner.Extends h.naming.interner
  sorted : h.log.Pairwise fun r r' => r.t < r'.t
  bounded : ∀ r ∈ h.log, r.t ≤ h.live.db.basisT
  accepted : ∀ {n : KeywordInterner}, h.naming.interner.Extends n → AcceptedLog (creation schema idents n) h.log
  derived : ∀ {n : KeywordInterner}, h.naming.interner.Extends n →
    (replayLog (creation schema idents n) h.log).schema = h.live.db.schema
  registered : h.live.db.idents = registry h.naming.interner (installIdents idents) h.log
  engine : h.live.db.idents.HasEngine
  cached : h.naming.Installs h.live.db
  published : h.metaRoot.Installs h.live.db
  classes : SchemaDatoms.OneClassEach (logEntries h.log)

variable {schema : Schema} {idents : Idents} {h : Hosted}

/-- Installing the engine's attributes over the live schema changes nothing. -/
theorem Hosted.Atomic.installed (ha : h.Atomic schema idents) (hs : SchemaDatoms.Keyed schema)
    (hlen : h.naming.interner.len ≤ 2 ^ 64) : installSchema h.live.db.schema = h.live.db.schema := by
  rw [← ha.derived (.refl _)]
  exact (ha.accepted (.refl _)).installSchema hs hlen

/-- Ordinary transactions that assert no name, and any publication of the names there are. -/
theorem Hosted.Atomic.extend (ha : h.Atomic schema idents) {h' : Hosted} (hn : h.NamedAfter h')
    (hi : h'.live.db.interner.Extends h'.naming.interner) {rs : List TxRecord} (hlog : h'.log = h.log ++ rs)
    (hsound : ∀ r ∈ rs, SoundRecord r) (hsorted : rs.Pairwise fun r r' => r.t < r'.t)
    (hbasis : h.live.db.basisT ≤ h'.live.db.basisT)
    (habove : ∀ r ∈ rs, h.live.db.basisT < r.t ∧ r.t ≤ h'.live.db.basisT) (hno : NamesNothing (logDatoms rs))
    (hschema : h'.live.db.schema = h.live.db.schema) (hidents : h'.live.db.idents = h.live.db.idents)
    (hcached : h'.naming.Installs h.live.db) (hpublished : h'.metaRoot.Installs h.live.db) : h'.Atomic schema idents where
  named := hn.1
  interner := hi
  sorted := by
    rw [hlog]
    exact pairwise_append.mpr ⟨ha.sorted, hsorted, fun r hr r' hr' =>
      Nat.lt_of_le_of_lt (ha.bounded r hr) (habove r' hr').1⟩
  bounded := by
    intro r hr
    rw [hlog] at hr
    rcases mem_append.mp hr with hr | hr
    · exact Nat.le_trans (ha.bounded r hr) hbasis
    · exact (habove r hr).2
  accepted hext := by
    rw [hlog]
    exact acceptedLog_append (ha.accepted (hn.2.trans hext)) (acceptedLog_of_sound hsound _)
  derived {n} hext := by
    rw [hlog, hschema, ← ha.derived (hn.2.trans hext), replayLog, foldl_append]
    exact (replayLog_stands hsound _).schema
  registered := by
    rw [hidents, ha.registered, hlog, registry_append, registry_of_no_ident hno]
    exact registry_congr hn.2 ha.named.log _
  engine := hidents ▸ ha.engine
  cached := by
    unfold Naming.Installs
    rw [hschema, hidents]
    exact hcached
  published := by
    unfold Naming.Installs
    rw [hschema, hidents]
    exact hpublished
  classes := by
    rw [hlog, logEntries_append]
    exact oneClassEach_append_sound ha.classes hsound

/-! ## Ordinary transactions -/

theorem internNaming_frame (ha : h.Atomic schema idents) (hs : SchemaDatoms.Keyed schema)
    (hlen : h.naming.interner.len ≤ 2 ^ 64) (hschema : s.db.schema = h.live.db.schema)
    (j : KeywordInterner) : (s.internNaming j).db.schema = h.live.db.schema ∧
      (s.db.idents = h.live.db.idents → (s.internNaming j).db.idents = h.live.db.idents) := by
  refine ⟨?_, fun hidents => ?_⟩
  · show installSchema s.db.schema = _
    rw [hschema, ha.installed hs hlen]
  · show installIdents s.db.idents = _
    rw [hidents, ha.engine.installIdents]

/-- What a batch being prepared over `h` has done so far. -/
structure Batch.Keeps (h : Hosted) (b : Batch) : Prop where
  schema : b.cursor.db.schema = h.live.db.schema
  idents : NamesNothing (logDatoms b.prepared) → b.cursor.db.idents = h.live.db.idents
  interner : b.cursor.db.interner.Extends b.interner
  records : ∀ r ∈ b.prepared, SoundRecord r
  sorted : b.prepared.Pairwise fun r r' => r.t < r'.t
  basis : h.live.db.basisT ≤ b.cursor.db.basisT
  above : ∀ r ∈ b.prepared, h.live.db.basisT < r.t ∧ r.t ≤ b.cursor.db.basisT

theorem Batch.Keeps.against (hb : b.Keeps h) (ha : h.Atomic schema idents) (hs : SchemaDatoms.Keyed schema)
    (hlen : h.naming.interner.len ≤ 2 ^ 64) (hj : b.interner.Extends j) : (b.against j).db.schema = h.live.db.schema ∧
      (NamesNothing (logDatoms b.prepared) → (b.against j).db.idents = h.live.db.idents) ∧
      (b.against j).db.interner.Extends j ∧ (b.against j).db.basisT = b.cursor.db.basisT := by
  unfold Batch.against
  split
  · obtain ⟨hschema, hidents⟩ := internNaming_frame ha hs hlen hb.schema j
    exact ⟨hschema, fun hno => hidents (hb.idents hno), .refl _, rfl⟩
  · exact ⟨hb.schema, hb.idents, hb.interner.trans hj, rfl⟩

theorem Batch.Keeps.stages {b' : Batch} (hb : b.Keeps h) (hn : b.Named h.naming.interner) (ha : h.Atomic schema idents)
    (hs : SchemaDatoms.Keyed schema) (hlen : h.naming.interner.len ≤ 2 ^ 64) (hst : Stages b b') : b'.Keeps h := by
  cases hst with
  | @refused j cursor hj hcursor =>
    obtain ⟨hschema, hidents, hinterner, hbasis⟩ := hb.against ha hs hlen hj
    rcases hcursor with heq | heq
    · exact ⟨heq ▸ hb.schema, heq ▸ hb.idents, heq ▸ hb.interner.trans hj, hb.records, hb.sorted, heq ▸ hb.basis,
        heq ▸ hb.above⟩
    · refine ⟨heq ▸ hschema, heq ▸ hidents, heq ▸ hinterner, hb.records, hb.sorted, ?_, ?_⟩
      · rw [heq, hbasis]
        exact hb.basis
      · rw [heq, hbasis]
        exact hb.above
  | @accepted items j nowMs record tempids cursor bytes hj hitems ht =>
    obtain ⟨hschema, hidents, hinterner, hbasis⟩ := hb.against ha hs hlen hj
    have hview : (b.against j).db.view = .current := (hn.cursor.against hj).1
    obtain ⟨hsound, ht', hbasis', hschema', hinterner', hidents'⟩ := transact_frame hview ht
    have hlt : b.cursor.db.basisT < record.t := by
      rw [ht', hbasis]
      exact Nat.lt_succ_self _
    refine ⟨hschema'.trans hschema, fun hno => ?_, hinterner' ▸ hinterner, fun r hr => ?_, ?_, ?_, fun r hr => ?_⟩
    · rw [logDatoms_append] at hno
      refine (hidents' fun d hd => hno d (mem_append_right _ (by simpa [logDatoms] using hd))).trans ?_
      exact hidents fun d hd => hno d (mem_append_left _ hd)
    · rcases mem_append.mp hr with hr | hr
      · exact hb.records r hr
      · exact mem_singleton.mp hr ▸ hsound
    · refine pairwise_append.mpr ⟨hb.sorted, pairwise_singleton _ _, fun r hr r' hr' => ?_⟩
      rw [mem_singleton.mp hr']
      exact Nat.lt_of_le_of_lt (hb.above r hr).2 hlt
    · rw [hbasis']
      exact Nat.le_of_lt (Nat.lt_of_le_of_lt hb.basis hlt)
    · rw [hbasis']
      rcases mem_append.mp hr with hr | hr
      · exact ⟨(hb.above r hr).1, Nat.le_of_lt (Nat.lt_of_le_of_lt (hb.above r hr).2 hlt)⟩
      · rw [mem_singleton.mp hr]
        exact ⟨Nat.lt_of_le_of_lt hb.basis hlt, Nat.le_refl _⟩

theorem Hosted.Atomic.commitBatch (ha : h.Atomic schema idents) (hs : SchemaDatoms.Keyed schema)
    (hlen : h.naming.interner.len ≤ 2 ^ 64) (hb : b.Keeps h) (hgrows : h.naming.interner.Extends b.interner)
    (hn : h.NamedAfter (h.commitBatch b fate)) (hno : NamesNothing (logDatoms b.prepared)) :
    (h.commitBatch b fate).Atomic schema idents := by
  have hnothing : NamesNothing (logDatoms []) := forall_mem_nil _
  have hlive : h.live.db.interner.Extends b.interner := ha.interner.trans hgrows
  revert hn
  unfold Hosted.commitBatch
  dsimp only
  -- nothing is appended: the names are cached, and published or not
  have hkept : ∀ {metaRoot : Naming}, metaRoot.Installs h.live.db →
      h.NamedAfter { h with naming := { h.naming with interner := b.interner }, metaRoot } →
      Hosted.Atomic schema idents { h with naming := { h.naming with interner := b.interner }, metaRoot } :=
    fun hmeta hn => ha.extend hn hlive (append_nil _).symm (forall_mem_nil _) .nil (Nat.le_refl _)
      (forall_mem_nil _) hnothing rfl rfl ha.cached hmeta
  split
  · exact hkept ha.published
  · split
    · cases fate with
      | refused => exact hkept ha.published
      | published => exact hkept ha.cached
      | appended =>
        refine fun hn => ha.extend hn (.refl _) rfl hb.records hb.sorted hb.basis hb.above hno ?_ ?_ ha.cached ha.cached
        · show installSchema b.cursor.db.schema = _
          rw [hb.schema, ha.installed hs hlen]
        · exact ha.cached.2
    · cases fate with
      | refused => exact hkept ha.published
      | published => exact hkept ha.published
      | appended =>
        exact fun hn => ha.extend hn hb.interner rfl hb.records hb.sorted hb.basis hb.above hno hb.schema (hb.idents hno)
          ha.cached ha.published

/-- One transaction the node composes. -/
theorem Hosted.Atomic.appendOne (ha : h.Atomic schema idents) (hs : SchemaDatoms.Keyed schema)
    (hlen : h.naming.interner.len ≤ 2 ^ 64) {cursor : State} {minted : Option KeywordInterner}
    (hn : h.NamedAfter (h.appendOne cursor record minted fate)) (hsound : SoundRecord record)
    (ht : record.t = h.live.db.basisT + 1) (hbasis : cursor.db.basisT = record.t)
    (hschema : cursor.db.schema = h.live.db.schema) (hidents : cursor.db.idents = h.live.db.idents)
    (hi : cursor.db.interner.Extends (minted.getD h.naming.interner)) (hno : NamesNothing record.datoms) :
    (h.appendOne cursor record minted fate).Atomic schema idents := by
  have hone : ∀ r ∈ [record], SoundRecord r := fun r hr => mem_singleton.mp hr ▸ hsound
  have hlt : h.live.db.basisT < record.t := ht ▸ Nat.lt_succ_self _
  have habove : ∀ r ∈ [record], h.live.db.basisT < r.t ∧ r.t ≤ cursor.db.basisT := by
    intro r hr
    rw [mem_singleton.mp hr]
    exact ⟨hlt, Nat.le_of_eq hbasis.symm⟩
  have hle : h.live.db.basisT ≤ cursor.db.basisT := hbasis ▸ Nat.le_of_lt hlt
  have hnone : NamesNothing (logDatoms [record]) := by simpa [logDatoms] using hno
  have hinstalled : installSchema cursor.db.schema = h.live.db.schema := by
    rw [hschema, ha.installed hs hlen]
  have hengine : installIdents cursor.db.idents = h.live.db.idents := by
    rw [hidents, ha.engine.installIdents]
  revert hn
  unfold Hosted.appendOne
  cases minted with
  | none =>
    cases fate with
    | refused => exact fun _ => ha
    | published => exact fun _ => ha
    | appended =>
      exact fun hn => ha.extend hn hi rfl hone (pairwise_singleton _ _) hle habove hnone hschema hidents
        ha.cached ha.published
  | some j =>
    cases fate with
    | refused => exact fun _ => ha
    | published =>
      exact fun hn => ha.extend hn ha.interner (append_nil _).symm (forall_mem_nil _) .nil (Nat.le_refl _)
        (forall_mem_nil _) (forall_mem_nil _) rfl rfl ha.cached ⟨hinstalled, hengine⟩
    | appended =>
      exact fun hn => ha.extend hn (.refl _) rfl hone (pairwise_singleton _ _) hle habove hnone hinstalled hengine
        ⟨hinstalled, hengine⟩ ⟨hinstalled, hengine⟩

/-! ## Alterations -/

/-- What is no part of the vocabulary collapses to nothing. -/
theorem finalValues_append_other {other : List Datom} (h : ∀ d ∈ other, isSchemaAttribute d.a = false) :
    finalValues (datoms ++ other) = finalValues datoms := by
  unfold finalValues
  rw [foldl_append]
  refine List.foldlRecOn (motive := fun r => r = datoms.foldl finalValuesStep ∅) _ _ rfl fun r hr d hd => ?_
  unfold finalValuesStep
  rw [h d hd]
  exact hr

/-- The engine's attributes are installed under the engine's names. -/
theorem installed_of_engine (hidents : db.idents.HasEngine)
    (hschema : installSchema db.schema = db.schema) {entry : Keyword × Attribute}
    (hentry : entry ∈ attributes) : (installedSchema db)[entry.1.render]? ≠ none := by
  have hlast : ∀ entry ∈ attributes,
      lastOn (fun x : Keyword × Attribute => x.2.id) entry.2.id attributes = some entry := by
    decide
  have hget : db.schema.get entry.2.id = some entry.2 := by
    rw [← hschema]
    exact installSchema_get _ (hlast entry hentry)
  have hident : installedIdent db entry.2.id = entry.1.render := by
    unfold installedIdent
    rw [(hidents entry hentry).2]
  unfold installedSchema
  rw [getElem?_foldl_insert (fun x : AttrId × Attribute => installedIdent db x.1) (fun x => installedAttribute db x.1 x.2),
    Std.ExtTreeMap.getElem?_empty, Option.or_none]
  intro hnone
  rw [Option.map_eq_none_iff, List.getLast?_eq_none_iff] at hnone
  have hmem : (entry.2.id, entry.2) ∈ db.schema.attrs.toList := Std.ExtTreeMap.mem_toList_iff_getElem?_eq_some.mpr hget
  exact filter_eq_nil_iff.mp hnone _ hmem (decide_eq_true hident)

/-- A plan takes over no name of the engine's and describes none of its attributes. -/
theorem SchemaUpdate.hasEngine {i : KeywordInterner} (hu : SchemaUpdate db i datoms j)
    (hlen : j.len ≤ 2 ^ 64) (hidents : db.idents.HasEngine) (hschema : installSchema db.schema = db.schema) :
    (deriveIdents db.idents j datoms).HasEngine := by
  obtain ⟨desired, prune, steps, compiled, audit, hplan, -, hcompile, haudit, rfl⟩ := hu.planned
  rw [deriveIdents_eq_register]
  refine hidents.register fun x hx entry hentry => ?_
  unfold namesOf at hx
  rw [mem_filterMap] at hx
  obtain ⟨slot, hslot, hx⟩ := hx
  split at hx
  · rename_i hident
    obtain ⟨k, hk, rfl⟩ := Option.map_eq_some_iff.mp hx
    obtain ⟨v, hv, hkv⟩ := Option.bind_eq_some_iff.mp hk
    obtain ⟨d, hd, rfl, hda, -, hde⟩ := mem_toList_finalValues hslot hv
    have hcompiled : d ∈ compiled := by
      refine (mem_append.mp hd).resolve_right fun hd => ?_
      have hnot := haudit d hd
      rw [hda, hident] at hnot
      exact absurd hnot (by decide)
    obtain ⟨step, hstep, hkind, a, hget, hname⟩ := compile_ident hcompile d hcompiled (hda.trans hident)
    refine ⟨fun heq => ?_, fun heq => ?_⟩
    · -- the keyword is the declared one, whose rendering is not installed
      have hka : k = a.ident := Option.some.inj (hkv.symm.trans (hname j (.refl _) hlen))
      have hrender : entry.1.render = step.ident := by
        rw [heq, hka]
        exact desired.keyed hget
      exact installed_of_engine hidents hschema hentry (hrender ▸ planAgainst_add hplan hstep hkind)
    · have hengine : ∀ entry ∈ attributes, isEngineAttribute entry.2.id = true := by decide
      have hnot := compile_not_engine hplan hcompile hlen d hcompiled
      rw [hde, show slot.1.1 = entry.2.id from heq.symm, hengine entry hentry] at hnot
      cases hnot
  · cases hx

/-- A record of given datoms: those, and perhaps the instant. -/
theorem prepareDatoms_record {s s' : State} {datoms : List Datom} {nowMs : Int64} {record : TxRecord}
    (htx : ∀ d ∈ datoms, d.tx = s.nextTx) (hp : prepareDatoms s datoms nowMs = .ok (record, s')) :
    SealedRecord record ∧ ∃ stamp, (∀ d ∈ stamp, isSchemaAttribute d.a = false ∧ ∀ i, NamedIn i d.v) ∧
      record.datoms = datoms ++ stamp := by
  obtain ⟨-, ht, -, -, hseal⟩ := prepareDatoms_ok hp
  obtain ⟨hdatoms, hinstant⟩ := sealTxInstant_ok hseal
  rw [← ht] at hinstant hdatoms
  have hown : ∀ d ∈ datoms, d.tx = txId record.t := by
    intro d hd
    rw [htx d hd, ht]
    rfl
  rcases hdatoms with heq | heq
  · exact ⟨⟨heq ▸ hown, hinstant⟩, [], forall_mem_nil _, by rw [heq, append_nil]⟩
  · refine ⟨⟨fun d hd => ?_, hinstant⟩, _, fun d hd => ?_, heq⟩
    · rw [heq] at hd
      rcases mem_append.mp hd with hd | hd
      · exact hown d hd
      · rw [mem_singleton.mp hd]
        rfl
    · rw [mem_singleton.mp hd]
      exact ⟨(by decide : isSchemaAttribute txInstant = false), fun _ => nofun⟩

/-- An alteration whose record is appended. -/
theorem Hosted.Atomic.altered (ha : h.Atomic schema idents) (hs : SchemaDatoms.Keyed schema) {datoms : List Datom}
    {interner : KeywordInterner} (hlen : interner.len ≤ 2 ^ 64) (hext : h.naming.interner.Extends interner)
    (hdatoms : ∀ d ∈ datoms, NamedIn interner d.v ∧ d.tx = h.live.nextTx)
    (hu : SchemaUpdate h.live.db h.naming.interner datoms interner)
    (hclasses : SchemaDatoms.OneClassEach (logEntries h.log ++ entriesOf (h.live.db.basisT + 1) datoms))
    {nowMs : Int64} {record : TxRecord} {cursor : State}
    (hp : prepareDatoms (h.live.internNaming interner) datoms nowMs = .ok (record, cursor))
    (hn : h.NamedAfter (h.appendOne cursor record (some interner) .appended)) :
    (h.appendOne cursor record (some interner) .appended).Atomic schema idents := by
  have hlen' : h.naming.interner.len ≤ 2 ^ 64 := Nat.le_trans (KeywordInterner.Extends.len_le hext) hlen
  obtain ⟨hschema, hidents⟩ := internNaming_frame ha hs hlen' rfl interner
  have hidents := hidents rfl
  obtain ⟨hdb, ht, -, -, -⟩ := prepareDatoms_ok hp
  have ht : record.t = h.live.db.basisT + 1 := ht
  obtain ⟨hsealed, stamp, hstamp, hrecord⟩ := @prepareDatoms_record (h.live.internNaming interner) _ _ _ _
    (fun d hd => (hdatoms d hd).2) hp
  have hrecordNamed : ∀ d ∈ record.datoms, NamedIn interner d.v := by
    intro d hd
    rw [hrecord] at hd
    exact (mem_append.mp hd).elim (fun hd => (hdatoms d hd).1) (fun hd => (hstamp d hd).2 interner)
  have hfinal : finalValues record.datoms = finalValues datoms := by
    rw [hrecord]
    exact finalValues_append_other fun d hd => (hstamp d hd).1
  -- what the cursor holds
  have hcursor : cursor.db.schema = deriveSchema h.live.db.schema interner record.t record.datoms := by
    rw [hdb, (applyRecord_schema hsealed _).1, hschema, deriveSchema_eq_deriveAll]
    rfl
  have hregistry : cursor.db.idents = deriveIdents h.live.db.idents interner record.datoms := by
    rw [hdb, (applyRecord_idents _ record).1, hidents]
    rfl
  have hengine : cursor.db.idents.HasEngine := by
    rw [hregistry]
    unfold deriveIdents
    rw [hfinal]
    exact hu.hasEngine hlen ha.engine (ha.installed hs hlen')
  have haccepted : ∀ {n : KeywordInterner}, interner.Extends n → AcceptedLog (creation schema idents n) (h.log ++ [record]) := by
    intro n hn
    refine acceptedLog_append (ha.accepted (hext.trans hn)) (.altered ⟨hsealed, ?_⟩ .nil)
    refine ⟨h.live.db, h.naming.interner, datoms, interner, stamp, (ha.derived (hext.trans hn)).symm, hu, ?_,
      fun d hd => (hstamp d hd).1, hrecord⟩
    rw [(replayLog_registry _ h.log).2]
    exact hn
  have hderived : ∀ {n : KeywordInterner}, interner.Extends n →
      (replayLog (creation schema idents n) (h.log ++ [record])).schema = cursor.db.schema := by
    intro n hn
    rw [hcursor, deriveSchema_congr hn hrecordNamed, deriveSchema_eq_deriveAll, replayLog, foldl_append]
    show (applyRecord (replayLog (creation schema idents n) h.log) record).schema = _
    rw [(applyRecord_schema hsealed _).1, ha.derived (hext.trans hn), (replayLog_registry _ h.log).2]
    rfl
  have hinstalled : installSchema cursor.db.schema = cursor.db.schema := by
    rw [← hderived (.refl _)]
    exact (haccepted (.refl _)).installSchema hs hlen
  have hbasis : cursor.db.basisT = record.t := by
    rw [hdb]
    exact applyRecord_basisT hsealed _
  have hlt : ∀ r ∈ h.log, r.t < record.t := fun r hr => ht ▸ Nat.lt_succ_of_le (ha.bounded r hr)
  refine
    { named := hn.1, interner := .refl _, sorted := ?_, bounded := fun r hr => ?_, accepted := haccepted
      derived := fun hext => (hderived hext).trans hinstalled.symm, registered := ?_
      engine := Idents.hasEngine_installIdents _
      cached := ⟨rfl, rfl⟩, published := ⟨rfl, rfl⟩, classes := ?_ }
  · exact pairwise_append.mpr ⟨ha.sorted, pairwise_singleton _ _, fun r hr r' hr' =>
      mem_singleton.mp hr' ▸ hlt r hr⟩
  · show r.t ≤ cursor.db.basisT
    rw [hbasis]
    rcases mem_append.mp hr with hr | hr
    · exact Nat.le_of_lt (hlt r hr)
    · exact Nat.le_of_eq (congrArg _ (mem_singleton.mp hr))
  · show installIdents cursor.db.idents = registry interner _ (h.log ++ [record])
    rw [hengine.installIdents, hregistry, ha.registered, registry_append, registry_congr hext ha.named.log]
    rfl
  · show SchemaDatoms.OneClassEach (logEntries (h.log ++ [record]))
    rw [logEntries_append]
    unfold entriesOf at hclasses
    rw [← hfinal, ← ht] at hclasses
    simpa [logEntries, entriesOf] using hclasses

/-! ## Restarts -/

theorem txRange_of_sorted (hsorted : log.Pairwise fun r r' => r.t < r'.t) (b : Nat) :
    ∃ pre, log = pre ++ txRange log (b + 1) ∧ ∀ r ∈ pre, r.t ≤ b := by
  induction log with
  | nil => exact ⟨[], rfl, forall_mem_nil _⟩
  | cons r log ih =>
    obtain ⟨hr, hlog⟩ := pairwise_cons.mp hsorted
    by_cases hrb : b + 1 ≤ r.t
    · refine ⟨[], ?_, forall_mem_nil _⟩
      have hall : ∀ x ∈ r :: log, decide (b + 1 ≤ x.t) = true := by
        intro x hx
        rcases mem_cons.mp hx with rfl | hx
        · exact decide_eq_true hrb
        · exact decide_eq_true (Nat.le_of_lt (Nat.lt_of_le_of_lt hrb (hr x hx)))
      exact (filter_eq_self.mpr hall).symm
    · obtain ⟨pre, hpre, hle⟩ := ih hlog
      refine ⟨r :: pre, ?_, fun x hx => ?_⟩
      · unfold txRange at hpre ⊢
        rw [filter_cons_of_neg (by simpa using hrb), cons_append, ← hpre]
      · rcases mem_cons.mp hx with rfl | hx
        · exact Nat.le_of_lt_succ (Nat.lt_of_not_le hrb)
        · exact hle x hx

/-- A restart replays the end of the log over what the metadata root holds. -/
theorem recover_replays (naming : Naming) (root : Option Published) (hsorted : log.Pairwise fun r r' => r.t < r'.t) :
    ∃ base pre post, log = pre ++ post ∧ (Hosted.recover naming root log).db = replayLog base post ∧
      naming.Installs base ∧ base.interner = naming.interner ∧ ∀ r ∈ pre, r.t ≤ base.basisT := by
  have hwhole : ∃ base pre post, log = pre ++ post ∧
      replayLog (creation naming.schema naming.idents naming.interner) log = replayLog base post ∧
      naming.Installs base ∧ base.interner = naming.interner ∧ ∀ r ∈ pre, r.t ≤ base.basisT :=
    ⟨_, [], log, rfl, rfl, ⟨(creation_schema _ _ _).symm, rfl⟩, rfl, forall_mem_nil _⟩
  unfold Hosted.recover
  cases root with
  | none => exact hwhole
  | some root =>
    dsimp only
    unfold recoverTransactor
    split
    · rename_i snapshot hload
      unfold loadHistorySnapshot at hload
      simp only [bind_eq_ok, pure_eq_ok] at hload
      obtain ⟨current, -, history, -, rfl⟩ := hload
      obtain ⟨pre, hpre, hle⟩ := txRange_of_sorted hsorted root.basisT
      exact ⟨_, pre, _, hpre, rfl, ⟨rfl, rfl⟩, rfl, hle⟩
    · exact hwhole

theorem Hosted.Atomic.recovered (ha : h.Atomic schema idents) (hs : SchemaDatoms.Keyed schema)
    (hlen : h.metaRoot.interner.len ≤ 2 ^ 64) : h.reopen.live.db.schema = h.live.db.schema ∧
      h.reopen.live.db.idents = h.live.db.idents ∧ h.reopen.live.db.interner = h.metaRoot.interner ∧
      ∀ r ∈ h.log, r.t ≤ h.reopen.live.db.basisT := by
  obtain ⟨base, pre, post, hlog, hdb, hinstalls, hinterner, hpre⟩ := recover_replays h.metaRoot h.root ha.sorted
  have hlive : h.reopen.live.db = replayLog base post := hdb
  have haccepted := ha.accepted ha.named.metaRoot
  have hderived := ha.derived ha.named.metaRoot
  have hsorted := ha.sorted
  have hclasses := ha.classes
  have hregistered := ha.registered
  rw [registry_congr ha.named.metaRoot ha.named.log] at hregistered
  rw [hlog] at haccepted hderived hsorted hclasses hregistered
  rw [hlive]
  refine ⟨?_, ?_, (replayLog_registry base post).2.trans hinterner, fun r hr => ?_⟩
  · have hinstalled := haccepted.installSchema hs hlen
    refine ((replay_over_own_schema_iff hs hlen haccepted hinterner ?_).mpr fun k x hx y hy => ?_).trans hderived
    · rw [hinstalled, hderived, ← hinstalls.1, ha.published.1]
    · rw [logEntries_append] at hclasses
      exact hclasses k x (mem_append_right _ hx) y (mem_append_right _ hy)
  · rw [(replayLog_registry base post).1, hinterner, ← hinstalls.2, ha.published.2, hregistered]
    exact registry_again _ _ _ _
  · rw [hlog] at hr
    rcases eq_nil_or_concat' post with rfl | ⟨post', last, rfl⟩
    · exact hpre r (by simpa using hr)
    · have hsealed : SealedRecord last := haccepted.sealed last (by simp)
      rw [replayLog, foldl_append]
      show r.t ≤ (applyRecord _ last).basisT
      rw [applyRecord_basisT hsealed]
      rw [← append_assoc] at hr hsorted
      rcases mem_append.mp hr with hr | hr
      · exact Nat.le_of_lt ((pairwise_append.mp hsorted).2.2 r hr last (by simp))
      · exact Nat.le_of_eq (congrArg _ (mem_singleton.mp hr))

theorem Hosted.Atomic.reopened (ha : h.Atomic schema idents) (hs : SchemaDatoms.Keyed schema)
    (hlen : h.metaRoot.interner.len ≤ 2 ^ 64) (hn : h.NamedAfter h.reopen) : h.reopen.Atomic schema idents := by
  obtain ⟨hschema, hidents, hinterner, hbounded⟩ := ha.recovered hs hlen
  have hinstalls : h.metaRoot.Installs h.reopen.live.db := by
    unfold Naming.Installs
    rw [hschema, hidents]
    exact ha.published
  exact
    { named := hn.1, interner := hinterner ▸ .refl _, sorted := ha.sorted, bounded := hbounded
      accepted := fun hext => ha.accepted (hn.2.trans hext)
      derived := fun hext => (ha.derived (hn.2.trans hext)).trans hschema.symm
      registered := by
        rw [hidents, ha.registered]
        exact registry_congr hn.2 ha.named.log _
      engine := hidents ▸ ha.engine, cached := hinstalls, published := hinstalls, classes := ha.classes }

/-! ## Runs -/

/-- Names are published; ordinary transactions assert no name; an alteration is a
    compiled plan, moves no attribute into a second class, and does not fail between
    the metadata root and the log. -/
def KeepsSchema (c : Config) (h : Hosted) : Event → Prop
  | .flush requests nowMs fate =>
    Publishes c h (.flush requests nowMs fate) ∧
      NamesNothing (logDatoms (prepareBatch c nowMs requests h.batchCursor).1.prepared)
  | .compose items interner nowMs _ =>
    ∀ record tempids cursor, prepareTransaction (h.live.internNaming interner) items nowMs = (.ok (record, tempids), cursor) →
      NamesNothing record.datoms
  | .report items nowMs _ =>
    ∀ record tempids cursor, prepareTransaction h.live items nowMs = (.ok (record, tempids), cursor) →
      NamesNothing record.datoms
  | .alter datoms interner _ fate =>
    fate ≠ .published ∧ SchemaUpdate h.live.db h.naming.interner datoms interner ∧
      SchemaDatoms.OneClassEach (logEntries h.log ++ entriesOf (h.live.db.basisT + 1) datoms)
  | .publish | .reopen => True

theorem KeepsSchema.publishes (hk : KeepsSchema c h e) : Publishes c h e := by
  cases e with
  | flush => exact hk.1
  | _ => trivial

theorem Hosted.Atomic.after (ha : h.Atomic schema idents) (hs : SchemaDatoms.Keyed schema)
    (hc : e.Composed h) (hk : KeepsSchema c h e) (hlen : (h.after c e).naming.interner.len ≤ 2 ^ 64) :
    (h.after c e).Atomic schema idents := by
  have hn := ha.named.after hc hk.publishes
  have hlen' : h.naming.interner.len ≤ 2 ^ 64 := Nat.le_trans (KeywordInterner.Extends.len_le hn.2) hlen
  cases e with
  | flush requests nowMs fate =>
    have hbatch := prepareBatch_inv c nowMs (I := fun b => b.Named h.naming.interner ∧ b.Keeps h)
      (fun b b' hb hst => ⟨hb.1.stages hst, hb.2.stages hb.1 ha hs hlen' hst⟩) requests (b := h.batchCursor)
      ⟨⟨.refl _, ha.named.live, forall_mem_nil _⟩,
        ⟨rfl, fun _ => rfl, ha.interner, forall_mem_nil _, .nil, Nat.le_refl _, forall_mem_nil _⟩⟩
    exact ha.commitBatch hs hlen' hbatch.2 hbatch.1.grows hn hk.2
  | compose items interner nowMs fate =>
    revert hn
    unfold Hosted.after Hosted.compose
    dsimp only
    split
    · exact fun _ => ha
    · rename_i record tempids cursor hprep
      intro hn
      obtain ⟨hschema, hidents⟩ := internNaming_frame ha hs hlen' rfl interner
      obtain ⟨hsound, ht, hbasis, hschema', hinterner, hidents'⟩ :=
        transact_frame (s := h.live.internNaming interner) ha.named.live.1 (prepareTransaction_ok hprep)
      have hno := hk record tempids cursor hprep
      refine ha.appendOne hs hlen' hn hsound ht hbasis (hschema'.trans hschema) ((hidents' hno).trans (hidents rfl)) ?_ hno
      rw [hinterner]
      split
      · exact .refl _
      · rename_i hle
        exact hc.1.eq_of_len hle ▸ .refl _
  | report items nowMs fate =>
    revert hn
    unfold Hosted.after Hosted.report
    dsimp only
    split
    · exact fun _ => ha
    · rename_i record tempids cursor hprep
      intro hn
      obtain ⟨hsound, ht, hbasis, hschema, hinterner, hidents⟩ :=
        transact_frame ha.named.live.1 (prepareTransaction_ok hprep)
      have hno := hk record tempids cursor hprep
      exact ha.appendOne hs hlen' hn hsound ht hbasis hschema (hidents hno) (hinterner ▸ ha.interner) hno
  | alter datoms interner nowMs fate =>
    obtain ⟨hfate, hu, hclasses⟩ := hk
    revert hn hlen
    unfold Hosted.after Hosted.alterSchema
    dsimp only
    split
    · exact fun _ _ => ha
    · rename_i record cursor hprep
      cases fate with
      | refused => exact fun _ _ => ha
      | published => exact absurd rfl hfate
      | appended => exact fun hlen hn => ha.altered hs hlen hc.1 hc.2 hu hclasses hprep hn
  | publish => exact ⟨hn.1, ha.interner, ha.sorted, ha.bounded, ha.accepted, ha.derived, ha.registered, ha.engine,
      ha.cached, ha.published, ha.classes⟩
  | reopen => exact ha.reopened hs hlen hn

namespace FailedAlterationExample

open TwiceProtectedExample (ssn pii protection update_pii keyed_schema)

def start : Hosted := Hosted.create TwiceProtectedExample.schema TwiceProtectedExample.idents

/-- `:person/ssn` enters a class, as far as `fate` lets it. -/
def protecting (fate : Fate) : Event := .alter [protection 1 pii true] KeywordInterner.empty 5 fate

def config : Config :=
  { expand := fun _ forms => .ok forms, maxCommitBatch := 64, maxCommitBatchBytes := 4096, framedSize := fun _ => 0 }

def failed : Hosted := start.after config (protecting .published)

end FailedAlterationExample

end Corium.Transactor
