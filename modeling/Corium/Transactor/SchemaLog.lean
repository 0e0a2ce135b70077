/-
  Corium.Transactor.SchemaLog — the schema a log derives, and what deriving it
  twice gives.

  `alter_schema` plans a declared schema against the live value, compiles the
  plan to datoms and commits them with an audit (`Altered`); every other record
  of a log describes no attribute (`SoundRecord`). A log of such records derives
  its schema entry by entry (`replayLog_schema`), each entry where the derivation
  expects it (`AcceptedLog.accepts`).

  Recovery replays a log, or what follows the published indexes, over a metadata
  schema that has those records' effect already. Every property of an attribute
  is overwritten by its last entry, whatever it started from; a protection
  timeline is pushed to whenever the class changes. Replaying therefore gives the
  same schema exactly when no attribute changes class twice in the replayed part
  (`replay_over_own_schema_iff`).
-/

import Corium.Db.SchemaReplay
import Corium.Forms.SchemaTx
import Corium.Transactor.Log

namespace Corium.Transactor

open Corium.Core Corium.Lib Corium.Forms Bootstrap List SchemaDatoms

/-! ## Accepted logs -/

/-- What `alter_schema` hands to the commit: an unblocked plan against `db`, compiled
    with the names of `interner`, then the audit of it. -/
structure SchemaUpdate (db : Db) (interner : KeywordInterner) (datoms : List Datom) (interner' : KeywordInterner) :
    Prop where
  planned : ∃ desired prune steps compiled audit,
    planAgainst desired db (installedSchema db) prune = .ok steps ∧ (∀ step ∈ steps, step.isBlocked = false) ∧
    compile (txId (db.basisT + 1)) steps desired db (installedSchema db) interner = .ok (compiled, interner') ∧
    (∀ d ∈ audit, isSchemaAttribute d.a = false) ∧ datoms = compiled ++ audit

/-- A record of a schema update, as a value of schema `schema` takes it. -/
structure Altered (names : KeywordInterner) (schema : Schema) (record : TxRecord) : Prop extends
    SealedRecord record where
  update : ∃ db interner datoms interner' stamp, db.schema = schema ∧ SchemaUpdate db interner datoms interner' ∧
    interner'.Extends names ∧ (∀ d ∈ stamp, isSchemaAttribute d.a = false) ∧ record.datoms = datoms ++ stamp

/-- Each record was accepted where the records before it lead: `db` names the keywords
    of all of them. -/
inductive AcceptedLog : Db → List TxRecord → Prop
  | nil {db : Db} : AcceptedLog db []
  | ordinary {db : Db} {record : TxRecord} {log : List TxRecord} : SoundRecord record →
      AcceptedLog (applyRecord db record) log → AcceptedLog db (record :: log)
  | altered {db : Db} {record : TxRecord} {log : List TxRecord} : Altered db.interner db.schema record →
      AcceptedLog (applyRecord db record) log → AcceptedLog db (record :: log)

/-! ## The schema a log derives -/

/-- The entries of a log's schema vocabulary, transaction by transaction. -/
def logEntries (log : List TxRecord) : List SchemaDatoms.Entry :=
  log.flatMap fun r => entriesOf r.t r.datoms

@[simp] theorem logEntries_append (xs ys : List TxRecord) : logEntries (xs ++ ys) = logEntries xs ++ logEntries ys :=
  flatMap_append

theorem deriveAll_append (interner : KeywordInterner) (schema : Schema) (xs ys : List SchemaDatoms.Entry) :
    deriveAll interner schema (xs ++ ys) =
      deriveAll interner (deriveAll interner schema xs) ys := foldl_append

variable {r : TxRecord} {db : Db}

theorem applyRecord_schema (h : SealedRecord r) (db : Db) :
    (applyRecord db r).schema = deriveAll db.interner db.schema (entriesOf r.t r.datoms) ∧
      (applyRecord db r).interner = db.interner := by
  obtain ⟨_, heq⟩ := applyRecord_eq h db
  rw [heq, ← deriveSchema_eq_deriveAll]
  refine ⟨?_, rfl⟩
  show (if _ then _ else _) = _
  split
  · rfl
  · rename_i htouch
    -- nothing of the vocabulary, so nothing to derive
    refine (deriveSchema_of_only_idents _ _ _ fun d hd hs => absurd ?_ htouch).symm
    exact any_eq_true.mpr ⟨d, hd, hs⟩

theorem replayLog_schema {log : List TxRecord} (h : ∀ r ∈ log, SealedRecord r) (db : Db) :
    (replayLog db log).schema = deriveAll db.interner db.schema (logEntries log) ∧
      (replayLog db log).interner = db.interner := by
  induction log generalizing db with
  | nil => exact ⟨rfl, rfl⟩
  | cons r log ih =>
    obtain ⟨hschema, hnames⟩ := applyRecord_schema (h r mem_cons_self) db
    obtain ⟨ihs, ihn⟩ := ih (fun x hx => h x (mem_cons_of_mem _ hx)) (applyRecord db r)
    rw [hschema, hnames] at ihs
    refine ⟨?_, ihn.trans hnames⟩
    rw [logEntries, flatMap_cons, deriveAll_append]
    exact ihs

theorem AcceptedLog.sealed {log : List TxRecord} (h : AcceptedLog db log) : ∀ r ∈ log, SealedRecord r := by
  induction h with
  | nil => simp
  | ordinary hr _ ih => exact forall_mem_cons.mpr ⟨hr.toSealedRecord, ih⟩
  | altered hr _ ih => exact forall_mem_cons.mpr ⟨hr.toSealedRecord, ih⟩

theorem datom_of_mem_entriesOf {t : Nat} {datoms : List Datom} {x : SchemaDatoms.Entry}
    (hx : x ∈ entriesOf t datoms) :
    ∃ d ∈ datoms, isSchemaAttribute d.a = true ∧ d.e = x.entity ∧ d.a = x.property := by
  have hmem := SchemaDatoms.mem_entriesOf.mp hx
  obtain ⟨d, hd, hs, hkey⟩ := mem_finalValues
    (Std.ExtTreeMap.mem_iff_isSome_getElem?.mpr (by rw [hmem.2]; rfl))
  exact ⟨d, hd, hs, congrArg (·.1) hkey, congrArg (·.2) hkey⟩

theorem accepts_of_idents {interner : KeywordInterner} {schema : Schema} {xs : List SchemaDatoms.Entry}
    (h : ∀ x ∈ xs, x.property = Bootstrap.ident) : SchemaDatoms.Accepts interner schema xs := by
  induction xs generalizing schema with
  | nil => trivial
  | cons x xs ih =>
    exact ⟨fun hne => absurd (h x mem_cons_self) hne, ih fun y hy => h y (mem_cons_of_mem _ hy)⟩

theorem SoundRecord.entries (h : SoundRecord r) :
    ∀ x ∈ entriesOf r.t r.datoms, x.property = Bootstrap.ident := by
  intro x hx
  obtain ⟨d, hd, hs, -, ha⟩ := datom_of_mem_entriesOf hx
  rw [← ha]
  exact h.names d hd hs

theorem Altered.accepts {names : KeywordInterner} {schema : Schema} (h : Altered names schema r)
    (hlen : names.len ≤ 2 ^ 64) (hs : SchemaDatoms.Keyed schema) :
    SchemaDatoms.Accepts names schema (entriesOf r.t r.datoms) := by
  obtain ⟨db, _, _, _, stamp, rfl, ⟨desired, prune, steps, compiled, audit, hplan, -, hcompile, haudit, rfl⟩, hext,
    hstamp, hdatoms⟩ := h.update
  rw [hdatoms, append_assoc]
  refine SchemaDatoms.Planned.accepts hs (compile_planned hplan hcompile hext hlen fun d hd => ?_) r.t
  rcases mem_append.mp hd with hd | hd
  · exact haudit d hd
  · exact hstamp d hd

theorem Altered.not_engine {names : KeywordInterner} {schema : Schema} (h : Altered names schema r)
    (hlen : names.len ≤ 2 ^ 64) : ∀ x ∈ entriesOf r.t r.datoms, isEngineAttribute x.entity = false := by
  obtain ⟨db, _, _, _, stamp, rfl, ⟨desired, prune, steps, compiled, audit, hplan, -, hcompile, haudit, rfl⟩, hext,
    hstamp, hdatoms⟩ := h.update
  intro x hx
  obtain ⟨d, hd, hs, he, -⟩ := datom_of_mem_entriesOf hx
  rw [hdatoms] at hd
  rcases mem_append.mp hd with hd | hd
  · rcases mem_append.mp hd with hd | hd
    · rw [← he]
      exact compile_not_engine hplan hcompile ((KeywordInterner.Extends.len_le hext).trans hlen) d hd
    · rw [haudit d hd] at hs
      cases hs
  · rw [hstamp d hd] at hs
    cases hs

theorem AcceptedLog.accepts {log : List TxRecord} (h : AcceptedLog db log) (hlen : db.interner.len ≤ 2 ^ 64)
    (hs : SchemaDatoms.Keyed db.schema) : SchemaDatoms.Accepts db.interner db.schema (logEntries log) := by
  induction h with
  | nil => trivial
  | @ordinary db r log hr _ ih =>
    obtain ⟨hschema, hnames⟩ := applyRecord_schema hr.toSealedRecord db
    rw [hschema, hnames] at ih
    exact accepts_append (accepts_of_idents hr.entries) (ih hlen (hs.deriveAll _))
  | @altered db r log hr _ ih =>
    obtain ⟨hschema, hnames⟩ := applyRecord_schema hr.toSealedRecord db
    rw [hschema, hnames] at ih
    exact accepts_append (hr.accepts hlen hs) (ih hlen (hs.deriveAll _))

/-- The engine's attributes may be named, and are never described. -/
theorem AcceptedLog.not_engine {log : List TxRecord} (h : AcceptedLog db log)
    (hlen : db.interner.len ≤ 2 ^ 64) :
    ∀ x ∈ logEntries log, x.property = Bootstrap.ident ∨ isEngineAttribute x.entity = false := by
  induction h with
  | nil => simp [logEntries]
  | @ordinary db r log hr _ ih =>
    rw [(applyRecord_schema hr.toSealedRecord db).2] at ih
    intro x hx
    rcases mem_append.mp hx with hx | hx
    · exact .inl (hr.entries x hx)
    · exact ih hlen x hx
  | @altered db r log hr _ ih =>
    rw [(applyRecord_schema hr.toSealedRecord db).2] at ih
    intro x hx
    rcases mem_append.mp hx with hx | hx
    · exact .inr (hr.not_engine hlen x hx)
    · exact ih hlen x hx

theorem AcceptedLog.suffix {pre post : List TxRecord} (h : AcceptedLog db (pre ++ post)) :
    AcceptedLog (replayLog db pre) post := by
  induction pre generalizing db with
  | nil => exact h
  | cons r pre ih =>
    cases h with
    | ordinary _ h => exact ih h
    | altered _ h => exact ih h

/-! ## Bootstrap -/

theorem keyed_installSchema {schema : Schema} (hs : SchemaDatoms.Keyed schema) :
    SchemaDatoms.Keyed (installSchema schema) := by
  intro e r hr
  cases hlast : lastOn (fun x : Keyword × Attribute => x.2.id) e attributes with
  | none => exact hs ((installSchema_get_other schema hlast).symm.trans hr)
  | some entry =>
    cases (installSchema_get schema hlast).symm.trans hr
    have hkey := key_of_lastOn hlast
    exact hkey

/-- Where the engine's attributes are as bootstrap left them, it has nothing to install. -/
theorem installSchema_eq_self {schema : Schema}
    (h : ∀ k, isEngineAttribute k = true → schema.get k = (installSchema schema).get k) :
    installSchema schema = schema := by
  refine schema_ext (fun k => ?_) ?_ ?_ ?_ ?_
  · cases hlast : lastOn (fun x : Keyword × Attribute => x.2.id) k attributes with
    | none => exact installSchema_get_other schema hlast
    | some entry =>
      refine (h k ?_).symm
      rw [← key_of_lastOn hlast]
      exact (show ∀ entry ∈ attributes, isEngineAttribute entry.2.id = true by decide) entry (mem_of_lastOn hlast)
  all_goals rw [installSchema_eq]
  · exact fun _ => rfl
  · exact fun _ => rfl
  · exact fun _ => Iff.rfl

section Accepted

variable {schema : Schema} {idents : Idents} {names : KeywordInterner} {log : List TxRecord}

theorem AcceptedLog.engine (h : AcceptedLog (creation schema idents names) log) (hs : SchemaDatoms.Keyed schema)
    (hlen : names.len ≤ 2 ^ 64) {k : AttrId} (hk : isEngineAttribute k = true) :
    (replayLog (creation schema idents names) log).schema.get k = (installSchema schema).get k := by
  rw [(replayLog_schema h.sealed _).1, creation_schema]
  refine deriveAll_get_other (keyed_installSchema hs) fun x hx => ?_
  unfold SchemaDatoms.Entry.about
  rw [decide_eq_false_iff_not]
  rintro ⟨rfl, hne⟩
  rcases h.not_engine hlen x hx with hident | hengine
  · exact hne hident
  · rw [hk] at hengine
    cases hengine

/-- Opening a database installs nothing over the schema its log led to. -/
theorem AcceptedLog.installSchema (h : AcceptedLog (creation schema idents names) log) (hs : SchemaDatoms.Keyed schema)
    (hlen : names.len ≤ 2 ^ 64) :
    installSchema (replayLog (creation schema idents names) log).schema =
      (replayLog (creation schema idents names) log).schema := by
  refine installSchema_eq_self fun k hk => ?_
  cases hlast : lastOn (fun x : Keyword × Attribute => x.2.id) k attributes with
  | none => exact (installSchema_get_other _ hlast).symm
  | some entry =>
    rw [h.engine hs hlen hk, installSchema_get _ hlast, installSchema_get _ hlast]

end Accepted

/-! ## Replaying over the schema reached -/

/-- Replaying the end of an accepted log over the schema the whole log led to, from
    the metadata root alone (`pre` empty) or from the published indexes. -/
theorem replay_over_own_schema_iff {schema : Schema} (hs : SchemaDatoms.Keyed schema) {idents : Idents}
    {names : KeywordInterner} (hlen : names.len ≤ 2 ^ 64) {pre post : List TxRecord}
    (h : AcceptedLog (creation schema idents names) (pre ++ post)) {base : Db} (hnames : base.interner = names)
    (hbase : base.schema = installSchema (replayLog (creation schema idents names) (pre ++ post)).schema) :
    (replayLog base post).schema = (replayLog (creation schema idents names) (pre ++ post)).schema ↔
      SchemaDatoms.OneClassEach (logEntries post) := by
  have hsealed : ∀ r ∈ post, SealedRecord r := fun r hr => h.sealed r (mem_append_right _ hr)
  rw [(replayLog_schema hsealed base).1, hnames, hbase, h.installSchema hs hlen]
  -- the schema reached is what the suffix derives from the one before it
  have hmid := replayLog_schema (fun r hr => h.sealed r (mem_append_left _ hr)) (creation schema idents names)
  have hkeyed : SchemaDatoms.Keyed (replayLog (creation schema idents names) pre).schema := by
    rw [hmid.1, creation_schema]
    exact SchemaDatoms.Keyed.deriveAll (keyed_installSchema hs) _
  have hlast := (replayLog_schema hsealed (replayLog (creation schema idents names) pre)).1
  rw [hmid.2] at hlast
  rw [replayLog, foldl_append]
  change deriveAll names (replayLog (replayLog (creation schema idents names) pre) post).schema _ =
    (replayLog (replayLog (creation schema idents names) pre) post).schema ↔ _
  rw [hlast]
  refine deriveAll_deriveAll_iff hkeyed ?_
  have hacc := h.suffix.accepts
  rw [hmid.2] at hacc
  exact hacc hlen hkeyed

namespace TwiceProtectedExample

def ssn : Attribute :=
  { id := dbAttr 100, valueType := .str, cardinality := .one, unique := none, isComponent := false
    indexed := false, noHistory := false }

def pii : EntityId := dbAttr 101

def secret : EntityId := dbAttr 102

def sealedUnder (id : EntityId) (keyId : String) : ProtectionClass :=
  { id, keyId, algorithm := .aes256GcmSiv, scope := .attribute, padding := none, onMissingKey := .redact,
    legacyPlaintext := .redact, currentEpoch := 1 }

def schema : Schema := ((Schema.empty.insert ssn).insertClass (sealedUnder pii "pii")).insertClass (sealedUnder secret "secret")

def idents : Idents :=
  ((Idents.empty.insert ⟨some "person", "ssn"⟩ ssn.id).insert ⟨some "class", "pii"⟩ pii).insert ⟨some "class", "secret"⟩ secret

def base : Db := creation schema idents KeywordInterner.empty

/-- The schema file, with `:person/ssn` in a class. -/
def declared (cls : String) : DesiredSchema :=
  DesiredSchema.empty.insert
    { ident := ⟨some "person", "ssn"⟩, valueType := .str, cardinality := .one, unique := none, indexed := false
      isComponent := false, noHistory := false, doc := none, protection := some ⟨some "class", cls⟩, covered := nofun }

def protection (t : Nat) (cls : EntityId) (added : Bool) : Datom :=
  { e := ssn.id, a := Bootstrap.protection, v := .ref cls, tx := txId t, added }

def intoPii : TxRecord := { t := 1, txInstant := 5, datoms := [protection 1 pii true, txInstantDatom 1 5] }

def intoSecret : TxRecord :=
  { t := 2, txInstant := 6
    datoms := [protection 2 pii false, protection 2 secret true, txInstantDatom 2 6] }

def step : PlanStep :=
  { ident := ":person/ssn", kind := .property .protection, cls := .validateReindex, acks := [.protectionForwardOnly]
    blocked := none }

theorem update_pii : SchemaUpdate base KeywordInterner.empty [protection 1 pii true] KeywordInterner.empty :=
  ⟨declared "pii", false, [step], [protection 1 pii true], [], by decide +kernel, by decide, by decide +kernel, nofun, rfl⟩

theorem update_secret : SchemaUpdate (applyRecord base intoPii) KeywordInterner.empty
    [protection 2 pii false, protection 2 secret true] KeywordInterner.empty :=
  ⟨declared "secret", false, [step], [protection 2 pii false, protection 2 secret true], [], by decide +kernel,
    by decide, by decide +kernel, nofun, rfl⟩

theorem altered_pii : Altered base.interner base.schema intoPii :=
  ⟨⟨by decide, by decide⟩, base, _, _, _, [txInstantDatom 1 5], rfl, update_pii,
    KeywordInterner.Extends.refl _, by decide, rfl⟩

theorem altered_secret : Altered (applyRecord base intoPii).interner (applyRecord base intoPii).schema intoSecret :=
  ⟨⟨by decide, by decide⟩, applyRecord base intoPii, _, _, _, [txInstantDatom 2 6], rfl,
    update_secret, KeywordInterner.Extends.refl _, by decide, rfl⟩

theorem keyed_schema : SchemaDatoms.Keyed schema := by
  intro e r hr
  change ((∅ : Std.ExtTreeMap AttrId Attribute).insert ssn.id ssn)[e]? = some r at hr
  rw [Std.ExtTreeMap.getElem?_insert] at hr
  split at hr
  · cases hr
    exact eq_of_compare_eq ‹_›
  · simp at hr

def log : List TxRecord := [intoPii, intoSecret]

def reached : Schema := (replayLog base log).schema

/-- `:person/ssn` enters one class and then another; over the schema that says so,
    the replay enters both again. -/
theorem replay_repeats_the_timeline : SchemaDatoms.Keyed schema ∧ AcceptedLog base log ∧
    (reached.protectionOf ssn.id).entries = [(1, some pii), (2, some secret)] ∧
    ((replayLog (creation reached idents KeywordInterner.empty) log).schema.protectionOf ssn.id).entries =
      [(1, some pii), (2, some secret), (1, some pii), (2, some secret)] ∧
    (replayLog (creation reached idents KeywordInterner.empty) log).schema ≠ reached :=
  ⟨keyed_schema, .altered altered_pii (.altered altered_secret .nil), by decide +kernel, by decide +kernel,
    by decide +kernel⟩

/-- One class: the replay leaves the schema alone. -/
theorem replay_of_one_class :
    (replayLog (creation (replayLog base [intoPii]).schema idents KeywordInterner.empty)
      [intoPii]).schema = (replayLog base [intoPii]).schema := by
  have hentries : logEntries [intoPii] = [(1, ((ssn.id, Bootstrap.protection), some (.ref pii)))] := by
    decide
  refine (@replay_over_own_schema_iff schema keyed_schema idents _ (by decide) [] _ (.altered altered_pii .nil) _ rfl
    (creation_schema _ _ _)).mpr fun k x hx y hy _ _ => ?_
  rw [hentries, mem_singleton] at hx hy
  rw [hx, hy]

end TwiceProtectedExample

end Corium.Transactor
