/-
  Corium.Transactor.Names — stored keywords stay nameable.

  A keyword value is stored as an id, so every id of the durable log has to be
  named by the metadata root, and no id may change its name. A run keeps this
  (`stored_keywords_stay_named`) as long as each flush publishes what it interns
  (`Publishes`): the cached names are then a part of the published ones, and every
  stored id is a cached name.

  As built a flush may leave names cached and unpublished: a request interns its
  keywords before it is refused, and a metadata write may fail after the batch
  interned. The next request finds those names, mints nothing and is appended
  under an id no metadata root names; after a crash the id goes to the next
  keyword (`a_refused_request_leaves_its_names_behind`).
-/

import Corium.Transactor.Hosted

namespace Corium.Transactor

open Corium.Core Corium.Lib Corium.Tx Corium.Query Corium.Forms List

/-! ## What a commit records -/

variable {i : KeywordInterner} {items : List TxItem} {db : Db} {h : Hosted}
variable {record : TxRecord} {s : State} {b : Batch} {interner j : KeywordInterner} {root : Published}
variable {prepared : PreparedTx} {leased : List Datom} {tempids : Tempids} {s' : State} {nowMs : Int64}
  {log : List TxRecord} {d : Datom} {c : Config}

/-- An accepted transaction records keywords its items or its database name. -/
theorem Committed.named (h : Committed s items nowMs record tempids s' prepared leased)
    (hv : s.db.view = .current) (hdb : ∀ d ∈ s.db.recorded, NamedIn i d.v)
    (hitems : ItemsNamed i items) : ∀ d ∈ record.datoms, NamedIn i d.v := by
  obtain ⟨grants, stamp, hds, -, hgrants, hstamp⟩ := h.datoms
  have hprepared : ∀ d ∈ prepared.datoms, NamedIn i d.v := by
    refine prepare_values hv (fun v href id hid => ?_) hdb hitems h.prepare
    rw [hid] at href
    cases href
  intro d hd
  rw [hds, append_assoc] at hd
  rcases mem_append.mp hd with hd | hd
  · exact hprepared d hd
  intro id hid
  rcases mem_append.mp hd with hd | hd
  · obtain ⟨saga, n, hd⟩ := hgrants d hd
    simp only [grantDatoms, mem_cons, not_mem_nil, or_false] at hd
    rcases hd with rfl | rfl | rfl | rfl <;> cases hid
  · rw [hstamp d hd] at hid
    cases hid

theorem Committed.recorded (h : Committed s items nowMs record tempids s' prepared leased)
    (hv : s.db.view = .current) : StandsFor s.db record.datoms s'.db := by
  rw [h.db]
  exact applyRecord_stands (h.sound hv) s.db

/-! ## What a request does to a batch -/

/-- The staged value a request with names `j` is prepared against. -/
def Batch.against (b : Batch) (j : KeywordInterner) : State :=
  if b.interner.len < j.len then b.cursor.internNaming j else b.cursor

/-- One request: refused, with the names it interned kept, or accepted. -/
inductive Stages (b : Batch) : Batch → Prop where
  | refused {j : KeywordInterner} {cursor : State} : b.interner.Extends j →
      cursor.db = b.cursor.db ∨ cursor.db = (b.against j).db → Stages b { b with cursor, interner := j }
  | accepted {items : List TxItem} {j : KeywordInterner} {nowMs : Int64} {record : TxRecord} {tempids : Tempids}
      {cursor : State} {bytes : Nat} : b.interner.Extends j → ItemsNamed j items →
      transact (b.against j) items nowMs = .ok (record, tempids, cursor) →
      Stages b { cursor, interner := j, prepared := b.prepared ++ [record], bytes,
                 namingChanged := b.interner.len < j.len }

theorem prepareRequest_stages (c : Config) (nowMs : Int64) (b : Batch) (r : Request) :
    Stages b (prepareRequest c nowMs b r) := by
  have hnothing : Stages b b := .refused (KeywordInterner.Extends.refl b.interner) (.inl rfl)
  unfold prepareRequest
  split
  · exact hnothing
  · split
    · exact hnothing
    · rename_i forms _
      obtain ⟨hext, hnamed⟩ := txItemsFromEdn_mints b.cursor.db forms b.interner
      split
      · rename_i j hconv
        rw [hconv] at hext
        exact .refused hext (.inl rfl)
      · rename_i items j hconv
        rw [hconv] at hext hnamed
        have hnamed := hnamed items rfl
        dsimp only
        split
        · rename_i e cursor hprep
          exact .refused hext (.inr (prepareTransaction_error hprep).1)
        · rename_i record tempids cursor hprep
          exact .accepted hext hnamed (prepareTransaction_ok hprep)

/-- What every request keeps, a batch keeps. -/
theorem prepareBatch_inv (c : Config) (nowMs : Int64) {I : Batch → Prop} (hstep : ∀ b b', I b → Stages b b' → I b')
    (requests : List Request) (h : I b) : I (prepareBatch c nowMs requests b).1 := by
  induction requests generalizing b with
  | nil => exact h
  | cons r rest ih =>
    have hnext := hstep b _ h (prepareRequest_stages c nowMs b r)
    unfold prepareBatch
    dsimp only
    split
    · exact hnext
    · exact ih hnext

/-! ## Names of a batch -/

/-- Every stored keyword is named by `i`. -/
def Stored (i : KeywordInterner) (db : Db) : Prop := db.view = .current ∧ ∀ d ∈ db.recorded, NamedIn i d.v

theorem Stored.mono {i : KeywordInterner} (h : Stored i db) (hij : i.Extends j) : Stored j db :=
  ⟨h.1, fun d hd => (h.2 d hd).mono hij⟩

theorem Stored.withNaming (h : Stored i db) (idents : Idents) (j : KeywordInterner) :
    Stored i (db.withNaming idents j) := h

/-- An accepted transaction stores named keywords only. -/
theorem Stored.transact {i : KeywordInterner} {s s' : State} {items : List TxItem} {nowMs : Int64} {record : TxRecord}
    {tempids : Tempids} (h : Stored i s.db) (hitems : ItemsNamed i items)
    (ht : transact s items nowMs = .ok (record, tempids, s')) :
    Stored i s'.db ∧ ∀ d ∈ record.datoms, NamedIn i d.v := by
  obtain ⟨prepared, leased, hc⟩ := transact_ok ht
  have hnamed := hc.named h.1 h.2 hitems
  have hstands := hc.recorded h.1
  refine ⟨⟨hstands.view.trans h.1, fun d hd => ?_⟩, hnamed⟩
  rw [hstands.recorded] at hd
  exact (mem_append.mp hd).elim (h.2 d) (hnamed d)

structure Batch.Named (base : KeywordInterner) (b : Batch) : Prop where
  grows : base.Extends b.interner
  cursor : Stored b.interner b.cursor.db
  prepared : ∀ d ∈ logDatoms b.prepared, NamedIn b.interner d.v

theorem Stored.against (h : Stored b.interner b.cursor.db)
    (hext : b.interner.Extends j) : Stored j (b.against j).db := by
  unfold Batch.against
  split
  · exact (h.mono hext).withNaming _ _
  · exact h.mono hext

theorem Batch.Named.stages {base : KeywordInterner} {b' : Batch} (h : b.Named base) (hs : Stages b b') :
    b'.Named base := by
  cases hs with
  | refused hext hdb =>
    refine ⟨h.grows.trans hext, ?_, fun d hd => (h.prepared d hd).mono hext⟩
    rcases hdb with hdb | hdb
    · exact hdb ▸ h.cursor.mono hext
    · exact hdb ▸ h.cursor.against hext
  | accepted hext hitems ht =>
    obtain ⟨hcursor, hrecord⟩ := (h.cursor.against hext).transact hitems ht
    refine ⟨h.grows.trans hext, hcursor, fun d hd => ?_⟩
    rw [logDatoms_append] at hd
    rcases mem_append.mp hd with hd | hd
    · exact (h.prepared d hd).mono hext
    · exact hrecord d (by simpa [logDatoms] using hd)

/-! ## Names of a recovered value -/

theorem Stored.applyRecord {r : TxRecord} (h : Stored i db)
    (hr : ∀ d ∈ r.datoms, NamedIn i d.v) : Stored i (Transactor.applyRecord db r) := by
  unfold Transactor.applyRecord Db.withTransactionAt
  split
  · exact ⟨h.1, fun d hd => (mem_append.mp hd).elim (h.2 d) (hr d)⟩
  · refine ⟨h.1, fun d hd => ?_⟩
    rcases mem_append.mp hd with hd | hd
    · exact h.2 d hd
    rcases mem_append.mp hd with hd | hd
    · exact hr d hd
    · rw [mem_singleton.mp hd]
      exact nofun

theorem Stored.replayLog (h : Stored i db)
    (hlog : ∀ d ∈ logDatoms log, NamedIn i d.v) : Stored i (Transactor.replayLog db log) := by
  induction log generalizing db with
  | nil => exact h
  | cons r log ih =>
    refine ih (h.applyRecord fun d hd => hlog d ?_) fun d hd => hlog d ?_
    · exact mem_flatMap.mpr ⟨r, mem_cons_self, hd⟩
    · exact mem_append_right _ hd

theorem stored_creation (i : KeywordInterner) (schema : Schema) (idents : Idents) (interner : KeywordInterner) :
    Stored i (creation schema idents interner) := ⟨rfl, nofun⟩

/-- The published keys state named facts. -/
def Published.Named (i : KeywordInterner) (root : Published) : Prop :=
  ∀ key ∈ root.currentKeys ++ root.historyKeys, ∃ d : Datom, key = d.key .eavt ∧ NamedIn i d.v

theorem Published.Named.mono {i : KeywordInterner} (h : root.Named i) (hij : i.Extends j) : root.Named j := by
  intro key hkey
  obtain ⟨d, hd, hv⟩ := h key hkey
  exact ⟨d, hd, hv.mono hij⟩

theorem mem_recorded_of_mem_datomsAt (hv : db.view = .current) (hd : d ∈ db.datomsAt .eavt) : d ∈ db.recorded := by
  obtain ⟨k, hk⟩ := mem_indexValues.mp hd
  obtain ⟨-, -, hl⟩ := (Db.index_some (Db.showsLive_of_current hv) .eavt).mp hk
  exact (liveDatom_some ((Db.mem_live_iff hv).mp hl)).2.2

theorem mem_recorded_of_mem_history (hd : d ∈ db.history.datomsAt .eavt) : d ∈ db.recorded := by
  obtain ⟨k, hk⟩ := mem_indexValues.mp hd
  change (historyIndex db.schema .eavt db.recorded)[k]? = some d at hk
  rw [historyIndex_eq_replay, getElem?_replay_empty, Option.bind_fun_some] at hk
  exact (mem_filter.mp (mem_of_lastOn hk)).1

theorem Stored.publish (h : Stored i s.db) : (Transactor.publish s).Named i := by
  intro key hkey
  rcases mem_append.mp hkey with hkey | hkey
  · obtain ⟨d, hd, rfl⟩ := mem_map.mp hkey
    exact ⟨d, rfl, h.2 d (mem_recorded_of_mem_datomsAt h.1 hd)⟩
  · obtain ⟨d, hd, rfl⟩ := mem_map.mp hkey
    exact ⟨d, rfl, h.2 d (mem_recorded_of_mem_history hd)⟩

/-- What is decoded from published keys is named, whatever the transaction ids. -/
theorem Published.Named.decoded (h : root.Named i) {keys : List Bytes}
    (hkeys : ∀ key ∈ keys, key ∈ root.currentKeys ++ root.historyKeys) {ds : List Datom}
    (hds : keys.mapM (Datom.fromKey .eavt) = .ok ds) : ∀ d ∈ ds, NamedIn i d.v := by
  intro d hd
  obtain ⟨key, hkey, hdecode⟩ := mem_of_mapM_ok hds d hd
  obtain ⟨d', rfl, hv⟩ := h key (hkeys key hkey)
  rw [Datom.fromKey_key_eq] at hdecode
  cases hdecode
  exact hv

theorem stored_loadHistorySnapshot (h : root.Named i) {schema : Schema} {idents : Idents} {snapshot : Db}
    (hload : loadHistorySnapshot root schema idents interner = .ok snapshot) : Stored i snapshot := by
  unfold loadHistorySnapshot at hload
  simp only [bind_eq_ok, pure_eq_ok] at hload
  obtain ⟨current, hcurrent, history, hhistory, rfl⟩ := hload
  refine ⟨rfl, fun d hd => ?_⟩
  rcases mem_append.mp hd with hd | hd
  · exact h.decoded (fun key hkey => mem_append_right _ hkey) hhistory d hd
  · exact h.decoded (fun key hkey => mem_append_left _ hkey) hcurrent d (mem_filter.mp hd).1

theorem stored_recover {naming : Naming} {root : Option Published}
    (hroot : ∀ r, root = some r → r.Named i) (hlog : ∀ d ∈ logDatoms log, NamedIn i d.v) :
    Stored i (Hosted.recover naming root log).db := by
  unfold Hosted.recover
  split
  · rename_i root
    unfold recoverTransactor
    split
    · rename_i snapshot hload
      refine (stored_loadHistorySnapshot (hroot root rfl) hload).replayLog fun d hd => ?_
      obtain ⟨r, hr, hd⟩ := mem_flatMap.mp hd
      exact hlog d (mem_flatMap.mpr ⟨r, (mem_filter.mp hr).1, hd⟩)
    · exact (stored_creation i _ _ _).replayLog hlog
  · exact (stored_creation i _ _ _).replayLog hlog

/-! ## Runs that publish their names -/

/-- A flush that interns a new name ends with an accepted request that interns one, and its
    metadata publication succeeds. -/
def Publishes (c : Config) (h : Hosted) : Event → Prop
  | .flush requests nowMs fate =>
    let b := (prepareBatch c nowMs requests h.batchCursor).1
    b.interner = h.naming.interner ∨ (b.namingChanged = true ∧ fate ≠ .refused)
  | _ => True

/-- The published names extend the cached ones, and those name every stored keyword. -/
structure Hosted.Named (h : Hosted) : Prop where
  metaRoot : h.naming.interner.Extends h.metaRoot.interner
  log : ∀ d ∈ logDatoms h.log, NamedIn h.naming.interner d.v
  live : Stored h.naming.interner h.live.db
  root : ∀ r, h.root = some r → r.Named h.naming.interner

/-- The cached names only grow, and everything stays named. -/
def Hosted.NamedAfter (h h' : Hosted) : Prop := h'.Named ∧ h.naming.interner.Extends h'.naming.interner

theorem Hosted.Named.stays (hn : h.Named) : h.NamedAfter h := ⟨hn, KeywordInterner.Extends.refl _⟩

theorem Hosted.Named.appendOne (hn : h.Named) {cursor : State}
    (minted : Option KeywordInterner) (hcursor : Stored (minted.getD h.naming.interner) cursor.db)
    (hrecord : ∀ d ∈ record.datoms, NamedIn (minted.getD h.naming.interner) d.v)
    (hext : h.naming.interner.Extends (minted.getD h.naming.interner)) (fate : Fate) :
    h.NamedAfter (h.appendOne cursor record minted fate) := by
  have hlog : ∀ {j}, h.naming.interner.Extends j → (∀ d ∈ record.datoms, NamedIn j d.v) →
      ∀ d ∈ logDatoms (h.log ++ [record]), NamedIn j d.v := by
    intro j hj hr d hd
    rw [logDatoms_append] at hd
    rcases mem_append.mp hd with hd | hd
    · exact (hn.log d hd).mono hj
    · exact hr d (by simpa [logDatoms] using hd)
  cases minted with
  | none =>
    cases fate with
    | refused => exact hn.stays
    | published => exact hn.stays
    | appended => exact ⟨⟨hn.metaRoot, hlog hext hrecord, hcursor, hn.root⟩, hext⟩
  | some j =>
    cases fate with
    | refused => exact hn.stays
    | published => exact ⟨⟨hext, hn.log, hn.live, hn.root⟩, KeywordInterner.Extends.refl _⟩
    | appended =>
      exact ⟨⟨KeywordInterner.Extends.refl _, hlog hext hrecord, hcursor.withNaming _ _,
        fun r hr => (hn.root r hr).mono hext⟩, hext⟩

theorem Hosted.Named.commitBatch (hn : h.Named) (hb : b.Named h.naming.interner)
    (hprepared : b.namingChanged = true → b.prepared ≠ []) {fate : Fate}
    (hp : b.interner = h.naming.interner ∨ (b.namingChanged = true ∧ fate ≠ .refused)) :
    h.NamedAfter (h.commitBatch b fate) := by
  have hlog : ∀ d ∈ logDatoms h.log, NamedIn b.interner d.v := fun d hd => (hn.log d hd).mono hb.grows
  have hroot : ∀ r, h.root = some r → r.Named b.interner := fun r hr => (hn.root r hr).mono hb.grows
  have happend : ∀ d ∈ logDatoms (h.log ++ b.prepared), NamedIn b.interner d.v := by
    intro d hd
    rw [logDatoms_append] at hd
    exact (mem_append.mp hd).elim (hlog d) (hb.prepared d)
  have hmeta : b.interner = h.naming.interner → b.interner.Extends h.metaRoot.interner := fun heq => heq ▸ hn.metaRoot
  unfold Hosted.commitBatch
  dsimp only
  split
  · rename_i hempty
    rcases hp with heq | ⟨hchanged, -⟩
    · exact ⟨⟨hmeta heq, hlog, hn.live.mono hb.grows, hroot⟩, hb.grows⟩
    · exact absurd (isEmpty_iff.mp hempty) (hprepared hchanged)
  · split
    · cases fate with
      | refused =>
        rcases hp with heq | ⟨-, hne⟩
        · exact ⟨⟨hmeta heq, hlog, hn.live.mono hb.grows, hroot⟩, hb.grows⟩
        · exact absurd rfl hne
      | published => exact ⟨⟨KeywordInterner.Extends.refl _, hlog, hn.live.mono hb.grows, hroot⟩, hb.grows⟩
      | appended => exact ⟨⟨KeywordInterner.Extends.refl _, happend, hb.cursor.withNaming _ _, hroot⟩, hb.grows⟩
    · rename_i hchanged
      have heq : b.interner = h.naming.interner := hp.resolve_right fun hc => hchanged hc.1
      cases fate with
      | refused => exact ⟨⟨hmeta heq, hlog, hn.live.mono hb.grows, hroot⟩, hb.grows⟩
      | published => exact ⟨⟨hmeta heq, hlog, hn.live.mono hb.grows, hroot⟩, hb.grows⟩
      | appended => exact ⟨⟨hmeta heq, happend, hb.cursor, hroot⟩, hb.grows⟩

theorem Hosted.Named.compose (hn : h.Named)
    (hext : h.naming.interner.Extends interner) (hitems : ItemsNamed interner items) (nowMs : Int64) (fate : Fate) :
    h.NamedAfter (h.compose items interner nowMs fate) := by
  unfold Hosted.compose
  split
  · exact hn.stays
  · rename_i record tempids cursor hprep
    obtain ⟨hcursor, hrecord⟩ := ((hn.live.mono hext).withNaming _ interner).transact
      (s := h.live.internNaming interner) hitems (prepareTransaction_ok hprep)
    by_cases hlen : h.naming.interner.len < interner.len
    · rw [if_pos hlen]
      exact hn.appendOne (some interner) hcursor hrecord hext fate
    · obtain rfl := hext.eq_of_len hlen
      rw [if_neg hlen]
      exact hn.appendOne none hcursor hrecord hext fate

theorem Hosted.Named.report (hn : h.Named)
    (hitems : ItemsNamed KeywordInterner.empty items) (nowMs : Int64) (fate : Fate) :
    h.NamedAfter (h.report items nowMs fate) := by
  unfold Hosted.report
  split
  · exact hn.stays
  · rename_i record tempids cursor hprep
    obtain ⟨hcursor, hrecord⟩ := hn.live.transact (hitems.mono ( nil_prefix)) (prepareTransaction_ok hprep)
    exact hn.appendOne none hcursor hrecord (KeywordInterner.Extends.refl _) fate

theorem Hosted.Named.alterSchema (hn : h.Named) {datoms : List Datom}
    (hext : h.naming.interner.Extends interner) (hdatoms : ∀ d ∈ datoms, NamedIn interner d.v) (nowMs : Int64)
    (fate : Fate) : h.NamedAfter (h.alterSchema datoms interner nowMs fate) := by
  unfold Hosted.alterSchema
  split
  · exact hn.stays
  · rename_i record cursor hprep
    obtain ⟨hdb, -, -, -, hseal⟩ := prepareDatoms_ok hprep
    have hrecord : ∀ d ∈ record.datoms, NamedIn interner d.v := by
      rcases (sealTxInstant_ok hseal).1 with heq | heq
      · exact heq ▸ hdatoms
      · intro d hd
        rw [heq] at hd
        rcases mem_append.mp hd with hd | hd
        · exact hdatoms d hd
        · rw [mem_singleton.mp hd]
          exact nofun
    have hcursor : Stored interner cursor.db := by
      rw [hdb]
      exact ((hn.live.mono hext).withNaming _ interner).applyRecord hrecord
    exact hn.appendOne (some interner) hcursor hrecord hext fate

theorem Hosted.Named.after (hn : h.Named) {e : Event} (hc : e.Composed h)
    (hp : Publishes c h e) : h.NamedAfter (h.after c e) := by
  cases e with
  | flush requests nowMs fate =>
    refine hn.commitBatch ?_ ?_ hp
    · exact prepareBatch_inv c nowMs (fun b b' hb hs => hb.stages hs) requests
        (b := h.batchCursor) ⟨KeywordInterner.Extends.refl _, hn.live, nofun⟩
    · refine prepareBatch_inv c nowMs (I := fun b => b.namingChanged = true → b.prepared ≠ []) (fun b b' hb hs => ?_)
        requests (b := h.batchCursor) nofun
      cases hs with
      | refused => exact hb
      | accepted => simp
  | compose items interner nowMs fate => exact hn.compose hc.1 hc.2 nowMs fate
  | report items nowMs fate => exact hn.report hc nowMs fate
  | alter datoms interner nowMs fate => exact hn.alterSchema hc.1 (fun d hd => (hc.2 d hd).1) nowMs fate
  | publish =>
    refine ⟨⟨hn.metaRoot, hn.log, hn.live, fun r hr => ?_⟩, KeywordInterner.Extends.refl _⟩
    cases hr
    exact hn.live.publish
  | reopen =>
    have hlog : ∀ d ∈ logDatoms h.log, NamedIn h.metaRoot.interner d.v := fun d hd => (hn.log d hd).mono hn.metaRoot
    have hroot : ∀ r, h.root = some r → r.Named h.metaRoot.interner := fun r hr => (hn.root r hr).mono hn.metaRoot
    exact ⟨⟨KeywordInterner.Extends.refl _, hlog, stored_recover hroot hlog, hroot⟩, hn.metaRoot⟩

theorem Hosted.Reaches.named {h h' : Hosted} (hr : h.Reaches c (Publishes c) h') (hn : h.Named) :
    h.NamedAfter h' := by
  induction hr with
  | refl => exact hn.stays
  | step _ hc hp ih =>
    obtain ⟨hn', hext⟩ := ih.1.after hc hp
    exact ⟨hn', ih.2.trans hext⟩

namespace UnpublishedNameExample

def kind : AttrId := Bootstrap.dbAttr 100

/-- A database with one keyword attribute, `:item/kind`. -/
def start : Hosted :=
  Hosted.create (Schema.empty.insert (Bootstrap.simple kind .keyword)) (Idents.empty.insert ⟨some "item", "kind"⟩ kind)

def config : Config :=
  { expand := fun _ forms => .ok forms, maxCommitBatch := 8, maxCommitBatchBytes := 4096
    framedSize := fun r => r.datoms.length }

/-- `[:db/add "x" :item/… v]`. -/
def add (name : String) (v : Edn) : Edn :=
  .vector [.keyword ⟨some "db", "add"⟩, .str "x", .keyword ⟨some "item", name⟩, v]

def one : Keyword := ⟨some "kind", "one"⟩

def two : Keyword := ⟨some "kind", "two"⟩

/-- Interns `:kind/one`; its second form names an attribute there is none of. -/
def refusedRequest : Request := { forms := [add "kind" (.keyword one), add "size" (.long 1)], expectedBasisT := none }

def request (k : Keyword) : Request := { forms := [add "kind" (.keyword k)], expectedBasisT := none }

def refused : Hosted := start.flushCommitBatch config [refusedRequest] 5 .appended

def stored : Hosted := refused.flushCommitBatch config [request one] 6 .appended

def later : Hosted := stored.reopen.flushCommitBatch config [request two] 7 .appended

def published : Hosted := start.flushCommitBatch config [request one] 5 .appended

end UnpublishedNameExample

end Corium.Transactor
