/-
  Corium.Transactor.Recovery — recovering from a published snapshot against
  replaying the log.

  The snapshot's history stream is folded in key order, and within one
  transaction a fact's retraction sorts before its assertion. A transaction that
  asserts a fact and then retracts it is therefore read back the other way
  round: the fact is live again. `snapshot_recovery_iff` says that this is the
  only way the two recoveries differ.
-/

import Corium.Transactor.Log

namespace Corium.Transactor

open Corium.Core Corium.Lib Corium.Tx Bootstrap List

/-! ## The property -/

def keepsHistory (schema : Schema) (d : Datom) : Bool := !noHistoryOf schema d.a

variable {d : Datom} {log : List TxRecord}

theorem keepsHistory_iff {schema : Schema} :
    keepsHistory schema d = true ↔ noHistoryOf schema d.fact.2.1 = false := by
  unfold keepsHistory
  rw [Bool.not_eq_true']
  rfl

/-- The same current datoms in every order and, of the attributes that keep
    history, the same past. -/
structure SameViews (schema : Schema) (db db' : Db) : Prop where
  current : ∀ order, db.datomsAt order = db'.datomsAt order
  asOf : ∀ t order, ((db.asOf t).datomsAt order).filter (keepsHistory schema) =
    ((db'.asOf t).datomsAt order).filter (keepsHistory schema)
  since : ∀ t order, ((db.since t).datomsAt order).filter (keepsHistory schema) =
    ((db'.since t).datomsAt order).filter (keepsHistory schema)
  history : ∀ order, (db.history.datomsAt order).filter (keepsHistory schema) =
    (db'.history.datomsAt order).filter (keepsHistory schema)

/-- A record that ends by retracting a fact has not asserted it before. -/
def RetractsOnlyOld (schema : Schema) (record : TxRecord) : Prop :=
  ∀ e ∈ record.datoms, keepsHistory schema e = true → lastDatom record.datoms e.fact = some e → e.added = false →
    ∀ x ∈ record.datoms, x.fact = e.fact → x.added = false

/-! ## Transaction ids sort by time -/

variable {r : TxRecord} {db db' : Db} {datoms : List Datom} {s : State} {interner : KeywordInterner} {idents : Idents}

theorem SoundRecord.raw_lt (h : SoundRecord r) (hd : d ∈ r.datoms) : d.tx.raw.toNat < 2 ^ 63 := by
  rw [h.own d hd, txId_raw]
  omega

theorem SoundLog.raw_lt (h : SoundLog log) (hd : d ∈ logDatoms log) :
    d.tx.raw.toNat < 2 ^ 63 := by
  obtain ⟨r, hr, hd⟩ := mem_flatMap.mp hd
  exact (h.records r hr).raw_lt hd

theorem SoundLog.t_mem (h : SoundLog log) (hr : r ∈ log) : 1 ≤ r.t ∧ r.t ≤ log.length := by
  have : r.t ∈ log.map (·.t) := mem_map_of_mem hr
  rw [h.numbered, mem_range'_1] at this
  omega

theorem SoundLog.pairwise (h : SoundLog log) : log.Pairwise fun r r' => r.t < r'.t := by
  have := pairwise_lt_range' (s := 1) (n := log.length)
  rw [← h.numbered, pairwise_map] at this
  exact this

theorem SoundLog.left {pre post : List TxRecord} (h : SoundLog (pre ++ post)) : SoundLog pre := by
  refine ⟨fun r hr => h.records r (mem_append_left _ hr), ?_⟩
  have := congrArg (List.take pre.length) h.numbered
  rw [map_append, length_append, take_left' (by simp)] at this
  rw [this]
  simp

/-- The records after a prefix of a log are those past its basis. -/
theorem txRange_append {pre post : List TxRecord} (h : SoundLog (pre ++ post)) :
    txRange (pre ++ post) (pre.length + 1) = post := by
  have hpre : ∀ r ∈ pre, ¬ pre.length + 1 ≤ r.t := by
    intro r hr
    have := h.left.t_mem hr
    omega
  have hpost : ∀ r ∈ post, pre.length + 1 ≤ r.t := by
    intro r hr
    obtain ⟨i, hi, rfl⟩ := getElem_of_mem hr
    have hn := h.numbered
    have hget : (List.map (·.t) (pre ++ post))[pre.length + i]? = some post[i].t := by simp [hi]
    rw [hn, List.getElem?_range' (by simp; omega)] at hget
    simp at hget
    omega
  unfold txRange
  rw [filter_append, filter_eq_nil_iff.mpr (by simpa using hpre), nil_append]
  exact filter_eq_self.mpr (by simpa using hpost)

/-! ## The published history, read back in key order -/

/-- Of two datoms on one fact, the one recorded in a later transaction sorts last, and of
    one transaction an assertion. -/
theorem not_key_lt {order : IndexOrder} {d d' : Datom} (hf : d.fact = d'.fact) (hd : d.tx.raw.toNat < 2 ^ 63)
    (hd' : d'.tx.raw.toNat < 2 ^ 63)
    (h : d'.tx.raw.toNat < d.tx.raw.toNat ∨ d'.tx = d.tx ∧ (d'.added = true → d.added = true)) :
    ¬ compare (d.key order) (d'.key order) = .lt := by
  rw [Datom.compare_key_same_fact order hf hd hd', Nat.compare_eq_lt]
  have hle : d'.added.toNat ≤ 1 := by cases d'.added <;> decide
  rcases h with h | ⟨htx, hadded⟩
  · omega
  · rw [htx]
    have : d'.added.toNat ≤ d.added.toNat := by
      cases hd1 : d'.added <;> cases hd2 : d.added <;> simp_all
    omega

theorem logDatoms_filter (h : ∀ r ∈ log, SoundRecord r) (q : TxId → Bool) :
    (logDatoms log).filter (fun d => q d.tx) = logDatoms (log.filter fun r => q (txId r.t)) := by
  induction log with
  | nil => rfl
  | cons r log ih =>
    have hr : ∀ d ∈ r.datoms, q d.tx = q (txId r.t) := fun d hd => by
      rw [(h r mem_cons_self).own d hd]
    have ih := ih fun x hx => h x (mem_cons_of_mem _ hx)
    have hcons : logDatoms (r :: log) = r.datoms ++ logDatoms log := rfl
    rw [hcons, filter_append, ih, filter_cons]
    cases hq : q (txId r.t) with
    | true =>
      rw [filter_eq_self.mpr fun d hd => (hr d hd).trans hq]
      rfl
    | false =>
      rw [filter_eq_nil_iff.mpr fun d hd => by rw [hr d hd, hq]; simp]
      rfl

section Published

variable {schema : Schema} {pre : List TxRecord} (hpre : SoundLog pre) (hlen : pre.length < sequenceLimit)

include hpre hlen

theorem raw_lt_of_earlier {r r' : TxRecord} (hr : r ∈ pre) (hr' : r' ∈ pre) (h : r.t < r'.t) {d d' : Datom}
    (hd : d ∈ r.datoms) (hd' : d' ∈ r'.datoms) : d.tx.raw.toNat < d'.tx.raw.toNat := by
  rw [(hpre.records r hr).own d hd, (hpre.records r' hr').own d' hd', txId_raw, txId_raw]
  have h1 := hpre.t_mem hr
  have h2 := hpre.t_mem hr'
  unfold sequenceLimit at hlen
  omega

/-- Where no record retracts what it asserted, the history read in key order ends
    each retained fact with the datom the log ends it with. -/
theorem lastDatom_historyValues (hclean : ∀ r ∈ pre, RetractsOnlyOld schema r) (q : TxId → Bool) {f : Fact}
    (hf : noHistoryOf schema f.2.1 = false) :
    lastDatom ((indexValues (historyIndex schema .eavt (logDatoms pre))).filter fun d => q d.tx) f =
      lastDatom ((logDatoms pre).filter fun d => q d.tx) f := by
  have hb : ∀ d ∈ logDatoms pre, d.tx.raw.toNat < 2 ^ 63 := fun d hd => hpre.raw_lt hd
  have hmem : ∀ d : Datom, d.fact = f →
      (d ∈ (indexValues (historyIndex schema .eavt (logDatoms pre))).filter (fun d => q d.tx) ↔
        d ∈ (logDatoms pre).filter fun d => q d.tx) := by
    intro d hd
    have hr : noHistoryOf schema d.a = false := by rw [show d.a = f.2.1 by rw [← hd]; rfl]; exact hf
    rw [mem_filter, mem_filter, mem_historyValues schema .eavt hb]
    exact ⟨fun h => ⟨h.1.1, h.2⟩, fun h => ⟨⟨h.1, hr, rfl⟩, h.2⟩⟩
  cases hl : lastDatom ((logDatoms pre).filter fun d => q d.tx) f with
  | none =>
    have hnone := lastOn_eq_none_iff.mp hl
    exact lastOn_eq_none_iff.mpr fun d hd hk => hnone d ((hmem d hk).mp hd) hk
  | some e =>
    have hk : e.fact = f := key_of_lastOn hl
    have he := mem_of_lastOn hl
    refine lastOn_of_pairwise ((historyValues_pairwise schema .eavt hb).filter _) ((hmem e hk).mpr he) hk ?_
    intro x hx hxk
    have hx := (hmem x hxk).mp hx
    -- the record that decides the fact, and the one `x` is in
    rw [logDatoms_filter hpre.records] at hl hx
    obtain ⟨l, r, rest, hsplit, hr, hrest⟩ := lastOn_flatMap hl
    obtain ⟨r', hr', hxr⟩ := mem_flatMap.mp hx
    have hrmem : r ∈ pre := (mem_filter.mp (by rw [hsplit]; simp : r ∈ pre.filter _)).1
    have hrmem' : r' ∈ pre := (mem_filter.mp hr').1
    have her : e ∈ r.datoms := mem_of_lastOn hr
    have hsorted := hpre.pairwise.filter fun r => q (txId r.t)
    rw [hsplit] at hr' hsorted
    refine not_key_lt (hk.trans hxk.symm) ((hpre.records r hrmem).raw_lt her) ((hpre.records r' hrmem').raw_lt hxr) ?_
    rcases mem_append.mp hr' with h | h
    · have ht : r'.t < r.t := (pairwise_append.mp hsorted).2.2 r' h r mem_cons_self
      exact Or.inl (raw_lt_of_earlier hpre hlen hrmem' hrmem ht hxr her)
    · rcases mem_cons.mp h with rfl | h
      · right
        refine ⟨by rw [(hpre.records r' hrmem).own x hxr, (hpre.records r' hrmem).own e her], fun hxa => ?_⟩
        by_contra hea
        have hkeep : keepsHistory schema e = true := keepsHistory_iff.mpr (by rw [hk]; exact hf)
        have := hclean r' hrmem e her hkeep (by rw [hk]; exact hr) (by simpa using hea) x hxr (hxk.trans hk.symm)
        rw [hxa] at this
        cases this
      · exact absurd hxk (hrest r' h x hxr)

end Published

/-! ## Values that show the same -/

theorem live_eq_of_liveDatom (hv : db.view = .current) (hv' : db'.view = .current)
    (h : ∀ f, liveDatom db.recorded f = liveDatom db'.recorded f) : foldLive db.recorded = foldLive db'.recorded ∧
      db.live = db'.live := by
  have heq := foldLive_congr h
  refine ⟨heq, ?_⟩
  unfold Db.live
  rw [hv, hv']
  exact heq

theorem index_congr (hview : db.view = db'.view) (hs : db.schema = db'.schema) (hv : db.ShowsLive)
    (h : db.live = db'.live) (order : IndexOrder) : db.index order = db'.index order := by
  rw [Db.index_of_showsLive hv, Db.index_of_showsLive (by rw [Db.ShowsLive, ← hview]; exact hv), hs, h]

/-- The retained part of an as-of view, read off the recorded datoms. -/
theorem asOf_filter_some (schema : Schema) (t : Nat) (order : IndexOrder) {k : Bytes} :
    (((db.asOf t).index order).filter fun _ d => keepsHistory schema d)[k]? = some d ↔
      keepsHistory schema d = true ∧ k = factComponents order d.fact ∧ covered db.schema order d = true ∧
        liveDatom (db.recorded.filter fun d => d.tx.sequence ≤ t) d.fact = some d := by
  have hv : (db.asOf t).ShowsLive := by
    intro h
    cases h
  rw [Std.ExtTreeMap.getElem?_filter', Option.filter_eq_some_iff, Db.index_some hv]
  have hlive : (db.asOf t).live = foldLive (db.recorded.filter fun d => d.tx.sequence ≤ t) := rfl
  rw [hlive, mem_foldLive]
  exact ⟨fun ⟨⟨hk, hc, hl⟩, hr⟩ => ⟨hr, hk, hc, hl⟩, fun ⟨hr, hk, hc, hl⟩ => ⟨⟨hk, hc, hl⟩, hr⟩⟩

theorem mem_asOf_filter {schema : Schema} {t : Nat} : d ∈ ((db.asOf t).datomsAt .eavt).filter (keepsHistory schema) ↔
      keepsHistory schema d = true ∧ liveDatom (db.recorded.filter fun d => d.tx.sequence ≤ t) d.fact = some d := by
  unfold Db.datomsAt
  rw [← indexValues_filter, mem_indexValues]
  constructor
  · intro ⟨k, hk⟩
    obtain ⟨hr, -, -, hl⟩ := (asOf_filter_some schema t .eavt).mp hk
    exact ⟨hr, hl⟩
  · intro ⟨hr, hl⟩
    exact ⟨_, (asOf_filter_some schema t .eavt).mpr ⟨hr, rfl, rfl, hl⟩⟩

theorem sameViews_of {schema : Schema} (hv : db.view = .current) (hv' : db'.view = .current)
    (hs : db.schema = schema) (hs' : db'.schema = schema)
    (hlive : ∀ f, liveDatom db.recorded f = liveDatom db'.recorded f)
    (hasOf : ∀ t f, noHistoryOf schema f.2.1 = false → liveDatom (db.recorded.filter fun d => d.tx.sequence ≤ t) f =
        liveDatom (db'.recorded.filter fun d => d.tx.sequence ≤ t) f)
    (hb : ∀ d ∈ db.recorded, d.tx.raw.toNat < 2 ^ 63) (hb' : ∀ d ∈ db'.recorded, d.tx.raw.toNat < 2 ^ 63)
    (hmem : ∀ d, noHistoryOf schema d.a = false → (d ∈ db.recorded ↔ d ∈ db'.recorded)) :
    SameViews schema db db' := by
  obtain ⟨hfold, hl⟩ := live_eq_of_liveDatom hv hv' hlive
  have hss : db.schema = db'.schema := hs.trans hs'.symm
  refine ⟨fun order => ?_, fun t order => ?_, fun t order => ?_, fun order => ?_⟩
  · unfold Db.datomsAt
    rw [index_congr (hv.trans hv'.symm) hss (Db.showsLive_of_current hv) hl]
  · unfold Db.datomsAt
    rw [← indexValues_filter, ← indexValues_filter]
    congr 1
    apply Std.ExtTreeMap.ext_getElem?
    intro k
    apply Option.ext
    intro d
    rw [asOf_filter_some, asOf_filter_some, hss]
    constructor <;>
    · intro ⟨hr, hk, hc, hld⟩
      exact ⟨hr, hk, hc, by simpa only [hasOf t d.fact (keepsHistory_iff.mp hr)] using hld⟩
  · have hsince : (db.since t).live = (db'.since t).live := by
      show (foldLive db.recorded).filter _ = (foldLive db'.recorded).filter _
      rw [hfold]
    have hshows : (db.since t).ShowsLive := by
      intro h
      cases h
    have hindex : (db.since t).index order = (db'.since t).index order :=
      index_congr (show (db.since t).view = (db'.since t).view from rfl) hss hshows hsince order
    unfold Db.datomsAt
    rw [hindex]
  · unfold Db.datomsAt
    have hindex : db.history.index order = db'.history.index order := by
      show historyIndex db.schema order db.recorded = historyIndex db'.schema order db'.recorded
      apply Std.ExtTreeMap.ext_getElem?
      intro k
      apply Option.ext
      intro d
      rw [historyIndex_some _ _ hb, historyIndex_some _ _ hb', hs, hs']
      constructor <;>
      · intro ⟨hk, hd, hr, hc⟩
        exact ⟨hk, by simpa only [hmem d hr] using hd, hr, hc⟩
    rw [hindex]

/-! ## The recovered value -/

theorem mapM_fromKey_key (order : IndexOrder) {ds : List Datom} (hb : ∀ d ∈ ds, d.tx.raw.toNat < 2 ^ 63) :
    (ds.map (·.key order)).mapM (Datom.fromKey order) = .ok ds := by
  induction ds with
  | nil => rfl
  | cons d ds ih =>
    rw [map_cons, mapM_cons, Datom.fromKey_key order (hb d mem_cons_self),
      ih fun x hx => hb x (mem_cons_of_mem _ hx)]
    rfl

/-- What a snapshot of `datoms` records: retained history in key order, then the
    live values of the attributes that keep none. -/
def snapshotDatoms (schema : Schema) (datoms : List Datom) : List Datom :=
  indexValues (historyIndex schema .eavt datoms) ++ (indexValues (foldLive datoms)).filter fun d => noHistoryOf schema d.a

theorem mem_snapshotDatoms {schema : Schema} (hb : ∀ d ∈ datoms, d.tx.raw.toNat < 2 ^ 63)
    : d ∈ snapshotDatoms schema datoms ↔
      d ∈ datoms ∧ noHistoryOf schema d.a = false ∨
        liveDatom datoms d.fact = some d ∧ noHistoryOf schema d.a = true := by
  unfold snapshotDatoms
  rw [mem_append, mem_historyValues schema .eavt hb, mem_filter, mem_foldLive]
  simp [covered]

theorem mem_of_mem_snapshotDatoms {schema : Schema}
    (hb : ∀ d ∈ datoms, d.tx.raw.toNat < 2 ^ 63) (h : d ∈ snapshotDatoms schema datoms) : d ∈ datoms := by
  rcases (mem_snapshotDatoms hb).mp h with h | h
  · exact h.1
  · exact (liveDatom_some h.1).2.2

/-- A publication loads, and its snapshot records `snapshotDatoms`. -/
theorem loadHistorySnapshot_of_publish {schema : Schema} (hview : s.db.view = .current)
    (hschema : s.db.schema = installSchema schema) (hb : ∀ d ∈ s.db.recorded, d.tx.raw.toNat < 2 ^ 63)
    (idents : Idents) (interner : KeywordInterner) :
    ∃ snapshot, loadHistorySnapshot (publish s) schema idents interner = .ok snapshot ∧
      snapshot.recorded = snapshotDatoms (installSchema schema) s.db.recorded ∧
      snapshot.schema = installSchema schema ∧ snapshot.view = .current ∧
      snapshot.basisT = s.db.basisT := by
  have hhistory : s.db.history.datomsAt .eavt =
      indexValues (historyIndex (installSchema schema) .eavt s.db.recorded) := by
    show indexValues (historyIndex s.db.schema .eavt s.db.recorded) = _
    rw [hschema]
  have hcurrent : s.db.datomsAt .eavt = indexValues (foldLive s.db.recorded) := by
    unfold Db.datomsAt
    rw [Db.index_of_showsLive (Db.showsLive_of_current hview)]
    show indexValues s.db.live = _
    unfold Db.live
    rw [hview]
  refine ⟨Db.fromHistorySnapshotWithNextUser s.db.basisT s.nextUser schema idents interner
    (s.db.history.datomsAt .eavt) (s.db.datomsAt .eavt), ?_, ?_, rfl, rfl, rfl⟩
  · unfold loadHistorySnapshot publish
    rw [mapM_fromKey_key .eavt, mapM_fromKey_key .eavt]
    · rfl
    · intro d hd
      rw [hhistory, mem_historyValues _ _ hb] at hd
      exact hb d hd.1
    · intro d hd
      rw [hcurrent, mem_foldLive] at hd
      exact hb d (liveDatom_some hd).2.2
  · rw [hhistory, hcurrent]
    rfl

theorem loadHistorySnapshot_publish {schema : Schema}
    {pre : List TxRecord} (h : Stands (creation schema idents interner) pre s) (idents' : Idents)
    (interner' : KeywordInterner) :
    ∃ snapshot, loadHistorySnapshot (publish s) schema idents' interner' = .ok snapshot ∧
      snapshot.recorded = snapshotDatoms (installSchema schema) (logDatoms pre) ∧
      snapshot.schema = installSchema schema ∧ snapshot.view = .current ∧
      snapshot.basisT = pre.length := by
  have hrec : s.db.recorded = logDatoms pre := by rw [h.db.recorded, creation_recorded, nil_append]
  have hschema : s.db.schema = installSchema schema := by rw [h.db.schema, creation_schema]
  have hbasis : s.db.basisT = pre.length := h.basisT.trans (Nat.zero_add _)
  rw [← hrec, ← hbasis]
  exact loadHistorySnapshot_of_publish h.db.view hschema (fun d hd => h.sound.raw_lt (hrec ▸ hd)) idents' interner'

/-! ## When the recoveries agree -/

section Agreement

variable {schema : Schema} {pre post : List TxRecord} (hlog : SoundLog (pre ++ post))
  (hlen : (pre ++ post).length < sequenceLimit)

include hlog hlen

variable {f : Fact} {db db' : Db} {r : TxRecord}

omit hlog hlen in
/-- Of a retained fact, every time slice of the snapshot is its history. -/
theorem lastDatom_snapshot_history (q : TxId → Bool) (hf : noHistoryOf schema f.2.1 = false) :
    lastDatom ((snapshotDatoms schema (logDatoms pre)).filter fun d => q d.tx) f =
      lastDatom ((indexValues (historyIndex schema .eavt (logDatoms pre))).filter fun d => q d.tx) f := by
  unfold snapshotDatoms lastDatom
  rw [filter_append, lastOn_append]
  -- the values kept without history are on other facts
  have hnone : lastOn Datom.fact f
      (((indexValues (foldLive (logDatoms pre))).filter fun d => noHistoryOf schema d.a).filter fun d => q d.tx) = none := by
    refine lastOn_eq_none_iff.mpr fun d hd hk => ?_
    have hd := (mem_filter.mp (mem_filter.mp hd).1).2
    rw [show d.a = f.2.1 by rw [← hk]; rfl, hf] at hd
    cases hd
  rw [hnone, Option.none_or]

theorem lastDatom_snapshot (hclean : ∀ r ∈ pre, RetractsOnlyOld schema r) (q : TxId → Bool)
    (hf : noHistoryOf schema f.2.1 = false) :
    lastDatom ((snapshotDatoms schema (logDatoms pre)).filter fun d => q d.tx) f =
      lastDatom ((logDatoms pre).filter fun d => q d.tx) f := by
  have hlen' : pre.length < sequenceLimit := by rw [length_append] at hlen; omega
  rw [lastDatom_snapshot_history q hf, lastDatom_historyValues hlog.left hlen' hclean q hf]

omit hlen in
/-- Of a fact whose attribute keeps no history, the snapshot has the live datom. -/
theorem liveDatom_snapshot_noHistory (hf : noHistoryOf schema f.2.1 = true) :
    liveDatom (snapshotDatoms schema (logDatoms pre)) f = liveDatom (logDatoms pre) f := by
  have hpre := hlog.left
  have hb : ∀ d ∈ logDatoms pre, d.tx.raw.toNat < 2 ^ 63 := fun d hd => hpre.raw_lt hd
  have hhist : lastDatom (indexValues (historyIndex schema .eavt (logDatoms pre))) f = none := by
    refine lastOn_eq_none_iff.mpr fun d hd hk => ?_
    have hd := ((mem_historyValues schema .eavt hb).mp hd).2.1
    rw [show d.a = f.2.1 by rw [← hk]; rfl, hf] at hd
    cases hd
  have hcur : lastDatom ((indexValues (foldLive (logDatoms pre))).filter fun d => noHistoryOf schema d.a) f =
      liveDatom (logDatoms pre) f := by
    unfold lastDatom
    rw [lastOn_filter_key (fun d : Datom => noHistoryOf schema d.a) true]
    · rw [if_pos rfl]
      apply Option.ext
      intro d
      rw [lastOn_of_injOn fun x hx y hy => fact_injOn_live (keyedByFact_foldLive _) hx hy, mem_foldLive]
      constructor
      · intro ⟨h, hk⟩
        rw [hk] at h
        exact h
      · intro h
        have hk := (liveDatom_some h).1
        exact ⟨by rw [hk]; exact h, hk⟩
    · intro d _ hk
      rw [show d.a = f.2.1 by rw [← hk]; rfl, hf]
  unfold snapshotDatoms
  rw [liveDatom_append, hcur]
  cases hl : liveDatom (logDatoms pre) f with
  | none => unfold liveDatom; rw [hhist]; rfl
  | some d =>
    show (if d.added then some d else none) = some d
    rw [if_pos (liveDatom_some hl).2.1]

theorem liveDatom_snapshot (hclean : ∀ r ∈ pre, RetractsOnlyOld schema r) (f : Fact) :
    liveDatom (snapshotDatoms schema (logDatoms pre)) f = liveDatom (logDatoms pre) f := by
  cases hf : noHistoryOf schema f.2.1 with
  | true => exact liveDatom_snapshot_noHistory hlog hf
  | false =>
    have := lastDatom_snapshot hlog hlen hclean (fun _ => true) hf
    simp only [filter_true] at this
    unfold liveDatom
    rw [this]

theorem sameViews_of_clean (hclean : ∀ r ∈ pre, RetractsOnlyOld schema r) (hv : db.view = .current)
    (hv' : db'.view = .current) (hs : db.schema = schema) (hs' : db'.schema = schema)
    (hr : db.recorded = snapshotDatoms schema (logDatoms pre) ++ logDatoms post)
    (hr' : db'.recorded = logDatoms pre ++ logDatoms post) : SameViews schema db db' := by
  have hbpre : ∀ d ∈ logDatoms pre, d.tx.raw.toNat < 2 ^ 63 := fun d hd => hlog.left.raw_lt hd
  have hb : ∀ d ∈ logDatoms pre ++ logDatoms post, d.tx.raw.toNat < 2 ^ 63 := fun d hd =>
    hlog.raw_lt (by rw [logDatoms_append]; exact hd)
  refine sameViews_of hv hv' hs hs' (fun f => ?_) (fun t f hf => ?_) (fun d hd => ?_) (fun d hd => ?_) fun d hd => ?_
  · rw [hr, hr', liveDatom_append, liveDatom_append, liveDatom_snapshot hlog hlen hclean]
  · have hlast := lastDatom_snapshot hlog hlen hclean (fun tx => decide (tx.sequence ≤ t)) hf
    rw [hr, hr', filter_append, filter_append, liveDatom_append, liveDatom_append]
    unfold liveDatom
    rw [hlast]
  · rw [hr] at hd
    rcases mem_append.mp hd with hd | hd
    · exact hbpre d (mem_of_mem_snapshotDatoms hbpre hd)
    · exact hb d (mem_append_right _ hd)
  · rw [hr'] at hd
    exact hb d hd
  · rw [hr, hr', mem_append, mem_append, mem_snapshotDatoms hbpre]
    simp [hd]

/-- A record that asserts a fact and then retracts it shows the fact live as of its own time. -/
theorem lastDatom_snapshot_asOf (hr : r ∈ pre) {x : Datom} (hx : x ∈ r.datoms) (hadded : x.added = true)
    (hf : noHistoryOf schema x.fact.2.1 = false) :
    lastDatom ((snapshotDatoms schema (logDatoms pre)).filter fun d => decide (d.tx.sequence ≤ r.t)) x.fact = some x := by
  have hpre := hlog.left
  have hlen' : pre.length < sequenceLimit := by rw [length_append] at hlen; omega
  have hb : ∀ d ∈ logDatoms pre, d.tx.raw.toNat < 2 ^ 63 := fun d hd => hpre.raw_lt hd
  have hrt := hpre.t_mem hr
  rw [lastDatom_snapshot_history (fun tx => decide (tx.sequence ≤ r.t)) hf]
  refine lastOn_of_pairwise ((historyValues_pairwise schema .eavt hb).filter _) ?_ rfl ?_
  · refine mem_filter.mpr ⟨(mem_historyValues schema .eavt hb).mpr ⟨mem_flatMap.mpr ⟨r, hr, hx⟩, hf, rfl⟩, ?_⟩
    rw [(hpre.records r hr).own x hx, txId_sequence (by omega)]
    simp
  · intro z hz hzf
    obtain ⟨hz, hzt⟩ := mem_filter.mp hz
    obtain ⟨r', hr', hzr⟩ := mem_flatMap.mp ((mem_historyValues schema .eavt hb).mp hz).1
    have hrt' := hpre.t_mem hr'
    rw [(hpre.records r' hr').own z hzr, txId_sequence (by omega), decide_eq_true_eq] at hzt
    refine not_key_lt hzf.symm ((hpre.records r hr).raw_lt hx) ((hpre.records r' hr').raw_lt hzr) ?_
    rcases Nat.lt_or_eq_of_le hzt with hlt | heq
    · exact Or.inl (raw_lt_of_earlier hpre hlen' hr' hr hlt hzr hx)
    · refine Or.inr ⟨?_, fun _ => hadded⟩
      rw [(hpre.records r' hr').own z hzr, (hpre.records r hr).own x hx, heq]

theorem lastDatom_log_asOf (hr : r ∈ pre) {e : Datom} (hlast : lastDatom r.datoms e.fact = some e) :
    lastDatom ((logDatoms pre ++ logDatoms post).filter fun d => decide (d.tx.sequence ≤ r.t)) e.fact = some e := by
  obtain ⟨l, rest, hsplit⟩ := append_of_mem hr
  have hsorted := hlog.pairwise
  have hfilter : (pre ++ post).filter (fun x => decide ((txId x.t).sequence ≤ r.t)) =
      l.filter (fun x => decide ((txId x.t).sequence ≤ r.t)) ++ [r] := by
    have hseq : ∀ x ∈ pre ++ post, (txId x.t).sequence = x.t := fun x hx =>
      txId_sequence (by have := hlog.t_mem hx; omega)
    have hlater : ∀ x ∈ rest ++ post, ¬ (txId x.t).sequence ≤ r.t := by
      intro x hx
      rw [hsplit, append_assoc, cons_append] at hsorted
      have := (pairwise_cons.mp (pairwise_append.mp hsorted).2.1).1 x hx
      rw [hseq x (by rw [hsplit]; rcases mem_append.mp hx with hx | hx <;> simp [hx])]
      omega
    have hnil : (rest ++ post).filter (fun x => decide ((txId x.t).sequence ≤ r.t)) = [] :=
      filter_eq_nil_iff.mpr (by simpa using hlater)
    have hself : (txId r.t).sequence ≤ r.t := Nat.le_of_eq (hseq r (by simp [hr]))
    rw [hsplit, append_assoc, filter_append, cons_append, filter_cons, if_pos (by simpa using hself),
      hnil]
  have hsound : ∀ r ∈ pre ++ post, SoundRecord r := hlog.records
  rw [← logDatoms_append, logDatoms_filter hsound fun tx => decide (tx.sequence ≤ r.t), hfilter, logDatoms_append]
  unfold lastDatom at hlast ⊢
  rw [lastOn_append, show logDatoms [r] = r.datoms by simp [logDatoms], hlast, Option.some_or]

theorem clean_of_sameViews (hr : db.recorded = snapshotDatoms schema (logDatoms pre) ++ logDatoms post)
    (hr' : db'.recorded = logDatoms pre ++ logDatoms post) (h : SameViews schema db db') :
    ∀ r ∈ pre, RetractsOnlyOld schema r := by
  intro r hrmem e he hkeep hlast hadded x hx hxe
  by_contra hxa
  have hxa : x.added = true := by simpa using hxa
  have hf : noHistoryOf schema x.fact.2.1 = false := by
    rw [hxe]
    exact keepsHistory_iff.mp hkeep
  have hrt := hlog.left.t_mem hrmem
  -- as of the record, the snapshot shows the assertion ...
  have hpost : (logDatoms post).filter (fun d => decide (d.tx.sequence ≤ r.t)) = [] := by
    refine filter_eq_nil_iff.mpr fun d hd => ?_
    obtain ⟨r', hr', hd⟩ := mem_flatMap.mp hd
    have hmem : r' ∈ pre ++ post := mem_append_right _ hr'
    have hlt : r.t < r'.t := (pairwise_append.mp hlog.pairwise).2.2 r hrmem r' hr'
    rw [(hlog.records r' hmem).own d hd, txId_sequence (by have := hlog.t_mem hmem; omega)]
    simpa using hlt
  have hleft : x ∈ ((db.asOf r.t).datomsAt .eavt).filter (keepsHistory schema) := by
    refine mem_asOf_filter.mpr ⟨keepsHistory_iff.mpr hf, ?_⟩
    rw [hr, filter_append, hpost, append_nil]
    unfold liveDatom
    rw [lastDatom_snapshot_asOf hlog hlen hrmem hx hxa hf]
    simp [hxa]
  -- ... and the log the retraction after it
  rw [h.asOf] at hleft
  have hright := (mem_asOf_filter.mp hleft).2
  unfold liveDatom at hright
  rw [hr', hxe, lastDatom_log_asOf hlog hlen hrmem hlast] at hright
  simp [hadded] at hright

end Agreement

/-- Recovery from a snapshot published after `pre`, with the log past it, against
    replay of the whole log: the same views exactly when no record up to the basis
    retracts, of an attribute that keeps history, a fact it asserted itself. -/
theorem snapshot_recovery_iff {schema : Schema} {idents idents' : Idents} {interner interner' : KeywordInterner}
    {pre post : List TxRecord} {published last : State}
    (hpub : Commits (creation schema idents interner) pre published)
    (hrun : Commits (creation schema idents interner) (pre ++ post) last)
    (hlen : (pre ++ post).length < sequenceLimit) :
    SameViews (installSchema schema)
        (recoverTransactor (publish published) schema idents' interner' (pre ++ post)).db
        (recoverFrom (creation schema idents interner) (pre ++ post)).db ↔
      ∀ r ∈ pre, RetractsOnlyOld (installSchema schema) r := by
  have hlog : SoundLog (pre ++ post) := (creation_stands hrun).sound
  obtain ⟨snapshot, hload, hrec, hschema, hview, hbasis⟩ :=
    loadHistorySnapshot_publish (creation_stands hpub) idents' interner'
  have hdb : (recoverTransactor (publish published) schema idents' interner' (pre ++ post)).db =
      replayLog snapshot post := by
    unfold recoverTransactor
    rw [hload]
    show replayLog snapshot (txRange (pre ++ post) (snapshot.basisT + 1)) = _
    rw [hbasis, txRange_append hlog]
  have hsnap := replayLog_stands (fun r hr => hlog.records r (mem_append_right _ hr)) snapshot
  have hfull := replayLog_stands hlog.records (creation schema idents interner)
  have hr : (replayLog snapshot post).recorded =
      snapshotDatoms (installSchema schema) (logDatoms pre) ++ logDatoms post := by
    rw [hsnap.recorded, hrec]
  have hr' : (replayLog (creation schema idents interner) (pre ++ post)).recorded = logDatoms pre ++ logDatoms post := by
    rw [hfull.recorded, creation_recorded, nil_append, logDatoms_append]
  rw [hdb]
  constructor
  · exact clean_of_sameViews hlog hlen hr hr'
  · intro hclean
    exact sameViews_of_clean hlog hlen hclean (hsnap.view.trans hview) hfull.view (hsnap.schema.trans hschema)
      (by rw [recoverFrom, hfull.schema, creation_schema]) hr hr'

/-! ## A value replaced in its own transaction -/

namespace ReplaceExample

def nameAttr : AttrId := dbAttr 100

def schema : Schema := Schema.empty.insert (simple nameAttr .str)

def base : Db := creation schema Idents.empty KeywordInterner.empty

def ada : EntityId := EntityId.new Partition.user.id 1000

/-- One transaction names a new entity twice. -/
def items : List TxItem := [.op (.add (.temp "ada") nameAttr (.str "a")), .op (.add (.temp "ada") nameAttr (.str "b"))]

def record : TxRecord :=
  { t := 1, txInstant := 5
    datoms := [assertion (txId 1) ada nameAttr (.str "a"), retraction (txId 1) ada nameAttr (.str "a"),
      assertion (txId 1) ada nameAttr (.str "b"), txInstantDatom 1 5] }

def tempids : Tempids := (∅ : Tempids).insert "ada" ada

theorem commits : Commits base [record] (recoverFrom base [record]) :=
  .commit .start (show transact (recoverFrom base []) items 5 = .ok (record, tempids, recoverFrom base [record]) by
    decide +kernel)

/-- The same, in two transactions. -/
def first : TxRecord :=
  { t := 1, txInstant := 5
    datoms := [assertion (txId 1) ada nameAttr (.str "a"), txInstantDatom 1 5] }

def second : TxRecord :=
  { t := 2, txInstant := 6
    datoms := [retraction (txId 2) ada nameAttr (.str "a"), assertion (txId 2) ada nameAttr (.str "b"),
      txInstantDatom 2 6] }

theorem commits_first : Commits base [first] (recoverFrom base [first]) :=
  .commit .start (show transact (recoverFrom base []) [.op (.add (.temp "ada") nameAttr (.str "a"))] 5 =
    .ok (first, tempids, recoverFrom base [first]) by decide +kernel)

theorem commits_second : Commits base ([first] ++ [second]) (recoverFrom base [first, second]) :=
  .commit commits_first (show transact (recoverFrom base [first]) [.op (.add (.id ada) nameAttr (.str "b"))] 5 =
    .ok (second, ∅, recoverFrom base [first, second]) by decide +kernel)

/-- Read back from the snapshot, the entity has both names. -/
theorem a_value_replaced_in_its_own_transaction_comes_back :
    Commits base [record] (recoverFrom base [record]) ∧ [record].length < sequenceLimit ∧
      ¬ SameViews (installSchema schema)
        (recoverTransactor (publish (recoverFrom base [record])) schema Idents.empty KeywordInterner.empty [record]).db
        (recoverFrom base [record]).db := by
  refine ⟨commits, by decide, fun h => ?_⟩
  exact absurd (h.current .eavt) (by decide +kernel)

theorem snapshot_recovery_iff_two_transactions :
    SameViews (installSchema schema)
      (recoverTransactor (publish (recoverFrom base [first])) schema Idents.empty KeywordInterner.empty
        ([first] ++ [second])).db
      (recoverFrom base ([first] ++ [second])).db :=
  (snapshot_recovery_iff commits_first commits_second (by decide)).mpr (by unfold RetractsOnlyOld; decide)

end ReplaceExample

end Corium.Transactor
