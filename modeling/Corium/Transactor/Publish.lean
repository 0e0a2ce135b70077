/-
  Corium.Transactor.Publish — building the covering-index segments of a
  publication (`plan_indexes`, `plan_history_indexes` of
  `crates/corium-transactor/src/lib.rs`).

  A pass that has the segments of an earlier basis folds in only the datoms
  recorded since, filtered by the schema as it is now; the segments it starts
  from were filtered by the schema as it was then. `incremental_publication_iff`
  says for which schema changes the result is still what a pass from scratch
  builds.
-/

import Corium.Index.Segment
import Corium.Transactor.Log

namespace Corium.Transactor

open Corium.Core Corium.Lib Corium.Index Bootstrap List

/-- What a pass keeps for the next one: its basis and segments. Blob ids and the
    lease version, which decide only whether the next pass may use it, are left
    out. -/
structure PublishedIndexes where
  basisT : Nat
  currentSegments : IndexOrder → Segment
  historySegments : Option (IndexOrder → Segment)

def planIndexes (snapshot : Db) (previous : Option PublishedIndexes) (order : IndexOrder) : Segment :=
  match previous with
  | some p =>
    (p.currentSegments order).apply order ((snapshot.recordedSince p.basisT).filter (covered snapshot.schema order))
  | none => Segment.fromSorted order (snapshot.datomsAt order)

/-- Retained and covered: what an order's history segment holds. -/
def historyCovered (schema : Schema) (order : IndexOrder) (d : Datom) : Bool :=
  !noHistoryOf schema d.a && covered schema order d

def planHistoryIndexes (snapshot : Db) (previous : Option PublishedIndexes) (order : IndexOrder) : Segment :=
  match previous.bind fun p => p.historySegments.map fun segments => (p.basisT, segments order) with
  | some (basisT, segment) =>
    segment.insertHistory order ((snapshot.recordedSince basisT).filter (historyCovered snapshot.schema order))
  | none => Segment.fromSorted order (snapshot.history.datomsAt order)

/-- `p` holds what a pass from scratch builds for `db`, however its leaves are cut. -/
structure Describes (p : PublishedIndexes) (db : Db) : Prop where
  basisT : p.basisT = db.basisT
  current : ∀ order, (p.currentSegments order).keys = (planIndexes db none order).keys
  history : ∃ segments, p.historySegments = some segments ∧
    ∀ order, (segments order).keys = (planHistoryIndexes db none order).keys

/-! ## A value and what is recorded since -/

/-- Every datom of `db` is of a transaction up to its basis. -/
def Dated (db : Db) : Prop := ∀ d ∈ db.recorded, ∃ t, t ≤ db.basisT ∧ d.tx = txId t

/-- `db` grows out of `old` by the records `tail`, ordinary or schema
    transactions, with names attached in between. -/
inductive Grows (old : Db) : List TxRecord → Db → Prop where
  | refl : Grows old [] old
  | naming {tail : List TxRecord} {db : Db} (idents : Idents) (interner : KeywordInterner) : Grows old tail db →
      Grows old tail (db.withNaming idents interner)
  | apply {tail : List TxRecord} {db : Db} {record : TxRecord} : Grows old tail db → SealedRecord record →
      record.t = db.basisT + 1 → Grows old (tail ++ [record]) (applyRecord db record)

structure Grown (old : Db) (tail : List TxRecord) (db : Db) : Prop where
  recorded : db.recorded = old.recorded ++ logDatoms tail
  view : db.view = old.view
  dated : ∀ d ∈ logDatoms tail, ∃ t, old.basisT < t ∧ t ≤ db.basisT ∧ d.tx = txId t
  basisT : old.basisT ≤ db.basisT

variable {db : Db} {d : Datom} {key : Bytes}

theorem Grows.grown {old : Db} {tail : List TxRecord} (h : Grows old tail db) : Grown old tail db := by
  induction h with
  | refl => exact ⟨by simp [logDatoms], rfl, by simp [logDatoms], Nat.le_refl _⟩
  | naming _ _ _ ih => exact ⟨ih.recorded, ih.view, ih.dated, ih.basisT⟩
  | apply _ hr ht ih =>
    rename_i tail db record _
    obtain ⟨_, heq⟩ := applyRecord_eq hr db
    have hbasis : (applyRecord db record).basisT = db.basisT + 1 := by rw [applyRecord_basisT hr, ht]
    refine ⟨?_, ?_, ?_, ?_⟩
    · rw [heq, logDatoms_append, ← append_assoc, ← ih.recorded]
      simp [Db.applyTransaction, logDatoms]
    · rw [heq]
      exact ih.view
    · intro d hd
      rw [logDatoms_append] at hd
      rcases mem_append.mp hd with hd | hd
      · obtain ⟨t, h1, h2, htx⟩ := ih.dated d hd
        exact ⟨t, h1, by omega, htx⟩
      · have := ih.basisT
        refine ⟨record.t, by omega, by omega, hr.own d ?_⟩
        simpa [logDatoms] using hd
    · have := ih.basisT
      omega

/-- The datoms recorded since an earlier basis are the tail's. -/
theorem Grown.recordedSince {old : Db} {tail : List TxRecord} (h : Grown old tail db) (hold : Dated old)
    (hlen : db.basisT < sequenceLimit) : db.recordedSince old.basisT = logDatoms tail := by
  have htail : ∀ d ∈ (logDatoms tail).reverse, decide (old.basisT < d.tx.sequence) = true := by
    intro d hd
    obtain ⟨t, h1, h2, htx⟩ := h.dated d (mem_reverse.mp hd)
    rw [htx, txId_sequence (by omega)]
    simpa using h1
  have hhead : old.recorded.reverse.takeWhile (fun d => decide (old.basisT < d.tx.sequence)) = [] := by
    cases hr : old.recorded.reverse with
    | nil => rfl
    | cons d ds =>
      obtain ⟨t, h1, htx⟩ := hold d (mem_reverse.mp (by rw [hr]; exact mem_cons_self))
      have := h.basisT
      rw [takeWhile_cons, htx, txId_sequence (by omega), if_neg (by simpa using h1)]
  unfold Db.recordedSince
  rw [h.recorded, reverse_append, takeWhile_append_of_pos htail, hhead, append_nil, reverse_reverse]

theorem raw_lt_of_dated {t : Nat} (h : d.tx = txId t) : d.tx.raw.toNat < 2 ^ 63 := by
  rw [h, txId_raw]
  omega

theorem Grown.raw_lt {old : Db} {tail : List TxRecord} (h : Grown old tail db) (hold : Dated old)
    (hd : d ∈ db.recorded) : d.tx.raw.toNat < 2 ^ 63 := by
  rw [h.recorded] at hd
  rcases mem_append.mp hd with hd | hd
  · obtain ⟨t, -, htx⟩ := hold d hd
    exact raw_lt_of_dated htx
  · obtain ⟨t, -, -, htx⟩ := h.dated d hd
    exact raw_lt_of_dated htx

/-! ## A pass from scratch -/

theorem mem_planIndexes_none (hv : db.view = .current) (order : IndexOrder) : key ∈ (planIndexes db none order).keys ↔
      ∃ d, liveDatom db.recorded d.fact = some d ∧ covered db.schema order d = true ∧ key = d.key order := by
  unfold planIndexes Db.datomsAt
  rw [Segment.fromSorted_keys, mem_map]
  constructor
  · rintro ⟨d, hd, rfl⟩
    obtain ⟨k, hk⟩ := mem_indexValues.mp hd
    obtain ⟨-, hc, hl⟩ := (Db.index_some (Db.showsLive_of_current hv) order).mp hk
    exact ⟨d, (Db.mem_live_iff hv).mp hl, hc, rfl⟩
  · rintro ⟨d, hl, hc, rfl⟩
    refine ⟨d, mem_indexValues.mpr ⟨_, (Db.index_some (Db.showsLive_of_current hv) order).mpr ⟨rfl, hc, ?_⟩⟩, rfl⟩
    exact (Db.mem_live_iff hv).mpr hl

theorem planIndexes_none_sorted (hv : db.view = .current) (order : IndexOrder) :
    SortedBy keyComponents (planIndexes db none order).keys := by
  unfold planIndexes Db.datomsAt indexValues
  rw [Segment.fromSorted_keys, map_map]
  unfold SortedBy
  rw [pairwise_map]
  have hkey : ∀ x ∈ (db.index order).toList, x.1 = keyComponents (x.2.key order) := fun x hx => by
    rw [Datom.keyComponents_key]
    exact ((Db.index_some (Db.showsLive_of_current hv) order).mp
      (Std.ExtTreeMap.mem_toList_iff_getElem?_eq_some.mp hx)).1
  refine List.Pairwise.imp_of_mem ?_ Std.ExtTreeMap.ordered_keys_toList
  intro x y hx hy h
  show compare (keyComponents (x.2.key order)) (keyComponents (y.2.key order)) = .lt
  rwa [← hkey x hx, ← hkey y hy]

theorem mem_planHistoryIndexes_none (hb : ∀ d ∈ db.recorded, d.tx.raw.toNat < 2 ^ 63) (order : IndexOrder)
    : key ∈ (planHistoryIndexes db none order).keys ↔
      ∃ d ∈ db.recorded, historyCovered db.schema order d = true ∧ key = d.key order := by
  unfold planHistoryIndexes
  show key ∈ (Segment.fromSorted order (indexValues (historyIndex db.schema order db.recorded))).keys ↔ _
  rw [Segment.fromSorted_keys, mem_map]
  constructor
  · rintro ⟨d, hd, rfl⟩
    obtain ⟨hmem, hr, hc⟩ := (mem_historyValues db.schema order hb).mp hd
    exact ⟨d, hmem, by simp [historyCovered, hr, hc], rfl⟩
  · rintro ⟨d, hmem, hc, rfl⟩
    simp only [historyCovered, Bool.and_eq_true, Bool.not_eq_true'] at hc
    exact ⟨d, (mem_historyValues db.schema order hb).mpr ⟨hmem, hc⟩, rfl⟩

theorem planHistoryIndexes_none_sorted (hb : ∀ d ∈ db.recorded, d.tx.raw.toNat < 2 ^ 63)
    (order : IndexOrder) : SortedBy id (planHistoryIndexes db none order).keys := by
  unfold planHistoryIndexes
  show SortedBy id (Segment.fromSorted order (indexValues (historyIndex db.schema order db.recorded))).keys
  rw [Segment.fromSorted_keys]
  unfold SortedBy
  rw [pairwise_map]
  exact historyValues_pairwise db.schema order hb

/-! ## A pass over earlier segments -/

theorem covered_congr (schema : Schema) (order : IndexOrder) {x : Datom} (h : x.fact = d.fact) :
    covered schema order x = covered schema order d := by
  have ha : x.a = d.a := congrArg (fun f : Fact => f.2.1) h
  have hv : x.v = d.v := congrArg (fun f : Fact => f.2.2) h
  unfold covered
  rw [ha, hv]

section Incremental

variable {old new : Db} {tail : List TxRecord} {p : PublishedIndexes} (hgrown : Grown old tail new)
  (hold : Dated old) (hv : old.view = .current) (hlen : new.basisT < sequenceLimit) (hp : Describes p old)

include hgrown hold hv hlen hp

theorem mem_planIndexes_some (order : IndexOrder) {key : Bytes} :
    key ∈ (planIndexes new (some p) order).keys ↔
      (∃ d, lastDatom (logDatoms tail) d.fact = some d ∧ covered new.schema order d = true ∧ d.added = true ∧
        key = d.key order) ∨
      (∃ d, liveDatom old.recorded d.fact = some d ∧ covered old.schema order d = true ∧ key = d.key order ∧
        (covered new.schema order d = true → ∀ x ∈ logDatoms tail, x.fact ≠ d.fact)) := by
  have hs : SortedBy keyComponents (p.currentSegments order).keys := by
    rw [hp.current]
    exact planIndexes_none_sorted hv order
  have hplan : planIndexes new (some p) order =
      (p.currentSegments order).apply order ((logDatoms tail).filter (covered new.schema order)) := by
    unfold planIndexes
    simp only
    rw [hp.basisT, hgrown.recordedSince hold hlen]
  rw [hplan, Segment.mem_apply hs, hp.current, mem_planIndexes_none hv]
  apply or_congr
  · have hlast : ∀ d : Datom, lastOn Datom.fact d.fact ((logDatoms tail).filter (covered new.schema order)) =
        if covered new.schema order d then lastOn Datom.fact d.fact (logDatoms tail) else none := fun d =>
      lastOn_filter_key _ _ fun x _ hx => covered_congr new.schema order hx
    constructor
    · rintro ⟨d, hd, ha, rfl⟩
      rw [hlast] at hd
      split at hd
      · exact ⟨d, hd, ‹_›, ha, rfl⟩
      · cases hd
    · rintro ⟨d, hd, hc, ha, rfl⟩
      exact ⟨d, by rw [hlast, if_pos hc]; exact hd, ha, rfl⟩
  · constructor
    · rintro ⟨⟨d, hl, hc, rfl⟩, hx⟩
      refine ⟨d, hl, hc, rfl, fun hn x hmem heq => ?_⟩
      refine hx x (mem_filter.mpr ⟨hmem, by rw [covered_congr new.schema order heq]; exact hn⟩) ?_
      rw [Datom.keyComponents_key, heq]
    · rintro ⟨d, hl, hc, rfl, hx⟩
      refine ⟨⟨d, hl, hc, rfl⟩, fun x hmem heq => ?_⟩
      rw [Datom.keyComponents_key] at heq
      have heq := factComponents_injective order heq
      obtain ⟨hmem, hn⟩ := mem_filter.mp hmem
      exact hx (by rw [← covered_congr new.schema order heq]; exact hn) x hmem heq

omit hgrown hold hlen in
theorem planIndexes_some_sorted (order : IndexOrder) : SortedBy keyComponents (planIndexes new (some p) order).keys := by
  unfold planIndexes
  refine Segment.apply_sorted ?_ _ _
  rw [hp.current]
  exact planIndexes_none_sorted hv order

/-- One order's current segment is right exactly when every live fact whose coverage
    the tail changes gains it and is stated again. -/
theorem planIndexes_iff (order : IndexOrder) :
    (planIndexes new (some p) order).keys = (planIndexes new none order).keys ↔
      ∀ d, liveDatom old.recorded d.fact = some d → covered old.schema order d ≠ covered new.schema order d →
        covered new.schema order d = true ∧ ∃ x ∈ logDatoms tail, x.fact = d.fact := by
  have hv' : new.view = .current := hgrown.view.trans hv
  have hmem := fun key =>
    (mem_planIndexes_some hgrown hold hv hlen hp order : key ∈ (planIndexes new (some p) order).keys ↔ _)
  have hscratch := fun key => (mem_planIndexes_none hv' order : key ∈ (planIndexes new none order).keys ↔ _)
  have hb : ∀ d ∈ new.recorded, d.tx.raw.toNat < 2 ^ 63 := fun d hd => hgrown.raw_lt hold hd
  have hrec := hgrown.recorded
  have hlast : ∀ d : Datom, lastDatom (logDatoms tail) d.fact = none ↔ ∀ x ∈ logDatoms tail, x.fact ≠ d.fact :=
    fun d => lastOn_eq_none_iff
  constructor
  · intro heq d hl hne
    have hdmem : d ∈ new.recorded := by
      rw [hrec]
      exact mem_append_left _ (liveDatom_some hl).2.2
    cases hn : covered new.schema order d with
    | false =>
      have hc : covered old.schema order d = true := by rw [hn] at hne; simpa using hne
      have hkey := (hmem (d.key order)).mpr (Or.inr ⟨d, hl, hc, rfl, by simp [hn]⟩)
      rw [heq, hscratch] at hkey
      obtain ⟨d', hl', hc', hk⟩ := hkey
      have hd' : d' ∈ new.recorded := (liveDatom_some hl').2.2
      rw [← Datom.key_injective order (hb d hdmem) (hb d' hd') hk, hn] at hc'
      cases hc'
    | true =>
      refine ⟨rfl, ?_⟩
      by_contra huntouched
      have huntouched : ∀ x ∈ logDatoms tail, x.fact ≠ d.fact := fun x hx hxd => huntouched ⟨x, hx, hxd⟩
      have hlive : liveDatom new.recorded d.fact = some d := by
        rw [hrec, liveDatom_append, (hlast d).mpr huntouched]
        exact hl
      have hkey := (hscratch (d.key order)).mpr ⟨d, hlive, hn, rfl⟩
      rw [← heq, hmem] at hkey
      rcases hkey with ⟨d', hd', -, -, hk⟩ | ⟨d', hl', hc', hk, -⟩
      · have hmem' := mem_of_lastOn hd'
        have hb' : d'.tx.raw.toNat < 2 ^ 63 := hb d' (by rw [hrec]; exact mem_append_right _ hmem')
        have := Datom.key_injective order (hb d hdmem) hb' hk
        exact huntouched d' hmem' (by rw [this])
      · have hb' : d'.tx.raw.toNat < 2 ^ 63 :=
          hb d' (by rw [hrec]; exact mem_append_left _ (liveDatom_some hl').2.2)
        rw [← Datom.key_injective order (hb d hdmem) hb' hk] at hc'
        exact hne (hc'.trans hn.symm)
  · intro hsteady
    refine eq_of_sorted_of_mem (planIndexes_some_sorted hv hp order) (planIndexes_none_sorted hv' order)
      fun key => ?_
    rw [hmem, hscratch]
    constructor
    · intro h
      rcases h with ⟨d, hd, hc, ha, rfl⟩ | ⟨d, hl, hc, rfl, hx⟩
      · refine ⟨d, ?_, hc, rfl⟩
        rw [hrec, liveDatom_append, hd]
        exact if_pos ha
      · have hn : covered new.schema order d = true := by
          by_contra hn
          exact hn (hsteady d hl (by rw [hc]; exact fun h => hn h.symm)).1
        refine ⟨d, ?_, hn, rfl⟩
        rw [hrec, liveDatom_append, (hlast d).mpr (hx hn)]
        exact hl
    · rintro ⟨d, hl, hn, rfl⟩
      rw [hrec, liveDatom_append] at hl
      cases hd : lastDatom (logDatoms tail) d.fact with
      | some x =>
        rw [hd] at hl
        simp only at hl
        split at hl
        · cases hl
          exact Or.inl ⟨d, hd, hn, ‹_›, rfl⟩
        · cases hl
      | none =>
        rw [hd] at hl
        refine Or.inr ⟨d, hl, ?_, rfl, fun _ => (hlast d).mp hd⟩
        by_contra hc
        obtain ⟨-, x, hx, hxd⟩ := hsteady d hl (by rw [hn]; exact hc)
        exact (hlast d).mp hd x hx hxd

omit hv in
/-- One order's history segment is right exactly when every datom recorded before
    belongs in it by both schemas or by neither. -/
theorem planHistoryIndexes_iff (order : IndexOrder) :
    (planHistoryIndexes new (some p) order).keys = (planHistoryIndexes new none order).keys ↔
      ∀ d ∈ old.recorded, historyCovered old.schema order d = historyCovered new.schema order d := by
  have hb : ∀ d ∈ new.recorded, d.tx.raw.toNat < 2 ^ 63 := fun d hd => hgrown.raw_lt hold hd
  have hrec := hgrown.recorded
  have hbold : ∀ d ∈ old.recorded, d.tx.raw.toNat < 2 ^ 63 := fun d hd =>
    hb d (by rw [hrec]; exact mem_append_left _ hd)
  have hbtail : ∀ d ∈ logDatoms tail, d.tx.raw.toNat < 2 ^ 63 := fun d hd =>
    hb d (by rw [hrec]; exact mem_append_right _ hd)
  obtain ⟨segments, hsegments, hkeys⟩ := hp.history
  have hs : SortedBy id (segments order).keys := by
    rw [hkeys]
    exact planHistoryIndexes_none_sorted hbold order
  have hplan : planHistoryIndexes new (some p) order =
      (segments order).insertHistory order ((logDatoms tail).filter (historyCovered new.schema order)) := by
    unfold planHistoryIndexes
    simp only [hsegments, Option.bind_some, Option.map_some]
    rw [hp.basisT, hgrown.recordedSince hold hlen]
  obtain ⟨hsorted, hins⟩ :=
    Segment.insertHistory_keys hs order ((logDatoms tail).filter (historyCovered new.schema order))
  have hmem : ∀ key, key ∈ (planHistoryIndexes new (some p) order).keys ↔
      (∃ d ∈ old.recorded, historyCovered old.schema order d = true ∧ key = d.key order) ∨
        ∃ d ∈ logDatoms tail, historyCovered new.schema order d = true ∧ key = d.key order := by
    intro key
    rw [hplan, hins, hkeys, mem_planHistoryIndexes_none hbold]
    apply or_congr_right
    constructor
    · rintro ⟨d, hd, rfl⟩
      obtain ⟨hd, hc⟩ := mem_filter.mp hd
      exact ⟨d, hd, hc, rfl⟩
    · rintro ⟨d, hd, hc, rfl⟩
      exact ⟨d, mem_filter.mpr ⟨hd, hc⟩, rfl⟩
  have hscratch : ∀ key, key ∈ (planHistoryIndexes new none order).keys ↔
      (∃ d ∈ old.recorded, historyCovered new.schema order d = true ∧ key = d.key order) ∨
        ∃ d ∈ logDatoms tail, historyCovered new.schema order d = true ∧ key = d.key order := by
    intro key
    rw [mem_planHistoryIndexes_none hb, hrec]
    simp only [mem_append, or_and_right, exists_or]
  constructor
  · intro heq d hd
    have hiff : historyCovered old.schema order d = true ↔ historyCovered new.schema order d = true := by
      constructor
      · intro hc
        have hkey := (hmem (d.key order)).mpr (Or.inl ⟨d, hd, hc, rfl⟩)
        rw [heq, hscratch] at hkey
        rcases hkey with ⟨d', hd', hc', hk⟩ | ⟨d', hd', hc', hk⟩
        · rwa [Datom.key_injective order (hbold d hd) (hbold d' hd') hk]
        · rwa [Datom.key_injective order (hbold d hd) (hbtail d' hd') hk]
      · intro hc
        have hkey := (hscratch (d.key order)).mpr (Or.inl ⟨d, hd, hc, rfl⟩)
        rw [← heq, hmem] at hkey
        rcases hkey with ⟨d', hd', hc', hk⟩ | ⟨d', hd', -, hk⟩
        · rwa [Datom.key_injective order (hbold d hd) (hbold d' hd') hk]
        · -- no datom is recorded both before and after the basis
          have hsame := Datom.key_injective order (hbold d hd) (hbtail d' hd') hk
          obtain ⟨t, ht, htx⟩ := hold d hd
          obtain ⟨t', ht', hle', htx'⟩ := hgrown.dated d' hd'
          rw [← hsame, htx] at htx'
          have := congrArg EntityId.sequence htx'
          rw [txId_sequence (by omega), txId_sequence (by omega)] at this
          omega
    exact Bool.eq_iff_iff.mpr hiff
  · intro hsteady
    refine eq_of_sorted_of_mem (by rw [hplan]; exact hsorted) (planHistoryIndexes_none_sorted hb order) fun key => ?_
    rw [hmem, hscratch]
    apply or_congr_left
    constructor
    · rintro ⟨d, hd, hc, rfl⟩
      exact ⟨d, hd, by rw [← hsteady d hd]; exact hc, rfl⟩
    · rintro ⟨d, hd, hc, rfl⟩
      exact ⟨d, hd, by rw [hsteady d hd]; exact hc, rfl⟩

end Incremental

/-- The schema changes a pass over earlier segments survives. -/
structure CoverageSteady (old new : Db) (tail : List Datom) : Prop where
  /-- No attribute with datoms recorded before starts or stops keeping history,
      and none that keeps it enters or leaves AVET. -/
  history : ∀ d ∈ old.recorded, noHistoryOf old.schema d.a = noHistoryOf new.schema d.a ∧
    (noHistoryOf new.schema d.a = false → avetCovered old.schema d.a = avetCovered new.schema d.a)
  /-- A live fact whose attribute enters AVET is stated again; none leaves it. -/
  current : ∀ d, liveDatom old.recorded d.fact = some d →
    avetCovered old.schema d.a ≠ avetCovered new.schema d.a →
      avetCovered new.schema d.a = true ∧ ∃ x ∈ tail, x.fact = d.fact

/-- Folding the tail into the segments of an earlier basis gives the keys a pass
    from scratch gives, in all eight segments, exactly when coverage is steady. -/
theorem incremental_publication_iff {old new : Db} {tail : List TxRecord} {p : PublishedIndexes}
    (hold : Dated old) (hv : old.view = .current) (hgrows : Grows old tail new) (hlen : new.basisT < sequenceLimit)
    (hp : Describes p old) :
    (∀ order, (planIndexes new (some p) order).keys = (planIndexes new none order).keys ∧
        (planHistoryIndexes new (some p) order).keys = (planHistoryIndexes new none order).keys) ↔
      CoverageSteady old new (logDatoms tail) := by
  have hcur := planIndexes_iff hgrows.grown hold hv hlen hp
  have hhist := planHistoryIndexes_iff hgrows.grown hold hlen hp
  constructor
  · intro h
    refine ⟨fun d hd => ?_, fun d hl hne => (hcur .avet).mp (h .avet).1 d hl hne⟩
    have heavt := (hhist .eavt).mp (h .eavt).2 d hd
    have havet := (hhist .avet).mp (h .avet).2 d hd
    simp only [historyCovered, covered, Bool.and_true, Bool.not_inj_iff] at heavt havet
    rw [heavt] at havet
    exact ⟨heavt, fun hn => by simpa [hn] using havet⟩
  · intro h order
    refine ⟨(hcur order).mpr fun d hl hne => ?_, (hhist order).mpr fun d hd => ?_⟩
    · cases order with
      | avet => exact h.current d hl hne
      | eavt => exact absurd rfl hne
      | aevt => exact absurd rfl hne
      | vaet => exact absurd rfl hne
    · obtain ⟨hn, havet⟩ := h.history d hd
      unfold historyCovered
      rw [hn]
      cases hno : noHistoryOf new.schema d.a with
      | true => rfl
      | false =>
        cases order with
        | avet => simpa [covered] using havet hno
        | eavt => rfl
        | aevt => rfl
        | vaet => rfl

/-! ## An attribute indexed after the fact -/

namespace IndexExample

def nameAttr : AttrId := dbAttr 100

def emailAttr : AttrId := dbAttr 101

def schema : Schema :=
  (Schema.empty.insert (simple nameAttr .str)).insert (simple emailAttr .str)

def base : Db := creation schema Idents.empty KeywordInterner.empty

/-- One entity is named, and a snapshot published. -/
def first : TxRecord :=
  { t := 1, txInstant := 5
    datoms := [Tx.assertion (txId 1) (EntityId.new Partition.user.id 1000) nameAttr (.str "a"),
      txInstantDatom 1 5] }

def old : Db := applyRecord base first

def published : PublishedIndexes :=
  { basisT := old.basisT, currentSegments := planIndexes old none, historySegments := some (planHistoryIndexes old none) }

/-- Then a schema update indexes `a`. -/
def indexRecord (a : AttrId) : TxRecord :=
  { t := 2, txInstant := 6
    datoms := [Tx.assertion (txId 2) a index (.bool true), txInstantDatom 2 6] }

def new (a : AttrId) : Db := applyRecord old (indexRecord a)

theorem dated_old : Dated old := by
  have h : ∀ d ∈ old.recorded, d.tx = txId 1 := by decide
  exact fun d hd => ⟨1, by decide, h d hd⟩

theorem grows (a : AttrId) : Grows old [indexRecord a] (new a) := by
  refine Grows.apply .refl ⟨?_, rfl⟩ (show 2 = old.basisT + 1 by decide)
  intro d hd
  simp only [indexRecord, mem_cons, not_mem_nil, or_false] at hd
  rcases hd with rfl | rfl <;> rfl

/-- The name, live since before it was indexed, is missing from AVET. -/
theorem an_attribute_indexed_later_is_published_without_its_facts :
    (prepareDatoms { recoverFrom base [first] with db := old } (indexRecord nameAttr).datoms 6).toOption.map (·.1) =
        some (indexRecord nameAttr) ∧
      Dated old ∧ old.view = .current ∧ Grows old [indexRecord nameAttr] (new nameAttr) ∧
      (new nameAttr).basisT < sequenceLimit ∧ Describes published old ∧
      (planIndexes (new nameAttr) (some published) .avet).keys ≠ (planIndexes (new nameAttr) none .avet).keys :=
  ⟨by decide, dated_old, rfl, grows nameAttr, by decide, ⟨rfl, fun _ => rfl, _, rfl, fun _ => rfl⟩,
    by decide +kernel⟩

theorem coverageSteady_unused : CoverageSteady old (new emailAttr) (logDatoms [indexRecord emailAttr]) := by
  have hsame : ∀ d ∈ old.recorded, avetCovered old.schema d.a = avetCovered (new emailAttr).schema d.a := by
    decide +kernel
  exact ⟨by decide +kernel, fun d hl hne => absurd (hsame d (liveDatom_some hl).2.2) hne⟩

/-- An attribute without datoms can be indexed at any time. -/
theorem incremental_publication_iff_unused_attribute :
    CoverageSteady old (new emailAttr) (logDatoms [indexRecord emailAttr]) ∧
      ∀ order, (planIndexes (new emailAttr) (some published) order).keys = (planIndexes (new emailAttr) none order).keys ∧
        (planHistoryIndexes (new emailAttr) (some published) order).keys =
          (planHistoryIndexes (new emailAttr) none order).keys :=
  ⟨coverageSteady_unused, (incremental_publication_iff dated_old rfl (grows emailAttr) (by decide)
    ⟨rfl, fun _ => rfl, _, rfl, fun _ => rfl⟩).mpr coverageSteady_unused⟩

end IndexExample

end Corium.Transactor
