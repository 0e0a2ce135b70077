/-
  Corium.Transactor.FreshIds — that an id allocated for a tempid is new
  (`next_user_id`, `floor_past_grants`, `advance_allocation`, `recover_from`,
  `recover_from_snapshot` of `crates/corium-transactor/src/lib.rs`).

  The live counter goes past the tempids of each transaction and the blocks it
  leases; recovery sets it past the entities the log records and the blocks. An
  id a transaction names itself, or mentions only as a reference, is seen by one
  of the two and not by the other.

  `fresh_ids_are_fresh`: in every run whose transactions name only ids already
  issued, and assert something about each of their tempids, an allocated id is in
  no earlier datom and is never allocated again.
  `ids_the_counter_misses_are_allocated_again` shows what the two conditions keep
  out.
-/

import Corium.Transactor.Grants

namespace Corium.Transactor

open Corium.Core Corium.Lib Corium.Tx Bootstrap List

/-! ## Issued ids -/

/-- A user id no higher than one recorded as an entity or leased. -/
def Issued (datoms : List Datom) (e : EntityId) : Prop :=
  e.inPartition .user = true → e.sequence < firstUserId ∨
    (∃ d ∈ datoms, d.e.inPartition .user = true ∧ e.sequence ≤ d.e.sequence) ∨
    ∃ n, Leased datoms n ∧ e.sequence < n + (1 + Saga.defaultIdBlock)

/-- A counter past every entity recorded and every block leased. -/
structure Past (datoms : List Datom) (next : Nat) : Prop where
  first : firstUserId ≤ next
  entities : ∀ d ∈ datoms, d.e.inPartition .user = true → d.e.sequence < next
  leases : ∀ n, Leased datoms n → n + (1 + Saga.defaultIdBlock) ≤ next

variable {datoms : List Datom} {e : EntityId} {ops : List TxOp} {tx : TxId} {n : Nat} {db : Db}

theorem Issued.lt {next : Nat} (h : Issued datoms e) (hp : Past datoms next)
    (hu : e.inPartition .user = true) : e.sequence < next := by
  have hfirst := hp.first
  rcases h hu with h | ⟨d, hd, hdu, hle⟩ | ⟨n, hn, hlt⟩
  · omega
  · have := hp.entities d hd hdu
    omega
  · have := hp.leases n hn
    omega

theorem Issued.mono {ds ds' : List Datom} (h : Issued ds e) (hsub : ∀ d ∈ ds, d ∈ ds') : Issued ds' e := by
  intro hu
  rcases h hu with h | ⟨d, hd, hdu, hle⟩ | ⟨n, hn, hlt⟩
  · exact .inl h
  · exact .inr (.inl ⟨d, hsub d hd, hdu, hle⟩)
  · exact .inr (.inr ⟨n, hn.mono hsub, hlt⟩)

theorem issued_entity {d : Datom} (hd : d ∈ datoms) : Issued datoms d.e :=
  fun hu => .inr (.inl ⟨d, hd, hu, Nat.le_refl _⟩)

theorem Past.mono {next next' : Nat} (h : Past datoms next) (hle : next ≤ next') : Past datoms next' :=
  ⟨Nat.le_trans h.first hle, fun d hd hu => Nat.lt_of_lt_of_le (h.entities d hd hu) hle,
    fun n hn => Nat.le_trans (h.leases n hn) hle⟩

theorem nextUserId_le_iff {floor next : Nat} : nextUserId datoms floor ≤ next ↔
    floor ≤ next ∧ ∀ d ∈ datoms, d.e.inPartition .user = true → d.e.sequence < next := by
  unfold nextUserId
  rw [foldl_max_le_iff]
  simp only [mem_map, mem_filter]
  refine and_congr_right fun _ => ⟨fun h d hd hu => h _ ⟨d, ⟨hd, hu⟩, rfl⟩, ?_⟩
  rintro h x ⟨d, ⟨hd, hu⟩, rfl⟩
  exact h d hd hu

/-! ## Recovery's floor -/

section Recovery

variable {schema : Schema} {log : List TxRecord}

theorem past_replay (hlog : SoundLog log) (hg : GrantsSound (logDatoms log)) (idents : Idents)
    (interner : KeywordInterner) :
    Past (logDatoms log) (recoverFrom (creation schema idents interner) log).nextUser := by
  have hground : Grounded schema log _ := grounded_replay hlog idents interner
  have hrec : (replayLog (creation schema idents interner) log).recorded = logDatoms log := by
    rw [(replayLog_stands hlog.records _).recorded, creation_recorded, nil_append]
  have hnext := nextUserId_le_iff.mp (Nat.le_refl
    (nextUserId (replayLog (creation schema idents interner) log).recorded firstUserId))
  rw [hrec] at hnext
  have hle : nextUserId (replayLog (creation schema idents interner) log).recorded firstUserId ≤
      (recoverFrom (creation schema idents interner) log).nextUser := Nat.le_max_left _ _
  rw [hrec] at hle
  refine ⟨Nat.le_trans hnext.1 hle, fun d hd hu => Nat.lt_of_lt_of_le (hnext.2 d hd hu) hle, fun n hn => ?_⟩
  exact Nat.le_trans (hground.le_grantCeiling hg hn) (Nat.le_max_right _ _)

theorem le_tail_floor (tail : List TxRecord) (n : Nat) :
    n ≤ tail.foldl (fun next r => max next (nextUserId r.datoms next)) n ∧
      ∀ d ∈ logDatoms tail, d.e.inPartition .user = true →
        d.e.sequence < tail.foldl (fun next r => max next (nextUserId r.datoms next)) n := by
  induction tail generalizing n with
  | nil => exact ⟨Nat.le_refl n, by simp [logDatoms]⟩
  | cons r tail ih =>
    obtain ⟨hle, htail⟩ := ih (max n (nextUserId r.datoms n))
    have hr := nextUserId_le_iff.mp (Nat.le_max_right n (nextUserId r.datoms n))
    rw [foldl_cons]
    refine ⟨Nat.le_trans (Nat.le_max_left _ _) hle, fun d hd hu => ?_⟩
    rcases mem_append.mp (show d ∈ r.datoms ++ logDatoms tail from hd) with hd | hd
    · exact Nat.lt_of_lt_of_le (hr.2 d hd hu) hle
    · exact htail d hd hu

theorem past_restore {pre post : List TxRecord} {s : State} (h : Grounded schema pre s)
    (hp : Past (logDatoms pre) s.nextUser) (hlog : SoundLog (pre ++ post)) (hg : GrantsSound (logDatoms (pre ++ post)))
    {idents : Idents} {interner : KeywordInterner} {snapshot : Db}
    (hload : loadHistorySnapshot (publish s) schema idents interner = .ok snapshot) (lastTxInstant : Int64) :
    Past (logDatoms (pre ++ post))
      (recoverFromSnapshot snapshot (publish s).nextEntityId lastTxInstant (pre ++ post)).nextUser := by
  have hground := h.restore hlog hload (publish s).nextEntityId lastTxInstant
  have htail : txRange (pre ++ post) (snapshot.basisT + 1) = post := by
    have hb : ∀ d ∈ s.db.recorded, d.tx.raw.toNat < 2 ^ 63 := fun d hd => h.sound.raw_lt (h.recorded d hd)
    obtain ⟨snapshot', hload', -, -, -, hbasis⟩ := loadHistorySnapshot_of_publish h.view h.schema hb idents interner
    cases hload.symm.trans hload'
    rw [hbasis, h.basisT]
    exact txRange_append hlog
  have hfloor := le_tail_floor post (max s.nextUser firstUserId)
  have hle : post.foldl (fun next r => max next (nextUserId r.datoms next)) (max s.nextUser firstUserId) ≤
      (recoverFromSnapshot snapshot (publish s).nextEntityId lastTxInstant (pre ++ post)).nextUser := by
    show _ ≤ max ((txRange (pre ++ post) (snapshot.basisT + 1)).foldl _ _) _
    rw [htail]
    exact Nat.le_max_left _ _
  have hpre := hp.mono (Nat.le_trans (Nat.le_max_left _ _) (Nat.le_trans hfloor.1 hle))
  refine ⟨hpre.first, fun d hd hu => ?_, fun n hn => ?_⟩
  · rw [logDatoms_append] at hd
    rcases mem_append.mp hd with hd | hd
    · exact hpre.entities d hd hu
    · exact Nat.lt_of_lt_of_le (hfloor.2 d hd hu) hle
  · exact Nat.le_trans (hground.le_grantCeiling hg hn) (Nat.le_max_right _ _)

end Recovery

/-! ## What a commit issues -/

/-- The sequences a transaction's tempids count to fit an entity id. -/
def Fits (s : State) (items : List TxItem) : Prop :=
  (allocate s.db s.nextTx s.nextUser (expandItems items)).next ≤ sequenceLimit

/-- The transaction names only issued ids, and each of its tempids is the entity
    of an addition or a swap. -/
structure NamesIssued (l : Life) (items : List TxItem) : Prop where
  named : ∀ op ∈ expandItems items, ∀ x ∈ assertedIds op, Issued (logDatoms l.log) x
  asserted : ∀ op ∈ expandItems items, ∀ t, .temp t ∈ entityPositions op → t ≠ txTempid →
    ∃ op' ∈ expandItems items, assertedRef op' = some (.temp t)

theorem txId_not_user (t : Nat) : (txId t).inPartition .user = false := by
  unfold txId EntityId.inPartition
  rw [EntityId.new_partition t Partition.tx.id_lt]
  rfl

/-- A fresh id is the sequence it was allocated at. -/
theorem freshIds_user
    (hfits : (allocate db tx n ops).next ≤ sequenceLimit) (h : e ∈ freshIds db ops (allocate db tx n ops).tempids) :
    e.inPartition .user = true ∧ n ≤ e.sequence := by
  obtain ⟨k, hk, hlt, rfl⟩ := freshIds_range h
  unfold sequenceLimit at hfits
  refine ⟨grantEntity_user k, ?_⟩
  rw [EntityId.new_sequence, Nat.mod_eq_of_lt (by omega)]
  omega

theorem mem_positions_of_fresh {t : String} (h : t ∈ (allocate db tx n ops).tempids) (hu : t ∉ unified db ops) :
    ∃ op ∈ ops, .temp t ∈ entityPositions op := by
  suffices hgen : ∀ (refs : List EntityRef) (alloc : Allocation), t ∈ (refs.foldl (allocateRef tx) alloc).tempids →
      t ∉ alloc.tempids → .temp t ∈ refs by
    obtain ⟨op, hop, ht⟩ := mem_flatMap.mp (hgen _ _ h hu)
    exact ⟨op, hop, ht⟩
  intro refs
  induction refs with
  | nil => exact fun alloc h hno => absurd h hno
  | cons ref refs ih =>
    intro alloc h hno
    by_cases hnow : t ∈ (allocateRef tx alloc ref).tempids
    · -- only `ref` itself can have put it there
      refine mem_cons.mpr (.inl ?_)
      unfold allocateRef at hnow
      split at hnow
      · split at hnow
        · rcases Std.ExtTreeMap.mem_insert.mp hnow with hcmp | hmem
          · rw [Std.LawfulEqCmp.eq_of_compare hcmp]
          · exact absurd hmem hno
        · split at hnow
          · exact absurd hnow hno
          · rcases Std.ExtTreeMap.mem_insert.mp hnow with hcmp | hmem
            · rw [Std.LawfulEqCmp.eq_of_compare hcmp]
            · exact absurd hmem hno
      · exact absurd hnow hno
    · exact mem_cons_of_mem _ (ih _ h hnow)

section Commit

variable {l : Life} {items : List TxItem} {nowMs : Int64} {record : TxRecord} {tempids : Tempids} {s : State}
  {prepared : PreparedTx} {leased : List Datom} {schema : Schema}

/-- Every id of the record is accounted for, and so is every id it allocates. -/
theorem Committed.issued (hc : Committed l.live items nowMs record tempids s prepared leased)
    (hground : Grounded schema l.log l.live) (hfits : s.nextUser ≤ sequenceLimit) (hn : NamesIssued l items)
    (hissued : AllIds (Issued (logDatoms l.log)) (logDatoms l.log)) :
    AllIds (Issued (logDatoms l.log ++ record.datoms)) record.datoms ∧
      ∀ e ∈ freshIds l.live.db (expandItems items) tempids, Issued (logDatoms l.log ++ record.datoms) e := by
  obtain ⟨grants, stamp, ha⟩ := hc.allots hfits
  obtain ⟨htempids, -, -⟩ := prepare_ok hc.prepare
  have hleft : ∀ d ∈ logDatoms l.log, d ∈ logDatoms l.log ++ record.datoms := fun d => mem_append_left _
  have hprepared : ∀ d ∈ prepared.datoms, d ∈ record.datoms := by
    rw [ha.datoms]
    exact fun d hd => mem_append_left _ (mem_append_left _ hd)
  -- something is asserted about a fresh tempid
  have hfresh : ∀ e ∈ freshIds l.live.db (expandItems items) prepared.tempids,
      Issued (logDatoms l.log ++ record.datoms) e := by
    intro e he
    obtain ⟨t, ht, hf⟩ := mem_freshIds.mp he
    have hmem : t ∈ prepared.tempids := by
      rw [Std.ExtTreeMap.mem_iff_isSome_getElem?, ht]
      rfl
    simp only [isFresh, decide_eq_true_eq] at hf
    obtain ⟨op, hop, hpos⟩ := mem_positions_of_fresh (htempids ▸ hmem) hf.2
    obtain ⟨op', hop', href⟩ := hn.asserted op hop t hpos hf.1
    obtain ⟨d, hd, rfl⟩ := prepare_entity hground.view hc.prepare hop' href ht
    rcases mem_append.mp hd with hd | hd
    · exact issued_entity (hleft d (hground.recorded d hd))
    · exact issued_entity (mem_append_right _ (hprepared d hd))
  refine ⟨?_, by rw [hc.tempids]; exact hfresh⟩
  have hids : AllIds (Issued (logDatoms l.log ++ record.datoms)) prepared.datoms := by
    refine prepare_ids hground.view (fun d hd e he => (hissued d (hground.recorded d hd) e he).mono hleft)
      (fun op hop x hx => (hn.named op hop x hx).mono hleft) (fun t e he => ?_) hc.prepare
    rw [htempids] at he
    rcases allocate_cases he with rfl | ⟨a, v, hlookup⟩ | hf
    · exact fun hu => absurd ((txId_not_user _).symm.trans hu) (by decide)
    · obtain ⟨d, hd, rfl⟩ := recorded_of_lookup hground.view hlookup
      exact issued_entity (hleft d (hground.recorded d hd))
    · rw [← htempids] at hf
      exact hfresh e hf
  intro d hd e he
  have hdmem : d ∈ logDatoms l.log ++ record.datoms := mem_append_right _ hd
  rcases mem_cons.mp he with rfl | hv
  · exact issued_entity hdmem
  · rcases ha.mem hd with hd | ⟨x, hx, hd⟩ | rfl
    · exact hids d hd e he
    · -- the only reference a grant records is to its own entity
      obtain ⟨-, -, hf⟩ := mem_grantDatoms_iff.mp hd
      have hrefs : valueIds d.v = [] ∨ valueIds d.v = [grantEntity x.2] := by
        rcases hf with hf | hf
        · rw [show d.v = .ref (grantEntity x.2) from congrArg (·.2.2) hf]
          exact .inr rfl
        · simp only [grantFacts, mem_cons, not_mem_nil, or_false] at hf
          rcases hf with hf | hf | hf <;> (rw [show d.v = _ from congrArg (·.2.2) hf]; exact .inl rfl)
      rcases hrefs with hrefs | hrefs
      · rw [hrefs] at hv
        cases hv
      · rw [hrefs] at hv
        rw [mem_singleton.mp hv]
        obtain ⟨d', hd', hdf⟩ := (ha.leased hfits hx).2 _ mem_cons_self
        have := issued_entity (mem_append_right (logDatoms l.log) hd')
        rwa [show d'.e = grantEntity x.2 from congrArg (·.1) hdf] at this
    · cases hv

/-- The counter is past what the record adds. -/
theorem Committed.past (hc : Committed l.live items nowMs record tempids s prepared leased)
    (hground : Grounded schema l.log l.live) (hg : GrantsSound (logDatoms l.log)) (hfits : s.nextUser ≤ sequenceLimit)
    (hn : NamesIssued l items) (hissued : AllIds (Issued (logDatoms l.log)) (logDatoms l.log))
    (hpast : Past (logDatoms l.log) l.live.nextUser) : Past (logDatoms l.log ++ record.datoms) s.nextUser := by
  obtain ⟨grants, stamp, ha⟩ := hc.allots hfits
  have hfloor := le_tempidFloor prepared.tempids l.live.nextUser
  have hle : l.live.nextUser ≤ s.nextUser := Nat.le_trans hfloor ha.floor
  have hids : AllIds (fun e => e.inPartition .user = true → e.sequence < s.nextUser) prepared.datoms := by
    refine prepare_ids hground.view (fun d hd e he hu => ?_) (fun op hop x hx hu => ?_) (fun t e he hu => ?_) hc.prepare
    · exact Nat.lt_of_lt_of_le ((hissued d (hground.recorded d hd) e he).lt hpast hu) hle
    · exact Nat.lt_of_lt_of_le ((hn.named op hop x hx).lt hpast hu) hle
    · exact Nat.lt_of_lt_of_le (lt_tempidFloor l.live.nextUser he hu) ha.floor
  refine ⟨Nat.le_trans hpast.first hle, fun d hd hu => ?_, fun n hleased => ?_⟩
  · rcases mem_append.mp hd with hd | hd
    · exact Nat.lt_of_lt_of_le (hpast.entities d hd hu) hle
    · rcases ha.mem hd with hd | ⟨x, hx, hd⟩ | rfl
      · exact hids d hd d.e mem_cons_self hu
      · obtain ⟨-, -, hf⟩ := mem_grantDatoms_iff.mp hd
        have hx2 := (ha.past x hx).2
        rcases hf with hf | hf
        · obtain ⟨d', hd', hde⟩ := mem_map.mp (mem_filter.mp (ha.opened x hx)).1
          have hentity := hids d' (mem_filter.mp hd').1 d'.e mem_cons_self
          rw [hde, ← show d.e = x.1 from congrArg (·.1) hf] at hentity
          exact hentity hu
        · have hde : d.e = grantEntity x.2 := by
            simp only [grantFacts, mem_cons, not_mem_nil, or_false] at hf
            rcases hf with hf | hf | hf <;> exact congrArg (·.1) hf
          rw [hde, grantEntity_sequence (ha.leased hfits hx).1]
          omega
      · exact absurd ((txId_not_user _).symm.trans hu) (by decide)
  · rcases ha.leased_append (fun d hd => prepare_no_grants hc.prepare hd) hfits hg hleased with hold | ⟨x, hx, rfl⟩
    · exact Nat.le_trans (hpast.leases n hold) hle
    · exact (ha.past x hx).2

end Commit

/-! ## Over a life -/

namespace Life

/-- Sequences stay within an entity id, and every commit names issued ids. -/
def Accounted (l : Life) : Event → Life → Prop
  | .commit items, l' => NamesIssued l items ∧ Fits l.live items ∧ l'.live.nextUser ≤ sequenceLimit
  | .other, l' => l'.live.nextUser ≤ sequenceLimit

/-- The log accounts for every id, the counter is past the log, and each
    published root is of a value whose counter was. -/
structure Inv (schema : Schema) (l : Life) : Prop where
  grounded : Grounded schema l.log l.live
  grants : GrantsSound (logDatoms l.log)
  past : Past (logDatoms l.log) l.live.nextUser
  issued : AllIds (Issued (logDatoms l.log)) (logDatoms l.log)
  allocated : ∀ e ∈ l.allocated, e.inPartition .user = true ∧ Issued (logDatoms l.log) e
  nodup : l.allocated.Nodup
  roots : ∀ root ∈ l.roots, ∃ pre post s, l.log = pre ++ post ∧ Grounded schema pre s ∧
    Past (logDatoms pre) s.nextUser ∧ root = Transactor.publish s

section Invariant

variable {schema : Schema} {l l' : Life}

/-- A step that leaves the log and what is allocated as they are. -/
theorem Inv.recover (h : Inv schema l) {s : State} (hground : Grounded schema l.log s)
    (hpast : Past (logDatoms l.log) s.nextUser) : Inv schema { l with live := s } :=
  ⟨hground, h.grants, hpast, h.issued, h.allocated, h.nodup, h.roots⟩

theorem start_inv (idents : Idents) (interner : KeywordInterner) : Inv schema (start schema idents interner) := by
  have hlog : SoundLog [] := ⟨by simp, rfl⟩
  have hg : GrantsSound (logDatoms []) := ⟨by simp [logDatoms], by simp [logDatoms]⟩
  exact ⟨grounded_replay hlog idents interner, hg, past_replay hlog hg idents interner, by simp [AllIds, start, logDatoms],
    by simp [start], nodup_nil, by simp [start]⟩

variable {e : TxError} {s' : State}

theorem prepareTransaction_db {s : State} {items : List TxItem} {nowMs : Int64}
    (h : prepareTransaction s items nowMs = (.error e, s')) : s'.db = s.db := by
  unfold prepareTransaction at h
  split at h
  · cases h
    rfl
  · simp only at h
    split at h
    · cases h
      rfl
    · cases h

/-- A refused transaction may advance the counter. -/
theorem le_prepareTransaction {s : State} {items : List TxItem} {nowMs : Int64}
    (h : prepareTransaction s items nowMs = (.error e, s')) (hfits : s'.nextUser ≤ sequenceLimit) :
    s.nextUser ≤ s'.nextUser := by
  unfold prepareTransaction at h
  split at h
  · cases h
    exact Nat.le_refl _
  · rename_i prepared _
    simp only at h
    split at h
    · cases h
      simp only at hfits ⊢
      unfold advanceAllocation at hfits ⊢
      rw [leaseSagaGrants_eq] at hfits ⊢
      exact Nat.le_trans (le_tempidFloor prepared.tempids s.nextUser) (le_iterate_of_le leaseNext_ge hfits)
    · cases h

theorem Inv.commit (h : Inv schema l) {items : List TxItem} {nowMs : Int64} {record : TxRecord} {tempids : Tempids}
    {s : State} (hcommit : transact l.live items nowMs = .ok (record, tempids, s)) (hn : NamesIssued l items)
    (hfits : Fits l.live items) (hnext : s.nextUser ≤ sequenceLimit) :
    Inv schema { l with
      log := l.log ++ [record], live := s
      allocated := l.allocated ++ freshIds l.live.db (expandItems items) tempids } := by
  obtain ⟨prepared, leased, hc⟩ := transact_ok hcommit
  obtain ⟨htempids, -, -⟩ := prepare_ok hc.prepare
  obtain ⟨grants, stamp, ha⟩ := hc.allots hnext
  have hlog : logDatoms (l.log ++ [record]) = logDatoms l.log ++ record.datoms := by simp [logDatoms]
  have hleft : ∀ d ∈ logDatoms l.log, d ∈ logDatoms l.log ++ record.datoms := fun d => mem_append_left _
  obtain ⟨hids, hfresh⟩ := hc.issued h.grounded hnext hn h.issued
  rw [hc.tempids, htempids] at hfresh ⊢
  refine ⟨h.grounded.commit hc, ?_, ?_, ?_, fun e he => ?_, ?_, fun root hroot => ?_⟩
  · rw [hlog]
    exact h.grants.commit ha (fun d hd => prepare_no_grants hc.prepare hd) hnext
  · rw [hlog]
    exact hc.past h.grounded h.grants hnext hn h.issued h.past
  · rw [hlog]
    exact AllIds.append (fun d hd e he => (h.issued d hd e he).mono hleft) hids
  · rw [hlog]
    rcases mem_append.mp he with he | he
    · exact ⟨(h.allocated e he).1, (h.allocated e he).2.mono hleft⟩
    · exact ⟨(freshIds_user hfits he).1, hfresh e he⟩
  · refine nodup_append.mpr ⟨h.nodup, freshIds_nodup hfits, fun e he e' he' heq => ?_⟩
    have hold := (h.allocated e he).2.lt h.past (h.allocated e he).1
    have hnew := (freshIds_user hfits he').2
    rw [heq] at hold
    omega
  · obtain ⟨pre, post, s', hsplit, hground, hpast, hpub⟩ := h.roots root hroot
    exact ⟨pre, post ++ [record], s', by simp [hsplit], hground, hpast, hpub⟩

theorem step_inv {e : Event} (h : Inv schema l) (hs : Step schema l e l') (ha : Accounted l e l') : Inv schema l' := by
  cases hs with
  | naming hext => exact h.recover (h.grounded.naming _) h.past
  | commit hcommit => exact h.commit hcommit ha.1 ha.2.1 ha.2.2
  | refuse hrefuse =>
    exact h.recover (h.grounded.of_db (prepareTransaction_db hrefuse)) (h.past.mono (le_prepareTransaction hrefuse ha))
  | publish =>
    refine ⟨h.grounded, h.grants, h.past, h.issued, h.allocated, h.nodup, fun root hroot => ?_⟩
    rcases mem_append.mp hroot with hroot | hroot
    · exact h.roots root hroot
    · exact ⟨l.log, [], l.live, by simp, h.grounded, h.past, mem_singleton.mp hroot⟩
  | replay idents =>
    exact h.recover (grounded_replay h.grounded.sound _ _) (past_replay h.grounded.sound h.grants _ _)
  | restore idents hroot hload =>
    obtain ⟨pre, post, s, hsplit, hground, hpast, rfl⟩ := h.roots _ hroot
    have hsound := h.grounded.sound
    have hgrants := h.grants
    rw [hsplit] at hsound hgrants
    refine h.recover ?_ ?_
    · rw [hsplit]
      exact hground.restore hsound hload _ _
    · rw [hsplit]
      exact past_restore hground hpast hsound hgrants hload _

theorem runs_inv (h : Runs schema Accounted l) : Inv schema l := by
  induction h with
  | start idents interner => exact start_inv idents interner
  | step _ hs ha ih => exact step_inv ih hs ha

/-- In every run whose commits are accounted for, no id is allocated twice, and the
    ids the next transaction allocates are in no datom recorded before it. -/
theorem fresh_ids_are_fresh (h : Runs schema Accounted l) :
    l.allocated.Nodup ∧ ∀ items nowMs record tempids s, transact l.live items nowMs = .ok (record, tempids, s) →
      Fits l.live items → ∀ e ∈ freshIds l.live.db (expandItems items) tempids,
        e ∉ l.allocated ∧ ∀ d ∈ logDatoms l.log, e ∉ datomIds d := by
  have hinv := runs_inv h
  refine ⟨hinv.nodup, fun items nowMs record tempids s hcommit hfits e he => ?_⟩
  obtain ⟨prepared, leased, hc⟩ := transact_ok hcommit
  rw [hc.tempids, (prepare_ok hc.prepare).1] at he
  obtain ⟨hu, hge⟩ := freshIds_user hfits he
  refine ⟨fun hold => ?_, fun d hd hmem => ?_⟩
  · have := (hinv.allocated e hold).2.lt hinv.past hu
    omega
  · have := (hinv.issued d hd e hmem).lt hinv.past hu
    omega

end Invariant

/-! ## Ids the counter misses -/

namespace MissedIdExample

def nameAttr : AttrId := EntityId.new Partition.db.id 100

def friendAttr : AttrId := EntityId.new Partition.db.id 101

def schema : Schema :=
  (Schema.empty.insert (simple nameAttr .str)).insert (simple friendAttr .ref)

def base : Db := creation schema Idents.empty KeywordInterner.empty

def user (n : Nat) : EntityId := EntityId.new Partition.user.id n

/-- One record at `t` with its own datoms and its instant. -/
def recordOf (t : Nat) (datoms : List Datom) : TxRecord :=
  { t, txInstant := Int64.ofNat (4 + t), datoms := datoms ++ [txInstantDatom t (Int64.ofNat (4 + t))] }

/-- The entity 1000 is named before it is allocated. -/
def namedAhead : List TxItem := [.op (.add (.id (user 1000)) nameAttr (.str "a"))]

def namedRecord : TxRecord := recordOf 1 [assertion (txId 1) (user 1000) nameAttr (.str "a")]

/-- The entity 1001 is only referred to. -/
def referred : List TxItem := [.op (.addRef (.temp "a") friendAttr (.temp "b"))]

def referredRecord : TxRecord := recordOf 1 [assertion (txId 1) (user 1000) friendAttr (.ref (user 1001))]

def next : List TxItem := [.op (.add (.temp "x") nameAttr (.str "b"))]

/-- The tempid is the entity 1000, whose name it replaces. -/
def renamedRecord : TxRecord :=
  recordOf 2 [retraction (txId 2) (user 1000) nameAttr (.str "a"),
    assertion (txId 2) (user 1000) nameAttr (.str "b")]

def nextRecord (n : Nat) : TxRecord := recordOf 2 [assertion (txId 2) (user n) nameAttr (.str "b")]

/-- The counter is still at 1000. -/
def namedLife : Life :=
  { log := [namedRecord], live := { recoverFrom base [namedRecord] with nextUser := 1000 }, roots := [], allocated := [] }

theorem runs_named : Runs schema (fun _ _ _ => True) namedLife :=
  Runs.commit (.start Idents.empty KeywordInterner.empty)
    (show transact (recoverFrom base []) namedAhead 5 = .ok (namedRecord, ∅, namedLife.live) by decide +kernel)
    (show freshIds base (expandItems namedAhead) ∅ = [] by decide) trivial

def referredIds : Tempids := ((∅ : Tempids).insert "a" (user 1000)).insert "b" (user 1001)

/-- After a crash and a full replay: the counter is at 1001. -/
def referredLife : Life :=
  { log := [referredRecord], live := recoverFrom base [referredRecord], roots := [], allocated := [user 1000, user 1001] }

theorem runs_referred : Runs schema (fun _ _ _ => True) referredLife :=
  (Runs.commit (.start Idents.empty KeywordInterner.empty)
    (show transact (recoverFrom base []) referred 5 =
      .ok (referredRecord, referredIds, { recoverFrom base [referredRecord] with nextUser := 1002 }) by decide +kernel)
    (show freshIds base (expandItems referred) referredIds = [user 1000, user 1001] by decide)
    trivial).step (.replay _ Idents.empty) trivial

def nextIds (n : Nat) : Tempids := (∅ : Tempids).insert "x" (user n)

/-- An id named ahead of the counter is allocated to a tempid later, and after a
    full replay so is one that was only referred to. -/
theorem ids_the_counter_misses_are_allocated_again :
    (∃ l record tempids s, Runs schema (fun _ _ _ => True) l ∧
      transact l.live next 6 = .ok (record, tempids, s) ∧ Fits l.live next ∧
      ∃ e ∈ freshIds l.live.db (expandItems next) tempids, ∃ d ∈ logDatoms l.log, e = d.e) ∧
    ∃ l record tempids s, Runs schema (fun _ _ _ => True) l ∧
      transact l.live next 6 = .ok (record, tempids, s) ∧ Fits l.live next ∧
      ∃ e ∈ freshIds l.live.db (expandItems next) tempids, e ∈ l.allocated ∧ ∃ d ∈ logDatoms l.log, d.v = .ref e := by
  refine ⟨⟨namedLife, renamedRecord, nextIds 1000, recoverFrom base [namedRecord, renamedRecord], runs_named,
      by decide +kernel, ?_, user 1000, by decide +kernel, by decide⟩,
    referredLife, nextRecord 1001, nextIds 1001, recoverFrom base [referredRecord, nextRecord 1001], runs_referred,
    by decide +kernel, ?_, user 1001, by decide +kernel, by decide, by decide⟩
  · unfold Fits
    decide +kernel
  · unfold Fits
    decide +kernel

/-- A tempid with a name is allocated 1000; after a crash and a replay the counter
    is past it. -/
def adaRecord : TxRecord := recordOf 1 [assertion (txId 1) (user 1000) nameAttr (.str "a")]

def adaLife : Life :=
  { log := [adaRecord], live := recoverFrom base [adaRecord], roots := [], allocated := [user 1000] }

theorem runs_ada : Runs schema Accounted adaLife := by
  have hnames : NamesIssued (start schema Idents.empty KeywordInterner.empty) [.op (.add (.temp "ada") nameAttr (.str "a"))] :=
    ⟨by simp [expandItems, expandItem, assertedIds, refIds, valueIds], by simp [expandItems, expandItem, entityPositions, assertedRef]⟩
  have hfits : Fits (recoverFrom base []) [.op (.add (.temp "ada") nameAttr (.str "a"))] := by
    unfold Fits
    decide +kernel
  have hnext : (recoverFrom base [adaRecord]).nextUser ≤ sequenceLimit := by decide
  refine (Runs.commit (.start Idents.empty KeywordInterner.empty)
    (show transact (recoverFrom base []) [.op (.add (.temp "ada") nameAttr (.str "a"))] 5 =
      .ok (adaRecord, (∅ : Tempids).insert "ada" (user 1000), recoverFrom base [adaRecord]) by decide +kernel)
    (show freshIds base _ ((∅ : Tempids).insert "ada" (user 1000)) = [user 1000] by decide +kernel)
    ⟨hnames, hfits, hnext⟩).step (.replay _ Idents.empty) hnext

theorem fresh_ids_are_fresh_after_replay :
    adaLife.allocated.Nodup ∧ user 1001 ∉ adaLife.allocated ∧ ∀ d ∈ logDatoms adaLife.log, user 1001 ∉ datomIds d := by
  obtain ⟨hnodup, hfresh⟩ := fresh_ids_are_fresh runs_ada
  exact ⟨hnodup, hfresh next 6 (nextRecord 1001) (nextIds 1001) (recoverFrom base [adaRecord, nextRecord 1001])
    (by decide +kernel) (by unfold Fits; decide +kernel) (user 1001) (by decide +kernel)⟩

end MissedIdExample

end Life

end Corium.Transactor
