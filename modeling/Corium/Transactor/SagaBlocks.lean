/-
  Corium.Transactor.SagaBlocks — that a saga's id blocks are its own
  (`lease_saga_grants`, `advance_allocation` of `crates/corium-transactor/src/lib.rs`,
  `validate_granted_ids` of `crates/corium-tx/src/saga.rs`).

  Blocks are carved past the counter, so they are disjoint and hold no allocated
  id as long as the counter is past what was allocated. The write check lets a
  transaction into the blocks of a saga it asserts `:committed` for, also when the
  same transaction takes the status back.

  `saga_blocks_are_exclusive`: in every run accounted for as in `FreshIds`, whose
  transactions do not both assert and retract a status, the blocks of distinct
  sagas are disjoint, no allocated id is in a block, and a transaction that writes
  into an open saga's blocks leaves it `:committed`. `blocks_that_are_shared` shows
  a block carved over an allocated id, and a write into the blocks of a saga that
  is not committed.
-/

import Corium.Transactor.FreshIds
import Corium.Tx.Registry

namespace Corium.Transactor

open Corium.Core Corium.Lib Corium.Tx Bootstrap List Saga

/-! ## Statuses a transaction asserts and keeps -/

/-- A transaction that asserts a saga status retracts none. -/
def KeepsStatus (items : List TxItem) : Prop :=
  (∃ op ∈ expandItems items, assertedAttribute op = some sagaStatus) →
    ∀ op ∈ expandItems items, clears [sagaStatus] op = false ∧ retractsEntity op = false

variable {e : EntityId} {db : Db}
variable {items : List TxItem} {g : IdGrant} {d : Datom} {entry : SagaEntry}

/-- The status a transaction asserts last is in force after it, if it keeps its statuses. -/
theorem prepare_asserted_status {tx : TxId} {n : Nat} {r : PreparedTx}
    (h : prepare db items tx n = .ok r) (hkeep : KeepsStatus items) {status : SagaStatus}
    (hs : assertedStatus db e r.datoms = some status) :
    ∃ v k, holds r.datoms (e, sagaStatus, v) = true ∧ Saga.keyword db v = some k ∧
      SagaStatus.fromKeyword k = status := by
  unfold assertedStatus at hs
  obtain ⟨k, hk, hstatus⟩ := Option.map_eq_some_iff.mp hs
  obtain ⟨d, hd, hkey⟩ := Option.bind_eq_some_iff.mp hk
  have hprop := List.find?_some hd
  simp only [decide_eq_true_eq] at hprop
  have hops := prepare_asserts h (mem_reverse.mp (mem_of_find?_eq_some hd)) hprop.2.2
  rw [hprop.2.1] at hops
  exact ⟨d.v, k, (prepare_replaced h (hkeep hops)).holds mem_cons_self hd, hkey, hstatus⟩

/-! ## Blocks in the log -/

/-- Blocks are apart, each is one saga's, and no allocated id is in one. -/
structure Blocks (datoms : List Datom) (allocated : List EntityId) : Prop where
  apart : ∀ n m, Leased datoms n → Leased datoms m → n ≠ m →
    n + (1 + defaultIdBlock) ≤ m ∨ m + (1 + defaultIdBlock) ≤ n
  owner : ∀ d ∈ datoms, ∀ d' ∈ datoms, d.a = sagaIdGrants → d'.a = sagaIdGrants → d.v = d'.v →
    d.e = d'.e
  allocated : ∀ e ∈ allocated, ∀ n, Leased datoms n → ¬ InBlock n e

section Commit

variable {s s' : State} {prepared : PreparedTx} {record : TxRecord} {grants : List (EntityId × Nat)} {stamp : List Datom}

/-- Two of a commit's own grants are apart. -/
theorem Allots.apart (h : Allots s s' prepared record grants stamp) {x y : EntityId × Nat} (hx : x ∈ grants)
    (hy : y ∈ grants) (hne : x ≠ y) :
    x.2 + (1 + defaultIdBlock) ≤ y.2 ∨ y.2 + (1 + defaultIdBlock) ≤ x.2 := by
  let R := fun x y : EntityId × Nat => x.2 + (1 + defaultIdBlock) ≤ y.2 ∨ y.2 + (1 + defaultIdBlock) ≤ x.2
  have : Std.Symm R := ⟨fun _ _ => Or.symm⟩
  have hpair : grants.Pairwise R := h.separated.imp fun hxy => Or.inl hxy
  exact hpair.forall hx hy hne

/-- A recorded `:db.saga/id-grants` is one of the commit's own grants. -/
theorem Allots.idGrants (h : Allots s s' prepared record grants stamp)
    (hp : ∀ d ∈ prepared.datoms, isGrantAttribute d.a = false ∧ d.a ≠ sagaIdGrants) {d : Datom}
    (hd : d ∈ record.datoms) (ha : d.a = sagaIdGrants) :
    ∃ x ∈ grants, d.e = x.1 ∧ d.v = .ref (grantEntity x.2) := by
  rcases h.mem hd with hd | ⟨x, hx, hd⟩ | rfl
  · exact absurd ha (hp d hd).2
  · obtain ⟨-, -, hf | hf⟩ := mem_grantDatoms_iff.mp hd
    · exact ⟨x, hx, congrArg (·.1) hf, congrArg (·.2.2) hf⟩
    · have hattr := isGrantAttribute_of_mem hf
      rw [show d.fact.2.1 = sagaIdGrants from ha] at hattr
      exact absurd hattr (by decide)
  · exact absurd (show txInstant = sagaIdGrants from ha) (by decide)

variable {datoms : List Datom} {allocated fresh : List EntityId}

theorem Blocks.commit (hb : Blocks datoms allocated) (hg : GrantsSound datoms) (hpast : Past datoms s.nextUser)
    (hold : ∀ e ∈ allocated, e.inPartition .user = true ∧ Issued datoms e)
    (h : Allots s s' prepared record grants stamp)
    (hp : ∀ d ∈ prepared.datoms, isGrantAttribute d.a = false ∧ d.a ≠ sagaIdGrants)
    (hfits : s'.nextUser ≤ sequenceLimit)
    (hfresh : ∀ e ∈ fresh, s.nextUser ≤ e.sequence ∧ e.sequence < tempidFloor prepared.tempids s.nextUser) :
    Blocks (datoms ++ record.datoms) (allocated ++ fresh) := by
  have hfloor := le_tempidFloor prepared.tempids s.nextUser
  have hleased := fun {n} => h.leased_append hp hfits hg (n := n)
  refine ⟨fun n m hn hm hne => ?_, fun d hd d' hd' ha ha' hv => ?_, fun e he n hn hin => ?_⟩
  · rcases hleased hn with hn | ⟨x, hx, rfl⟩ <;> rcases hleased hm with hm | ⟨y, hy, rfl⟩
    · exact hb.apart n m hn hm hne
    · have := hpast.leases n hn
      have := (h.past y hy).1
      omega
    · have := hpast.leases m hm
      have := (h.past x hx).1
      omega
    · exact h.apart hx hy fun heq => hne (congrArg Prod.snd heq)
  · -- an older saga's grant is below the counter
    have hbelow : ∀ d ∈ datoms, d.a = sagaIdGrants → ∀ x ∈ grants, d.v ≠ .ref (grantEntity x.2) := by
      intro d hd ha x hx hv
      obtain ⟨-, n, hn, hl⟩ := hg.idGrants d hd ha
      rw [hv] at hn
      have heq := grantEntity_inj (h.leased hfits hx).1 hl.1 (Value.ref.inj hn)
      have := hpast.leases n hl
      have := (h.past x hx).1
      omega
    rcases mem_append.mp hd with hd | hd <;> rcases mem_append.mp hd' with hd' | hd'
    · exact hb.owner d hd d' hd' ha ha' hv
    · obtain ⟨x, hx, -, hxv⟩ := h.idGrants hp hd' ha'
      exact absurd (hv.trans hxv) (hbelow d hd ha x hx)
    · obtain ⟨x, hx, -, hxv⟩ := h.idGrants hp hd ha
      exact absurd (hv.symm.trans hxv) (hbelow d' hd' ha' x hx)
    · obtain ⟨x, hx, hxe, hxv⟩ := h.idGrants hp hd ha
      obtain ⟨y, hy, hye, hyv⟩ := h.idGrants hp hd' ha'
      have heq : grantEntity x.2 = grantEntity y.2 := Value.ref.inj (hxv.symm.trans (hv.trans hyv))
      have hxy := grantEntity_inj (h.leased hfits hx).1 (h.leased hfits hy).1 heq
      by_cases hne : x = y
      · rw [hxe, hye, hne]
      · have := h.apart hx hy hne
        omega
  · obtain ⟨hu, hlo, hhi⟩ := hin
    rcases mem_append.mp he with he | he <;> rcases hleased hn with hn | ⟨x, hx, rfl⟩
    · exact hb.allocated e he n hn ⟨hu, hlo, hhi⟩
    · have := (hold e he).2.lt hpast hu
      have := (h.past x hx).1
      omega
    · have := (hfresh e he).1
      have := hpast.leases n hn
      omega
    · have := (hfresh e he).2
      have := (h.past x hx).1
      omega

end Commit

/-! ## Reading the blocks off a value -/

section Grounded

variable {schema : Schema} {log : List TxRecord} {s : State}

/-- The blocks leased to `saga`. -/
def leasedTo (db : Db) (saga : EntityId) : List IdGrant :=
  (refs db saga sagaIdGrants).map (grantAt db)

theorem mem_refs {db : Db} (hv : db.view = .current) {e x : EntityId} {a : AttrId} :
    x ∈ refs db e a ↔ db.Holds (e, a, .ref x) := by
  unfold refs
  rw [mem_insertionSort, mem_filterMap, ← Db.mem_values hv]
  constructor
  · rintro ⟨v, hmem, href⟩
    cases v <;> simp only [reference, Option.some.injEq, reduceCtorEq] at href
    exact href ▸ hmem
  · intro h
    exact ⟨_, h, rfl⟩

variable {g : IdGrant}

theorem Grounded.mem_leasedTo (h : Grounded schema log s) (hg : GrantsSound (logDatoms log)) {saga : EntityId}
    (hmem : g ∈ leasedTo s.db saga) : ∃ n, Leased (logDatoms log) n ∧ (∀ e, g.holds e = true ↔ InBlock n e) ∧
      ∃ d ∈ logDatoms log, d.fact = (saga, sagaIdGrants, .ref (grantEntity n)) := by
  obtain ⟨x, hx, rfl⟩ := mem_map.mp hmem
  obtain ⟨d, hd, hfact, -⟩ := h.of_holds ((mem_refs h.view).mp hx)
  obtain ⟨-, n, hv, hn⟩ := hg.idGrants d hd (congrArg (·.2.1) hfact)
  have hxn : x = grantEntity n := Value.ref.inj ((congrArg (·.2.2) hfact).symm.trans hv)
  subst hxn
  exact ⟨n, hn, h.grant_holds hg hn, d, hd, hfact⟩

theorem Grounded.mem_grants (h : Grounded schema log s) (hg : GrantsSound (logDatoms log))
    (hmem : g ∈ Saga.grants s.db) : ∃ n, Leased (logDatoms log) n ∧ ∀ e, g.holds e = true ↔ InBlock n e := by
  obtain ⟨x, hx, rfl⟩ := mem_map.mp hmem
  obtain ⟨d, hd, rfl⟩ := mem_map.mp (mem_sortedEntities.mp hx)
  obtain ⟨ha, -, hl⟩ := (Db.mem_datomsPrefix (Db.showsLive_of_current h.view) (selects_attribute _)).mp hd
  rw [Db.mem_live_iff h.view] at hl
  obtain ⟨-, n, hf, hn⟩ := hg.grant d (h.recorded d (liveDatom_some hl).2.2) (by
    rw [show d.a = sagaGrantStart from ha]
    decide)
  have he : d.e = grantEntity n := by
    simp only [grantFacts, mem_cons, not_mem_nil, or_false] at hf
    rcases hf with hf | hf | hf <;> exact congrArg (·.1) hf
  rw [he]
  exact ⟨n, hn, h.grant_holds hg hn⟩

end Grounded

/-! ## Writes into a block -/

/-- No write of an accepted transaction is in a guarded block. -/
theorem validateGrantedIds_ok {datoms : List Datom} (h : validateGrantedIds db datoms = .ok ())
    (hd : d ∈ datoms) (he : e ∈ namedIds d) (hg : g ∈ guardedGrants db datoms) : g.holds e = false := by
  unfold validateGrantedIds at h
  simp only at h
  split at h
  · cases h
  · rename_i hnone
    have := List.find?_eq_none.mp hnone e (mem_flatMap.mpr ⟨d, hd, he⟩)
    simp only [any_eq_true, not_exists, not_and] at this
    exact Bool.eq_false_iff.mpr (this g hg)

theorem mem_openEntries (h : entry ∈ openEntries db) : entryAt db entry.entity = some entry := by
  obtain ⟨hmem, -⟩ := mem_filter.mp h
  obtain ⟨e, -, hentry⟩ := mem_filterMap.mp hmem
  have he : entry.entity = e := by
    unfold entryAt at hentry
    obtain ⟨id, -, rfl⟩ := Option.map_eq_some_iff.mp hentry
    rfl
  rw [he, hentry]

theorem grants_eq_leasedTo (h : entryAt db e = some entry) : entry.grants = leasedTo db e := by
  unfold entryAt at h
  obtain ⟨id, -, rfl⟩ := Option.map_eq_some_iff.mp h
  rfl

/-- A commit stays out of the blocks of the open sagas it does not commit. -/
theorem Committed.outside {schema : Schema} {l : Life} {nowMs : Int64} {record : TxRecord}
    {tempids : Tempids} {s : State} {prepared : PreparedTx} {leased : List Datom}
    (hc : Committed l.live items nowMs record tempids s prepared leased) (hinv : Life.Inv schema l)
    (hfits : s.nextUser ≤ sequenceLimit) (hentry : entry ∈ openEntries l.live.db)
    (hstatus : assertedStatus l.live.db entry.entity prepared.datoms ≠ some .committed)
    (hd : d ∈ record.datoms) (he : e ∈ namedIds d) (hg : g ∈ entry.grants) : g.holds e = false := by
  obtain ⟨grants, stamp, ha⟩ := hc.allots hfits
  have hval : validateGrantedIds l.live.db prepared.datoms = .ok () := by
    obtain ⟨-, -, hval⟩ := prepare_ok hc.prepare
    unfold validateSagas at hval
    simp only [bind_eq_ok] at hval
    obtain ⟨_, -, _, hval, -⟩ := hval
    exact hval
  have hguard : g ∈ guardedGrants l.live.db prepared.datoms := by
    refine mem_flatMap.mpr ⟨entry, mem_filter.mpr ⟨hentry, ?_⟩, hg⟩
    simpa using hstatus
  rw [grants_eq_leasedTo (mem_openEntries hentry)] at hg
  obtain ⟨n, hn, hholds, -⟩ := hinv.grounded.mem_leasedTo hinv.grants hg
  have hend := hinv.past.leases n hn
  rw [Bool.eq_false_iff, ne_eq, hholds]
  rintro ⟨hu, hlo, hhi⟩
  rcases ha.mem hd with hd | ⟨x, hx, hd⟩ | rfl
  · exact Bool.eq_false_iff.mp (validateGrantedIds_ok hval hd he hguard) ((hholds e).mpr ⟨hu, hlo, hhi⟩)
  · obtain ⟨-, -, hf | hf⟩ := mem_grantDatoms_iff.mp hd
    · -- the saga opened is an entity of the transaction; its grant is a registry reference
      have hde : e = x.1 := by
        unfold namedIds at he
        rw [show d.v = .ref (grantEntity x.2) from congrArg (·.2.2) hf,
          show d.a = sagaIdGrants from congrArg (·.2.1) hf,
          show d.e = x.1 from congrArg (·.1) hf] at he
        simpa [show isRegistryAttribute sagaIdGrants = true by decide] using he
      obtain ⟨d', hd', hde'⟩ := mem_map.mp (mem_filter.mp (ha.opened x hx)).1
      have := validateGrantedIds_ok hval (mem_filter.mp hd').1 mem_cons_self hguard
      rw [hde', ← hde] at this
      exact Bool.eq_false_iff.mp this ((hholds e).mpr ⟨hu, hlo, hhi⟩)
    · have hde : e = grantEntity x.2 := by
        simp only [grantFacts, mem_cons, not_mem_nil, or_false] at hf
        unfold namedIds at he
        rcases hf with hf | hf | hf <;>
          (rw [show d.v = _ from congrArg (·.2.2) hf, show d.e = _ from congrArg (·.1) hf] at he
           simpa using he)
      rw [hde, grantEntity_sequence (ha.leased hfits hx).1] at hhi
      have := (ha.past x hx).1
      have := le_tempidFloor prepared.tempids l.live.nextUser
      omega
  · have hde : e = txId (l.live.db.basisT + 1) := by
      unfold namedIds at he
      simpa [txInstantDatom] using he
    rw [hde, txId_not_user] at hu
    cases hu

namespace Life

/-- A commit accounted for that keeps the statuses it asserts. -/
def Exclusive (l : Life) : Event → Life → Prop
  | .commit items, l' => Accounted l (.commit items) l' ∧ KeepsStatus items
  | .other, l' => Accounted l .other l'

section Exclusive

variable {schema : Schema} {l l' : Life}

theorem Exclusive.accounted {e : Event} (h : Exclusive l e l') : Accounted l e l' := by
  cases e with
  | commit items => exact h.1
  | other => exact h

theorem runs_blocks (h : Runs schema Exclusive l) : Inv schema l ∧ Blocks (logDatoms l.log) l.allocated := by
  induction h with
  | start idents interner =>
    refine ⟨start_inv idents interner, ?_, ?_, ?_⟩
    · intro n m hn
      obtain ⟨d, hd, -⟩ := hn.2 _ mem_cons_self
      cases hd
    · exact fun d hd => absurd hd not_mem_nil
    · exact fun e he => absurd he not_mem_nil
  | step _ hs hex ih =>
    obtain ⟨hinv, hb⟩ := ih
    refine ⟨step_inv hinv hs hex.accounted, ?_⟩
    cases hs with
    | commit hcommit =>
      obtain ⟨prepared, leased, hc⟩ := transact_ok hcommit
      obtain ⟨⟨-, hfits, hnext⟩, -⟩ := hex
      obtain ⟨grants, stamp, ha⟩ := hc.allots hnext
      obtain ⟨htempids, -, -⟩ := prepare_ok hc.prepare
      have hlog : ∀ log record, logDatoms (log ++ [record]) = logDatoms log ++ record.datoms := by simp [logDatoms]
      rw [hlog]
      refine hb.commit hinv.grants hinv.past hinv.allocated ha (fun d hd => prepare_no_grants hc.prepare hd) hnext
        fun e he => ?_
      rw [hc.tempids] at he
      obtain ⟨hu, hge⟩ := freshIds_user hfits (htempids ▸ he)
      obtain ⟨t, ht, -⟩ := mem_freshIds.mp he
      exact ⟨hge, lt_tempidFloor _ ht hu⟩
    | _ => exact hb

/-- In every run whose commits are accounted for and keep the statuses they assert:
    the blocks of distinct sagas are disjoint; no allocated id is in a block; and
    the next transaction writes into the blocks of an open saga only to commit it. -/
theorem saga_blocks_are_exclusive (h : Runs schema Exclusive l) :
    (∀ saga saga', saga ≠ saga' → ∀ g ∈ leasedTo l.live.db saga, ∀ g' ∈ leasedTo l.live.db saga', ∀ e,
      ¬ (g.holds e = true ∧ g'.holds e = true)) ∧
    (∀ e ∈ l.allocated, ∀ g ∈ Saga.grants l.live.db, g.holds e = false) ∧
    ∀ items nowMs record tempids s, transact l.live items nowMs = .ok (record, tempids, s) → KeepsStatus items →
      s.nextUser ≤ sequenceLimit → ∀ entry ∈ openEntries l.live.db,
        HoldsStatus s.db entry.entity .committed ∨
          ∀ d ∈ record.datoms, ∀ e ∈ namedIds d, ∀ g ∈ entry.grants, g.holds e = false := by
  obtain ⟨hinv, hb⟩ := runs_blocks h
  refine ⟨fun saga saga' hne g hg g' hg' e ⟨he, he'⟩ => ?_, fun e he g hg => ?_, ?_⟩
  · obtain ⟨n, hn, hholds, d, hd, hf⟩ := hinv.grounded.mem_leasedTo hinv.grants hg
    obtain ⟨m, hm, hholds', d', hd', hf'⟩ := hinv.grounded.mem_leasedTo hinv.grants hg'
    have hnm : n ≠ m := by
      rintro rfl
      refine hne ?_
      have := hb.owner d hd d' hd' (congrArg (·.2.1) hf) (congrArg (·.2.1) hf')
        ((congrArg (·.2.2) hf).trans (congrArg (·.2.2) hf').symm)
      rwa [show d.e = saga from congrArg (·.1) hf, show d'.e = saga' from congrArg (·.1) hf'] at this
    obtain ⟨-, hlo, hhi⟩ := (hholds e).mp he
    obtain ⟨-, hlo', hhi'⟩ := (hholds' e).mp he'
    have := hb.apart n m hn hm hnm
    omega
  · obtain ⟨n, hn, hholds⟩ := hinv.grounded.mem_grants hinv.grants hg
    rw [Bool.eq_false_iff, ne_eq, hholds]
    exact hb.allocated e he n hn
  · intro items nowMs record tempids s hcommit hkeep hfits entry hentry
    obtain ⟨prepared, leased, hc⟩ := transact_ok hcommit
    by_cases hstatus : assertedStatus l.live.db entry.entity prepared.datoms = some .committed
    · left
      obtain ⟨v, k, hv, hk, hcommitted⟩ := prepare_asserted_status hc.prepare hkeep hstatus
      have hs := applyRecord_stands (hc.sound hinv.grounded.view) l.live.db
      refine ⟨v, k, ?_, ?_, hcommitted⟩
      · obtain ⟨grants, stamp, ha⟩ := hc.allots hfits
        rw [Db.Holds, hc.db, hs.recorded, ha.datoms, append_assoc, ← append_assoc]
        refine (holds_append_of_ne fun d hd hf => ?_).trans (holds_append_of_holds _ hv)
        have hattr : d.a = sagaStatus := congrArg (·.2.1) hf
        rcases mem_append.mp hd with hd | hd
        · obtain ⟨x, -, hd⟩ := mem_flatMap.mp hd
          obtain ⟨-, -, ha | ha⟩ := mem_grantDatoms hd
          · exact absurd (hattr.symm.trans ha) (by decide)
          · rw [hattr] at ha
            exact absurd ha (by decide)
        · rw [ha.stamp d hd] at hattr
          exact absurd (show txInstant = sagaStatus from hattr) (by decide)
      · rw [hc.db]
        cases v with
        | keyword id => exact hs.interner.resolve hk
        | _ => cases hk
    · exact .inr fun d hd e he g hg => hc.outside hinv hfits hentry hstatus hd he hg

end Exclusive

/-! ## Blocks that are shared -/

namespace SharedBlockExample

open MissedIdExample (user recordOf nameAttr)

def friendsAttr : AttrId := EntityId.new Partition.db.id 101

def schema : Schema :=
  (Schema.empty.insert (simple nameAttr .str)).insert
    { simple friendsAttr .ref with cardinality := .many }

def opened : Keyword := ⟨some statusNamespace, "open"⟩

def committed : Keyword := ⟨some statusNamespace, "committed"⟩

def interner : KeywordInterner := ((KeywordInterner.empty.intern opened).2.intern committed).2

def base : Db := creation schema Idents.empty interner

/-- Three entities only referred to: 1001, 1002 and 1003. -/
def referred : List TxItem :=
  [.op (.addRef (.temp "a") friendsAttr (.temp "b")), .op (.addRef (.temp "a") friendsAttr (.temp "c")),
    .op (.addRef (.temp "a") friendsAttr (.temp "d"))]

def referredRecord : TxRecord :=
  recordOf 1 ([1001, 1002, 1003].map fun n => assertion (txId 1) (user 1000) friendsAttr (.ref (user n)))

def referredIds : Tempids :=
  ((((∅ : Tempids).insert "a" (user 1000)).insert "b" (user 1001)).insert "c" (user 1002)).insert "d" (user 1003)

def openSaga : List TxItem :=
  [.map { entity := .temp "s", attributes := [(sagaId, [.uuid 7]), (sagaStatus, [.keyword 0]),
    (sagaBasisT, [.long 0]), (sagaOwner, [.str "o"]), (sagaExpiresAt, [.instant 9])] }]

/-- The saga at `n`, opened at `t`, with the grant at `n + 1`. -/
def openRecord (t n : Nat) : TxRecord :=
  recordOf t ([(sagaId, Value.uuid 7), (sagaStatus, .keyword 0), (sagaBasisT, .long 0),
      (sagaOwner, .str "o"), (sagaExpiresAt, .instant 9)].map
      (fun x => assertion (txId t) (user n) x.1 x.2) ++ grantDatoms (txId t) (user n) (n + 1))

def openIds (n : Nat) : Tempids := (∅ : Tempids).insert "s" (user n)

/-- After a crash and a replay the counter is at 1001, and the block starts at 1003. -/
def coveredLife : Life :=
  { log := [referredRecord, openRecord 2 1001], live := recoverFrom base [referredRecord, openRecord 2 1001], roots := [],
    allocated := [user 1000, user 1001, user 1002, user 1003, user 1001] }

theorem runs_covered : Runs schema (fun _ _ _ => True) coveredLife :=
  Runs.commit ((Runs.commit (.start Idents.empty interner)
      (show transact (recoverFrom base []) referred 5 =
        .ok (referredRecord, referredIds, { recoverFrom base [referredRecord] with nextUser := 1004 }) by decide +kernel)
      (show freshIds base (expandItems referred) referredIds = [user 1000, user 1001, user 1002, user 1003] by
        decide)
      trivial).step (.replay _ Idents.empty) trivial)
    (show transact (recoverFrom base [referredRecord]) openSaga 6 =
      .ok (openRecord 2 1001, openIds 1001, coveredLife.live) by decide +kernel)
    (show freshIds (recoverFrom base [referredRecord]).db (expandItems openSaga) (openIds 1001) = [user 1001] by
      decide +kernel)
    trivial

/-- One open saga, the entity 1000, with the block after 1001. -/
def openLife : Life :=
  { log := [openRecord 1 1000], live := recoverFrom base [openRecord 1 1000], roots := [], allocated := [user 1000] }

theorem runs_open {P : Life → Event → Life → Prop}
    (hP : P (start schema Idents.empty interner) (.commit openSaga) openLife) : Runs schema P openLife :=
  Runs.commit (.start Idents.empty interner)
    (show transact (recoverFrom base []) openSaga 5 = .ok (openRecord 1 1000, openIds 1000, openLife.live) by
      decide +kernel)
    (show freshIds base (expandItems openSaga) (openIds 1000) = [user 1000] by decide +kernel) hP

/-- The status is asserted and taken back; meanwhile a datom goes into the block. -/
def takeBack : List TxItem :=
  [.op (.add (.id (user 1000)) sagaStatus (.keyword 1)),
    .op (.retract (.id (user 1000)) sagaStatus (.keyword 1)), .op (.add (.id (user 1002)) nameAttr (.str "x"))]

def takeBackRecord : TxRecord :=
  recordOf 2 [retraction (txId 2) (user 1000) sagaStatus (.keyword 0),
    assertion (txId 2) (user 1000) sagaStatus (.keyword 1),
    retraction (txId 2) (user 1000) sagaStatus (.keyword 1),
    assertion (txId 2) (user 1002) nameAttr (.str "x")]

def takenBack : State :=
  { recoverFrom base [openRecord 1 1000, takeBackRecord] with nextUser := openLife.live.nextUser }

/-- A block is carved over an allocated id; and a transaction that does not leave an
    open saga committed writes into its block. -/
theorem blocks_that_are_shared :
    (∃ l, Runs schema (fun _ _ _ => True) l ∧ ∃ e ∈ l.allocated, ∃ g ∈ Saga.grants l.live.db, g.holds e = true) ∧
    ∃ l record tempids s, Runs schema (fun _ _ _ => True) l ∧ transact l.live takeBack 6 = .ok (record, tempids, s) ∧
      s.nextUser ≤ sequenceLimit ∧ ∃ entry ∈ openEntries l.live.db, ¬ HoldsStatus s.db entry.entity .committed ∧
        ∃ d ∈ record.datoms, ∃ g ∈ entry.grants, g.holds d.e = true := by
  refine ⟨⟨coveredLife, runs_covered, user 1003, by decide, by decide⟩, openLife, takeBackRecord, ∅,
    takenBack, runs_open trivial, by decide +kernel, by decide, ?_⟩
  have hentry : ∃ entry ∈ openEntries openLife.live.db, entry.entity = user 1000 ∧
      ∃ d ∈ takeBackRecord.datoms, ∃ g ∈ entry.grants, g.holds d.e = true := by decide
  obtain ⟨entry, hmem, he, hblock⟩ := hentry
  refine ⟨entry, hmem, ?_, hblock⟩
  rintro ⟨v, k, hv, -⟩
  rw [he, ← Db.mem_values (show takenBack.db.view = .current by decide)] at hv
  rw [show takenBack.db.values (user 1000) sagaStatus = [] by decide] at hv
  cases hv

def named : List TxItem := [.op (.add (.temp "x") nameAttr (.str "x"))]

def namedRecord : TxRecord :=
  recordOf 2 [assertion (txId 2) (user (1002 + defaultIdBlock)) nameAttr (.str "x")]

theorem exclusive_open : Exclusive (start schema Idents.empty interner) (.commit openSaga) openLife := by
  refine ⟨⟨⟨?_, ?_⟩, ?_, by decide⟩, ?_⟩
  · intro op hop x hx
    have hnone : ∀ op ∈ expandItems openSaga, assertedIds op = [] := by decide
    rw [hnone op hop] at hx
    cases hx
  · intro op hop t ht _
    have hmem : ∀ op ∈ expandItems openSaga, .temp t ∈ entityPositions op → assertedRef op = some (.temp t) := by
      simp [openSaga, expandItems, expandItem, entityPositions, assertedRef, eq_comm]
    exact ⟨op, hop, hmem op hop ht⟩
  · unfold Fits
    decide +kernel
  · intro _
    decide

/-- The next entity is allocated past the block of the open saga. -/
theorem saga_blocks_are_exclusive_open :
    Runs schema Exclusive openLife ∧ (∀ e ∈ openLife.allocated, ∀ g ∈ Saga.grants openLife.live.db, g.holds e = false) ∧
    ∀ entry ∈ openEntries openLife.live.db,
      HoldsStatus (recoverFrom base [openRecord 1 1000, namedRecord]).db entry.entity .committed ∨
        ∀ d ∈ namedRecord.datoms, ∀ e ∈ namedIds d, ∀ g ∈ entry.grants, g.holds e = false := by
  have hruns : Runs schema Exclusive openLife := runs_open exclusive_open
  obtain ⟨-, hallocated, hwrites⟩ := saga_blocks_are_exclusive hruns
  exact ⟨hruns, hallocated, hwrites named 6 namedRecord ((∅ : Tempids).insert "x" (user (1002 + defaultIdBlock)))
    (recoverFrom base [openRecord 1 1000, namedRecord]) (by decide +kernel) (fun _ => by decide) (by decide)⟩

end SharedBlockExample

end Life

end Corium.Transactor
