/-
  Corium.Transactor.Grants — the entity-id blocks leased to sagas
  (`lease_saga_grants`, `floor_past_grants` of
  `crates/corium-transactor/src/lib.rs`, `grants` and `grant_ceiling` of
  `crates/corium-db/src/saga.rs`).

  A block is recorded on a grant entity: grant `n` is the user entity `n`, and
  its block the `defaultIdBlock` sequences after it. Clients cannot write grant
  attributes, so a log holds exactly the transactor's own grants
  (`GrantsSound`), every recovered value shows each of them whole
  (`Grounded.grantAt`), and recovery's floor is past their blocks
  (`Grounded.le_grantCeiling`).
-/

import Corium.Lib.Counter
import Corium.Transactor.Life

namespace Corium.Transactor

open Corium.Core Corium.Lib Corium.Tx Bootstrap List Saga

/-! ## Leasing -/

/-- The counter past a grant at `n` and its block. -/
def leaseNext (n : Nat) : Nat := min (n + 1 + defaultIdBlock) (2 ^ 64 - 1)

/-- The sagas a transaction opens. -/
def openedSagas (before : Db) (datoms : List Datom) : List EntityId :=
  ((datoms.filter fun d => d.a = sagaId ∧ d.added).map (·.e)).filter fun e => (entryAt before e).isNone

theorem leaseSagaGrants_eq (before : Db) (datoms : List Datom) (tx : TxId) (next : Nat) :
    leaseSagaGrants before datoms tx next =
      (datoms ++ (stamped leaseNext (openedSagas before datoms) next).flatMap fun x => grantDatoms tx x.1 x.2,
        leaseNext^[(openedSagas before datoms).length] next) := by
  unfold leaseSagaGrants
  exact foldl_stamped leaseNext (grantDatoms tx) (openedSagas before datoms) datoms next

theorem leaseNext_ge (n : Nat) (h : leaseNext n ≤ sequenceLimit) : n + (1 + defaultIdBlock) ≤ leaseNext n := by
  unfold leaseNext sequenceLimit at h
  unfold leaseNext
  omega

/-- One past the user sequences of `tempids`, at least `n`. -/
def tempidFloor (tempids : Tempids) (n : Nat) : Nat :=
  ((tempids.toList.filter fun x => x.2.inPartition .user).map fun x => x.2.sequence + 1).foldl max n

theorem le_tempidFloor (tempids : Tempids) (n : Nat) : n ≤ tempidFloor tempids n :=
  (foldl_max_le_iff.mp (Nat.le_refl (tempidFloor tempids n))).1

variable {e : EntityId} {tempids : Tempids} {items : List TxItem} {m : Nat} {f : Fact} {d : Datom} {tx : TxId}

theorem lt_tempidFloor (n : Nat) {t : String} (h : tempids[t]? = some e)
    (hu : e.inPartition .user = true) : e.sequence < tempidFloor tempids n := by
  have hle := (foldl_max_le_iff.mp (Nat.le_refl (tempidFloor tempids n))).2
  refine hle (e.sequence + 1) (mem_map.mpr ⟨(t, e), mem_filter.mpr ⟨?_, hu⟩, rfl⟩)
  exact Std.ExtTreeMap.mem_toList_iff_getElem?_eq_some.mpr h

/-- What a commit allocates: the prepared datoms, then the grants of the sagas it
    opens, carved past the tempids, then its instant where it asserts none. -/
structure Allots (s s' : State) (prepared : PreparedTx) (record : TxRecord) (grants : List (EntityId × Nat))
    (stamp : List Datom) : Prop where
  datoms : record.datoms = prepared.datoms ++ (grants.flatMap fun x => grantDatoms s.nextTx x.1 x.2) ++ stamp
  stamp : ∀ d ∈ stamp, d = txInstantDatom (s.db.basisT + 1) record.txInstant
  floor : tempidFloor prepared.tempids s.nextUser ≤ s'.nextUser
  opened : ∀ x ∈ grants, x.1 ∈ openedSagas s.db prepared.datoms
  past : ∀ x ∈ grants, tempidFloor prepared.tempids s.nextUser ≤ x.2 ∧ x.2 + (1 + defaultIdBlock) ≤ s'.nextUser
  separated : grants.Pairwise fun x y => x.2 + (1 + defaultIdBlock) ≤ y.2

theorem Committed.allots {s s' : State} {nowMs : Int64} {record : TxRecord}
    {prepared : PreparedTx} {leased : List Datom} (h : Committed s items nowMs record tempids s' prepared leased)
    (hfits : s'.nextUser ≤ sequenceLimit) : ∃ grants stamp, Allots s s' prepared record grants stamp := by
  have hadv := h.advance
  unfold advanceAllocation at hadv
  change leaseSagaGrants s.db prepared.datoms s.nextTx (tempidFloor prepared.tempids s.nextUser) = _ at hadv
  rw [leaseSagaGrants_eq] at hadv
  obtain ⟨hleased, hnext⟩ := Prod.mk.inj hadv
  rw [← hnext] at hfits
  have hseal := (sealTxInstant_ok h.sealed).1
  refine ⟨stamped leaseNext (openedSagas s.db prepared.datoms) (tempidFloor prepared.tempids s.nextUser),
    record.datoms.drop leased.length, ?_, ?_, ?_, fun x hx => ?_, fun x hx => ?_, ?_⟩
  · rw [hleased]
    rcases hseal with hseal | hseal <;> simp [hseal]
  · intro d hd
    rcases hseal with hseal | hseal
    · simp [hseal] at hd
    · simpa [hseal] using hd
  · rw [← hnext]
    exact le_iterate_of_le leaseNext_ge hfits
  · exact (stamped_mem leaseNext_ge hfits hx).1
  · rw [← hnext]
    exact (stamped_mem leaseNext_ge hfits hx).2
  · exact stamped_separated leaseNext_ge hfits

/-! ## Grants in the log -/

def grantEntity (n : Nat) : EntityId := EntityId.new Partition.user.id n

/-- What grant `n` records on its entity. -/
def grantFacts (n : Nat) : List Fact :=
  [(grantEntity n, sagaGrantPartition, .long (Int64.ofNat Partition.user.id)),
    (grantEntity n, sagaGrantStart, .long (Int64.ofNat (n + 1))),
    (grantEntity n, sagaGrantLength, .long (Int64.ofNat defaultIdBlock))]

/-- Grant `n` is recorded. -/
def Leased (datoms : List Datom) (n : Nat) : Prop := n < sequenceLimit ∧ ∀ f ∈ grantFacts n, ∃ d ∈ datoms, d.fact = f

structure GrantsSound (datoms : List Datom) : Prop where
  grant : ∀ d ∈ datoms, isGrantAttribute d.a = true → d.added = true ∧ ∃ n, d.fact ∈ grantFacts n ∧ Leased datoms n
  idGrants : ∀ d ∈ datoms, d.a = sagaIdGrants → d.added = true ∧
    ∃ n, d.v = .ref (grantEntity n) ∧ Leased datoms n

theorem grantEntity_inj {n : Nat} (hn : n < sequenceLimit) (hm : m < sequenceLimit)
    (h : grantEntity n = grantEntity m) : n = m := EntityId.new_injective_of_lt hn hm h

variable {n : Nat}

theorem grantEntity_sequence (h : n < sequenceLimit) : (grantEntity n).sequence = n := by
  unfold grantEntity
  rw [EntityId.new_sequence]
  exact Nat.mod_eq_of_lt h

theorem grantEntity_user (n : Nat) : (grantEntity n).inPartition .user = true := by
  unfold grantEntity EntityId.inPartition
  rw [EntityId.new_partition n Partition.user.id_lt]
  rfl

theorem isGrantAttribute_of_mem (h : f ∈ grantFacts n) : isGrantAttribute f.2.1 = true := by
  simp only [grantFacts, mem_cons, not_mem_nil, or_false] at h
  rcases h with rfl | rfl | rfl
  · exact (by decide : isGrantAttribute sagaGrantPartition = true)
  · exact (by decide : isGrantAttribute sagaGrantStart = true)
  · exact (by decide : isGrantAttribute sagaGrantLength = true)

/-- A grant records one fact per attribute, on its own entity. -/
theorem grantFacts_unique {n : Nat} {f' : Fact} (hn : n < sequenceLimit) (hm : m < sequenceLimit)
    (hf : f ∈ grantFacts n) (hf' : f' ∈ grantFacts m) (he : f.1 = f'.1) : n = m ∧ (f.2.1 = f'.2.1 → f = f') := by
  have hps : sagaGrantPartition ≠ sagaGrantStart := by decide
  have hpl : sagaGrantPartition ≠ sagaGrantLength := by decide
  have hsl : sagaGrantStart ≠ sagaGrantLength := by decide
  have hent : ∀ {k : Nat} {g : Fact}, g ∈ grantFacts k → g.1 = grantEntity k := by
    intro k g hg
    simp only [grantFacts, mem_cons, not_mem_nil, or_false] at hg
    rcases hg with rfl | rfl | rfl <;> rfl
  have hnm : n = m := grantEntity_inj hn hm ((hent hf).symm.trans (he.trans (hent hf')))
  subst hnm
  refine ⟨rfl, fun ha => ?_⟩
  simp only [grantFacts, mem_cons, not_mem_nil, or_false] at hf hf'
  rcases hf with rfl | rfl | rfl <;> rcases hf' with rfl | rfl | rfl <;> first | rfl | (exfalso; simp_all)

theorem Leased.mono {ds ds' : List Datom} (h : Leased ds n) (hsub : ∀ d ∈ ds, d ∈ ds') : Leased ds' n := by
  refine ⟨h.1, fun f hf => ?_⟩
  obtain ⟨d, hd, hdf⟩ := h.2 f hf
  exact ⟨d, hsub d hd, hdf⟩

/-- Nothing retracts what a grant records. -/
theorem GrantsSound.onlyAsserted {datoms : List Datom} (h : GrantsSound datoms) (hn : Leased datoms n)
    (hf : f ∈ grantFacts n) : OnlyAsserted datoms f :=
  ⟨hn.2 f hf, fun d hd hdf => (h.grant d hd (by
    have := isGrantAttribute_of_mem hf
    rw [← hdf] at this
    exact this)).1⟩

theorem mem_sortedEntities {es : List EntityId} : e ∈ sortedEntities es ↔ e ∈ es := by
  unfold sortedEntities
  rw [Std.ExtTreeSet.mem_toList, Std.ExtTreeSet.mem_ofList]
  simp

section Grounded

variable {schema : Schema} {log : List TxRecord} {s : State}

theorem field_eq {α : Type} {db : Db} {e : EntityId} {a : AttrId} {v : Value} (hv : db.view = .current)
    (h : db.Holds (e, a, v)) (hunique : ∀ v', db.Holds (e, a, v') → v' = v) (parse : Value → Option α) :
    Saga.field db e a parse = parse v := by
  have hmem := (Db.mem_values hv).mpr h
  unfold Saga.field
  cases hvs : db.values e a with
  | nil => rw [hvs] at hmem; cases hmem
  | cons v' rest =>
    have hv' : v' ∈ db.values e a := by rw [hvs]; exact mem_cons_self
    rw [hunique v' ((Db.mem_values hv).mp hv')]
    rfl

/-- A grant of `b` sequences after `n`. -/
def grantOf (n b : Nat) : IdGrant :=
  ⟨grantEntity n, some (Int64.ofNat Partition.user.id), some (Int64.ofNat (n + 1)), some (Int64.ofNat b)⟩

variable {n : Nat}

/-- Every live value shows a recorded grant whole. -/
theorem Grounded.grantAt (h : Grounded schema log s) (hg : GrantsSound (logDatoms log))
    (hn : Leased (logDatoms log) n) :
    grantAt s.db (grantEntity n) = grantOf n defaultIdBlock := by
  have hfield : ∀ {α : Type} {a : AttrId} {v : Value} (parse : Value → Option α),
      (grantEntity n, a, v) ∈ grantFacts n → Saga.field s.db (grantEntity n) a parse = parse v := by
    intro α a v parse hf
    refine field_eq h.view (h.holds (hg.onlyAsserted hn hf)) (fun v' hv' => ?_) parse
    obtain ⟨d, hd, hdf, -⟩ := h.of_holds hv'
    have hattr : isGrantAttribute d.a = true := by
      have ha : d.a = a := congrArg (·.2.1) hdf
      rw [ha]
      exact isGrantAttribute_of_mem hf
    obtain ⟨-, m, hm, hleased⟩ := hg.grant d hd hattr
    rw [hdf] at hm
    have heq := (grantFacts_unique hleased.1 hn.1 hm hf rfl).2 rfl
    exact congrArg (·.2.2) heq
  unfold Saga.grantAt
  rw [hfield long mem_cons_self, hfield long (mem_cons_of_mem _ mem_cons_self),
    hfield long (mem_cons_of_mem _ (mem_cons_of_mem _ mem_cons_self))]
  rfl

/-- `e` is in the block of grant `n`. -/
def InBlock (n : Nat) (e : EntityId) : Prop :=
  e.inPartition .user = true ∧ n < e.sequence ∧ e.sequence < n + (1 + defaultIdBlock)

theorem toInt_ofNat (h : n < 2 ^ 63) : (Int64.ofNat n).toInt = n := Int64.toInt_ofNat_of_lt h

variable {b : Nat}

theorem grantOf_stop {n : Nat} (hn : n < 2 ^ 42) (hb : b < 2 ^ 42) : (grantOf n b).stop = some ((n : Int) + (1 + b)) := by
  have hstart : (Int64.ofNat (n + 1)).toInt = ((n + 1 : Nat) : Int) := toInt_ofNat (by omega)
  have hlength : (Int64.ofNat b).toInt = (b : Int) := toInt_ofNat (by omega)
  simp only [IdGrant.stop, grantOf, hstart, hlength]
  rw [if_pos (by omega), Option.some.injEq]
  omega

theorem grantOf_holds {n : Nat} (hn : n < 2 ^ 42) (hb : b < 2 ^ 42) (e : EntityId) : (grantOf n b).holds e = true ↔
    e.inPartition .user = true ∧ n < e.sequence ∧ e.sequence < n + (1 + b) := by
  have hstart : (Int64.ofNat (n + 1)).toInt = ((n + 1 : Nat) : Int) := toInt_ofNat (by omega)
  have hpart : (Int64.ofNat Partition.user.id).toInt = (Partition.user.id : Int) := toInt_ofNat (by decide)
  simp only [IdGrant.holds, IdGrant.contains, grantOf_stop hn hb, Option.any_some, Bool.and_eq_true,
    decide_eq_true_eq, EntityId.inPartition, beq_iff_eq]
  simp only [grantOf, Option.map_some, hpart, hstart, Option.any_some, Option.some.injEq, decide_eq_true_eq]
  omega

theorem defaultIdBlock_lt : defaultIdBlock < 2 ^ 42 := by decide

/-- The block a grant contains. -/
theorem Grounded.grant_holds (h : Grounded schema log s) (hg : GrantsSound (logDatoms log))
    (hn : Leased (logDatoms log) n) (e : EntityId) :
    (Saga.grantAt s.db (grantEntity n)).holds e = true ↔ InBlock n e := by
  rw [h.grantAt hg hn]
  exact grantOf_holds hn.1 defaultIdBlock_lt e

/-- Recovery's floor is past every block. -/
theorem Grounded.le_grantCeiling (h : Grounded schema log s) (hg : GrantsSound (logDatoms log))
    (hn : Leased (logDatoms log) n) : n + (1 + defaultIdBlock) ≤ grantCeiling s.db Partition.user.id := by
  have hstart : (grantEntity n, sagaGrantStart, Value.long (Int64.ofNat (n + 1))) ∈ grantFacts n :=
    mem_cons_of_mem _ mem_cons_self
  obtain ⟨d, hd⟩ := holds_iff.mp (h.holds (hg.onlyAsserted hn hstart))
  have hfact := (liveDatom_some hd).1
  have hmem : d ∈ datomsForAttribute s.db sagaGrantStart := by
    refine (Db.mem_datomsPrefix (Db.showsLive_of_current h.view) (selects_attribute _)).mpr ⟨?_, rfl, ?_⟩
    · rw [hfact]
    · rw [Db.mem_live_iff h.view, hfact]
      exact hd
  have hentity : grantEntity n ∈ sortedEntities
      ((datomsForAttribute s.db sagaGrantStart).map (·.e)) := by
    refine mem_sortedEntities.mpr (mem_map.mpr ⟨d, hmem, ?_⟩)
    exact congrArg (·.1) hfact
  have hgrant : Saga.grantAt s.db (grantEntity n) ∈ Saga.grants s.db := mem_map.mpr ⟨_, hentity, rfl⟩
  refine (foldl_max_le_iff.mp (Nat.le_refl (grantCeiling s.db Partition.user.id))).2 _
    (mem_filterMap.mpr ⟨_, mem_filter.mpr ⟨hgrant, ?_⟩, ?_⟩)
  · rw [h.grantAt hg hn]
    have hpart : (Int64.ofNat Partition.user.id).toInt = (Partition.user.id : Int) := toInt_ofNat (by decide)
    simp only [grantOf, Option.map_some, hpart, decide_eq_true_eq]
  · rw [h.grantAt hg hn, grantOf_stop hn.1 defaultIdBlock_lt]
    generalize defaultIdBlock = b
    simp only [Option.map_some, Option.some.injEq]
    omega

end Grounded

/-! ## What a commit leases -/

theorem mem_grantDatoms_iff {saga : EntityId} : d ∈ grantDatoms tx saga n ↔ d.tx = tx ∧ d.added = true ∧
      (d.fact = (saga, sagaIdGrants, .ref (grantEntity n)) ∨ d.fact ∈ grantFacts n) := by
  have hfact : ∀ e a v, d = assertion tx e a v ↔ d.tx = tx ∧ d.added = true ∧ d.fact = (e, a, v) := by
    intro e a v
    obtain ⟨e', a', v', tx', added⟩ := d
    simp only [assertion, Datom.mk.injEq, Datom.fact, Prod.mk.injEq]
    tauto
  simp only [grantDatoms, grantFacts, grantEntity, mem_cons, not_mem_nil, or_false, hfact]
  tauto

/-- Clients record no grants. -/
theorem prepare_no_grants {db : Db} {r : PreparedTx} (h : prepare db items tx n = .ok r) (hd : d ∈ r.datoms) :
    isGrantAttribute d.a = false ∧ d.a ≠ sagaIdGrants := by
  obtain ⟨-, -, hval⟩ := prepare_ok h
  unfold validateSagas at hval
  simp only [bind_eq_ok, require_eq_ok] at hval
  obtain ⟨_, hno, -⟩ := hval
  exact hno d hd

section Commit

variable {s s' : State} {prepared : PreparedTx} {record : TxRecord} {grants : List (EntityId × Nat)} {stamp : List Datom}
variable {d : Datom} {x : EntityId × Nat}

theorem Allots.mem (h : Allots s s' prepared record grants stamp) (hd : d ∈ record.datoms) :
    d ∈ prepared.datoms ∨ (∃ x ∈ grants, d ∈ grantDatoms s.nextTx x.1 x.2) ∨
      d = txInstantDatom (s.db.basisT + 1) record.txInstant := by
  rw [h.datoms] at hd
  rcases mem_append.mp hd with hd | hd
  · rcases mem_append.mp hd with hd | hd
    · exact .inl hd
    · obtain ⟨x, hx, hd⟩ := mem_flatMap.mp hd
      exact .inr (.inl ⟨x, hx, hd⟩)
  · exact .inr (.inr (h.stamp d hd))

theorem Allots.grant_mem (h : Allots s s' prepared record grants stamp) (hx : x ∈ grants)
    (hd : d ∈ grantDatoms s.nextTx x.1 x.2) : d ∈ record.datoms := by
  rw [h.datoms]
  exact mem_append_left _ (mem_append_right _ (mem_flatMap.mpr ⟨x, hx, hd⟩))

theorem Allots.leased (h : Allots s s' prepared record grants stamp) (hfits : s'.nextUser ≤ sequenceLimit)
    (hx : x ∈ grants) : Leased record.datoms x.2 := by
  refine ⟨by have := (h.past x hx).2; omega, fun f hf => ?_⟩
  refine ⟨⟨f.1, f.2.1, f.2.2, s.nextTx, true⟩, h.grant_mem hx (mem_grantDatoms_iff.mpr ⟨rfl, rfl, .inr hf⟩), rfl⟩

variable {datoms : List Datom}

/-- What is leased after a commit was leased before or by it. -/
theorem Allots.leased_append (h : Allots s s' prepared record grants stamp)
    (hp : ∀ d ∈ prepared.datoms, isGrantAttribute d.a = false ∧ d.a ≠ sagaIdGrants)
    (hfits : s'.nextUser ≤ sequenceLimit) (hg : GrantsSound datoms) {n : Nat}
    (hn : Leased (datoms ++ record.datoms) n) : Leased datoms n ∨ ∃ x ∈ grants, x.2 = n := by
  have hf : (grantEntity n, sagaGrantPartition, Value.long (Int64.ofNat Partition.user.id)) ∈ grantFacts n :=
    mem_cons_self
  obtain ⟨d, hd, hdf⟩ := hn.2 _ hf
  have hattr : isGrantAttribute d.a = true := by
    have := isGrantAttribute_of_mem hf
    rw [← hdf] at this
    exact this
  rcases mem_append.mp hd with hd | hd
  · obtain ⟨-, m, hm, hleased⟩ := hg.grant d hd hattr
    rw [hdf] at hm
    exact .inl ((grantFacts_unique hleased.1 hn.1 hm hf rfl).1 ▸ hleased)
  · rcases h.mem hd with hd | ⟨x, hx, hd⟩ | rfl
    · rw [(hp d hd).1] at hattr
      cases hattr
    · right
      refine ⟨x, hx, ?_⟩
      obtain ⟨-, -, hfact⟩ := mem_grantDatoms_iff.mp hd
      rcases hfact with hfact | hfact
      · rw [hdf] at hfact
        have hne : sagaGrantPartition ≠ sagaIdGrants := by decide
        exact absurd (congrArg (·.2.1) hfact) hne
      · rw [hdf] at hfact
        exact (grantFacts_unique (h.leased hfits hx).1 hn.1 hfact hf rfl).1
    · exact absurd hattr (by decide : ¬ isGrantAttribute txInstant = true)

theorem GrantsSound.commit (hg : GrantsSound datoms) (h : Allots s s' prepared record grants stamp)
    (hp : ∀ d ∈ prepared.datoms, isGrantAttribute d.a = false ∧ d.a ≠ sagaIdGrants)
    (hfits : s'.nextUser ≤ sequenceLimit) : GrantsSound (datoms ++ record.datoms) := by
  have hleft : ∀ d ∈ datoms, d ∈ datoms ++ record.datoms := fun d => mem_append_left _
  have hright : ∀ d ∈ record.datoms, d ∈ datoms ++ record.datoms := fun d => mem_append_right _
  refine ⟨fun d hd ha => ?_, fun d hd ha => ?_⟩
  · rcases mem_append.mp hd with hd | hd
    · obtain ⟨hadded, n, hf, hn⟩ := hg.grant d hd ha
      exact ⟨hadded, n, hf, hn.mono hleft⟩
    · rcases h.mem hd with hd | ⟨x, hx, hd⟩ | rfl
      · rw [(hp d hd).1] at ha
        cases ha
      · obtain ⟨-, hadded, hf⟩ := mem_grantDatoms_iff.mp hd
        rcases hf with hf | hf
        · rw [show d.a = sagaIdGrants from congrArg (·.2.1) hf] at ha
          exact absurd ha (by decide)
        · exact ⟨hadded, x.2, hf, (h.leased hfits hx).mono hright⟩
      · exact absurd ha (by decide : ¬ isGrantAttribute txInstant = true)
  · rcases mem_append.mp hd with hd | hd
    · obtain ⟨hadded, n, hv, hn⟩ := hg.idGrants d hd ha
      exact ⟨hadded, n, hv, hn.mono hleft⟩
    · rcases h.mem hd with hd | ⟨x, hx, hd⟩ | rfl
      · exact absurd ha (hp d hd).2
      · obtain ⟨-, hadded, hf⟩ := mem_grantDatoms_iff.mp hd
        rcases hf with hf | hf
        · exact ⟨hadded, x.2, congrArg (·.2.2) hf, (h.leased hfits hx).mono hright⟩
        · have hattr := isGrantAttribute_of_mem hf
          rw [show d.fact.2.1 = sagaIdGrants from ha] at hattr
          exact absurd hattr (by decide)
      · exact absurd (show txInstant = sagaIdGrants from ha) (by decide)

end Commit

end Corium.Transactor
