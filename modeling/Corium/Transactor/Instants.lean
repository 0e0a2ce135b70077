/-
  Corium.Transactor.Instants — transaction time
  (`seal_tx_instant`, `recover_from` of `crates/corium-transactor/src/lib.rs`,
  `TxInstants` of `crates/corium-db/src/lib.rs`).

  A commit is stamped past the last instant, whatever its clock says: a supplied
  instant must be later, and an unsupplied one is `max(now, last + 1)`. The sum
  saturates, so a transaction at the last instant of all is followed by others at
  the same one; until then instants strictly increase with `t`
  (`transaction_time`). A value keeps the instants of its transactions in both
  directions, a recovered one the instants its datoms record, and both find the
  same `t` for every instant, at the last one too: there the map keeps the
  highest `t`.
-/

import Corium.Transactor.Life

namespace Corium.Tx

open Corium.Core Corium.Lib Bootstrap List

/-! ## A transaction asserts its instant once -/

/-- What has become of `:db/txInstant` so far: it is on the transaction's own entity, and one value of it. -/
structure InstantOnce (tx : TxId) (p : Progress) : Prop where
  view : p.working.view = .current
  own : ∀ d ∈ p.working.recorded, d.e = tx → d.a = Bootstrap.txInstant → d ∈ p.datoms
  unset : p.txInstantAsserted = false → ∀ d ∈ p.datoms, d.a ≠ Bootstrap.txInstant
  once : ∃ v, ∀ d ∈ p.datoms, d.a = Bootstrap.txInstant → d = assertion tx tx Bootstrap.txInstant v

/-- What an operation can do about `:db/txInstant`: nothing, or set it for the first time. -/
def InstantStep (tx : TxId) (p p' : Progress) (ds : List Datom) : Prop :=
  (p'.txInstantAsserted = p.txInstantAsserted ∧ ∀ d ∈ ds, d.a ≠ Bootstrap.txInstant) ∨
    (p.txInstantAsserted = false ∧ p'.txInstantAsserted = true ∧
      ∃ v, ∀ d ∈ ds, d = assertion tx tx Bootstrap.txInstant v ∨ d.v ∈ p.working.values tx Bootstrap.txInstant)

variable {tx : TxId}
variable {e : EntityId} {a : AttrId} {v : Value} {p p' : Progress} {db : Db}

theorem mem_addDatoms {w : Db} {attr : Attribute} {d : Datom} (h : d ∈ addDatoms tx w attr e a v) :
    d = assertion tx e a v ∨ (d = retraction tx e a d.v ∧ d.v ∈ w.values e a) := by
  unfold addDatoms at h
  rcases mem_append.mp h with h | h
  · split at h
    · obtain ⟨x, hx, rfl⟩ := mem_map.mp h
      exact .inr ⟨rfl, hx⟩
    · cases h
  · exact .inl (mem_singleton.mp h)

theorem applyAdd_instant (h : applyAdd tx p e a v = .ok p') : ∃ ds, Advances p p' ds ∧ InstantStep tx p p' ds := by
  have hguard : a = Bootstrap.txInstant → e = tx ∧ p.txInstantAsserted = false := by
    unfold applyAdd at h
    simp only [bind_eq_ok, require_eq_ok] at h
    exact h.choose_spec.1
  have hflag : (p.noteInstant a).txInstantAsserted = (p.txInstantAsserted || decide (a = Bootstrap.txInstant)) := rfl
  rcases applyAdd_ok h with ⟨-, rfl⟩ | ⟨attr, -, rfl⟩
  · refine ⟨[], ⟨by simp [Progress.noteInstant], .inr ⟨rfl, rfl⟩⟩, ?_⟩
    by_cases ha : a = Bootstrap.txInstant
    · exact .inr ⟨(hguard ha).2, by rw [hflag]; simp [ha], v, forall_mem_nil _⟩
    · exact .inl ⟨by rw [hflag]; simp [ha], forall_mem_nil _⟩
  · refine ⟨_, ⟨rfl, .inl rfl⟩, ?_⟩
    by_cases ha : a = Bootstrap.txInstant
    · obtain ⟨he, hunset⟩ := hguard ha
      refine .inr ⟨hunset, by show (p.noteInstant a).txInstantAsserted = _; rw [hflag]; simp [ha], v, fun d hd => ?_⟩
      rw [he, ha] at hd
      exact (mem_addDatoms hd).imp_right And.right
    · refine .inl ⟨by show (p.noteInstant a).txInstantAsserted = _; rw [hflag]; simp [ha], fun d hd => ?_⟩
      rcases mem_addDatoms hd with hd | ⟨hd, -⟩ <;> rw [hd] <;> exact ha

theorem applyOp_instant {tempids : Tempids} {op : TxOp}
    (h : applyOp db tempids tx p op = .ok p') : ∃ ds, Advances p p' ds ∧ InstantStep tx p p' ds := by
  cases op with
  | add entity a v =>
    simp only [applyOp, bind_eq_ok] at h
    obtain ⟨e, -, h⟩ := h
    exact applyAdd_instant h
  | addRef entity a target =>
    simp only [applyOp, bind_eq_ok] at h
    obtain ⟨target, -, e, -, h⟩ := h
    exact applyAdd_instant h
  | retract entity a v =>
    simp only [applyOp, bind_eq_ok, require_eq_ok] at h
    obtain ⟨_, ha, e, -, h⟩ := h
    obtain ⟨-, rfl⟩ := applyRetract_ok h
    refine ⟨_, advances_advance p _, .inl ⟨rfl, fun d hd => ?_⟩⟩
    split at hd
    · rw [mem_singleton.mp hd]
      exact ha
    · cases hd
  | cas entity a old new =>
    simp only [applyOp, bind_eq_ok, require_eq_ok] at h
    obtain ⟨_, ha, e, -, h⟩ := h
    obtain ⟨attr, -, rfl⟩ := applyCas_ok ha h
    refine ⟨_, advances_advance p _, .inl ⟨rfl, fun d hd => ?_⟩⟩
    rcases mem_append.mp hd with hd | hd
    · obtain ⟨x, -, rfl⟩ := mem_map.mp hd
      exact ha
    · rw [mem_singleton.mp hd]
      exact ha
  | retractEntity entity =>
    simp only [applyOp, bind_eq_ok] at h
    obtain ⟨e, -, h⟩ := h
    obtain ⟨-, hinstant, rfl⟩ := applyRetractEntity_ok h
    refine ⟨_, advances_advance p _, .inl ⟨rfl, fun d hd => ?_⟩⟩
    obtain ⟨f, hf, rfl⟩ := mem_map.mp hd
    exact hinstant f hf

theorem InstantOnce.step {db : Db} {tempids : Tempids} {tx : TxId} {p p' : Progress} {op : TxOp}
    (hp : InstantOnce tx p) (h : applyOp db tempids tx p op = .ok p') : InstantOnce tx p' := by
  obtain ⟨ds, hadv, hstep⟩ := applyOp_instant h
  obtain ⟨ds', heff, hadv'⟩ := applyOp_effect hp.view h
  obtain rfl : ds = ds' := append_cancel_left (hadv.datoms.symm.trans hadv'.datoms)
  have hfollows := heff.follows hadv.working
  have hown : ∀ d ∈ p'.working.recorded, d.e = tx → d.a = Bootstrap.txInstant → d ∈ p'.datoms := by
    intro d hd he ha
    rw [hfollows.recorded] at hd
    rw [hadv.datoms]
    exact mem_append.mpr ((mem_append.mp hd).imp (fun hd => hp.own d hd he ha) id)
  obtain ⟨hflag, hnone⟩ | ⟨hunset, hset, v, hds⟩ := hstep
  · obtain ⟨v, hv⟩ := hp.once
    refine ⟨hfollows.view.trans hp.view, hown, fun hf d hd => ?_, v, fun d hd ha => ?_⟩
    · rw [hadv.datoms] at hd
      exact (mem_append.mp hd).elim (hp.unset (hflag ▸ hf) d) (hnone d)
    · rw [hadv.datoms] at hd
      exact (mem_append.mp hd).elim (fun hd => hv d hd ha) fun hd => absurd ha (hnone d hd)
  · -- nothing to replace: an earlier value would have been asserted by this transaction
    have hempty : ∀ x, x ∉ p.working.values tx Bootstrap.txInstant := by
      intro x hx
      obtain ⟨d, hd⟩ := holds_iff.mp ((Db.mem_values hp.view).mp hx)
      obtain ⟨hfact, -, hmem⟩ := liveDatom_some hd
      have ha : d.a = Bootstrap.txInstant := congrArg (·.2.1) hfact
      exact hp.unset hunset d (hp.own d hmem (congrArg (·.1) hfact) ha) ha
    refine ⟨hfollows.view.trans hp.view, hown, fun hf => absurd (hset.symm.trans hf) nofun, v, fun d hd ha => ?_⟩
    rw [hadv.datoms] at hd
    rcases mem_append.mp hd with hd | hd
    · exact absurd ha (hp.unset hunset d hd)
    · exact (hds d hd).resolve_right (hempty _)

/-- An accepted transaction records at most one `:db/txInstant`, an assertion on its own entity. -/
theorem prepare_instant {items : List TxItem} {n : Nat} {r : PreparedTx}
    (hv : db.view = .current) (hfresh : ∀ d ∈ db.recorded, d.e = tx → d.a ≠ Bootstrap.txInstant)
    (h : prepare db items tx n = .ok r) :
    ∃ v, ∀ d ∈ r.datoms, d.a = Bootstrap.txInstant → d = assertion tx tx Bootstrap.txInstant v := by
  obtain ⟨-, ⟨p, hp, hds⟩, -⟩ := prepare_ok h
  rw [hds]
  refine (foldlM_inv (P := InstantOnce tx) (fun op _ p p' hp hstep => hp.step hstep) ?_ hp).once
  exact ⟨hv, fun d hd he ha => absurd ha (hfresh d hd he), fun _ => nofun, .ref tx, nofun⟩

end Corium.Tx

namespace Corium

open Corium.Core Corium.Lib Bootstrap List

/-! ## Instants both ways -/

namespace TxInstants

/-- `i` dates the transactions of `E`: an instant leads to the latest of those it was given to. -/
structure Keeps (E : Nat → Int64 → Prop) (i : TxInstants) : Prop where
  sound : ∀ {k t}, i.byInstant[k]? = some t → E t k
  latest : ∀ {k t}, E t k → ∃ t', i.byInstant[k]? = some t' ∧ t ≤ t'

variable {E : Nat → Int64 → Prop} {i : TxInstants}

theorem keeps_empty : Keeps (fun _ _ => False) TxInstants.empty := ⟨fun h => by simp [empty] at h, nofun⟩

theorem Keeps.congr {E' : Nat → Int64 → Prop} (h : Keeps E i) (hE : ∀ t k, E' t k ↔ E t k) : Keeps E' i :=
  ⟨fun hk => (hE _ _).mpr (h.sound hk), fun ht => h.latest ((hE _ _).mp ht)⟩

theorem record_byInstant (i : TxInstants) (t : Nat) (instant k : Int64) :
    (i.record t instant).byInstant[k]? =
      if k = instant then some (max (i.byInstant[k]?.getD t) t) else i.byInstant[k]? := by
  have hins : (i.byInstant.insert instant t)[k]? = if k = instant then some t else i.byInstant[k]? := by
    rw [Std.ExtTreeMap.getElem?_insert]
    by_cases hk : k = instant
    · rw [if_pos hk, if_pos (by rw [hk]; exact compare_same _)]
    · rw [if_neg hk, if_neg fun h => hk (eq_of_compare_eq h).symm]
  unfold record
  by_cases hk : k = instant
  · subst hk
    cases hheld : i.byInstant[k]? with
    | none => simp
    | some held =>
      by_cases hlt : held < t
      · simp [hlt, Nat.max_eq_right (Nat.le_of_lt hlt)]
      · simp [hheld, hlt, Nat.max_eq_left (Nat.not_lt.mp hlt)]
  · rw [if_neg hk] at hins ⊢
    dsimp only
    split
    · split
      · exact hins
      · rfl
    · exact hins

theorem Keeps.record (h : Keeps E i) (t : Nat) (instant : Int64) :
    Keeps (fun t' k => E t' k ∨ (t' = t ∧ k = instant)) (i.record t instant) := by
  constructor
  · intro k t' hk
    rw [record_byInstant] at hk
    split at hk
    · rename_i heq
      cases hheld : i.byInstant[k]? with
      | none => exact .inr ⟨by simpa [hheld] using hk.symm, heq⟩
      | some held =>
        simp only [hheld, Option.getD_some, Option.some.injEq] at hk
        rcases Nat.le_total held t with hle | hle
        · exact .inr ⟨by omega, heq⟩
        · exact .inl (h.sound (by rw [hheld, ← hk, Nat.max_eq_left hle]))
    · exact .inl (h.sound hk)
  · rintro k t' (hE | ⟨rfl, rfl⟩)
    · obtain ⟨held, hheld, hle⟩ := h.latest hE
      rw [record_byInstant, hheld]
      split
      · exact ⟨_, rfl, by simp only [Option.getD_some]; omega⟩
      · exact ⟨held, rfl, hle⟩
    · rw [record_byInstant, if_pos rfl]
      exact ⟨_, rfl, by omega⟩

/-- `tAt` reads the greatest instant kept that is not past the given one. -/
theorem tAt_spec (i : TxInstants) (instant : Int64) :
    (i.tAt instant = 0 ∧ ∀ k ∈ i.byInstant, ¬ k ≤ instant) ∨
      ∃ k, k ≤ instant ∧ i.byInstant[k]? = some (i.tAt instant) ∧ ∀ k' ∈ i.byInstant, k' ≤ instant → k' ≤ k := by
  have hmem : ∀ k ∈ i.byInstant, k ≤ instant → ∃ t, (k, t) ∈ i.byInstant.toList.filter fun x => x.1 ≤ instant := by
    intro k hk hle
    obtain ⟨t, ht⟩ := Option.isSome_iff_exists.mp (Std.ExtTreeMap.mem_iff_isSome_getElem?.mp hk)
    exact ⟨t, mem_filter.mpr ⟨Std.ExtTreeMap.mem_toList_iff_getElem?_eq_some.mpr ht, by simpa using hle⟩⟩
  have hsorted : (i.byInstant.toList.filter fun x => x.1 ≤ instant).Pairwise fun x y => x.1 < y.1 := by
    refine List.Pairwise.sublist filter_sublist (List.Pairwise.imp ?_ Std.ExtTreeMap.ordered_keys_toList)
    exact fun h => Std.compare_eq_lt.mp h
  unfold tAt
  cases hlast : (i.byInstant.toList.filter fun x => x.1 ≤ instant).getLast? with
  | none =>
    refine .inl ⟨rfl, fun k hk hle => ?_⟩
    obtain ⟨t, ht⟩ := hmem k hk hle
    rw [List.getLast?_eq_none_iff] at hlast
    rw [hlast] at ht
    cases ht
  | some x =>
    obtain ⟨k, t⟩ := x
    obtain ⟨pre, hpre⟩ := List.getLast?_eq_some_iff.mp hlast
    have hx : (k, t) ∈ i.byInstant.toList.filter fun x => x.1 ≤ instant := by rw [hpre]; simp
    obtain ⟨hkt, hle⟩ := mem_filter.mp hx
    refine .inr ⟨k, by simpa using hle, Std.ExtTreeMap.mem_toList_iff_getElem?_eq_some.mp hkt, fun k' hk' hle' => ?_⟩
    obtain ⟨t', ht'⟩ := hmem k' hk' hle'
    rw [hpre] at ht' hsorted
    rcases mem_append.mp ht' with ht' | ht'
    · exact Int64.le_of_lt ((pairwise_append.mp hsorted).2.2 _ ht' _ (mem_singleton.mpr rfl))
    · cases mem_singleton.mp ht'
      exact Int64.le_refl _

section Monotone

variable (h : Keeps E i) (hmono : ∀ {t t' k k'}, E t k → E t' k' → t ≤ t' → k ≤ k')

include h

theorem Keeps.tAt_mem (instant : Int64) : i.tAt instant = 0 ∨ ∃ k, k ≤ instant ∧ E (i.tAt instant) k := by
  rcases i.tAt_spec instant with ⟨h0, -⟩ | ⟨k, hle, hk, -⟩
  · exact .inl h0
  · exact .inr ⟨k, hle, h.sound hk⟩

include hmono

/-- Where instants never decrease with `t`, `tAt` parts the transactions at the instant. -/
theorem Keeps.le_tAt_iff {t : Nat} {k : Int64} (hE : E t k) (ht : 0 < t) (instant : Int64) :
    t ≤ i.tAt instant ↔ k ≤ instant := by
  constructor
  · intro hle
    rcases h.tAt_mem instant with h0 | ⟨k', hle', hE'⟩
    · omega
    · exact Int64.le_trans (hmono hE hE' hle) hle'
  · intro hle
    obtain ⟨t', ht', hle'⟩ := h.latest hE
    have hkmem : k ∈ i.byInstant := Std.ExtTreeMap.mem_iff_isSome_getElem?.mpr (by rw [ht']; rfl)
    rcases i.tAt_spec instant with ⟨-, hnone⟩ | ⟨k', -, hk', hgreatest⟩
    · exact absurd hle (hnone k hkmem)
    · -- of two transactions at different instants the later one is found
      by_contra hlt
      have heq : k = k' := Int64.le_antisymm (hgreatest k hkmem hle) (hmono (h.sound hk') hE (by omega))
      rw [← heq, ht'] at hk'
      have := Option.some.inj hk'
      omega

end Monotone

end TxInstants

/-! ## Instants recorded as datoms -/

/-- `d` dates transaction `t`. -/
def Dates (d : Datom) (t : Nat) (k : Int64) : Prop :=
  d.v = .instant k ∧ d.added = true ∧ d.a = Bootstrap.txInstant ∧ d.e = d.tx ∧ d.tx.inPartition .tx = true ∧
    d.tx.sequence = t

theorem recordInstants_keeps (datoms : List Datom) :
    TxInstants.Keeps (fun t k => ∃ d ∈ datoms, Dates d t k) (recordInstants datoms) := by
  induction datoms using List.reverseRecOn with
  | nil => exact TxInstants.keeps_empty.congr fun t k => by simp
  | append_singleton datoms d h =>
    refine TxInstants.Keeps.congr (E := fun t k => (∃ d ∈ datoms, Dates d t k) ∨ Dates d t k) ?_ fun t k => by simp [or_and_right, exists_or]
    unfold recordInstants at h ⊢
    rw [foldl_append, foldl_cons, foldl_nil]
    split
    · rename_i instant hv
      split
      · rename_i hd
        refine (h.record d.tx.sequence instant).congr fun t k => or_congr_right ?_
        unfold Dates
        rw [hv]
        simp only [hd, Value.instant.injEq, true_and]
        exact ⟨fun h => ⟨h.2.symm, h.1.symm⟩, fun h => ⟨h.2.symm, h.1.symm⟩⟩
      · rename_i hd
        exact h.congr fun t k => or_iff_left fun hdates => hd ⟨hdates.2.1, hdates.2.2.1, hdates.2.2.2.1, hdates.2.2.2.2.1⟩
    · rename_i hv
      exact h.congr fun t k => or_iff_left fun hdates => hv k hdates.1

end Corium

namespace Corium.Transactor

open Corium.Core Corium.Lib Corium.Tx Bootstrap List

/-! ## A record's instant -/

variable {k : Int64} {t : Nat}
variable {datoms : List Datom}

theorem assertedInstant_some (h : assertedInstant t datoms = some k) :
    ∃ d ∈ datoms, d.v = .instant k ∧ d.e = txId t ∧ d.a = Bootstrap.txInstant ∧ d.added = true := by
  revert h
  unfold assertedInstant
  apply List.foldlRecOn (motive := fun acc : Option Int64 => acc = some k →
    ∃ d ∈ datoms, d.v = .instant k ∧ d.e = txId t ∧ d.a = Bootstrap.txInstant ∧ d.added = true)
  · exact nofun
  · intro acc hacc d hd h
    unfold assertedInstantStep at h
    split at h
    · rename_i i hv
      split at h
      · rename_i hd'
        split at h
        · rename_i hadded
          cases h
          exact ⟨d, hd, hv, hd'.1, hd'.2, hadded⟩
        · split at h
          · cases h
          · exact hacc h
      · exact hacc h
    · exact hacc h

/-- An asserted instant that no datom retracts is found. -/
theorem assertedInstant_isSome {d : Datom}
    (hadded : ∀ d ∈ datoms, d.a = Bootstrap.txInstant → d.added = true) (hd : d ∈ datoms) (hv : d.v = .instant k)
    (he : d.e = txId t) (ha : d.a = Bootstrap.txInstant) : (assertedInstant t datoms).isSome = true := by
  obtain ⟨pre, post, rfl⟩ := append_of_mem hd
  have hfound : ∀ acc, assertedInstantStep t acc d = some k := by
    intro acc
    unfold assertedInstantStep
    simp [hv, he, ha, hadded d hd ha]
  unfold assertedInstant
  rw [foldl_append, foldl_cons, hfound]
  apply List.foldlRecOn (motive := fun acc : Option Int64 => acc.isSome = true)
  · rfl
  · intro acc hacc x hx
    unfold assertedInstantStep
    split
    · split
      · rename_i hx'
        rw [if_pos (hadded x (by simp [hx]) hx'.2)]
        rfl
      · exact hacc
    · exact hacc

/-- What a record says about time: its own instant, of its own transaction. -/
structure Stamped (r : TxRecord) : Prop where
  own : ∀ d ∈ r.datoms, d.a = Bootstrap.txInstant → d.added = true ∧ d.e = d.tx
  value : ∀ d ∈ r.datoms, d.a = Bootstrap.txInstant → ∀ k, d.v = .instant k → k = r.txInstant

theorem Committed.stamped {s s' : State} {items : List TxItem} {nowMs : Int64} {record : TxRecord} {tempids : Tempids}
    {prepared : PreparedTx} {leased : List Datom} (h : Committed s items nowMs record tempids s' prepared leased)
    (hv : s.db.view = .current) (hfresh : ∀ d ∈ s.db.recorded, d.e = s.nextTx → d.a ≠ Bootstrap.txInstant) :
    Stamped record := by
  obtain ⟨v, hprepared⟩ := prepare_instant hv hfresh h.prepare
  obtain ⟨grants, -, -, hleased, hgrants, -⟩ := h.datoms
  have honly : ∀ d ∈ leased, d.a = Bootstrap.txInstant → d = assertion s.nextTx s.nextTx Bootstrap.txInstant v := by
    intro d hd ha
    rw [hleased] at hd
    rcases mem_append.mp hd with hd | hd
    · exact hprepared d hd ha
    · obtain ⟨saga, n, hd⟩ := hgrants d hd
      obtain ⟨-, -, hattr⟩ := mem_grantDatoms hd
      rw [ha] at hattr
      exact absurd hattr (by decide)
  rcases sealTxInstant_cases h.sealed with ⟨hs, -, heq⟩ | ⟨hs, -, heq⟩
  · rw [← heq] at hs honly
    obtain ⟨d, hd, hdv, -, hda, -⟩ := assertedInstant_some hs
    have hvalue : v = .instant record.txInstant := by
      rw [← hdv, honly d hd hda]
      rfl
    refine ⟨fun d hd ha => ?_, fun d hd ha k hk => ?_⟩
    · rw [honly d hd ha]
      exact ⟨rfl, rfl⟩
    · rw [honly d hd ha] at hk
      exact Value.instant.inj (hk.symm.trans hvalue)
  · have hstamp : ∀ d ∈ record.datoms, d.a = Bootstrap.txInstant →
        d = assertion s.nextTx s.nextTx Bootstrap.txInstant v ∧ d ∈ leased ∨
          d = txInstantDatom (s.db.basisT + 1) record.txInstant := by
      intro d hd ha
      rw [heq] at hd
      exact (mem_append.mp hd).imp (fun hd => ⟨honly d hd ha, hd⟩) mem_singleton.mp
    refine ⟨fun d hd ha => ?_, fun d hd ha k hk => ?_⟩
    · rcases hstamp d hd ha with ⟨hd, -⟩ | hd <;> rw [hd] <;> exact ⟨rfl, rfl⟩
    · rcases hstamp d hd ha with ⟨hda, hmem⟩ | hd
      · -- one asserted by the transaction itself would have been found
        have hsome := assertedInstant_isSome (t := s.db.basisT + 1)
          (fun x hx hxa => by rw [honly x hx hxa]; rfl) hmem hk (by rw [hda]; rfl) ha
        rw [hs] at hsome
        cases hsome
      · rw [hd] at hk
        exact (Value.instant.inj hk).symm

/-- The log dates transaction `t` at `k`. -/
def DatedBy (log : List TxRecord) (t : Nat) (k : Int64) : Prop := ∃ r ∈ log, r.t = t ∧ r.txInstant = k

theorem datedBy_append {xs ys : List TxRecord} : DatedBy (xs ++ ys) t k ↔ DatedBy xs t k ∨ DatedBy ys t k := by
  simp [DatedBy, or_and_right, exists_or]

theorem applyRecord_instants {r : TxRecord} (h : SealedRecord r) (db : Db) :
    (applyRecord db r).instants = db.instants.record r.t r.txInstant := by
  unfold applyRecord Db.withTransactionAt
  rw [h.instant]
  rfl

theorem replayLog_keeps {log : List TxRecord} (h : ∀ r ∈ log, SealedRecord r) {E : Nat → Int64 → Prop} {base : Db}
    (hbase : TxInstants.Keeps E base.instants) :
    TxInstants.Keeps (fun t k => E t k ∨ DatedBy log t k) (replayLog base log).instants := by
  induction log generalizing base E with
  | nil => exact hbase.congr fun t k => by simp [DatedBy]
  | cons r log ih =>
    have hr : TxInstants.Keeps (fun t k => E t k ∨ (t = r.t ∧ k = r.txInstant)) (applyRecord base r).instants := by
      rw [applyRecord_instants (h r mem_cons_self)]
      exact hbase.record r.t r.txInstant
    refine (ih (fun x hx => h x (mem_cons_of_mem _ hx)) hr).congr fun t k => ?_
    rw [or_assoc, ← singleton_append, datedBy_append]
    simp [DatedBy, eq_comm]

/-! ## What runs keep -/

theorem le_foldl_max (xs : List Int64) (init : Int64) :
    init ≤ xs.foldl max init ∧ ∀ x ∈ xs, x ≤ xs.foldl max init := by
  induction xs generalizing init with
  | nil => exact ⟨Int64.le_refl _, nofun⟩
  | cons x xs ih =>
    obtain ⟨hinit, hxs⟩ := ih (max init x)
    obtain ⟨hl, hr⟩ := int64_le_max init x
    refine ⟨Int64.le_trans hl hinit, fun y hy => ?_⟩
    rcases mem_cons.mp hy with rfl | hy
    · exact Int64.le_trans hr hinit
    · exact hxs y hy

/-- A recovered clock stands at or past every record read. -/
theorem le_recovered {log : List TxRecord} (h : ∀ r ∈ log, SealedRecord r) (init : Int64) :
    init ≤ (log.map effectiveTxInstant).foldl max init ∧
      ∀ r ∈ log, r.txInstant ≤ (log.map effectiveTxInstant).foldl max init := by
  obtain ⟨hinit, hmem⟩ := le_foldl_max (log.map effectiveTxInstant) init
  refine ⟨hinit, fun r hr => ?_⟩
  have heff : effectiveTxInstant r = r.txInstant := by
    unfold effectiveTxInstant
    rw [(h r hr).instant]
    rfl
  exact heff ▸ hmem _ (mem_map_of_mem hr)

theorem noHistoryOf_txInstant (schema : Schema) :
    noHistoryOf (installSchema schema) Bootstrap.txInstant = false := by
  have hget := installSchema_get schema (a := Bootstrap.txInstant) rfl
  unfold noHistoryOf
  rw [hget]
  rfl

section Snapshot

variable {schema : Schema} {log : List TxRecord} {s : State}

/-- A datom of the log that dates a transaction, dates it as the log does. -/
theorem datedBy_of_dates (hlog : SoundLog log) (hlen : log.length < sequenceLimit) (hst : ∀ r ∈ log, Stamped r)
    {d : Datom} (hd : d ∈ logDatoms log) {t : Nat} {k : Int64} (h : Dates d t k) : DatedBy log t k := by
  obtain ⟨r, hr, hd⟩ := mem_flatMap.mp hd
  obtain ⟨hv, -, ha, -, -, hseq⟩ := h
  have ht := hlog.t_mem hr
  refine ⟨r, hr, ?_, ((hst r hr).value d hd ha k hv).symm⟩
  rw [← hseq, (hlog.records r hr).own d hd, txId_sequence (by omega)]

/-- Every dated transaction has a datom in a value that stands for the log. -/
theorem Grounded.dates (h : Grounded schema log s) (hlen : log.length < sequenceLimit) (hst : ∀ r ∈ log, Stamped r)
    {t : Nat} {k : Int64} (ht : DatedBy log t k) : ∃ d ∈ s.db.recorded, Dates d t k := by
  obtain ⟨r, hr, rfl, rfl⟩ := ht
  have hsound := h.sound.records r hr
  have ht := h.sound.t_mem hr
  obtain ⟨d, hd, hv, he, ha, -⟩ := assertedInstant_some hsound.instant
  have hmem : d ∈ logDatoms log := mem_flatMap.mpr ⟨r, hr, hd⟩
  have hstamp : ∀ x ∈ logDatoms log, x.fact = d.fact → x.added = true ∧ x.e = x.tx := by
    intro x hx hf
    obtain ⟨r', hr', hx⟩ := mem_flatMap.mp hx
    exact (hst r' hr').own x hx ((congrArg (·.2.1) hf).trans ha)
  obtain ⟨d', hd', hf⟩ := h.kept d.fact ⟨⟨d, hmem, rfl⟩, fun x hx hf => (hstamp x hx hf).1⟩
  obtain ⟨hadded, hown⟩ := hstamp d' (h.recorded d' hd') hf
  have he' : d'.tx = txId r.t := by
    rw [← hown, ← he]
    exact congrArg (·.1) hf
  refine ⟨d', hd', (congrArg (·.2.2) hf).trans hv, hadded, (congrArg (·.2.1) hf).trans ha, hown, ?_, ?_⟩
  · rw [he']
    exact txId_inPartition r.t
  · rw [he', txId_sequence (by omega)]

/-- A loaded snapshot dates what the log up to its basis dates. -/
theorem Grounded.snapshot_keeps (h : Grounded schema log s) (hlen : log.length < sequenceLimit)
    (hst : ∀ r ∈ log, Stamped r) {idents : Idents} {interner : KeywordInterner} {snapshot : Db}
    (hload : loadHistorySnapshot (publish s) schema idents interner = .ok snapshot) :
    TxInstants.Keeps (DatedBy log) snapshot.instants := by
  have hb : ∀ d ∈ s.db.recorded, d.tx.raw.toNat < 2 ^ 63 := fun d hd => h.sound.raw_lt (h.recorded d hd)
  obtain ⟨snapshot', hload', hrec, -, -, -⟩ := loadHistorySnapshot_of_publish h.view h.schema hb idents interner
  cases hload.symm.trans hload'
  have hinst : snapshot.instants = recordInstants snapshot.recorded := by
    unfold loadHistorySnapshot at hload
    simp only [bind_eq_ok, pure_eq_ok] at hload
    obtain ⟨_, -, _, -, rfl⟩ := hload
    rfl
  rw [hinst, hrec]
  refine (recordInstants_keeps _).congr fun t k => ⟨fun ht => ?_, fun ⟨d, hd, hdates⟩ => ?_⟩
  · obtain ⟨d, hd, hdates⟩ := h.dates hlen hst ht
    refine ⟨d, (mem_snapshotDatoms hb).mpr (.inl ⟨hd, ?_⟩), hdates⟩
    rw [hdates.2.2.1]
    exact noHistoryOf_txInstant schema
  · exact datedBy_of_dates h.sound hlen hst (h.recorded d (mem_of_mem_snapshotDatoms hb hd)) hdates

end Snapshot

namespace Life

/-- What holds of time in every run. -/
structure Timed (schema : Schema) (l : Life) : Prop where
  grounded : Grounded schema l.log l.live
  stamped : ∀ r ∈ l.log, Stamped r
  clock : ∀ r ∈ l.log, r.txInstant ≤ l.live.lastInstant
  ordered : l.log.Pairwise fun r r' => r.txInstant ≤ r'.txInstant
  instants : TxInstants.Keeps (DatedBy l.log) l.live.db.instants
  roots : ∀ root ∈ l.roots, ∃ pre post s, l.log = pre ++ post ∧ Grounded schema pre s ∧
    (∀ r ∈ pre, r.txInstant ≤ s.lastInstant) ∧ root = Transactor.publish s

section Timed

variable {schema : Schema} {l l' : Life}

/-- No earlier transaction is the next one. -/
theorem Timed.fresh (h : Timed schema l) (hlen : l.log.length + 1 < sequenceLimit) {d : Datom}
    (hd : d ∈ l.live.db.recorded) (he : d.e = l.live.nextTx) : d.a ≠ Bootstrap.txInstant := by
  intro ha
  obtain ⟨r, hr, hd⟩ := mem_flatMap.mp (h.grounded.recorded d hd)
  have ht := h.grounded.sound.t_mem hr
  have hown := ((h.stamped r hr).own d hd ha).2
  rw [(h.grounded.sound.records r hr).own d hd, he, State.nextTx, h.grounded.basisT] at hown
  have hseq := congrArg EntityId.sequence hown
  rw [txId_sequence hlen, txId_sequence (by omega)] at hseq
  omega

theorem Timed.commit (h : Timed schema l) {items : List TxItem} {nowMs : Int64} {record : TxRecord}
    {tempids : Tempids} {s : State} (hcommit : transact l.live items nowMs = .ok (record, tempids, s))
    (hlen : l.log.length + 1 < sequenceLimit) (allocated : List EntityId) :
    Timed schema { l with log := l.log ++ [record], live := s, allocated } := by
  obtain ⟨prepared, leased, hc⟩ := transact_ok hcommit
  have hsound := hc.sound h.grounded.view
  have hclock := (sealTxInstant_clock hc.sealed).1
  refine ⟨h.grounded.commit hc, fun r hr => ?_, fun r hr => ?_, ?_, ?_, fun root hroot => ?_⟩
  · rcases mem_append.mp hr with hr | hr
    · exact h.stamped r hr
    · rw [mem_singleton.mp hr]
      exact hc.stamped h.grounded.view fun d hd => h.fresh hlen hd
  · show r.txInstant ≤ s.lastInstant
    rw [hc.lastInstant]
    rcases mem_append.mp hr with hr | hr
    · exact Int64.le_trans (h.clock r hr) hclock
    · rw [mem_singleton.mp hr]
      exact Int64.le_refl _
  · refine pairwise_append.mpr ⟨h.ordered, pairwise_singleton _ _, fun r hr r' hr' => ?_⟩
    rw [mem_singleton.mp hr']
    exact Int64.le_trans (h.clock r hr) hclock
  · show TxInstants.Keeps _ s.db.instants
    rw [hc.db, applyRecord_instants hsound.toSealedRecord]
    refine (h.instants.record record.t record.txInstant).congr fun t k => ?_
    rw [datedBy_append]
    simp [DatedBy, eq_comm]
  · obtain ⟨pre, post, s', hlog, hpre⟩ := h.roots root hroot
    exact ⟨pre, post ++ [record], s', by simp [hlog], hpre⟩

theorem Timed.replay (h : Timed schema l) (idents : Idents) :
    Timed schema { l with live := recoverFrom (creation schema idents l.live.db.interner) l.log } := by
  have hsealed : ∀ r ∈ l.log, SealedRecord r := fun r hr => (h.grounded.sound.records r hr).toSealedRecord
  refine ⟨grounded_replay h.grounded.sound _ _, h.stamped, (le_recovered hsealed _).2, h.ordered, ?_, h.roots⟩
  exact (replayLog_keeps hsealed TxInstants.keeps_empty).congr fun t k => (false_or _).symm.to_iff

theorem Timed.restore (h : Timed schema l) (hlen : l.log.length < sequenceLimit) (idents : Idents) {root : Published}
    {snapshot : Db} (hroot : root ∈ l.roots)
    (hload : loadHistorySnapshot root schema idents l.live.db.interner = .ok snapshot) :
    Timed schema { l with live := recoverFromSnapshot snapshot root.nextEntityId root.lastTxInstant l.log } := by
  obtain ⟨pre, post, s, hlog, hpre, hclock, rfl⟩ := h.roots root hroot
  have hsound := h.grounded.sound
  have hlenPre : pre.length < sequenceLimit := by
    rw [hlog, length_append] at hlen
    omega
  have hrest : txRange l.log (snapshot.basisT + 1) = post := by
    have hb : ∀ d ∈ s.db.recorded, d.tx.raw.toNat < 2 ^ 63 := fun d hd => hpre.sound.raw_lt (hpre.recorded d hd)
    obtain ⟨snapshot', hload', -, -, -, hbasis⟩ :=
      loadHistorySnapshot_of_publish hpre.view hpre.schema hb idents l.live.db.interner
    cases hload.symm.trans hload'
    rw [hbasis, hpre.basisT, hlog]
    exact txRange_append (hlog ▸ hsound)
  have hsealed : ∀ r ∈ post, SealedRecord r := fun r hr =>
    (hsound.records r (hlog ▸ mem_append_right _ hr)).toSealedRecord
  have hkeeps := hpre.snapshot_keeps hlenPre (fun r hr => h.stamped r (hlog ▸ mem_append_left _ hr)) hload
  refine ⟨?_, h.stamped, fun r hr => ?_, h.ordered, ?_, h.roots⟩
  · show Grounded schema l.log (recoverFromSnapshot _ _ _ l.log)
    rw [hlog] at hsound ⊢
    exact hpre.restore hsound hload _ _
  · show r.txInstant ≤ (((txRange l.log (snapshot.basisT + 1)).map effectiveTxInstant).foldl max s.lastInstant)
    rw [hrest]
    obtain ⟨hinit, hpost⟩ := le_recovered hsealed s.lastInstant
    change r ∈ l.log at hr
    rw [hlog] at hr
    exact (mem_append.mp hr).elim (fun hr => Int64.le_trans (hclock r hr) hinit) (hpost r)
  · show TxInstants.Keeps (DatedBy l.log) (replayLog snapshot (txRange l.log (snapshot.basisT + 1))).instants
    rw [hrest]
    refine (replayLog_keeps hsealed hkeeps).congr fun t k => ?_
    rw [hlog, datedBy_append]

theorem Timed.step (h : Timed schema l) {e : Event} (hstep : Step schema l e l')
    (hlen : l'.log.length < sequenceLimit) : Timed schema l' := by
  cases hstep with
  | naming hext => exact ⟨h.grounded.naming _, h.stamped, h.clock, h.ordered, h.instants, h.roots⟩
  | commit hcommit => exact h.commit hcommit (by simpa using hlen) _
  | refuse hrefuse =>
    obtain ⟨hdb, hlast⟩ := prepareTransaction_error hrefuse
    exact ⟨h.grounded.of_db hdb, h.stamped, fun r hr => hlast ▸ h.clock r hr, h.ordered, hdb ▸ h.instants, h.roots⟩
  | publish =>
    refine ⟨h.grounded, h.stamped, h.clock, h.ordered, h.instants, fun root hroot => ?_⟩
    rcases mem_append.mp hroot with hroot | hroot
    · exact h.roots root hroot
    · exact ⟨l.log, [], l.live, by simp, h.grounded, h.clock, mem_singleton.mp hroot⟩
  | replay idents => exact h.replay idents
  | restore idents hroot hload => exact h.restore hlen idents hroot hload

end Timed

variable {e : Event}

theorem Step.log {schema : Schema} {l l' : Life} (h : Step schema l e l') :
    l'.log = l.log ∨ ∃ items nowMs record tempids, e = .commit items ∧
      transact l.live items nowMs = .ok (record, tempids, l'.live) ∧ l'.log = l.log ++ [record] := by
  cases h with
  | commit hcommit => exact .inr ⟨_, _, _, _, rfl, hcommit, rfl⟩
  | _ => exact .inl rfl

theorem Step.length_le {schema : Schema} {l l' : Life} (h : Step schema l e l') : l.log.length ≤ l'.log.length := by
  rcases h.log with h | ⟨_, _, _, _, -, -, h⟩ <;> rw [h]
  simp

theorem timed_start (schema : Schema) (idents : Idents) (interner : KeywordInterner) :
    Timed schema (start schema idents interner) :=
  ⟨@grounded_replay schema [] ⟨by simp, rfl⟩ idents interner, by simp [start], by simp [start], .nil,
    TxInstants.keeps_empty.congr fun t k => by simp [start, DatedBy], by simp [start]⟩

theorem Runs.timed {schema : Schema} {P : Life → Event → Life → Prop} {l : Life} (h : Runs schema P l)
    (hlen : l.log.length < sequenceLimit) : Timed schema l := by
  induction h with
  | start idents interner => exact timed_start schema idents interner
  | step _ hstep _ ih => exact (ih (Nat.lt_of_le_of_lt hstep.length_le hlen)).step hstep hlen

/-- A commit is made before time has reached its last instant. -/
def BeforeLastInstant (l : Life) : Event → Life → Prop
  | .commit _, _ => l.live.lastInstant ≠ Int64.maxValue
  | .other, _ => True

theorem Runs.strictly_ordered {schema : Schema} {l : Life} (h : Runs schema BeforeLastInstant l)
    (hlen : l.log.length < sequenceLimit) : l.log.Pairwise fun r r' => r.txInstant < r'.txInstant := by
  induction h with
  | start => exact .nil
  | step hruns hstep hP ih =>
    have hlen' := Nat.lt_of_le_of_lt hstep.length_le hlen
    rcases hstep.log with hlog | ⟨items, nowMs, record, tempids, rfl, hcommit, hlog⟩
    · rw [hlog]
      exact ih hlen'
    · obtain ⟨_, _, hc⟩ := transact_ok hcommit
      rw [hlog]
      refine pairwise_append.mpr ⟨ih hlen', pairwise_singleton _ _, fun r hr r' hr' => ?_⟩
      rw [mem_singleton.mp hr']
      exact Int64.lt_of_le_of_lt ((hruns.timed hlen').clock r hr) ((sealTxInstant_clock hc.sealed).2 hP)

/-! ## As-of an instant -/

section AsOf

variable {schema : Schema} {l : Life}

theorem Timed.mono (h : Timed schema l) {t t' : Nat} {k k' : Int64} (ht : DatedBy l.log t k) (ht' : DatedBy l.log t' k')
    (hle : t ≤ t') : k ≤ k' := by
  obtain ⟨r, hr, rfl, rfl⟩ := ht
  obtain ⟨r', hr', rfl, rfl⟩ := ht'
  obtain ⟨i, hi, rfl⟩ := getElem_of_mem hr
  obtain ⟨j, hj, rfl⟩ := getElem_of_mem hr'
  -- the log is in the order of both
  rcases Nat.lt_trichotomy i j with hij | hij | hij
  · exact pairwise_iff_getElem.mp h.ordered i j hi hj hij
  · subst hij
    exact Int64.le_refl _
  · have hlt := pairwise_iff_getElem.mp h.grounded.sound.pairwise j i hj hi hij
    omega

theorem Timed.le_tAtInstant_iff (h : Timed schema l) {r : TxRecord} (hr : r ∈ l.log) (instant : Int64) :
    r.t ≤ l.live.db.tAtInstant instant ↔ r.txInstant ≤ instant :=
  h.instants.le_tAt_iff (fun ht ht' hle => h.mono ht ht' hle) ⟨r, hr, rfl, rfl⟩ (h.grounded.sound.t_mem hr).1 instant

/-- The view as of an instant shows the datoms of the transactions up to it. -/
theorem Timed.asOfInstant_live (h : Timed schema l) (hlen : l.log.length < sequenceLimit) (instant : Int64) :
    (l.live.db.asOfInstant instant).live = foldLive (l.live.db.recorded.filter fun d =>
      l.log.any fun r => d.tx = txId r.t ∧ r.txInstant ≤ instant) := by
  show foldLive (l.live.db.recorded.filter fun d => decide (d.tx.sequence ≤ l.live.db.tAtInstant instant)) = _
  refine congrArg foldLive (filter_congr fun d hd => ?_)
  obtain ⟨r, hr, hd⟩ := mem_flatMap.mp (h.grounded.recorded d hd)
  have hseq : ∀ r ∈ l.log, (txId r.t).sequence = r.t := fun r hr =>
    txId_sequence (Nat.lt_of_le_of_lt (h.grounded.sound.t_mem hr).2 hlen)
  have htx := (h.grounded.sound.records r hr).own d hd
  rw [Bool.eq_iff_iff, decide_eq_true_eq, any_eq_true]
  simp only [decide_eq_true_eq]
  constructor
  · intro hle
    rw [htx, hseq r hr] at hle
    exact ⟨r, hr, htx, (h.le_tAtInstant_iff hr instant).mp hle⟩
  · rintro ⟨r', hr', htx', hle⟩
    rw [htx', hseq r' hr']
    exact (h.le_tAtInstant_iff hr' instant).mpr hle

end AsOf

/-- Runs that commit nothing once time has reached its last instant: instants
    strictly increase with `t`, and every instant leads to the greatest `t` not
    after it and to the view of exactly the transactions up to it. -/
theorem transaction_time {schema : Schema} {l : Life} (h : Runs schema BeforeLastInstant l)
    (hlen : l.log.length < sequenceLimit) :
    l.log.Pairwise (fun r r' => r.t < r'.t ∧ r.txInstant < r'.txInstant) ∧
      ∀ instant : Int64,
        (l.live.db.tAtInstant instant = 0 ∨
          ∃ r ∈ l.log, r.t = l.live.db.tAtInstant instant ∧ r.txInstant ≤ instant) ∧
        (∀ r ∈ l.log, r.txInstant ≤ instant ↔ r.t ≤ l.live.db.tAtInstant instant) ∧
        (l.live.db.asOfInstant instant).live = foldLive (l.live.db.recorded.filter fun d =>
          l.log.any fun r => d.tx = txId r.t ∧ r.txInstant ≤ instant) := by
  have htimed := h.timed hlen
  refine ⟨htimed.grounded.sound.pairwise.and (h.strictly_ordered hlen), fun instant => ⟨?_, fun r hr => ?_, ?_⟩⟩
  · rcases htimed.instants.tAt_mem instant with h0 | ⟨k, hle, r, hr, ht, rfl⟩
    · exact .inl h0
    · exact .inr ⟨r, hr, ht, hle⟩
  · exact (htimed.le_tAtInstant_iff hr instant).symm
  · exact htimed.asOfInstant_live hlen instant

/-! ## The last instant of all -/

namespace LastInstantExample

def base : Db := creation Schema.empty Idents.empty KeywordInterner.empty

/-- A transaction that records its instant only. -/
def stamp (t : Nat) (instant : Int64) : TxRecord :=
  { t, txInstant := instant, datoms := [txInstantDatom t instant] }

def supplied (instant : Int64) : List TxItem := [.op (.add (.temp txTempid) Bootstrap.txInstant (.instant instant))]

def lifeOf (log : List TxRecord) : Life := { log, live := recoverFrom base log, roots := [], allocated := [] }

/-- The first transaction supplies the last instant there is. -/
theorem runs_last : Runs Schema.empty (fun _ _ _ => True) (lifeOf [stamp 1 Int64.maxValue, stamp 2 Int64.maxValue]) :=
  Runs.commit
    (Runs.commit (.start Idents.empty KeywordInterner.empty)
      (show transact (recoverFrom base []) (supplied Int64.maxValue) 5 =
        .ok (stamp 1 Int64.maxValue, (∅ : Tempids).insert txTempid (txId 1),
          recoverFrom base [stamp 1 Int64.maxValue]) by decide +kernel)
      (show freshIds base _ ((∅ : Tempids).insert txTempid (txId 1)) = [] by decide) trivial)
    (show transact (recoverFrom base [stamp 1 Int64.maxValue]) [] 6 =
      .ok (stamp 2 Int64.maxValue, ∅, recoverFrom base [stamp 1 Int64.maxValue, stamp 2 Int64.maxValue]) by decide +kernel)
    (show freshIds (recoverFrom base [stamp 1 Int64.maxValue]).db _ ∅ = [] by decide) trivial

/-- Two transactions have one instant. -/
theorem time_stands_still_at_its_end :
    ∃ l, Runs Schema.empty (fun _ _ _ => True) l ∧ l.log.length < sequenceLimit ∧
      ¬ l.log.Pairwise (fun r r' => r.t < r'.t ∧ r.txInstant < r'.txInstant) :=
  ⟨_, runs_last, by decide, by decide⟩

/-- The second clock runs behind the first. -/
theorem runs_back : Runs Schema.empty BeforeLastInstant (lifeOf [stamp 1 5, stamp 2 6]) :=
  (Runs.commit
    (Runs.commit (.start Idents.empty KeywordInterner.empty)
      (show transact (recoverFrom base []) [] 5 = .ok (stamp 1 5, ∅, recoverFrom base [stamp 1 5]) by decide +kernel)
      (show freshIds base _ ∅ = [] by decide)
      (show (recoverFrom base []).lastInstant ≠ Int64.maxValue by decide))
    (show transact (recoverFrom base [stamp 1 5]) [] 3 =
      .ok (stamp 2 6, ∅, recoverFrom base [stamp 1 5, stamp 2 6]) by decide +kernel)
    (show freshIds (recoverFrom base [stamp 1 5]).db _ ∅ = [] by decide)
    (show (recoverFrom base [stamp 1 5]).lastInstant ≠ Int64.maxValue by decide)).step
    (.replay _ Idents.empty) trivial

theorem transaction_time_clock_back :
    (stamp 1 5).txInstant < (stamp 2 6).txInstant ∧ (lifeOf [stamp 1 5, stamp 2 6]).live.db.tAtInstant 5 = 1 := by
  obtain ⟨hordered, hasOf⟩ := transaction_time runs_back (by decide)
  refine ⟨((pairwise_cons.mp hordered).1 _ (mem_singleton.mpr rfl)).2, ?_⟩
  have hfirst := ((hasOf 5).2.1 (stamp 1 5) (by simp [lifeOf])).mp (by decide)
  have hsecond := mt ((hasOf 5).2.1 (stamp 2 6) (by simp [lifeOf])).mpr (by decide)
  change 1 ≤ _ at hfirst
  change ¬ 2 ≤ _ at hsecond
  omega

end LastInstantExample

end Life

end Corium.Transactor
