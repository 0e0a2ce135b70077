/-
  Corium.Transactor.GroupCommit — group commit against sequential commit
  (`BatchCursor` and `install_batch` of `crates/corium-transactor/src/lib.rs`).

  A batch prepares its requests one after another on a cursor and is installed at
  the end; committing them separately passes through `transact`. The two give the
  same records, tempids, results and final state exactly when no request that is
  refused for its instant has spent an entity id (`group_commit_iff`): the cursor
  advances its allocation counter before it looks at the instant, so such a
  request is not undone (`a_refused_request_spends_ids`).
-/

import Corium.Transactor.Grants
import Corium.Transactor.Hosted

namespace Corium.Transactor

open Corium.Core Corium.Lib Corium.Tx Bootstrap

/-- Transaction data and the clock reading it is prepared with. -/
abbrev Submission := List TxItem × Int64

/-- What a request is answered with. -/
abbrev Reply := Except TxError (TxRecord × Tempids)

/-- Preparing on one cursor: each request's result, and the cursor left. -/
def prepareAll (s : State) : List Submission → List Reply × State
  | [] => ([], s)
  | (items, nowMs) :: rest =>
    let (result, s) := prepareTransaction s items nowMs
    let (results, s) := prepareAll s rest
    (result :: results, s)

/-- One commit by itself; a refused one leaves the state. -/
def commitOne (s : State) (items : List TxItem) (nowMs : Int64) : Reply × State :=
  match transact s items nowMs with
  | .ok (record, tempids, s) => (.ok (record, tempids), s)
  | .error e => (.error e, s)

def transactAll (s : State) : List Submission → List Reply × State
  | [] => ([], s)
  | (items, nowMs) :: rest =>
    let (result, s) := commitOne s items nowMs
    let (results, s) := transactAll s rest
    (result :: results, s)

/-! ## The allocation counter -/

/-- The largest value of the counter, a `u64`. -/
def counterLimit : Nat := 2 ^ 64 - 1

/-- A tempid is given an id the counter has not passed, or a saga is opened below the counter's limit. -/
def Spends (s : State) (prepared : PreparedTx) : Prop :=
  (∃ x ∈ prepared.tempids.toList, x.2.inPartition .user = true ∧ s.nextUser ≤ x.2.sequence) ∨
    (s.nextUser < counterLimit ∧ openedSagas s.db prepared.datoms ≠ [])

theorem leaseNext_bounds {n : Nat} (h : n ≤ counterLimit) :
    n ≤ leaseNext n ∧ leaseNext n ≤ counterLimit ∧ (n < counterLimit → n < leaseNext n) := by
  unfold leaseNext counterLimit at *
  omega

theorem leaseNext_iterate {n : Nat} (h : n ≤ counterLimit) (k : Nat) :
    n ≤ leaseNext^[k] n ∧ leaseNext^[k] n ≤ counterLimit ∧ (n < counterLimit → 0 < k → n < leaseNext^[k] n) := by
  induction k generalizing n with
  | zero => exact ⟨Nat.le_refl n, h, fun _ hk => absurd hk (Nat.lt_irrefl 0)⟩
  | succ k ih =>
    obtain ⟨h1, h2, h3⟩ := leaseNext_bounds h
    obtain ⟨h4, h5, -⟩ := ih h2
    rw [Function.iterate_succ_apply]
    exact ⟨Nat.le_trans h1 h4, h5, fun hlt _ => Nat.lt_of_lt_of_le (h3 hlt) h4⟩

theorem advanceAllocation_next (s : State) (prepared : PreparedTx) (tx : TxId) :
    (advanceAllocation s.db prepared tx s.nextUser).2 =
      leaseNext^[(openedSagas s.db prepared.datoms).length] (tempidFloor prepared.tempids s.nextUser) :=
  congrArg Prod.snd (leaseSagaGrants_eq s.db prepared.datoms tx (tempidFloor prepared.tempids s.nextUser))

theorem tempidFloor_le {tempids : Tempids} {n : Nat} (h : n ≤ counterLimit) : tempidFloor tempids n ≤ counterLimit := by
  refine foldl_max_le_iff.mpr ⟨h, fun x hx => ?_⟩
  obtain ⟨e, -, rfl⟩ := List.mem_map.mp hx
  have := e.2.sequence_lt
  unfold counterLimit
  omega

variable {s : State}

/-- The counter never goes back. -/
theorem advanceAllocation_bounds (h : s.nextUser ≤ counterLimit) (prepared : PreparedTx) (tx : TxId) :
    s.nextUser ≤ (advanceAllocation s.db prepared tx s.nextUser).2 ∧
      (advanceAllocation s.db prepared tx s.nextUser).2 ≤ counterLimit := by
  rw [advanceAllocation_next]
  obtain ⟨h1, h2, -⟩ := leaseNext_iterate (@tempidFloor_le prepared.tempids s.nextUser h)
    (openedSagas s.db prepared.datoms).length
  exact ⟨Nat.le_trans (le_tempidFloor _ _) h1, h2⟩

/-- The counter stays exactly when nothing is spent. -/
theorem advanceAllocation_stays_iff (h : s.nextUser ≤ counterLimit) (prepared : PreparedTx) (tx : TxId) :
    (advanceAllocation s.db prepared tx s.nextUser).2 = s.nextUser ↔ ¬ Spends s prepared := by
  have hfloor := @tempidFloor_le prepared.tempids s.nextUser h
  have hle := le_tempidFloor prepared.tempids s.nextUser
  obtain ⟨h1, h2, h3⟩ := leaseNext_iterate hfloor (openedSagas s.db prepared.datoms).length
  rw [advanceAllocation_next]
  constructor
  · rintro heq (⟨x, hx, hu, hseq⟩ | ⟨hlt, hopened⟩)
    · have := lt_tempidFloor (t := x.1) s.nextUser (Std.ExtTreeMap.mem_toList_iff_getElem?_eq_some.mp hx) hu
      omega
    · have hpos := List.length_pos_of_ne_nil hopened
      have := h3 (by omega) hpos
      omega
  · intro hspends
    obtain ⟨htempids, hopened⟩ := not_or.mp hspends
    have hstays : tempidFloor prepared.tempids s.nextUser = s.nextUser := by
      refine Nat.le_antisymm (foldl_max_le_iff.mpr ⟨Nat.le_refl _, fun x hx => ?_⟩) hle
      obtain ⟨e, he, rfl⟩ := List.mem_map.mp hx
      obtain ⟨he, hu⟩ := List.mem_filter.mp he
      exact Nat.lt_of_not_le fun hseq => htempids ⟨e, he, hu, hseq⟩
    rw [hstays] at h1 h2 ⊢
    by_cases hlt : s.nextUser < counterLimit
    · have hnil : openedSagas s.db prepared.datoms = [] := by
        by_contra hne
        exact hopened ⟨hlt, hne⟩
      rw [hnil]
      rfl
    · omega

/-! ## A refused request -/

/-- A refusal leaves the cursor as it was. -/
def Undone (s : State) (r : Submission) : Prop := ∀ e s', prepareTransaction s r.1 r.2 = (.error e, s') → s' = s

/-- A request that asserts an instant no later than the last one spends no entity id. -/
def SpendsInTime (s : State) (r : Submission) : Prop :=
  ∀ prepared supplied, prepare s.db r.1 s.nextTx s.nextUser = .ok prepared →
    assertedInstant (s.db.basisT + 1) (advanceAllocation s.db prepared s.nextTx s.nextUser).1 = some supplied →
    supplied ≤ s.lastInstant → ¬ Spends s prepared

theorem sealTxInstant_error_iff {datoms : List Datom} {t : Nat} {nowMs lastInstant : Int64} {e : TxError} :
    sealTxInstant datoms t nowMs lastInstant = .error e ↔ ∃ supplied, assertedInstant t datoms = some supplied ∧
      supplied ≤ lastInstant ∧ e = .txInstantNotMonotonic supplied lastInstant := by
  unfold sealTxInstant
  cases ha : assertedInstant t datoms with
  | none => simp
  | some supplied =>
    by_cases hle : supplied ≤ lastInstant
    · simp [hle, eq_comm]
    · simp [hle]

/-- Where the instant refuses it, the counter has been advanced. -/
theorem prepareTransaction_refused {items : List TxItem} {nowMs : Int64} {prepared : PreparedTx}
    {e : TxError} (hp : prepare s.db items s.nextTx s.nextUser = .ok prepared)
    (hs : sealTxInstant (advanceAllocation s.db prepared s.nextTx s.nextUser).1 (s.db.basisT + 1) nowMs s.lastInstant =
      .error e) :
    prepareTransaction s items nowMs =
      (.error e, { s with nextUser := (advanceAllocation s.db prepared s.nextTx s.nextUser).2 }) := by
  unfold prepareTransaction
  simp only [hp, hs]

theorem undone_iff (h : s.nextUser ≤ counterLimit) (r : Submission) : Undone s r ↔ SpendsInTime s r := by
  constructor
  · intro hu prepared supplied hp ha hle
    rw [← advanceAllocation_stays_iff h prepared s.nextTx]
    have hs := (@sealTxInstant_error_iff _ _ r.2 _ _).mpr ⟨supplied, ha, hle, rfl⟩
    exact congrArg State.nextUser (hu _ _ (prepareTransaction_refused hp hs))
  · intro hspends e s' herr
    cases hp : prepare s.db r.1 s.nextTx s.nextUser with
    | error e' =>
      unfold prepareTransaction at herr
      rw [hp] at herr
      cases herr
      rfl
    | ok prepared =>
      cases hs : sealTxInstant (advanceAllocation s.db prepared s.nextTx s.nextUser).1 (s.db.basisT + 1) r.2
          s.lastInstant with
      | error e' =>
        obtain ⟨supplied, ha, hle, -⟩ := sealTxInstant_error_iff.mp hs
        rw [prepareTransaction_refused hp hs] at herr
        have hstays := (advanceAllocation_stays_iff h prepared s.nextTx).mpr (hspends prepared supplied hp ha hle)
        rw [hstays] at herr
        cases herr
        rfl
      | ok sealed =>
        unfold prepareTransaction at herr
        simp only [hp, hs] at herr
        cases herr

/-! ## Requests one after another -/

/-- `P` of every request and the cursor it meets. -/
def AtEach (P : State → Submission → Prop) (s : State) : List Submission → Prop
  | [] => True
  | r :: rest => P s r ∧ AtEach P (prepareTransaction s r.1 r.2).2 rest

/-- Counter and clock only move forward. -/
structure Onward (s s' : State) : Prop where
  counter : s.nextUser ≤ s'.nextUser
  limit : s'.nextUser ≤ counterLimit
  clock : s.lastInstant ≤ s'.lastInstant

theorem prepareTransaction_onward (h : s.nextUser ≤ counterLimit) (r : Submission) :
    Onward s (prepareTransaction s r.1 r.2).2 := by
  cases hp : prepare s.db r.1 s.nextTx s.nextUser with
  | error e =>
    unfold prepareTransaction
    rw [hp]
    exact ⟨Nat.le_refl _, h, Int64.le_refl _⟩
  | ok prepared =>
    obtain ⟨hcounter, hlimit⟩ := advanceAllocation_bounds h prepared s.nextTx
    cases hs : sealTxInstant (advanceAllocation s.db prepared s.nextTx s.nextUser).1 (s.db.basisT + 1) r.2
        s.lastInstant with
    | error e =>
      rw [prepareTransaction_refused hp hs]
      exact ⟨hcounter, hlimit, Int64.le_refl _⟩
    | ok sealed =>
      unfold prepareTransaction
      simp only [hp, hs]
      exact ⟨hcounter, hlimit, (sealTxInstant_clock hs).1⟩

theorem prepareAll_onward (h : s.nextUser ≤ counterLimit) (requests : List Submission) :
    Onward s (prepareAll s requests).2 := by
  induction requests generalizing s with
  | nil => exact ⟨Nat.le_refl _, h, Int64.le_refl _⟩
  | cons r rest ih =>
    have h1 := prepareTransaction_onward h r
    have h2 := ih h1.limit
    exact ⟨Nat.le_trans h1.counter h2.counter, h2.limit, Int64.le_trans h1.clock h2.clock⟩

theorem atEach_congr {P Q : State → Submission → Prop} (h : s.nextUser ≤ counterLimit)
    (hpq : ∀ s r, s.nextUser ≤ counterLimit → (P s r ↔ Q s r)) (requests : List Submission) :
    AtEach P s requests ↔ AtEach Q s requests := by
  induction requests generalizing s with
  | nil => exact Iff.rfl
  | cons r rest ih => exact and_congr (hpq s r h) (ih (prepareTransaction_onward h r).limit)

theorem commitOne_eq {r : Submission} (h : Undone s r) : commitOne s r.1 r.2 = prepareTransaction s r.1 r.2 := by
  unfold commitOne transact
  rcases hp : prepareTransaction s r.1 r.2 with ⟨reply, s'⟩
  cases reply with
  | error e => rw [h e s' hp]
  | ok reply => rfl

theorem transactAll_eq {requests : List Submission} (h : AtEach Undone s requests) :
    transactAll s requests = prepareAll s requests := by
  induction requests generalizing s with
  | nil => rfl
  | cons r rest ih =>
    unfold transactAll prepareAll
    rw [commitOne_eq h.1]
    dsimp only
    rw [ih h.2]

/-- Installing a cursor that only moved forward makes it the state. -/
theorem installBatch_eq {s cursor : State} (h : Onward s cursor) : s.installBatch cursor = cursor := by
  unfold State.installBatch
  rw [Nat.max_eq_right h.counter, int64_max_eq, if_pos h.clock]

/-- Group commit is sequential commit, and undoes what it refuses, exactly when no request refused
    for its instant spends an entity id. -/
theorem group_commit_iff {s : State} (h : s.nextUser ≤ counterLimit) (requests : List Submission) :
    AtEach SpendsInTime s requests ↔
      AtEach Undone s requests ∧ (prepareAll s requests).1 = (transactAll s requests).1 ∧
        s.installBatch (prepareAll s requests).2 = (transactAll s requests).2 := by
  rw [← atEach_congr h (fun s r hs => undone_iff hs r) requests]
  constructor
  · intro hu
    rw [transactAll_eq hu]
    exact ⟨hu, rfl, installBatch_eq (prepareAll_onward h requests)⟩
  · exact fun hu => hu.1

namespace SpentIdExample

def nameAttr : AttrId := dbAttr 100

def start : State :=
  recoverFrom (creation (Schema.empty.insert (simple nameAttr .str)) Idents.empty KeywordInterner.empty) []

def named (tempid name : String) : TxItem := .op (.add (.temp tempid) nameAttr (.str name))

/-- A commit at 5; a request for a new entity that claims to have happened at 3; another. -/
def requests : List Submission :=
  [([named "a" "ada"], 5),
    ([named "b" "bob", .op (.add (.temp txTempid) txInstant (.instant 3))], 6),
    ([named "c" "cyd"], 7)]

/-- The refused request's id is gone: the third tempid is allocated 1002 in a batch, 1001 by itself. -/
theorem a_refused_request_spends_ids :
    start.nextUser ≤ counterLimit ∧ ¬ AtEach Undone start requests ∧
      (prepareAll start requests).1 ≠ (transactAll start requests).1 ∧
      (start.installBatch (prepareAll start requests).2).nextUser = 1003 ∧ (transactAll start requests).2.nextUser = 1002 := by
  have hrefused : prepareTransaction (prepareTransaction start [named "a" "ada"] 5).2
      [named "b" "bob", .op (.add (.temp txTempid) txInstant (.instant 3))] 6 =
      (.error (.txInstantNotMonotonic 3 5), { (prepareTransaction start [named "a" "ada"] 5).2 with nextUser := 1002 }) := by
    decide +kernel
  refine ⟨by decide, fun hu => ?_, by decide +kernel, by decide +kernel, by decide +kernel⟩
  exact absurd (congrArg State.nextUser (hu.2.1 _ _ hrefused)) (by decide +kernel)

/-- A request that asserts no instant may spend ids. -/
theorem group_commit_iff_no_instant :
    AtEach Undone start [([named "a" "ada"], 5)] ∧
      (prepareAll start [([named "a" "ada"], 5)]).1 = (transactAll start [([named "a" "ada"], 5)]).1 ∧
      start.installBatch (prepareAll start [([named "a" "ada"], 5)]).2 = (transactAll start [([named "a" "ada"], 5)]).2 := by
  refine (group_commit_iff (s := start) (by decide) _).mp ⟨fun prepared supplied hp ha => ?_, trivial⟩
  have hprepare : prepare start.db [named "a" "ada"] start.nextTx start.nextUser =
      .ok { datoms := [assertion (txId 1) (EntityId.new Partition.user.id 1000) nameAttr (.str "ada")]
            tempids := (∅ : Tempids).insert "a" (EntityId.new Partition.user.id 1000) } := by decide +kernel
  cases hprepare.symm.trans hp
  have hnone : ∀ x, x = some supplied → x ≠ none := fun x hx => hx ▸ nofun
  exact absurd (by decide) (hnone _ ha)

end SpentIdExample

end Corium.Transactor
