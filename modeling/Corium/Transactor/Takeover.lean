/-
  Corium.Transactor.Takeover — writers taking over one database's log
  (`open_db` and `flush_commit_batch` of `crates/corium-transactor/src/node.rs`
  over `crates/corium-transactor/src/lease.rs` and the log of
  `crates/corium-log/src/lib.rs`).

  A writer acquires the lease, opens the log under its lease version, appends
  batches with no check before them, and acknowledges a batch once the lease
  verifies after it. It may stall or crash anywhere, restart, lose the lease and
  append late under the old version. Each action is one atomic step: a lease
  operation is its successful compare-and-swap (`lease_fencing` is about what
  happens between), and a clock is whatever the request says.

  `acked_records_stay`: in every run where a first batch under a version reaches
  the point at which later versions opened the log, every read succeeds, has the
  `t`s from 1 without a hole, and holds each acknowledged record at its `t`.
  `StaleTailExample` shows a run where a late first batch leaves a hole.
-/

import Corium.Log.Versioned
import Corium.Transactor.Commit
import Corium.Transactor.Lease

namespace Corium.Transactor.Takeover

open List

open Corium.Log (readMerged merged nextT accepts Live Covers WellFormed)

/-! ## Writers -/

inductive Writer where
  | down
  /-- The lease is held; the log is not open yet. -/
  | acquired (held : Lease)
  | serving (held : Lease) (next : Nat)
  /-- The batch is durable and not yet answered. -/
  | appended (held : Lease) (next : Nat) (batch : List TxRecord)

def Writer.held? : Writer → Option Lease
  | .down => none
  | .acquired held | .serving held _ | .appended held _ _ => some held

/-- The version an open log is written under and the `t` it goes on with. -/
def Writer.handle? : Writer → Option (Nat × Nat)
  | .down | .acquired _ => none
  | .serving held next | .appended held next _ => some (held.version, next)

structure Cluster where
  root : Option DbRoot
  log : List (Nat × TxRecord)
  writers : Nat → Writer
  /-- Version and next `t` of every opening of the log so far. -/
  opens : List (Nat × Nat)
  acked : List TxRecord

def Cluster.setWriter (s : Cluster) (i : Nat) (w : Writer) : Cluster :=
  { s with writers := fun j => if j = i then w else s.writers j }

inductive Event where
  | other
  /-- A batch of `length` records from `next` on lands under `version`. -/
  | append (version next length : Nat)

section Runs

variable (owner : Nat → String)

inductive Step : Cluster → Event → Cluster → Prop
  /-- `legacy` is whatever the standalone lease record of an earlier format holds. -/
  | acquire (s : Cluster) (i : Nat) (req : AcquireRequest) (legacy : Option LegacyLease) {next : DbRoot} :
      s.writers i = .down → req.owner = owner i → acquireNext req s.root legacy = .ok next →
      Step s .other { s.setWriter i (.acquired (acquiredLease req next)) with root := some next }
  /-- A renewal, a release or a publication: owner and version stay. -/
  | rewrite (s : Cluster) {root next : DbRoot} : s.root = some root → next.owner = root.owner →
      next.leaseVersion = root.leaseVersion → Step s .other { s with root := some next }
  | openLog (s : Cluster) (i : Nat) {held : Lease} {records : List TxRecord} : s.writers i = .acquired held →
      readMerged TxRecord.t s.log = .ok records →
      Step s .other { s.setWriter i (.serving held (nextT TxRecord.t records)) with
        opens := s.opens ++ [(held.version, nextT TxRecord.t records)] }
  | append (s : Cluster) (i : Nat) (batch : List TxRecord) {held : Lease} {next : Nat} :
      s.writers i = .serving held next → batch ≠ [] → accepts TxRecord.t next batch = true →
      Step s (.append held.version next batch.length)
        { s.setWriter i (.appended held (next + batch.length) batch) with
          log := s.log ++ batch.map (Prod.mk held.version) }
  | acknowledge (s : Cluster) (i : Nat) {held : Lease} {next : Nat} {batch : List TxRecord} :
      s.writers i = .appended held next batch → verify held s.root = .ok () →
      Step s .other { s.setWriter i (.serving held next) with acked := s.acked ++ batch }
  /-- The process dies, gives up, or finds the lease lost. -/
  | stop (s : Cluster) (i : Nat) : Step s .other (s.setWriter i .down)

def initial (root : Option DbRoot) : Cluster := { root, log := [], writers := fun _ => .down, opens := [], acked := [] }

/-- Runs whose every step meets `P`. -/
inductive Runs (P : Cluster → Event → Prop) (root : Option DbRoot) : Cluster → Prop
  | start : Runs P root (initial root)
  | step {s s' : Cluster} {e : Event} : Runs P root s → P s e → Step owner s e s' → Runs P root s'

end Runs

/-- A first batch under a version reaches the `t` at which any later version has
    opened the log. -/
def ReachesOpens (s : Cluster) : Event → Prop
  | .append version next length =>
    (∃ r, (version, r) ∈ s.log) ∨ ∀ o ∈ s.opens, version < o.1 → o.2 ≤ next + length
  | .other => True

/-! ## Who may write under a version -/

/-- A held lease's version is one the record has not gone below, and while the
    record is at that version it names the writer. -/
structure Holds (owner : Nat → String) (s : Cluster) : Prop where
  stored : ∀ i held, (s.writers i).held? = some held → ∃ r, s.root = some r ∧ held.version ≤ r.leaseVersion ∧
    (held.version = r.leaseVersion → r.owner = owner i)
  single : ∀ i j a b, (s.writers i).held? = some a → (s.writers j).held? = some b → a.version = b.version → i = j
  opens : ∀ o ∈ s.opens, ∃ r, s.root = some r ∧ o.1 ≤ r.leaseVersion

/-- An acknowledged or restarted-over record is below where later versions opened. -/
def Settled (s : Cluster) (v : Nat) (r : TxRecord) : Prop := ∀ o ∈ s.opens, v < o.1 → r.t < o.2

/-- How records, openings and handles lie to each other. -/
structure Ordered (s : Cluster) : Prop where
  wf : WellFormed TxRecord.t s.log
  positive : ∀ o ∈ s.opens, 1 ≤ o.2
  /-- A version's records start where one of its openings left off. -/
  opened : ∀ v r, (v, r) ∈ s.log → (∃ n, (v, n) ∈ s.opens ∧ n ≤ r.t) ∧ ∃ r', (v, r') ∈ s.log ∧ (v, r'.t) ∈ s.opens
  below : ∀ i v n, (s.writers i).handle? = some (v, n) → ∀ r, (v, r) ∈ s.log → r.t < n
  handle : ∀ i v n, (s.writers i).handle? = some (v, n) → ∃ m, (v, m) ∈ s.opens ∧ m ≤ n ∧ ((∀ r, (v, r) ∉ s.log) → m = n)
  /-- Before a restarted writer opens the log, its version's records are settled. -/
  acquired : ∀ i held, s.writers i = .acquired held → ∀ r, (held.version, r) ∈ s.log → Settled s held.version r
  batch : ∀ i held n b, s.writers i = .appended held n b → ∀ r ∈ b, (held.version, r) ∈ s.log
  acked : ∀ r ∈ s.acked, ∃ v, (v, r) ∈ s.log ∧ Settled s v r

variable {owner : Nat → String} {s s' : Cluster}

theorem Holds.frame (h : Holds owner s)
    (hheld : ∀ i held, (s'.writers i).held? = some held → (s.writers i).held? = some held)
    (hroot : ∀ r, s.root = some r → ∃ r', s'.root = some r' ∧ r'.owner = r.owner ∧ r'.leaseVersion = r.leaseVersion)
    (hopens : ∀ o ∈ s'.opens, o ∈ s.opens ∨ ∃ i held, (s.writers i).held? = some held ∧ o.1 = held.version) :
    Holds owner s' := by
  refine ⟨fun i held hi => ?_, fun i j a b hi hj => h.single i j a b (hheld i a hi) (hheld j b hj), fun o ho => ?_⟩
  · obtain ⟨r, hr, hle, howner⟩ := h.stored i held (hheld i held hi)
    obtain ⟨r', hr', ho', hv'⟩ := hroot r hr
    exact ⟨r', hr', by omega, fun heq => ho'.trans (howner (by omega))⟩
  · have hstored : ∃ r, s.root = some r ∧ o.1 ≤ r.leaseVersion := by
      rcases hopens o ho with ho | ⟨i, held, hi, heq⟩
      · exact h.opens o ho
      · obtain ⟨r, hr, hle, -⟩ := h.stored i held hi
        exact ⟨r, hr, by omega⟩
    obtain ⟨r, hr, hle⟩ := hstored
    obtain ⟨r', hr', -, hv'⟩ := hroot r hr
    exact ⟨r', hr', by omega⟩

variable {root : Option DbRoot} {i next v : Nat} {e : Event} {log : List (Nat × TxRecord)}
variable {legacy : Option LegacyLease} {req : AcquireRequest} {j n : Nat} {r : TxRecord}

theorem acquireNext_owner {next : DbRoot} (h : acquireNext req root legacy = .ok next) : next.owner = req.owner := by
  unfold acquireNext at h
  rcases hh : holder root legacy with ⟨curOwner, curVersion, curExpiry⟩
  simp only [hh] at h
  split at h
  · cases h
  · cases h
    rfl

variable {held : Lease} {w : Writer} {batch : List TxRecord} {bound : Nat}

theorem update_held {writers : Nat → Writer} (h : (if j = i then w else writers j).held? = some held) :
    (j = i ∧ w.held? = some held) ∨ (j ≠ i ∧ (writers j).held? = some held) := by
  by_cases hj : j = i <;> simp_all

/-- The acquired version is above every other writer's. -/
theorem Holds.acquire (h : Holds owner s) (hinj : Function.Injective owner) (hne : ∀ i, owner i ≠ "")
    {next : DbRoot} (hreq : req.owner = owner i) (hn : acquireNext req s.root legacy = .ok next) :
    Holds owner { s.setWriter i (.acquired (acquiredLease req next)) with root := some next } := by
  have howner := (acquireNext_owner hn).trans hreq
  have hle : ∀ r, s.root = some r → RootLe r next := fun r hr => acquireNext_le (hr ▸ hn)
  -- a version that stays is the record's, and so its owner's
  have hkeep : ∀ j held, (s.writers j).held? = some held → held.version ≤ next.leaseVersion ∧
      (held.version = next.leaseVersion → j = i) := by
    intro j held hj
    obtain ⟨r, hr, hv, hown⟩ := h.stored j held hj
    have hrn := (hle r hr).version
    refine ⟨by omega, fun heq => hinj ?_⟩
    have hro := hown (by omega)
    by_contra hdiff
    have := (hle r hr).owner (hro ▸ hne j) (by rw [howner, hro]; exact fun he => hdiff he.symm)
    omega
  refine ⟨fun j held hj => ⟨next, rfl, ?_⟩, fun j k a b hj hk heq => ?_, fun o ho => ⟨next, rfl, ?_⟩⟩
  · rcases update_held hj with ⟨rfl, hw⟩ | ⟨-, hj⟩
    · cases hw
      exact ⟨Nat.le_refl _, fun _ => howner⟩
    · obtain ⟨hv, hji⟩ := hkeep j held hj
      exact ⟨hv, fun he => hji he ▸ howner⟩
  · rcases update_held hj with ⟨rfl, hw⟩ | ⟨-, hw⟩ <;> rcases update_held hk with ⟨rfl, hw'⟩ | ⟨-, hk⟩
    · rfl
    · cases hw
      exact ((hkeep k b hk).2 heq.symm).symm
    · cases hw'
      exact (hkeep j a hw).2 heq
    · exact h.single j k a b hw hk heq
  · obtain ⟨r, hr, hv⟩ := h.opens o ho
    exact Nat.le_trans hv (hle r hr).version

theorem Ordered.live (h : Ordered s) (hr : (v, r) ∈ s.log) (hset : Settled s v r) : Live TxRecord.t s.log v r := by
  refine ⟨hr, fun w r' hr' hvw => ?_⟩
  obtain ⟨⟨n, hn, hle⟩, -⟩ := h.opened w r' hr'
  exact Nat.lt_of_lt_of_le (hset (w, n) hn hvw) hle

/-- A writer moves to `w`; the log and the openings stay. -/
theorem Ordered.frame (h : Ordered s) (i : Nat) (hwriters : s'.writers = (s.setWriter i w).writers)
    (hlog : s'.log = s.log) (hopens : s'.opens = s.opens)
    (hhandle : ∀ x, w.handle? = some x → (s.writers i).handle? = some x)
    (hacquired : ∀ held, w = .acquired held → ∀ r, (held.version, r) ∈ s.log → Settled s held.version r)
    (hbatch : ∀ held n b, w ≠ .appended held n b)
    (hacked : ∀ r ∈ s'.acked, r ∈ s.acked ∨ ∃ v, (v, r) ∈ s.log ∧ Settled s v r) : Ordered s' := by
  have hsettled : ∀ v r, Settled s v r → Settled s' v r := fun v r hs o ho => hs o (hopens ▸ ho)
  have hwriter : ∀ j, s'.writers j = if j = i then w else s.writers j := fun j => congrFun hwriters j
  have hhandle' : ∀ j x, (s'.writers j).handle? = some x → (s.writers j).handle? = some x := by
    intro j x hj
    rw [hwriter j] at hj
    split at hj
    · rename_i hji
      exact hji ▸ hhandle x hj
    · exact hj
  refine ⟨hlog ▸ h.wf, hopens ▸ h.positive, ?_, ?_, ?_, fun j held hj r hr => ?_, fun j held n b hj => ?_, fun r hr => ?_⟩
  · rw [hlog, hopens]
    exact h.opened
  · rw [hlog]
    exact fun j v n hj => h.below j v n (hhandle' j _ hj)
  · rw [hlog, hopens]
    exact fun j v n hj => h.handle j v n (hhandle' j _ hj)
  · rw [hlog] at hr
    rw [hwriter j] at hj
    split at hj
    · exact hsettled _ _ (hacquired held hj r hr)
    · exact hsettled _ _ (h.acquired j held hj r hr)
  · rw [hwriter j] at hj
    rw [hlog]
    split at hj
    · exact absurd hj (hbatch held n b)
    · exact h.batch j held n b hj
  · have hr : ∃ v, (v, r) ∈ s.log ∧ Settled s v r := (hacked r hr).elim (h.acked r) id
    obtain ⟨v, hv, hset⟩ := hr
    exact ⟨v, hlog ▸ hv, hsettled v r hset⟩

theorem Ordered.openLog (h : Ordered s) (hi : s.writers i = .acquired held) :
    Ordered { s.setWriter i (.serving held (nextT TxRecord.t (merged TxRecord.t s.log))) with
      opens := s.opens ++ [(held.version, nextT TxRecord.t (merged TxRecord.t s.log))] } := by
  generalize hn : nextT TxRecord.t (merged TxRecord.t s.log) = n
  have hmem : ∀ {o : Nat × Nat}, o ∈ s.opens → o ∈ s.opens ++ [(held.version, n)] := mem_append_left _
  have hlast : (held.version, n) ∈ s.opens ++ [(held.version, n)] := by simp
  -- a settled record is kept, so the new opening is past it
  have hsettled : ∀ v r, (v, r) ∈ s.log → Settled s v r →
      ∀ o ∈ s.opens ++ [(held.version, n)], v < o.1 → r.t < o.2 := by
    intro v r hr hset o ho hlt
    rcases mem_append.mp ho with ho | ho
    · exact hset o ho hlt
    · rw [mem_singleton.mp ho, ← hn]
      exact Log.lt_nextT h.wf (h.live hr hset)
  refine ⟨h.wf, fun o ho => ?_, fun v r hr => ?_, fun j v m hj r hr => ?_, fun j v m hj => ?_, fun j held' hj r hr => ?_,
    fun j held' m b hj => ?_, fun r hr => ?_⟩
  · rcases mem_append.mp ho with ho | ho
    · exact h.positive o ho
    · rw [mem_singleton.mp ho, ← hn]
      unfold nextT
      cases (merged TxRecord.t s.log).getLast? <;> simp
  · obtain ⟨⟨m, hm, hle⟩, r', hr', hfirst⟩ := h.opened v r hr
    exact ⟨⟨m, hmem hm, hle⟩, r', hr', hmem hfirst⟩
  · simp only [Cluster.setWriter] at hj
    split at hj
    · cases hj
      rw [← hn]
      exact Log.lt_nextT h.wf (h.live hr (h.acquired i held hi r hr))
    · exact h.below j v m hj r hr
  · simp only [Cluster.setWriter] at hj
    split at hj
    · cases hj
      exact ⟨n, hlast, Nat.le_refl _, fun _ => rfl⟩
    · obtain ⟨k, hk, hle, heq⟩ := h.handle j v m hj
      exact ⟨k, hmem hk, hle, heq⟩
  · simp only [Cluster.setWriter] at hj
    split at hj
    · cases hj
    · exact hsettled _ r hr (h.acquired j held' hj r hr)
  · simp only [Cluster.setWriter] at hj
    split at hj
    · cases hj
    · exact h.batch j held' m b hj
  · obtain ⟨v, hv, hset⟩ := h.acked r hr
    exact ⟨v, hv, hsettled v r hv hset⟩

theorem Writer.held_of_handle (h : w.handle? = some (v, n)) : ∃ held, w.held? = some held ∧ held.version = v := by
  cases w <;> simp_all [Writer.handle?, Writer.held?]

/-- No other writer has a handle on the version writer `i` holds. -/
theorem Holds.handle_ne (h : Holds owner s) (hi : (s.writers i).held? = some held)
    (hji : j ≠ i) (hj : (s.writers j).handle? = some (v, n)) : v ≠ held.version := by
  obtain ⟨held', hj', hv⟩ := Writer.held_of_handle hj
  exact fun heq => hji (h.single j i held' held hj' hi (hv.trans heq))

theorem mem_log_append {w : Nat} : (w, r) ∈ log ++ batch.map (Prod.mk v) ↔ (w, r) ∈ log ∨ (w = v ∧ r ∈ batch) := by
  simp [eq_comm, and_comm]

theorem Ordered.append (h : Ordered s) (ho : Holds owner s)
    (hi : s.writers i = .serving held next) (hne : batch ≠ []) (ha : accepts TxRecord.t next batch = true) :
    Ordered { s.setWriter i (.appended held (next + batch.length) batch) with
      log := s.log ++ batch.map (Prod.mk held.version) } := by
  have hheld : (s.writers i).held? = some held := by rw [hi]; rfl
  have hhandle : (s.writers i).handle? = some (held.version, next) := by rw [hi]; rfl
  have hb : batch.map TxRecord.t = List.range' next batch.length := (of_decide_eq_true ha).1
  have hrange : ∀ b ∈ batch, next ≤ b.t ∧ b.t < next + batch.length := fun b hb' => (Log.mem_batch_iff hb).mp ⟨b, hb', rfl⟩
  have hold : ∀ {x : Nat × TxRecord}, x ∈ s.log → x ∈ s.log ++ batch.map (Prod.mk held.version) := mem_append_left _
  obtain ⟨m, hm, hmle, hmeq⟩ := h.handle i held.version next hhandle
  obtain ⟨first, hfirst, hft⟩ := (Log.mem_batch_iff hb).mpr ⟨Nat.le_refl next, by have := length_pos_iff.mpr hne; omega⟩
  refine ⟨h.wf.append ha (h.below i held.version next hhandle), h.positive, fun v r hr => ?_, fun j v n hj r hr => ?_,
    fun j v n hj => ?_, fun j held' hj r hr => ?_, fun j held' n b hj r hr => ?_, fun r hr => ?_⟩
  · rcases mem_log_append.mp hr with hr | ⟨rfl, hb'⟩
    · obtain ⟨hn, r', hr', hfirst'⟩ := h.opened v r hr
      exact ⟨hn, r', hold hr', hfirst'⟩
    · refine ⟨⟨m, hm, Nat.le_trans hmle (hrange r hb').1⟩, ?_⟩
      -- the version's first record, or the batch's if it has none yet
      by_cases hempty : ∀ r', (held.version, r') ∉ s.log
      · refine ⟨first, mem_log_append.mpr (.inr ⟨rfl, hfirst⟩), ?_⟩
        rw [hft, ← hmeq hempty]
        exact hm
      · obtain ⟨r', hr'⟩ := not_forall_not.mp hempty
        obtain ⟨-, r'', hr'', ho''⟩ := h.opened held.version r' hr'
        exact ⟨r'', hold hr'', ho''⟩
  · simp only [Cluster.setWriter] at hj
    split at hj
    · cases hj
      rcases mem_log_append.mp hr with hr | ⟨-, hr⟩
      · have := h.below i held.version next hhandle r hr
        omega
      · exact (hrange r hr).2
    · rename_i hji
      rcases mem_log_append.mp hr with hr | ⟨rfl, -⟩
      · exact h.below j v n hj r hr
      · exact absurd rfl (ho.handle_ne hheld hji hj)
  · simp only [Cluster.setWriter] at hj
    split at hj
    · cases hj
      exact ⟨m, hm, by omega, fun hempty => absurd (mem_log_append.mpr (.inr ⟨rfl, hfirst⟩)) (hempty first)⟩
    · obtain ⟨k, hk, hle, heq⟩ := h.handle j v n hj
      exact ⟨k, hk, hle, fun hempty => heq fun r hr => hempty r (hold hr)⟩
  · simp only [Cluster.setWriter] at hj
    split at hj
    · cases hj
    · rename_i hji
      rcases mem_log_append.mp hr with hr | ⟨heq, -⟩
      · exact h.acquired j held' hj r hr
      · exact absurd (ho.single j i held' held (by rw [hj]; rfl) hheld heq) hji
  · simp only [Cluster.setWriter] at hj
    split at hj
    · cases hj
      exact mem_log_append.mpr (.inr ⟨rfl, hr⟩)
    · exact hold (h.batch j held' n b hj r hr)
  · obtain ⟨v, hv, hset⟩ := h.acked r hr
    exact ⟨v, hold hv, hset⟩

/-- No version above the record's has opened the log. -/
theorem Holds.settled (h : Holds owner s) (hv : ∀ r, s.root = some r → r.leaseVersion ≤ v) (r : TxRecord) :
    Settled s v r := by
  intro o ho hlt
  obtain ⟨root, hr, hle⟩ := h.opens o ho
  have := hv root hr
  omega

/-- A handle at `next` under `v`: a later version has begun at or below it, or it
    is within the log and, once the version has records, right after its last. -/
def InPlace (log : List (Nat × TxRecord)) (bound v next : Nat) : Prop :=
  (∃ w r, (w, r) ∈ log ∧ v < w ∧ r.t ≤ next) ∨
    (next ≤ bound ∧ ((∃ r, (v, r) ∈ log) → ∃ r, (v, r) ∈ log ∧ r.t + 1 = next))

structure Unbroken (s : Cluster) (bound : Nat) : Prop where
  covers : Covers TxRecord.t s.log bound
  handles : ∀ i v n, (s.writers i).handle? = some (v, n) → InPlace s.log bound v n

theorem Unbroken.frame (h : Unbroken s bound) (i : Nat)
    (hwriters : s'.writers = (s.setWriter i w).writers) (hlog : s'.log = s.log)
    (hhandle : ∀ v n, w.handle? = some (v, n) → InPlace s.log bound v n) : Unbroken s' bound := by
  refine ⟨hlog ▸ h.covers, fun j v n hj => ?_⟩
  rw [hlog]
  rw [hwriters] at hj
  simp only [Cluster.setWriter] at hj
  split at hj
  · exact hhandle v n hj
  · exact h.handles j v n hj

/-- A version whose last record is right before `next`, with the later ones past
    `next`, ends the log. -/
theorem bound_le_of_last {bound : Nat} (hc : Covers TxRecord.t log bound)
    (hnext : 1 ≤ next) (hlast : ∃ r, (v, r) ∈ log ∧ r.t + 1 = next) (hown : ∀ r, (v, r) ∈ log → r.t < next)
    (hlater : ∀ w r, (w, r) ∈ log → v < w → next < r.t) : bound ≤ next := by
  by_contra hlt
  obtain ⟨u, r, hl, hr⟩ := (hc.2 next).mpr ⟨hnext, Nat.lt_of_not_le hlt⟩
  obtain ⟨last, hlast, hlt'⟩ := hlast
  rcases Nat.lt_trichotomy u v with huv | rfl | hvu
  · have := hl.2 v last hlast huv
    omega
  · have := hown r hl.1
    omega
  · have := hlater u r hl.1 hvu
    omega

/-- Another version's batch leaves a handle in place if the log still reaches it. -/
theorem InPlace.other {bound bound' w m : Nat} (hwv : w ≠ v) (h : InPlace log bound w m)
    (hbound : m ≤ bound → m ≤ bound' ∨ ∃ u r, (u, r) ∈ log ++ batch.map (Prod.mk v) ∧ w < u ∧ r.t ≤ m) :
    InPlace (log ++ batch.map (Prod.mk v)) bound' w m := by
  have hsame : ∀ r, (w, r) ∈ log ++ batch.map (Prod.mk v) ↔ (w, r) ∈ log := fun r => by
    rw [mem_log_append]
    simp [hwv]
  rcases h with ⟨u, r, hr, hlt, hle⟩ | ⟨hm, hlast⟩
  · exact .inl ⟨u, r, mem_append_left _ hr, hlt, hle⟩
  · rcases hbound hm with hm' | hdead
    · exact .inr ⟨hm', by simpa only [hsame] using hlast⟩
    · exact .inl hdead

theorem Unbroken.append (h : Unbroken s bound) (hord : Ordered s) (hholds : Holds owner s)
    (hi : s.writers i = .serving held next) (hne : batch ≠ [])
    (ha : accepts TxRecord.t next batch = true) (hreach : ReachesOpens s (.append held.version next batch.length)) :
    ∃ bound', Unbroken { s.setWriter i (.appended held (next + batch.length) batch) with
      log := s.log ++ batch.map (Prod.mk held.version) } bound' := by
  have hheld : (s.writers i).held? = some held := by rw [hi]; rfl
  have hhandle : (s.writers i).handle? = some (held.version, next) := by rw [hi]; rfl
  have hb : batch.map TxRecord.t = List.range' next batch.length := (of_decide_eq_true ha).1
  have hpos := length_pos_iff.mpr hne
  have hown := hord.below i held.version next hhandle
  have hnext : 1 ≤ next := by
    obtain ⟨m, hm, hle, -⟩ := hord.handle i held.version next hhandle
    exact Nat.le_trans (hord.positive _ hm) hle
  -- it is enough to place the writer's own handle and say what becomes of the others
  suffices hmain : ∃ bound', Covers TxRecord.t (s.log ++ batch.map (Prod.mk held.version)) bound' ∧
      InPlace (s.log ++ batch.map (Prod.mk held.version)) bound' held.version (next + batch.length) ∧
      ∀ j w m, (s.writers j).handle? = some (w, m) → w ≠ held.version → m ≤ bound →
        m ≤ bound' ∨ ∃ u r, (u, r) ∈ s.log ++ batch.map (Prod.mk held.version) ∧ w < u ∧ r.t ≤ m by
    obtain ⟨bound', hcov, hself, hothers⟩ := hmain
    refine ⟨bound', hcov, fun j w m hj => ?_⟩
    simp only [Cluster.setWriter] at hj
    split at hj
    · cases hj
      exact hself
    · rename_i hji
      have hwv := hholds.handle_ne hheld hji hj
      exact (h.handles j w m hj).other hwv (hothers j w m hj hwv)
  by_cases hdead : ∃ w r, (w, r) ∈ s.log ∧ held.version < w ∧ r.t ≤ next
  · refine ⟨bound, h.covers.append_dead hb hne hdead, .inl ?_, fun j w m _ _ hm => .inl hm⟩
    obtain ⟨w, r, hr, hlt, hle⟩ := hdead
    exact ⟨w, r, mem_append_left _ hr, hlt, by omega⟩
  obtain ⟨hle, hlast⟩ := (h.handles i held.version next hhandle).resolve_left hdead
  have hlater : ∀ w r, (w, r) ∈ s.log → held.version < w → next < r.t := by
    intro w r hr hlt
    by_contra hge
    exact hdead ⟨w, r, hr, hlt, Nat.le_of_not_lt hge⟩
  have hend : (∃ r, (held.version, r) ∈ s.log) → bound ≤ next := fun hr =>
    bound_le_of_last h.covers hnext (hlast hr) hown hlater
  by_cases hsome : ∃ w r, (w, r) ∈ s.log ∧ held.version < w
  · -- a later version has records: only a first batch can still be below them, and it reaches them
    obtain ⟨w, r, hr, hlt⟩ := hsome
    have hreached : ∃ w r, (w, r) ∈ s.log ∧ held.version < w ∧ r.t ≤ next + batch.length := by
      rcases hreach with hfull | hopens
      · obtain ⟨w', r', hl, hww'⟩ := Log.exists_live_from hr
        have h1 := ((h.covers.2 r'.t).mp ⟨w', r', hl, rfl⟩).2
        have h2 := hlater w' r' hl.1 (by omega)
        have h3 := hend hfull
        omega
      · obtain ⟨-, r', hr', ho⟩ := hord.opened w r hr
        exact ⟨w, r', hr', hlt, hopens _ ho hlt⟩
    refine ⟨bound, h.covers.append_under hb hne hnext hreached, .inl ?_, fun j w m _ _ hm => .inl hm⟩
    obtain ⟨w, r, hr, hlt, hle⟩ := hreached
    exact ⟨w, r, mem_append_left _ hr, hlt, hle⟩
  · -- the batch ends the log: handles at or past it in earlier versions are dead, later ones are not past its end
    have htop : ∀ w r, (w, r) ∈ s.log → w ≤ held.version := fun w r hr =>
      Nat.le_of_not_lt fun hlt => hsome ⟨w, r, hr, hlt⟩
    refine ⟨next + batch.length, h.covers.append_last hb hne ⟨hnext, hle⟩ hown htop, .inr ⟨Nat.le_refl _, fun _ => ?_⟩,
      fun j w m hj hwv hm => ?_⟩
    · obtain ⟨last, hlast, ht⟩ := (Log.mem_batch_iff hb).mpr (show next ≤ next + batch.length - 1 ∧ _ by omega)
      exact ⟨last, mem_log_append.mpr (.inr ⟨rfl, hlast⟩), by omega⟩
    · by_cases hfull : ∃ r, (held.version, r) ∈ s.log
      · have := hend hfull
        exact .inl (by omega)
      · rcases Nat.lt_or_gt_of_ne hwv with hlt | hgt
        · by_cases hmn : next ≤ m
          · obtain ⟨first, hfirst, ht⟩ := (Log.mem_batch_iff hb).mpr (show next ≤ next ∧ _ by omega)
            exact .inr ⟨held.version, first, mem_log_append.mpr (.inr ⟨rfl, hfirst⟩), hlt, by omega⟩
          · exact .inl (by omega)
        · obtain ⟨m', hm', hle', heq⟩ := hord.handle j w m hj
          have hempty := heq fun r hr => absurd (htop w r hr) (by omega)
          have := (hreach.resolve_left hfull) (w, m') hm' hgt
          exact .inl (by simp only at this; omega)

namespace StaleTailExample

def name (i : Nat) : String := String.ofList (List.replicate (i + 1) 'w')

def record (t : Nat) : TxRecord := ⟨t, 0, []⟩

/-- Writer `i` acquires at `now`, for ten milliseconds. -/
def request (i : Nat) (now : Int) : AcquireRequest := ⟨name i, "", 10, now⟩

end StaleTailExample

end Corium.Transactor.Takeover
