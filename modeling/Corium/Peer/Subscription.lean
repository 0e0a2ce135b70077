/-
  Corium.Peer.Subscription — a peer's replica of a database (`apply_item` and `run_loop` of
  `crates/corium-peer/src/lib.rs`, `subscription_stream` of
  `crates/corium-transactor/src/server.rs`, the reports of `flush_commit_batch` in
  `crates/corium-transactor/src/node.rs`).

  A commit makes its batch durable, installs it, verifies the lease and broadcasts a report
  for each record. A stream registers for the broadcast before it reads the basis, backfills
  from the log up to the basis and goes on with what was broadcast since, above what it has
  sent. The peer skips a report at or below its basis and applies any other, next or not.

  A peer has every record up to its basis, each once and in order, over any number of
  streams that end anywhere, as long as every record is reported (`replicas_have_no_gap`). A
  batch is not when the lease cannot be verified after its append, and the next report takes
  the peer past it (`a_record_not_reported_is_passed_over`).

  The codec of datoms is a parameter; they are encoded under any names, and handshakes have
  any idents. Left out are heartbeats, index bases, other peers' streams and records that a
  takeover cuts off (the log only grows).
-/

import Corium.Db.Cached
import Corium.Transactor.BranchLog

namespace Corium.Peer

open Corium.Core Corium.Transactor Bootstrap List

/-! ## The peer and its stream -/

structure Codec (ω : Type) where
  encode : KeywordInterner → List Datom → Option ω
  /-- What is read before an error is interned. -/
  decode : KeywordInterner → ω → Option (List Datom) × KeywordInterner

structure PeerState where
  interner : KeywordInterner
  db : Db

variable {ω : Type}

/-- `apply_item` on a report, and whether it was decoded; `idents` are those of the handshake. -/
def applyReport (c : Codec ω) (idents : Idents) (p : PeerState) (t : Nat) (txInstant : Int64) (datoms : ω) : PeerState × Bool :=
  if t ≤ p.db.basisT then (p, true)
  else match c.decode p.interner datoms with
    | (none, interner) => ({ p with interner }, false)
    | (some datoms, interner) =>
      let db := if p.interner.len < interner.len then p.db.withNaming idents interner else p.db
      (⟨interner, db.withTransactionAt t ((assertedInstant t datoms).getD txInstant) datoms⟩, true)

structure Stream where
  /-- The basis is read, and the handshake and the backfill sent. -/
  opened : Bool
  /-- Broadcast since the stream registered. -/
  queue : List TxRecord
  lastSent : Nat
  /-- On the way to the peer. -/
  sent : List TxRecord

def Stream.forward (st : Stream) (r : TxRecord) (rest : List TxRecord) : Stream :=
  if r.t ≤ st.lastSent then { st with queue := rest }
  else { st with queue := rest, sent := st.sent ++ [r], lastSent := r.t }

/-- The records after `a` up to `b`: a log is numbered from one. -/
def between (log : TxLog) (a b : Nat) : List TxRecord := (log.records.take b).drop a

/-- `tx_range` from what the stream begins with up to the basis. -/
def Stream.backfill (st : Stream) (log : TxLog) : Stream :=
  let records := between log st.lastSent log.records.length
  { st with opened := true, sent := records, lastSent := Branch.basisAfter st.lastSent records }

/-- A transactor and one peer. The live value has the whole log, whose records are reported
    up to `reported`. -/
structure Sys where
  log : TxLog
  reported : Nat
  peer : PeerState
  stream : Option Stream

inductive Event where
  /-- A record is not reported. -/
  | skip
  | other
  deriving DecidableEq

inductive Step (c : Codec ω) : Sys → Event → Sys → Prop
  /-- A batch is durable and installed; the one before it has been seen through. -/
  | commit (s : Sys) {rs log} : s.reported = s.log.records.length →
      s.log.appendBatch rs = .ok log → Step c s .other { s with log }
  | broadcast (s : Sys) {r} : s.log.records[s.reported]? = some r → Step c s .other { s with
      reported := s.reported + 1, stream := s.stream.map fun st => { st with queue := st.queue ++ [r] } }
  /-- The lease is not verified after the append, or the datoms not encoded. -/
  | skip (s : Sys) : s.reported < s.log.records.length → Step c s .skip { s with reported := s.reported + 1 }
  /-- The node stops, and it or another one opens the log. -/
  | reopen (s : Sys) : Step c s .other { s with reported := s.log.records.length, stream := none }
  | register (s : Sys) : Step c s .other { s with stream := some ⟨false, [], s.peer.db.basisT, []⟩ }
  /-- The records up to the basis never change, so they are read with it. -/
  | backfill (s : Sys) {st} : s.stream = some st → st.opened = false →
      Step c s .other { s with stream := some (st.backfill s.log) }
  | forward (s : Sys) {st r rest} : s.stream = some st → st.opened = true → st.queue = r :: rest →
      Step c s .other { s with stream := some (st.forward r rest) }
  | receive (s : Sys) (idents : Idents) (names : KeywordInterner) (instant : Int64) {st r rest datoms peer} :
      s.stream = some st → st.sent = r :: rest → c.encode names r.datoms = some datoms →
      applyReport c idents s.peer r.t instant datoms = (peer, true) →
      Step c s .other { s with peer, stream := some { st with sent := rest } }
  /-- A report that cannot be decoded ends the stream. -/
  | reject (s : Sys) {idents t instant datoms peer} : applyReport c idents s.peer t instant datoms = (peer, false) →
      Step c s .other { s with peer, stream := none }
  /-- The subscriber lags, or an error, silence or a refused handshake ends the stream. -/
  | close (s : Sys) : Step c s .other { s with stream := none }

/-- Runs whose every step meets `P`. -/
inductive Runs (c : Codec ω) (P : Event → Prop) (s : Sys) : Sys → Prop
  | refl : Runs c P s s
  | step {s' e s''} : Runs c P s s' → Step c s' e s'' → P e → Runs c P s s''

/-- A transactor that has opened its log, and a peer with an empty value or a published snapshot. -/
def start (log : TxLog) (peer : PeerState) : Sys := ⟨log, log.records.length, peer, none⟩

/-! ## Ranges of the log -/

section Between
variable {log : TxLog} {a b : Nat} {r : TxRecord}

theorem between_appended {log' : TxLog} {rs : List TxRecord} (hlog : log'.records = log.records ++ rs)
    (h : b ≤ log.records.length) : between log' a b = between log a b := by
  simp [between, hlog, take_append_of_le_length h]

theorem between_cons {rs : List TxRecord} (h : between log a b = r :: rs) :
    log.records[a]? = some r ∧ r.t = a + 1 ∧ a < b ∧ between log (a + 1) b = rs := by
  have hr : (between log a b)[0]? = some r := by rw [h]; rfl
  simp only [between, getElem?_drop, Nat.add_zero, getElem?_take] at hr
  by_cases hab : a < b
  · rw [if_pos hab] at hr
    obtain ⟨hlt, hra⟩ := List.getElem?_eq_some_iff.mp hr
    have ht := congrArg (·[a]?) log.contiguous
    simp [hlt, hra] at ht
    refine ⟨hr, by omega, hab, ?_⟩
    rw [between, ← tail_drop, ← between, h]
    rfl
  · simp [hab] at hr

theorem between_succ (hab : a ≤ b) (h : log.records[b]? = some r) : between log a (b + 1) = between log a b ++ [r] := by
  obtain ⟨hlt, -⟩ := List.getElem?_eq_some_iff.mp h
  rw [between, take_add_one, h, drop_append_of_le_length (by simp; omega)]
  rfl

theorem basisAfter_between (h : a ≤ log.records.length) :
    Branch.basisAfter a (between log a log.records.length) = log.records.length := by
  rw [Branch.basisAfter_eq (n := log.records.length - a)]
  · omega
  · simp [between, log.contiguous, map_drop, Nat.add_comm]

end Between

/-! ## What a run keeps -/

/-- `ds` is what a peer records of `r`. -/
def Receives (c : Codec ω) (r : TxRecord) (ds : List Datom) : Prop :=
  ∃ names names' instant datoms raw, c.encode names r.datoms = some datoms ∧ (c.decode names' datoms).1 = some raw ∧
    ds = recordedAt r.t instant raw

/-- `db` is `base` with what it received of the log up to its basis. -/
def Replicates (c : Codec ω) (log : TxLog) (base db : Db) : Prop :=
  ∃ received, db.recorded = base.recorded ++ received.flatten ∧ Forall₂ (Receives c) (between log base.basisT db.basisT) received

/-- What is queued goes on from a place the stream has reached, what is sent from the peer's
    basis `p`. -/
def Stream.Sound (log : TxLog) (reported p : Nat) (st : Stream) : Prop :=
  ∃ k ≤ reported, st.queue = between log k reported ∧ p ≤ st.lastSent ∧ st.lastSent ≤ log.records.length ∧
    st.sent = between log p st.lastSent ∧ if st.opened then k ≤ st.lastSent else st.lastSent = p

structure Sound (c : Codec ω) (base : Db) (s : Sys) : Prop where
  reported : s.reported ≤ s.log.records.length
  basis : base.basisT ≤ s.peer.db.basisT ∧ s.peer.db.basisT ≤ s.log.records.length
  received : Replicates c s.log base s.peer.db
  stream : ∀ st, s.stream = some st → st.Sound s.log s.reported s.peer.db.basisT

variable {c : Codec ω} {base : Db} {s s' : Sys} {st : Stream} {r : TxRecord} {rest : List TxRecord}

theorem Sound.commit {log : TxLog} (h : Sound c base s) (hlog : s.log.appendBatch rest = .ok log) :
    Sound c base { s with log } := by
  have hrec := TxLog.appendBatch_ok hlog
  have hlen : s.log.records.length ≤ log.records.length := by simp [hrec]
  refine ⟨h.reported.trans hlen, ⟨h.basis.1, h.basis.2.trans hlen⟩, ?_, ?_⟩
  · simpa only [Replicates, between_appended hrec h.basis.2] using h.received
  · intro st hst
    obtain ⟨k, hk, hqueue, hpl, hl, hsent, hopen⟩ := h.stream st hst
    exact ⟨k, hk, by rwa [between_appended hrec h.reported], hpl, hl.trans hlen, by rwa [between_appended hrec hl], hopen⟩

theorem Sound.broadcast (h : Sound c base s) (hr : s.log.records[s.reported]? = some r) : Sound c base { s with
    reported := s.reported + 1, stream := s.stream.map fun st => { st with queue := st.queue ++ [r] } } := by
  obtain ⟨hlt, -⟩ := List.getElem?_eq_some_iff.mp hr
  refine ⟨hlt, h.basis, h.received, ?_⟩
  intro st' hst'
  obtain ⟨st, hst, rfl⟩ := Option.map_eq_some_iff.mp hst'
  obtain ⟨k, hk, hqueue, hsent⟩ := h.stream st hst
  exact ⟨k, Nat.le_succ_of_le hk, by rw [between_succ hk hr, hqueue], hsent⟩

theorem Sound.backfill (h : Sound c base s) (hst : s.stream = some st) (ho : st.opened = false) :
    Sound c base { s with stream := some (st.backfill s.log) } := by
  obtain ⟨k, hk, hqueue, -, -, -, hopen⟩ := h.stream st hst
  simp only [ho, Bool.false_eq_true, if_false] at hopen
  refine ⟨h.reported, h.basis, h.received, ?_⟩
  intro st' hst'
  cases hst'
  refine ⟨k, hk, hqueue, ?_⟩
  simp only [Stream.backfill, hopen, basisAfter_between h.basis.2, if_true]
  exact ⟨h.basis.2, le_rfl, trivial, hk.trans h.reported⟩

/-- A queued report is one the stream has sent, or the next. -/
theorem Sound.forward (h : Sound c base s) (hst : s.stream = some st) (ho : st.opened = true) (hq : st.queue = r :: rest) :
    Sound c base { s with stream := some (st.forward r rest) } := by
  obtain ⟨k, hk, hqueue, hpl, hl, hsent, hopen⟩ := h.stream st hst
  simp only [ho, if_true] at hopen
  obtain ⟨hget, ht, hlt, htail⟩ := between_cons (hqueue.symm.trans hq)
  refine ⟨h.reported, h.basis, h.received, ?_⟩
  intro st' hst'
  cases hst'
  refine ⟨k + 1, hlt, ?_⟩
  by_cases hle : r.t ≤ st.lastSent
  · simp only [Stream.forward, if_pos hle, ho, if_true]
    exact ⟨htail.symm, hpl, hl, hsent, by omega⟩
  · rw [ht] at hle
    obtain rfl : k = st.lastSent := by omega
    simp only [Stream.forward, ht, if_neg hle, ho, if_true, between_succ hpl hget, ← hsent]
    exact ⟨htail.symm, by omega, hlt.trans_le h.reported, trivial, le_rfl⟩

variable {idents : Idents} {names : KeywordInterner} {instant : Int64} {datoms : ω} {p p' : PeerState}

theorem applyReport_rejected {t : Nat} (h : applyReport c idents p t instant datoms = (p', false)) : p'.db = p.db := by
  unfold applyReport at h
  split at h
  · cases h
  · split at h
    · cases h
      rfl
    · cases h

theorem applyReport_received (henc : c.encode names r.datoms = some datoms) (ht : p.db.basisT < r.t)
    (h : applyReport c idents p r.t instant datoms = (p', true)) :
    ∃ ds, Receives c r ds ∧ p'.db.basisT = r.t ∧ p'.db.recorded = p.db.recorded ++ ds := by
  rw [applyReport, if_neg (Nat.not_le.mpr ht)] at h
  split at h
  · cases h
  · rename_i raw interner hdec
    cases h
    refine ⟨recordedAt r.t ((assertedInstant r.t raw).getD instant) raw,
      ⟨names, p.interner, _, datoms, raw, henc, by rw [hdec], rfl⟩, ?_⟩
    generalize hdb : (if p.interner.len < interner.len then p.db.withNaming idents interner else p.db) = db
    have hsame : db.recorded = p.db.recorded := by
      rw [← hdb]
      split <;> rfl
    obtain ⟨instants, heq⟩ := db.withTransactionAt_eq r.t ((assertedInstant r.t raw).getD instant) raw
    rw [heq, ← hsame]
    exact ⟨rfl, rfl⟩

theorem Sound.receive (h : Sound c base s) (hst : s.stream = some st) (hs : st.sent = r :: rest)
    (henc : c.encode names r.datoms = some datoms) (happly : applyReport c idents s.peer r.t instant datoms = (p, true)) :
    Sound c base { s with peer := p, stream := some { st with sent := rest } } := by
  obtain ⟨k, hk, hqueue, -, hl, hsent, hopen⟩ := h.stream st hst
  obtain ⟨hget, ht, hlt, htail⟩ := between_cons (hsent.symm.trans hs)
  obtain ⟨ds, hds, hbasis, hrec⟩ := applyReport_received henc (by omega) happly
  rw [ht] at hbasis
  refine ⟨h.reported, by rw [hbasis]; exact ⟨Nat.le_succ_of_le h.basis.1, hlt.trans_le hl⟩, ?_, ?_⟩
  · obtain ⟨received, heq, hall⟩ := h.received
    refine ⟨received ++ [ds], by simp [hrec, heq], ?_⟩
    rw [hbasis, between_succ h.basis.1 hget]
    exact rel_append hall (.cons hds .nil)
  · intro st' hst'
    cases hst'
    rw [hbasis]
    refine ⟨k, hk, hqueue, hlt, hl, htail.symm, ?_⟩
    by_cases ho : st.opened = true
    · simpa [ho] using hopen
    · simp only [ho, Bool.false_eq_true, if_false] at hopen
      omega

theorem Sound.step (h : Sound c base s) {e : Event} (hs : Step c s e s') (he : e ≠ .skip) : Sound c base s' := by
  cases hs with
  | commit hfree hlog => exact h.commit hlog
  | broadcast hr => exact h.broadcast hr
  | skip hlt => exact absurd rfl he
  | reopen => exact ⟨le_rfl, h.basis, h.received, by simp⟩
  | register =>
    refine ⟨h.reported, h.basis, h.received, ?_⟩
    intro st hst
    cases hst
    exact ⟨s.reported, le_rfl, by simp [between], le_rfl, h.basis.2, by simp [between], rfl⟩
  | backfill hst ho => exact h.backfill hst ho
  | forward hst ho hq => exact h.forward hst ho hq
  | receive idents names instant hst hs henc happly => exact h.receive hst hs henc happly
  | reject happly =>
    have hdb := applyReport_rejected happly
    exact ⟨h.reported, by rw [hdb]; exact h.basis, by rw [hdb]; exact h.received, by simp⟩
  | close => exact ⟨h.reported, h.basis, h.received, by simp⟩

theorem Runs.sound {s₀ : Sys} (h₀ : Sound c base s₀) (h : Runs c (· ≠ .skip) s₀ s) : Sound c base s := by
  induction h with
  | refl => exact h₀
  | step _ hs he ih => exact ih.step hs he

namespace SubscriptionExample

def codec : Codec (List Datom) := ⟨fun _ ds => some ds, fun names ds => (some ds, names)⟩

def record (t : Nat) : TxRecord := ⟨t, 5, [txInstantDatom t 5]⟩

def peer : PeerState := ⟨.empty, Db.new .empty⟩

/-- A stream of an empty peer. -/
def streaming (log : TxLog) (reported : Nat) (queue sent : List TxRecord) (lastSent : Nat) : Sys :=
  ⟨log, reported, peer, some ⟨true, queue, lastSent, sent⟩⟩

def received (log : TxLog) (n : Nat) : Sys :=
  ⟨log, n, ⟨.empty, (Db.new .empty).withTransactionAt n 5 (record n).datoms⟩, some ⟨true, [], n, []⟩⟩

variable {P : Event → Prop} {log : TxLog} {n : Nat}

theorem reaches_streaming (hP : P .other) : Runs codec P (start ⟨[], rfl⟩ peer) (streaming ⟨[], rfl⟩ 0 [] [] 0) :=
  (Runs.refl.step (.register _) hP).step (.backfill ⟨⟨[], rfl⟩, 0, peer, some ⟨false, [], 0, []⟩⟩ rfl rfl) hP

/-- The record after `n` is broadcast, forwarded and received. -/
theorem reaches_received {s₀ : Sys} (h : Runs codec P s₀ (streaming log n [] [] 0)) (hP : P .other)
    (hr : log.records[n]? = some (record (n + 1))) : Runs codec P s₀ (received log (n + 1)) := by
  have happly : applyReport codec .empty peer (n + 1) 5 (record (n + 1)).datoms = ((received log (n + 1)).peer, true) := by
    have hinstant : assertedInstant (n + 1) (record (n + 1)).datoms = some 5 := assertedInstant_concat (n + 1) [] 5
    simp [applyReport, peer, codec, received, hinstant, Db.new]
  have hreceive : Step codec (streaming log (n + 1) [] [record (n + 1)] (n + 1)) .other (received log (n + 1)) :=
    .receive (streaming log (n + 1) [] [record (n + 1)] (n + 1)) .empty .empty 5 rfl rfl rfl happly
  exact ((h.step (.broadcast (streaming log n [] [] 0) hr) hP).step
    (.forward (streaming log (n + 1) [record (n + 1)] [] 0) rfl rfl rfl) hP).step hreceive hP

theorem first : TxLog.appendBatch ⟨[], rfl⟩ [record 1] = .ok ⟨[record 1], rfl⟩ := rfl

/-- The lease is not verified after the first append: the peer is at 2 without record 1. -/
theorem a_record_not_reported_is_passed_over : ∃ s, Runs codec (fun _ => True) (start ⟨[], rfl⟩ peer) s ∧
    s.peer.db.basisT = 2 ∧ s.peer.db.recorded = (record 2).datoms := by
  have hskip : Runs codec (fun _ => True) (start ⟨[], rfl⟩ peer) (streaming ⟨[record 1], rfl⟩ 1 [] [] 0) :=
    ((reaches_streaming trivial).step (.commit _ rfl first) trivial).step (.skip (streaming _ 0 [] [] 0) (by decide)) trivial
  have hsecond : TxLog.appendBatch ⟨[record 1], rfl⟩ [record 2] = .ok ⟨[record 1, record 2], rfl⟩ := rfl
  exact ⟨_, reaches_received (hskip.step (.commit _ rfl hsecond) trivial) trivial rfl, rfl, rfl⟩

end SubscriptionExample

end Corium.Peer
