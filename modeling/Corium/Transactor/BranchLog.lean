/-
  Corium.Transactor.BranchLog — the log of a saga's branch (`RootedLog` of
  `crates/corium-log/src/lib.rs`; `DbState::tx_range`, `open_branch` and
  `branch_base` of `crates/corium-transactor/src/node.rs`).

  A branch has a log of its own, numbered from one, and shows it shifted by the
  basis `t₀` it is rooted at. What is at or below `t₀` is read from the parent's
  log, which goes on growing meanwhile. A hosted branch takes its next `t` from
  its value: the parent's at `t₀` with the branch's own records on top.

  A log is contiguous from one (`TxLog`), as a versioned log without holes is read
  (`TxLog.ofMerged`). The basis is whatever number the registry holds: one the
  parent has not reached gives a branch that takes no step until it is opened again.

  `branch_log_is_spliced`: after any run of parent appends, openings and steps, every
  range of the branch is that range of the parent's records up to `t₀` followed by
  the steps, contiguous, and parent appends past `t₀` leave every range as it was.
-/

import Corium.Log.Agreement
import Corium.Transactor.Commit

namespace Corium.Transactor

open Corium.Lib List
open Corium.Log (LogError inRange u64Max)

/-! ## The logs -/

structure TxLog where
  records : List TxRecord
  contiguous : records.map TxRecord.t = List.range' 1 records.length

namespace TxLog

def txRange (l : TxLog) (start : Nat) (stop : Option Nat) : List TxRecord := inRange TxRecord.t start stop l.records

variable {r : TxRecord} {l : TxLog}

theorem contiguous_append (l : TxLog) (h : r.t = l.records.length + 1) :
    (l.records ++ [r]).map TxRecord.t = List.range' 1 (l.records ++ [r]).length := by
  simp [l.contiguous, List.range'_concat, h, Nat.add_comm]

def append (l : TxLog) (r : TxRecord) : Except LogError TxLog :=
  if h : r.t = l.records.length + 1 then .ok ⟨l.records ++ [r], l.contiguous_append h⟩ else .error .corrupt

def appendBatch (l : TxLog) (rs : List TxRecord) : Except LogError TxLog := rs.foldlM append l

variable {l' : TxLog}

theorem append_ok (h : l.append r = .ok l') : r.t = l.records.length + 1 ∧ l'.records = l.records ++ [r] := by
  unfold append at h
  split at h
  case isTrue ht =>
    cases h
    exact ⟨ht, rfl⟩
  case isFalse => cases h

theorem appendBatch_ok {rs : List TxRecord} (h : l.appendBatch rs = .ok l') : l'.records = l.records ++ rs := by
  induction rs generalizing l with
  | nil =>
    rw [appendBatch, foldlM_nil, pure_eq_ok] at h
    simp [h]
  | cons r rs ih =>
    rw [appendBatch, foldlM_cons, bind_eq_ok] at h
    obtain ⟨l1, h1, h2⟩ := h
    rw [ih h2, (append_ok h1).2, append_assoc, singleton_append]

theorem mem_t (hr : r ∈ l.records) : 1 ≤ r.t ∧ r.t ≤ l.records.length := by
  have hmem : r.t ∈ List.range' 1 l.records.length := l.contiguous ▸ mem_map_of_mem hr
  rw [mem_range'_1] at hmem
  omega

/-- The merged view of a versioned log without holes. -/
def ofMerged {log : List (Nat × TxRecord)} {bound : Nat} (hw : Log.WellFormed TxRecord.t log)
    (hc : Log.Covers TxRecord.t log bound) : TxLog where
  records := Log.merged TxRecord.t log
  contiguous := by
    have h := hc.merged_eq hw
    have hlen := congrArg List.length h
    simp only [length_map, length_range'] at hlen
    rw [h, hlen]

/-- Reading the store-native log is reading its merged view. -/
theorem native_txRange_eq {log : List (Nat × TxRecord)} {bound : Nat} (hw : Log.WellFormed TxRecord.t log)
    (hc : Log.Covers TxRecord.t log bound) {native : Log.NativeLog TxRecord}
    (h : Log.NativeLog.Holds native.objects log) (start : Nat) (stop : Option Nat) :
    native.txRange TxRecord.t start stop = .ok ((ofMerged hw hc).txRange start stop) := by
  rw [Log.NativeLog.txRange, h.readNativeMerged_eq hw hc]
  rfl

end TxLog

structure RootedLog where
  inner : TxLog
  basis : Nat

namespace RootedLog

/-- A record renumbered into the inner log; one at or below the basis has no place there. -/
def inward (l : RootedLog) (r : TxRecord) : Except LogError TxRecord :=
  if l.basis < r.t then .ok { r with t := r.t - l.basis } else .error .corrupt

/-- A record of the inner log in this log's numbering, saturating at 64 bits. -/
def outward (l : RootedLog) (r : TxRecord) : TxRecord := { r with t := min (r.t + l.basis) u64Max }

def appendBatch (l : RootedLog) (rs : List TxRecord) : Except LogError RootedLog := do
  let inward ← rs.mapM l.inward
  .ok { l with inner := ← l.inner.appendBatch inward }

def txRange (l : RootedLog) (start : Nat) (stop : Option Nat) : List TxRecord :=
  (l.inner.txRange (start - l.basis) (stop.map (· - l.basis))).map l.outward

def replay (l : RootedLog) : List TxRecord := l.inner.records.map l.outward

end RootedLog

/-! ## The branch -/

structure Branch where
  parent : TxLog
  basisT : Nat
  /-- The branch's own log, numbered from one. -/
  log : TxLog
  /-- The basis of the branch's value while this node hosts it. -/
  hosted : Option Nat

namespace Branch

def rooted (b : Branch) : RootedLog := ⟨b.log, b.basisT⟩

/-- `DbState::tx_range` on a branch. -/
def txRange (b : Branch) (start : Nat) (stop : Option Nat) : List TxRecord :=
  let split := b.basisT + 1
  let shared := if start < split then b.parent.txRange start (some ((stop.map (min · split)).getD split)) else []
  let tailStart := max start split
  let own := if ∀ e ∈ stop, tailStart < e then b.rooted.txRange tailStart stop else []
  shared ++ own

/-- The basis of a value the records are applied to one after the other. -/
def basisAfter (base : Nat) (records : List TxRecord) : Nat := (records.getLast?.map TxRecord.t).getD base

/-- `branch_base`: the parent's value at the basis, from its log. -/
def base (b : Branch) : Nat := basisAfter 0 (b.parent.txRange 1 (some (b.basisT + 1)))

inductive Event where
  | parentAppend (r : TxRecord)
  | openBranch
  | step (rs : List TxRecord)

def apply (b : Branch) : Event → Except LogError Branch
  | .parentAppend r => do .ok { b with parent := ← b.parent.append r }
  | .openBranch => .ok { b with hosted := some (basisAfter b.base b.rooted.replay) }
  | .step rs =>
    match b.hosted with
    | none => .error .corrupt
    | some basis => do
      -- a step's records are numbered on from the branch's value, within 64 bits
      require (rs.map TxRecord.t = List.range' (basis + 1) rs.length ∧ basis + rs.length ≤ u64Max) .corrupt
      let rooted ← b.rooted.appendBatch rs
      .ok { b with log := rooted.inner, hosted := some (basis + rs.length) }

def run (b : Branch) (events : List Event) : Except LogError Branch := events.foldlM apply b

/-- The records a run appends to the parent. -/
def appended (events : List Event) : List TxRecord :=
  events.flatMap fun | .parentAppend r => [r] | _ => []

/-- The records of a run's steps. -/
def steps (events : List Event) : List TxRecord :=
  events.flatMap fun | .step rs => rs | _ => []

/-! ## The splice -/

/-- The parent's records up to the basis, then the branch's. -/
def spliced (b : Branch) : List TxRecord := b.parent.records.filter (fun r => r.t ≤ b.basisT) ++ b.rooted.replay

/-- No record of the branch's log saturates when renumbered. -/
def Bounded (b : Branch) : Prop := ∀ r ∈ b.log.records, r.t + b.basisT ≤ u64Max

variable {b b' : Branch} {own shared : List TxRecord}

theorem outward_t (h : b.Bounded) {r : TxRecord} (hr : r ∈ b.log.records) : (b.rooted.outward r).t = r.t + b.basisT :=
  Nat.min_eq_left (h r hr)

theorem shared_eq (b : Branch) (start : Nat) (stop : Option Nat) :
    (if start < b.basisT + 1 then b.parent.txRange start (some ((stop.map (min · (b.basisT + 1))).getD (b.basisT + 1)))
      else []) = inRange TxRecord.t start stop (b.parent.records.filter fun r => r.t ≤ b.basisT) := by
  have hbound : ∀ n, n < (stop.map (min · (b.basisT + 1))).getD (b.basisT + 1) ↔
      n ≤ b.basisT ∧ ∀ e ∈ stop, n < e := by
    cases stop <;> simp [and_comm]
  simp only [TxLog.txRange, inRange, filter_filter]
  split
  case isTrue =>
    refine filter_congr fun r _ => ?_
    rw [Bool.eq_iff_iff]
    simp only [Option.mem_some_iff, forall_eq', hbound, Bool.and_eq_true, decide_eq_true_eq]
    tauto
  case isFalse hstart =>
    refine (filter_eq_nil_iff.mpr fun r _ => ?_).symm
    simp only [Bool.and_eq_true, decide_eq_true_eq]
    omega

theorem own_eq (h : b.Bounded) (start : Nat) (stop : Option Nat) :
    (if ∀ e ∈ stop, max start (b.basisT + 1) < e then b.rooted.txRange (max start (b.basisT + 1)) stop else []) =
      inRange TxRecord.t start stop b.rooted.replay := by
  have hreplay : inRange TxRecord.t start stop b.rooted.replay =
      (b.log.records.filter fun r => start ≤ r.t + b.basisT ∧ ∀ e ∈ stop, r.t + b.basisT < e).map b.rooted.outward := by
    rw [inRange, RootedLog.replay, filter_map]
    refine congrArg (List.map b.rooted.outward) (filter_congr fun r hr => ?_)
    rw [Function.comp_apply, outward_t h hr]
  rw [hreplay]
  split
  case isTrue =>
    rw [RootedLog.txRange, TxLog.txRange, inRange]
    refine congrArg (List.map b.rooted.outward) (filter_congr fun r hr => ?_)
    have hpos := (TxLog.mem_t hr).1
    have hstop : (∀ e ∈ stop.map (· - b.basisT), r.t < e) ↔ ∀ e ∈ stop, r.t + b.basisT < e := by
      cases stop with
      | none => simp
      | some e => simp [Nat.lt_sub_iff_add_lt]
    have hstart : max start (b.basisT + 1) - b.rooted.basis ≤ r.t ↔ start ≤ r.t + b.basisT := by
      simp only [rooted]
      omega
    simp only [hstart, decide_eq_decide]
    exact and_congr_right fun _ => hstop
  case isFalse hempty =>
    rw [filter_eq_nil_iff.mpr, map_nil]
    intro r hr hin
    have hpos := (TxLog.mem_t hr).1
    simp only [decide_eq_true_eq] at hin
    refine hempty fun e he => ?_
    have := hin.2 e he
    omega

/-- A range of the branch is that range of the spliced log. -/
theorem txRange_eq (h : b.Bounded) (start : Nat) (stop : Option Nat) :
    b.txRange start stop = inRange TxRecord.t start stop b.spliced := by
  have happend : inRange TxRecord.t start stop b.spliced =
      inRange TxRecord.t start stop (b.parent.records.filter fun r => r.t ≤ b.basisT) ++
        inRange TxRecord.t start stop b.rooted.replay := filter_append ..
  rw [happend, ← shared_eq, ← own_eq h]
  rfl

/-! ## Runs -/

/-- What holds of a branch after a run: `shared` is what its parent's log has, `own`
    the records of its steps. -/
structure Follows (b : Branch) (shared own : List TxRecord) : Prop where
  parent : b.parent.records = shared
  replay : b.rooted.replay = own
  bounded : b.Bounded
  /-- The first step waits for the parent to reach the basis. -/
  reached : b.log.records ≠ [] → b.basisT ≤ b.parent.records.length
  hosted : ∀ basis ∈ b.hosted,
    basis < b.basisT ∨ (b.basisT ≤ b.parent.records.length ∧ basis = b.basisT + b.log.records.length)

theorem filter_t (l : TxLog) (n : Nat) :
    (l.records.filter fun r => r.t ≤ n).map TxRecord.t = List.range' 1 (min n l.records.length) := by
  have hsplit : List.range' 1 l.records.length = List.range' 1 (min n l.records.length) ++
      List.range' (1 + min n l.records.length) (l.records.length - min n l.records.length) := by
    rw [List.range'_append_1, Nat.add_sub_cancel' (Nat.min_le_right ..)]
  have hfilter : (l.records.filter fun r => r.t ≤ n).map TxRecord.t =
      (l.records.map TxRecord.t).filter fun k => k ≤ n := by rw [filter_map]; rfl
  rw [hfilter, l.contiguous, hsplit, filter_append, filter_eq_self.mpr, filter_eq_nil_iff.mpr,
    append_nil]
  · intro k hk
    simp only [mem_range'_1] at hk
    simp only [decide_eq_true_eq]
    omega
  · intro k hk
    simp only [mem_range'_1] at hk
    simp only [decide_eq_true_eq]
    omega

/-- Records numbered on from the base end at their count past it. -/
theorem basisAfter_eq {base : Nat} {records : List TxRecord} {n : Nat}
    (h : records.map TxRecord.t = List.range' (base + 1) n) : basisAfter base records = base + n := by
  have hlen : records.length = n := by simpa using congrArg List.length h
  subst hlen
  by_cases hne : records = []
  · simp [hne, basisAfter]
  · obtain ⟨-, last, -, hlast, -, ht⟩ := Log.ends_of_contiguous h hne
    simp only [basisAfter, hlast, Option.map_some, Option.getD_some]
    omega

theorem base_eq (b : Branch) : b.base = min b.basisT b.parent.records.length := by
  have hread : b.parent.txRange 1 (some (b.basisT + 1)) = b.parent.records.filter fun r => r.t ≤ b.basisT := by
    refine filter_congr fun r hr => ?_
    have := (TxLog.mem_t hr).1
    simp only [Option.mem_some_iff, forall_eq', decide_eq_decide]
    omega
  rw [base, hread, @basisAfter_eq 0 _ _ (filter_t b.parent b.basisT), Nat.zero_add]

theorem replay_t (h : b.Bounded) :
    b.rooted.replay.map TxRecord.t = List.range' (b.basisT + 1) b.log.records.length := by
  have hshift : b.rooted.replay.map TxRecord.t = (b.log.records.map TxRecord.t).map (b.basisT + ·) := by
    rw [RootedLog.replay, map_map, map_map]
    exact map_congr_left fun r hr => (outward_t h hr).trans (Nat.add_comm ..)
  rw [hshift, b.log.contiguous, map_add_range']

theorem inward_mapM {l : RootedLog} {rs inner : List TxRecord} (h : rs.mapM l.inward = .ok inner) :
    (∀ r ∈ rs, l.basis < r.t) ∧ inner = rs.map fun r => { r with t := r.t - l.basis } := by
  induction rs generalizing inner with
  | nil =>
    rw [mapM_nil, pure_eq_ok] at h
    exact ⟨nofun, h.symm⟩
  | cons r rs ih =>
    simp only [mapM_cons, bind_eq_ok, pure_eq_ok] at h
    obtain ⟨r', hr, rest, hrest, rfl⟩ := h
    obtain ⟨hall, rfl⟩ := ih hrest
    unfold RootedLog.inward at hr
    split at hr
    case isTrue hlt =>
      cases hr
      exact ⟨forall_mem_cons.mpr ⟨hlt, hall⟩, rfl⟩
    case isFalse => cases hr

theorem Follows.openBranch (h : b.Follows shared own) :
    Follows { b with hosted := some (basisAfter b.base b.rooted.replay) } shared own := by
  refine ⟨h.parent, h.replay, h.bounded, h.reached, ?_⟩
  rintro basis ⟨⟩
  by_cases hempty : b.log.records = []
  · have hreplay : b.rooted.replay = [] := by
      rw [RootedLog.replay, rooted, hempty]
      rfl
    rw [hreplay, hempty, length_nil]
    simp only [basisAfter, List.getLast?_nil, Option.map_none, Option.getD_none, base_eq]
    omega
  · have hreached := h.reached hempty
    have hbase : b.base = b.basisT := by rw [base_eq, Nat.min_eq_left hreached]
    rw [hbase, basisAfter_eq (replay_t h.bounded)]
    exact .inr ⟨hreached, rfl⟩

theorem Follows.step {b : Branch} {shared own rs : List TxRecord} {basis : Nat} {rooted : RootedLog}
    (h : b.Follows shared own) (hbasis : b.hosted = some basis)
    (ht : rs.map TxRecord.t = List.range' (basis + 1) rs.length) (hmax : basis + rs.length ≤ u64Max)
    (happend : b.rooted.appendBatch rs = .ok rooted) :
    Follows { b with log := rooted.inner, hosted := some (basis + rs.length) } shared (own ++ rs) := by
  simp only [RootedLog.appendBatch, bind_eq_ok] at happend
  obtain ⟨inner, hinward, l, hl, hrooted⟩ := happend
  cases hrooted
  obtain ⟨hpast, rfl⟩ := inward_mapM hinward
  have hrecords : l.records = b.log.records ++ rs.map fun r => { r with t := r.t - b.basisT } := TxLog.appendBatch_ok hl
  have hnumber : ∀ r ∈ rs, basis < r.t ∧ r.t ≤ basis + rs.length := fun r hr => by
    have hmem : r.t ∈ List.range' (basis + 1) rs.length := ht ▸ mem_map_of_mem hr
    rw [mem_range'_1] at hmem
    omega
  -- a first record at or below the basis is refused, so a step that writes follows the branch's value
  have hcurrent : rs ≠ [] → b.basisT ≤ b.parent.records.length ∧ basis = b.basisT + b.log.records.length := by
    intro hne
    obtain ⟨first, -, hfirst, -, hft, -⟩ := Log.ends_of_contiguous ht hne
    have : b.basisT < first.t := hpast first (mem_of_mem_head? hfirst)
    rcases h.hosted basis hbasis with hlt | hcurrent
    · omega
    · exact hcurrent
  refine ⟨h.parent, ?_, ?_, ?_, ?_⟩
  · have hround : (rs.map fun r => { r with t := r.t - b.basisT }).map b.rooted.outward = rs := by
      rw [map_map]
      refine (map_congr_left fun r hr => ?_).trans (map_id rs)
      have := hnumber r hr
      have : b.basisT < r.t := hpast r hr
      simp only [Function.comp_apply, RootedLog.outward, rooted, id]
      rw [Nat.sub_add_cancel (by omega), Nat.min_eq_left (by omega)]
    change l.records.map b.rooted.outward = own ++ rs
    rw [hrecords, map_append, ← h.replay]
    exact congrArg (b.rooted.replay ++ ·) hround
  · intro r hr
    rw [hrecords] at hr
    rcases mem_append.mp hr with hr | hr
    · exact h.bounded r hr
    · obtain ⟨r', hr', rfl⟩ := mem_map.mp hr
      have := hnumber r' hr'
      have : b.basisT < r'.t := hpast r' hr'
      dsimp only
      omega
  · intro hne
    by_cases hlog : b.log.records = []
    · refine (hcurrent fun hrs => hne ?_).1
      rw [hrecords, hlog, hrs]
      rfl
    · exact h.reached hlog
  · rintro _ ⟨⟩
    rw [hrecords, length_append, length_map]
    by_cases hrs : rs = []
    · simpa [hrs] using h.hosted basis hbasis
    · obtain ⟨hreached, heq⟩ := hcurrent hrs
      refine .inr ⟨hreached, ?_⟩
      dsimp only
      omega

theorem Follows.apply {b b' : Branch} {shared own : List TxRecord} (h : b.Follows shared own) {e : Event}
    (he : b.apply e = .ok b') : b'.Follows (shared ++ appended [e]) (own ++ steps [e]) := by
  cases e with
  | parentAppend r =>
    simp only [Branch.apply, bind_eq_ok] at he
    obtain ⟨parent, hparent, hb⟩ := he
    cases hb
    obtain ⟨-, hrecords⟩ := TxLog.append_ok hparent
    have hle : b.parent.records.length ≤ parent.records.length := by simp [hrecords]
    refine ⟨?_, ?_, h.bounded, fun hne => Nat.le_trans (h.reached hne) hle, ?_⟩
    · simp [hrecords, h.parent, appended]
    · rw [show steps [.parentAppend r] = [] from rfl, append_nil]
      exact h.replay
    · intro basis hbasis
      exact (h.hosted basis hbasis).imp_right fun ⟨hreached, heq⟩ => ⟨Nat.le_trans hreached hle, heq⟩
  | openBranch =>
    cases he
    simpa [appended, steps] using h.openBranch
  | step rs =>
    unfold Branch.apply at he
    cases hbasis : b.hosted with
    | none => simp [hbasis] at he
    | some basis =>
      simp only [hbasis, bind_eq_ok, require_eq_ok] at he
      obtain ⟨-, ⟨ht, hmax⟩, rooted, happend, hb⟩ := he
      cases hb
      simpa [appended, steps] using h.step hbasis ht hmax happend

variable {events : List Event}

theorem Follows.run (h : b.Follows shared own)
    (hrun : b.run events = .ok b') : b'.Follows (shared ++ appended events) (own ++ steps events) := by
  induction events generalizing b shared own with
  | nil =>
    rw [Branch.run, foldlM_nil, pure_eq_ok] at hrun
    subst hrun
    simpa [appended, steps] using h
  | cons e events ih =>
    rw [Branch.run, foldlM_cons, bind_eq_ok] at hrun
    obtain ⟨b1, h1, h2⟩ := hrun
    have hrest := ih (h.apply h1) h2
    simpa [appended, steps] using hrest

theorem apply_basisT {e : Event} (h : b.apply e = .ok b') : b'.basisT = b.basisT := by
  unfold apply at h
  split at h
  · rw [bind_eq_ok] at h
    obtain ⟨parent, -, h⟩ := h
    cases h
    rfl
  · cases h
    rfl
  · split at h
    · cases h
    · simp only [bind_eq_ok] at h
      obtain ⟨-, -, rooted, -, h⟩ := h
      cases h
      rfl

theorem run_basisT (h : b.run events = .ok b') : b'.basisT = b.basisT :=
  foldlM_inv (P := fun s : Branch => s.basisT = b.basisT) (fun _ _ _ _ hs he => (apply_basisT he).trans hs) rfl h

theorem spliced_t (h : b.Follows shared own) : b.spliced.map TxRecord.t = List.range' 1 b.spliced.length := by
  have hlen : (b.parent.records.filter fun r => r.t ≤ b.basisT).length = min b.basisT b.parent.records.length := by
    simpa using congrArg List.length (filter_t b.parent b.basisT)
  rw [spliced, map_append, filter_t, replay_t h.bounded, length_append, hlen, RootedLog.replay,
    length_map]
  change _ = List.range' 1 (min b.basisT b.parent.records.length + b.log.records.length)
  by_cases hempty : b.log.records = []
  · simp [hempty]
  · rw [Nat.min_eq_left (h.reached hempty), Nat.add_comm b.basisT 1, List.range'_append_1]

/-- A branch of a parent's log at a basis, before its first opening. -/
def rootedAt (parent : TxLog) (basisT : Nat) : Branch := ⟨parent, basisT, ⟨[], rfl⟩, none⟩

theorem follows_rootedAt (parent : TxLog) (basisT : Nat) : (rootedAt parent basisT).Follows parent.records [] :=
  ⟨rfl, rfl, nofun, fun hne => absurd rfl hne, nofun⟩

end Branch

open Branch in
/-- After any run, every range of the branch is that range of the parent's records up to
    the basis followed by the steps. They are contiguous, and appends to the parent past
    the basis change no range. -/
theorem branch_log_is_spliced (parent : TxLog) (basisT : Nat) {events : List Event} {b : Branch}
    (h : (rootedAt parent basisT).run events = .ok b) :
    let shared := (parent.records ++ appended events).filter fun r => r.t ≤ basisT
    (∀ start stop, b.txRange start stop = inRange TxRecord.t start stop (shared ++ steps events)) ∧
      (shared ++ steps events).map TxRecord.t = List.range' 1 (shared ++ steps events).length ∧
      (∀ r ∈ steps events, basisT < r.t) ∧
      ∀ more b', b.run more = .ok b' → steps more = [] → (∀ r ∈ appended more, basisT < r.t) →
        ∀ start stop, b'.txRange start stop = b.txRange start stop := by
  intro shared
  have hf := (follows_rootedAt parent basisT).run h
  have hbasis : b.basisT = basisT := run_basisT h
  have hspliced : b.spliced = shared ++ steps events := by
    rw [spliced, hf.parent, hf.replay, hbasis, nil_append]
  refine ⟨fun start stop => ?_, ?_, ?_, ?_⟩
  · rw [txRange_eq hf.bounded, hspliced]
  · rw [← hspliced]
    exact spliced_t hf
  · intro r hr
    have hmem : r.t ∈ b.rooted.replay.map TxRecord.t := mem_map_of_mem (hf.replay ▸ hr)
    rw [replay_t hf.bounded, mem_range'_1] at hmem
    omega
  · intro more b' hmore hsteps hpast start stop
    have hf' := hf.run hmore
    have hbasis' : b'.basisT = basisT := (run_basisT hmore).trans hbasis
    have hnone : (appended more).filter (fun r => r.t ≤ basisT) = [] :=
      filter_eq_nil_iff.mpr fun r hr => by simpa using hpast r hr
    rw [txRange_eq hf.bounded, txRange_eq hf'.bounded, hspliced, spliced, hf'.parent, hf'.replay, hbasis', hsteps,
      filter_append, hnone, append_nil, append_nil, nil_append]

namespace BranchLogExample

def record (t : Nat) (instant : Int64) : TxRecord := ⟨t, instant, []⟩

def parent : TxLog := ⟨[record 1 10, record 2 20, record 3 30], rfl⟩

/-- Two steps on a branch at 2, with the parent going on between them. -/
def events : List Branch.Event :=
  [.openBranch, .step [record 3 31], .parentAppend (record 4 40), .step [record 4 41]]

end BranchLogExample

open Branch BranchLogExample in
/-- The branch at 2 reads the parent's first two records and its own third and fourth. -/
theorem branch_log_is_spliced_between_parent_appends :
    ((rootedAt parent 2).run events).map (fun b => b.txRange 1 none) =
      .ok [record 1 10, record 2 20, record 3 31, record 4 41] := by
  cases hrun : (rootedAt parent 2).run events with
  | error e =>
    have hok : ((rootedAt parent 2).run events).isOk = true := by decide
    rw [hrun] at hok
    cases hok
  | ok b =>
    have hreads := (branch_log_is_spliced parent 2 hrun).1 1 none
    exact congrArg Except.ok (hreads.trans (by decide))

end Corium.Transactor
