/-
  Corium.Log.Versioned — the transaction log kept per lease version
  (`merge_versions`, `validate_merged_contiguity`, `read_native_merged` and the
  `NativeVersionedLog` of `crates/corium-log/src/lib.rs`).

  A log is the records in the order they became durable, each with the lease
  version it was appended under; a batch is one atomic write. A read sorts each
  version by `t`, drops what a later version begins at or below, and refuses a
  result with a hole. Framing, sealing and the legacy chunk layout are left out.

  `mem_merged` says which records a read keeps: those below every record of every
  later version. `Covers` says they make up exactly the `t`s below a bound, and
  `readMerged_of_covers` that the read then succeeds with them.
-/

import Mathlib

namespace Corium.Log

open List

def u64Max : Nat := 2 ^ 64 - 1

inductive LogError where
  | corrupt
  /-- Sealed records, and no key. -/
  | encrypted
  /-- A key, and cleartext records. -/
  | unencrypted
  | missingKeyEpoch (epoch : Nat)
  /-- Open for copying frames only. -/
  | framesOnly
  | crypt
  deriving DecidableEq, Repr

section Versioned

variable {α : Type} (t : α → Nat)

/-! ## The takeover cutoff -/

/-- The records kept of each version, oldest first, and the cutoff for versions
    before these: the smallest first `t` of any of them. -/
def mergeVersions : List (List α) → List α × Nat
  | [] => ([], u64Max)
  | records :: later =>
    let (kept, cutoff) := mergeVersions later
    (records.filter (fun r => t r < cutoff) ++ kept,
      match records.head? with
      | some first => min cutoff (t first)
      | none => cutoff)

def versions (log : List (Nat × α)) : List Nat := ((log.map Prod.fst).insertionSort (· ≤ ·)).dedup

/-- One version's records by `t`. -/
def versionRecords (log : List (Nat × α)) (v : Nat) : List α :=
  ((log.filter (fun r => r.1 = v)).map Prod.snd).insertionSort fun a b => t a ≤ t b

def merged (log : List (Nat × α)) : List α := (mergeVersions t ((versions log).map (versionRecords t log))).1

def validateMergedContiguity : List α → Except LogError Unit
  | a :: b :: rest => if t b ≠ t a + 1 then .error .corrupt else validateMergedContiguity (b :: rest)
  | _ => .ok ()

def readMerged (log : List (Nat × α)) : Except LogError (List α) :=
  (validateMergedContiguity t (merged t log)).map fun _ => merged t log

/-- The `t` a writer that opens the log goes on with. -/
def nextT (records : List α) : Nat := (records.getLast?.map (t · + 1)).getD 1

/-- A batch is the next contiguous run of transactions, within 64 bits. -/
def accepts (next : Nat) (records : List α) : Bool :=
  records.map t = List.range' next records.length ∧ next + records.length ≤ u64Max

/-! ## What a read keeps -/

/-- `r` is below every record of every later version. -/
def Live (log : List (Nat × α)) (v : Nat) (r : α) : Prop :=
  (v, r) ∈ log ∧ ∀ w r', (w, r') ∈ log → v < w → t r < t r'

/-- The kept records make up exactly the `t`s from 1 to below `bound`. -/
def Covers (log : List (Nat × α)) (bound : Nat) : Prop :=
  1 ≤ bound ∧ ∀ k, (∃ v r, Live t log v r ∧ t r = k) ↔ 1 ≤ k ∧ k < bound

/-- Each version's records were appended in ascending order, and none has the largest `t`. -/
structure WellFormed (log : List (Nat × α)) : Prop where
  bounded : ∀ v r, (v, r) ∈ log → t r < u64Max
  ascending : log.Pairwise fun a b => a.1 = b.1 → t a.2 < t b.2

theorem mem_versions {log : List (Nat × α)} {v : Nat} : v ∈ versions log ↔ ∃ r, (v, r) ∈ log := by
  simp [versions]

theorem versions_sorted (log : List (Nat × α)) : (versions log).Pairwise (· < ·) := by
  have hsorted : (versions log).Pairwise (· ≤ ·) := (pairwise_insertionSort _ _).sublist (dedup_sublist _)
  have hnodup : (versions log).Nodup := nodup_dedup _
  exact hsorted.imp₂ (fun _ _ hle hne => lt_of_le_of_ne hle hne) hnodup

variable {r : α} {vs : List Nat}

theorem mem_versionRecords {log : List (Nat × α)} {v : Nat} : r ∈ versionRecords t log v ↔ (v, r) ∈ log := by
  simp [versionRecords]

theorem versionRecords_sorted (log : List (Nat × α)) (v : Nat) :
    (versionRecords t log v).Pairwise fun a b => t a ≤ t b := by
  have : Std.Total fun a b : α => t a ≤ t b := ⟨fun a b => Nat.le_total (t a) (t b)⟩
  have : IsTrans α fun a b => t a ≤ t b := ⟨fun _ _ _ => Nat.le_trans⟩
  exact pairwise_insertionSort _ _

variable {t}

/-- One version's records ascend in the order they were appended. -/
theorem WellFormed.appended_lt {log : List (Nat × α)} (h : WellFormed t log) (v : Nat) :
    ((log.filter (fun r => r.1 = v)).map Prod.snd).Pairwise fun a b => t a < t b := by
  refine pairwise_map.mpr (List.Pairwise.imp_of_mem ?_ (h.ascending.filter _))
  intro a b ha hb hab
  have hav := (mem_filter.mp ha).2
  have hbv := (mem_filter.mp hb).2
  simp only [decide_eq_true_eq] at hav hbv
  exact hab (hav.trans hbv.symm)

theorem WellFormed.versionRecords_eq {log : List (Nat × α)} (h : WellFormed t log) (v : Nat) :
    versionRecords t log v = (log.filter (fun r => r.1 = v)).map Prod.snd :=
  List.Pairwise.insertionSort_eq ((h.appended_lt v).imp Nat.le_of_lt)

theorem WellFormed.versionRecords_lt {log : List (Nat × α)} (h : WellFormed t log) (v : Nat) :
    (versionRecords t log v).Pairwise fun a b => t a < t b :=
  h.versionRecords_eq v ▸ h.appended_lt v

variable {k : Nat} {records : List α}

/-- A `t` is below the cutoff when it is below every record of the versions. -/
theorem lt_mergeVersions_cutoff {ls : List (List α)} (hs : ∀ l ∈ ls, l.Pairwise fun a b => t a ≤ t b) :
    k < (mergeVersions t ls).2 ↔ k < u64Max ∧ ∀ l ∈ ls, ∀ r ∈ l, k < t r := by
  induction ls with
  | nil => simp [mergeVersions]
  | cons l ls ih =>
    have ih' := ih fun l' hl' => hs l' (mem_cons_of_mem _ hl')
    have hl := hs l mem_cons_self
    cases l with
    | nil => simpa [mergeVersions] using ih'
    | cons first rest =>
      simp only [mergeVersions, List.head?_cons, lt_inf_iff, ih', forall_mem_cons]
      -- the first record of a version is its smallest
      have hfirst : k < t first → ∀ r ∈ rest, k < t r := fun hk r hr =>
        Nat.lt_of_lt_of_le hk ((pairwise_cons.mp hl).1 r hr)
      tauto

theorem lt_cutoff_iff {log : List (Nat × α)} : k < (mergeVersions t (vs.map (versionRecords t log))).2 ↔
      k < u64Max ∧ ∀ w ∈ vs, ∀ r, (w, r) ∈ log → k < t r := by
  have hs : ∀ l ∈ vs.map (versionRecords t log), l.Pairwise fun a b => t a ≤ t b := by
    intro l hl
    obtain ⟨v, -, rfl⟩ := mem_map.mp hl
    exact versionRecords_sorted t log v
  rw [lt_mergeVersions_cutoff hs]
  simp [mem_versionRecords]

/-- What the merge of `vs` keeps, by version. -/
theorem mem_mergeVersions {log : List (Nat × α)} (hvs : vs.Pairwise (· < ·)) :
    r ∈ (mergeVersions t (vs.map (versionRecords t log))).1 ↔
      ∃ v ∈ vs, (v, r) ∈ log ∧ t r < u64Max ∧ ∀ w ∈ vs, v < w → ∀ r', (w, r') ∈ log → t r < t r' := by
  induction vs with
  | nil => simp [mergeVersions]
  | cons v vs ih =>
    obtain ⟨hv, hvs'⟩ := pairwise_cons.mp hvs
    simp only [map_cons, mergeVersions, mem_append, mem_filter, decide_eq_true_eq, ih hvs',
      mem_versionRecords, lt_cutoff_iff]
    refine ⟨fun h => ?_, fun h => ?_⟩
    · rcases h with ⟨hr, hb, hlt⟩ | ⟨v', hv', hr, hb, hlt⟩
      · refine ⟨v, mem_cons_self, hr, hb, fun w hw hvw => ?_⟩
        rcases mem_cons.mp hw with rfl | hw
        · omega
        · exact hlt w hw
      · refine ⟨v', mem_cons_of_mem _ hv', hr, hb, fun w hw hvw => ?_⟩
        rcases mem_cons.mp hw with rfl | hw
        · exact absurd hvw (Nat.lt_asymm (hv v' hv'))
        · exact hlt w hw hvw
    · obtain ⟨v', hv', hr, hb, hlt⟩ := h
      rcases mem_cons.mp hv' with rfl | hv'
      · exact .inl ⟨hr, hb, fun w hw => hlt w (mem_cons_of_mem _ hw) (hv w hw)⟩
      · exact .inr ⟨v', hv', hr, hb, fun w hw => hlt w (mem_cons_of_mem _ hw)⟩

theorem mem_merged {log : List (Nat × α)} (h : WellFormed t log) : r ∈ merged t log ↔ ∃ v, Live t log v r := by
  rw [merged, mem_mergeVersions (versions_sorted log)]
  refine ⟨?_, ?_⟩
  · rintro ⟨v, -, hr, -, hlt⟩
    exact ⟨v, hr, fun w r' hr' hvw => hlt w (mem_versions.mpr ⟨r', hr'⟩) hvw r' hr'⟩
  · intro ⟨v, hr, hlt⟩
    exact ⟨v, mem_versions.mpr ⟨r, hr⟩, hr, h.bounded v r hr, fun w _ hvw r' hr' => hlt w r' hr' hvw⟩

theorem mergeVersions_sorted {log : List (Nat × α)} (h : WellFormed t log) (hvs : vs.Pairwise (· < ·)) :
    (mergeVersions t (vs.map (versionRecords t log))).1.Pairwise fun a b => t a < t b := by
  induction vs with
  | nil => exact List.Pairwise.nil
  | cons v vs ih =>
    obtain ⟨-, hvs'⟩ := pairwise_cons.mp hvs
    refine pairwise_append.mpr ⟨(h.versionRecords_lt v).filter _, ih hvs', ?_⟩
    intro a ha b hb
    have hlt := (lt_cutoff_iff.mp (by simpa using (mem_filter.mp ha).2)).2
    obtain ⟨w, hw, hbw, -⟩ := (mem_mergeVersions hvs').mp hb
    exact hlt w hw b hbw

theorem merged_sorted {log : List (Nat × α)} (h : WellFormed t log) : (merged t log).Pairwise fun a b => t a < t b :=
  mergeVersions_sorted h (versions_sorted log)

/-! ## A log without holes -/

theorem validateMergedContiguity_range {first : Nat}
    (h : records.map t = List.range' first records.length) : validateMergedContiguity t records = .ok () := by
  induction records generalizing first with
  | nil => rfl
  | cons a rest ih =>
    cases rest with
    | nil => rfl
    | cons b rest =>
      simp only [map_cons, length_cons, List.range'_succ, List.cons.injEq] at h
      obtain ⟨ha, hb, hrest⟩ := h
      have hstep : ¬ t b ≠ t a + 1 := by omega
      rw [validateMergedContiguity, if_neg hstep]
      refine @ih (first + 1) ?_
      simp [List.range'_succ, hb, hrest]

theorem Covers.merged_eq {log : List (Nat × α)} {bound : Nat} (h : WellFormed t log) (hc : Covers t log bound) :
    (merged t log).map t = List.range' 1 (bound - 1) := by
  have hsorted : ((merged t log).map t).Pairwise (· < ·) := pairwise_map.mpr (merged_sorted h)
  refine List.Perm.eq_of_pairwise (fun a b _ _ hab hba => absurd hab (Nat.lt_asymm hba)) hsorted
    (pairwise_lt_range' _ Nat.one_pos) ?_
  refine (perm_ext_iff_of_nodup (hsorted.imp fun hab => Nat.ne_of_lt hab) nodup_range').mpr fun k => ?_
  have hk := hc.2 k
  simp only [mem_map, mem_merged h, mem_range'_1]
  refine ⟨?_, ?_⟩
  · intro ⟨r, ⟨v, hl⟩, hr⟩
    have := hk.mp ⟨v, r, hl, hr⟩
    omega
  · intro hb
    obtain ⟨v, r, hl, hr⟩ := hk.mpr (by omega)
    exact ⟨r, ⟨v, hl⟩, hr⟩

theorem readMerged_of_covers {log : List (Nat × α)} {bound : Nat} (h : WellFormed t log) (hc : Covers t log bound) :
    readMerged t log = .ok (merged t log) := by
  have heq := hc.merged_eq h
  have hlen : (merged t log).length = bound - 1 := by simpa using congrArg List.length heq
  rw [readMerged, validateMergedContiguity_range (heq.trans (by rw [hlen]))]
  rfl

theorem nextT_of_covers {log : List (Nat × α)} {bound : Nat} (h : WellFormed t log) (hc : Covers t log bound) :
    nextT t (merged t log) = bound := by
  have heq := hc.merged_eq h
  have hlast : ((merged t log).getLast?.map t) = (List.range' 1 (bound - 1)).getLast? := by rw [← List.getLast?_map, heq]
  have hb := hc.1
  unfold nextT
  cases hg : (merged t log).getLast? with
  | none =>
    rw [hg, Option.map_none] at hlast
    have := List.getLast?_eq_none_iff.mp hlast.symm
    simp only [List.range'_eq_nil_iff] at this
    simp only [Option.map_none, Option.getD_none]
    omega
  | some r =>
    rw [hg, Option.map_some, List.getLast?_range'] at hlast
    split at hlast
    · cases hlast
    · simp only [Option.some.injEq] at hlast
      simp only [Option.map_some, Option.getD_some]
      omega

theorem lt_nextT {log : List (Nat × α)} (h : WellFormed t log) {v : Nat} (hl : Live t log v r) :
    t r < nextT t (merged t log) := by
  have hr := (mem_merged h).mpr ⟨v, hl⟩
  have hs := merged_sorted h
  generalize merged t log = records at hr hs
  rcases eq_nil_or_concat records with rfl | ⟨init, last, rfl⟩
  · cases hr
  simp only [nextT, concat_eq_append, List.getLast?_concat, Option.map_some, Option.getD_some]
  rw [concat_eq_append] at hr hs
  rcases mem_append.mp hr with hr | hr
  · have := (pairwise_append.mp hs).2.2 r hr last mem_cons_self
    omega
  · rw [mem_singleton.mp hr]
    omega

/-- Some kept record is of the version of a given one or a later. -/
theorem exists_live_from {log : List (Nat × α)} {v : Nat} (hr : (v, r) ∈ log) : ∃ w r', Live t log w r' ∧ v ≤ w := by
  classical
  obtain ⟨⟨w, r'⟩, hw, hmax⟩ := Finset.exists_max_image log.toFinset Prod.fst ⟨(v, r), mem_toFinset.mpr hr⟩
  refine ⟨w, r', ⟨mem_toFinset.mp hw, fun u r'' hu hlt => ?_⟩, hmax _ (mem_toFinset.mpr hr)⟩
  have := hmax _ (mem_toFinset.mpr hu)
  omega

/-! ## A batch under one version -/

section Append

variable {log : List (Nat × α)} {v next bound : Nat} {batch : List α}

theorem mem_batch_iff (hb : batch.map t = List.range' next batch.length) {k : Nat} :
    (∃ b ∈ batch, t b = k) ↔ next ≤ k ∧ k < next + batch.length := by
  have hk : k ∈ batch.map t ↔ k ∈ List.range' next batch.length := by rw [hb]
  simpa [mem_range'_1] using hk

/-- After a batch, what was kept stays kept unless it is at or past the batch in
    an earlier version, and the batch is kept below the later versions. -/
theorem live_append (hb : batch.map t = List.range' next batch.length) (hne : batch ≠ []) {u : Nat} {r : α} :
    Live t (log ++ batch.map (Prod.mk v)) u r ↔
      (Live t log u r ∧ (u < v → t r < next)) ∨
        (u = v ∧ r ∈ batch ∧ ∀ w r', (w, r') ∈ log → v < w → t r < t r') := by
  have hpos := length_pos_iff.mpr hne
  obtain ⟨first, hfirst, hft⟩ := (mem_batch_iff hb).mpr ⟨Nat.le_refl next, by omega⟩
  have hge : ∀ b ∈ batch, next ≤ t b := fun b hb' => ((mem_batch_iff hb).mp ⟨b, hb', rfl⟩).1
  simp only [Live, mem_append, mem_map, Prod.mk.injEq]
  refine ⟨?_, ?_⟩
  · intro ⟨hmem, hlt⟩
    rcases hmem with hmem | ⟨b, hb', rfl, rfl⟩
    · refine .inl ⟨⟨hmem, fun w r' hw => hlt w r' (.inl hw)⟩, fun huv => ?_⟩
      exact hft ▸ hlt v first (.inr ⟨first, hfirst, rfl, rfl⟩) huv
    · exact .inr ⟨rfl, hb', fun w r' hw => hlt w r' (.inl hw)⟩
  · rintro (⟨⟨hmem, hlt⟩, hnext⟩ | ⟨rfl, hmem, hlt⟩)
    · refine ⟨.inl hmem, fun w r' hw huw => ?_⟩
      rcases hw with hw | ⟨b, hb', rfl, rfl⟩
      · exact hlt w r' hw huw
      · have := hge b hb'
        have := hnext huw
        omega
    · refine ⟨.inr ⟨r, hmem, rfl, rfl⟩, fun w r' hw huw => ?_⟩
      rcases hw with hw | ⟨b, -, rfl, rfl⟩
      · exact hlt w r' hw huw
      · omega

theorem WellFormed.append (h : WellFormed t log) (ha : accepts t next batch = true)
    (hown : ∀ r, (v, r) ∈ log → t r < next) : WellFormed t (log ++ batch.map (Prod.mk v)) := by
  simp only [accepts, decide_eq_true_eq] at ha
  obtain ⟨hb, hmax⟩ := ha
  have hrange : ∀ b ∈ batch, next ≤ t b ∧ t b < next + batch.length := fun b hb' => (mem_batch_iff hb).mp ⟨b, hb', rfl⟩
  refine ⟨fun w r hr => ?_, ?_⟩
  · rcases mem_append.mp hr with hr | hr
    · exact h.bounded w r hr
    · obtain ⟨b, hb', heq⟩ := mem_map.mp hr
      cases heq
      have := (hrange r hb').2
      omega
  · have hasc : (batch.map t).Pairwise (· < ·) := by
      rw [hb]
      exact pairwise_lt_range' _ Nat.one_pos
    refine pairwise_append.mpr ⟨h.ascending, ?_, ?_⟩
    · exact pairwise_map.mpr (List.Pairwise.imp (fun hab (_ : v = v) => hab) (pairwise_map.mp hasc))
    · intro a ha b hb' heq
      obtain ⟨r, hr, rfl⟩ := mem_map.mp hb'
      obtain ⟨w, r'⟩ := a
      cases (heq : w = v)
      exact Nat.lt_of_lt_of_le (hown r' ha) (hrange r hr).1

/-- A batch that starts at or past a later version's record changes nothing. -/
theorem Covers.append_dead (hc : Covers t log bound) (hb : batch.map t = List.range' next batch.length)
    (hne : batch ≠ []) (hdead : ∃ w r, (w, r) ∈ log ∧ v < w ∧ t r ≤ next) :
    Covers t (log ++ batch.map (Prod.mk v)) bound := by
  obtain ⟨w, r, hr, hvw, hle⟩ := hdead
  have hlive : ∀ u r', Live t (log ++ batch.map (Prod.mk v)) u r' ↔ Live t log u r' := by
    intro u r'
    rw [live_append hb hne]
    refine ⟨?_, fun hl => .inl ⟨hl, fun huv => Nat.lt_of_lt_of_le (hl.2 w r hr (by omega)) hle⟩⟩
    rintro (⟨hl, -⟩ | ⟨-, hmem, hlt⟩)
    · exact hl
    · have := hlt w r hr hvw
      have := ((mem_batch_iff hb).mp ⟨r', hmem, rfl⟩).1
      omega
  refine ⟨hc.1, fun k => ?_⟩
  simp only [hlive]
  exact hc.2 k

/-- A batch within the kept log, with no later version: the log now ends with it. -/
theorem Covers.append_last (hc : Covers t log bound) (hb : batch.map t = List.range' next batch.length)
    (hne : batch ≠ []) (hnext : 1 ≤ next ∧ next ≤ bound) (hown : ∀ r, (v, r) ∈ log → t r < next)
    (hlater : ∀ w r, (w, r) ∈ log → w ≤ v) : Covers t (log ++ batch.map (Prod.mk v)) (next + batch.length) := by
  refine ⟨by omega, fun k => ?_⟩
  simp only [live_append hb hne]
  refine ⟨?_, fun hk => ?_⟩
  · rintro ⟨u, r, ⟨hl, hlt⟩ | ⟨-, hmem, -⟩, rfl⟩
    · have h1 := ((hc.2 (t r)).mp ⟨u, r, hl, rfl⟩).1
      have hu := hlater u r hl.1
      rcases Nat.lt_or_eq_of_le hu with hu | rfl
      · have := hlt hu
        omega
      · have := hown r hl.1
        omega
    · have := (mem_batch_iff hb).mp ⟨r, hmem, rfl⟩
      omega
  · by_cases hkn : k < next
    · obtain ⟨u, r, hl, rfl⟩ := (hc.2 k).mpr (by omega)
      exact ⟨u, r, .inl ⟨hl, fun _ => hkn⟩, rfl⟩
    · obtain ⟨r, hr, rfl⟩ := (mem_batch_iff hb).mpr ⟨Nat.le_of_not_lt hkn, hk.2⟩
      refine ⟨v, r, .inr ⟨rfl, hr, fun w r' hw hvw => ?_⟩, rfl⟩
      have := hlater w r' hw
      omega

/-- A batch below the later versions that reaches one of their records: the log
    ends where it did. -/
theorem Covers.append_under (hc : Covers t log bound) (hb : batch.map t = List.range' next batch.length)
    (hne : batch ≠ []) (hnext : 1 ≤ next)
    (hreach : ∃ w r, (w, r) ∈ log ∧ v < w ∧ t r ≤ next + batch.length) :
    Covers t (log ++ batch.map (Prod.mk v)) bound := by
  obtain ⟨w, r₀, hr₀, hvw, hle⟩ := hreach
  refine ⟨hc.1, fun k => ?_⟩
  simp only [live_append hb hne]
  refine ⟨?_, fun hk => ?_⟩
  · rintro ⟨u, r, ⟨hl, -⟩ | ⟨-, hmem, hlt⟩, rfl⟩
    · exact (hc.2 (t r)).mp ⟨u, r, hl, rfl⟩
    · -- the latest version is kept, and the batch's kept part is below it
      obtain ⟨w', r', hl', hww'⟩ := exists_live_from hr₀
      have h1 := hlt w' r' hl'.1 (by omega)
      have h2 := ((hc.2 (t r')).mp ⟨w', r', hl', rfl⟩).2
      have h3 := ((mem_batch_iff hb).mp ⟨r, hmem, rfl⟩).1
      omega
  · obtain ⟨u, r, hl, rfl⟩ := (hc.2 k).mpr hk
    by_cases hkeep : u < v → t r < next
    · exact ⟨u, r, .inl ⟨hl, hkeep⟩, rfl⟩
    · have huv : u < v := by
        by_contra hge
        exact hkeep fun hlt => absurd hlt hge
      have hge : next ≤ t r := by
        by_contra hlt
        exact hkeep fun _ => by omega
      have := hl.2 w r₀ hr₀ (by omega)
      obtain ⟨b, hbm, hbt⟩ := (mem_batch_iff hb).mpr ⟨hge, by omega⟩
      refine ⟨v, b, .inr ⟨rfl, hbm, fun w' r' hw' hvw' => ?_⟩, hbt⟩
      exact hbt ▸ hl.2 w' r' hw' (by omega)

end Append

end Versioned

end Corium.Log
