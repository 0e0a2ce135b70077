/-
  Corium.Log.Agreement — when the three versioned logs agree.

  (1) `logs_agree_when_appends_fit`: when every append goes on past its version's
      records, and either behind the beginning of a later version or, with no later
      version begun, at most one past the merged log, then after every run the three
      read the same records in every range: for each `t` the record of the highest
      version not cut off at `t`, and the next `t` is one past the last of them. The
      file-based log is read through an index that is current.
  (2) Without it they differ (`the_three_logs_differ`): a writer opened on records a
      later version then cuts off leaves a hole, which two of them refuse and the
      in-memory log reads back; and a handle of the file-based log answers a range
      its index covers from that index, records of a cut-off version included.

  Every log holds one list of records with their versions, in the order appended
  (`NativeLog.Holds`, `FileLog.Holds`); each version ascends, so each merge is that of
  `Log/Versioned` and each range, by position or by `t`, the same.
-/

import Corium.Log.Implementations

namespace Corium.Log

open Corium.Lib List

variable {α : Type} {t : α → Nat}

/-! ## Ascending files -/

variable {frames : List α} {first : Nat} {objects : List (Nat × List α)} {s : Logs α}

theorem partition_eq_filter (h : frames.Pairwise fun a b => t a < t b) (bound : Nat) :
    FileLog.partition t bound frames = frames.filter fun r => t r < bound := by
  induction frames with
  | nil => rfl
  | cons a rest ih =>
    obtain ⟨ha, hrest⟩ := pairwise_cons.mp h
    by_cases hlt : t a < bound
    · simpa [FileLog.partition, hlt] using ih hrest
    · have hnone : rest.filter (fun r => t r < bound) = [] := by
        refine filter_eq_nil_iff.mpr fun r hr => ?_
        have := ha r hr
        simp only [decide_eq_true_eq]
        omega
      simp [FileLog.partition, hlt, hnone]

/-- A range of a file by position is the range by `t` of what its cutoff keeps. -/
theorem frameRange_eq_inRange (h : frames.Pairwise fun a b => t a < t b) (start cutoff : Nat) (stop : Option Nat) :
    FileLog.frameRange t start ((stop.map (min · cutoff)).getD cutoff) frames =
      inRange t start stop (frames.filter fun r => t r < cutoff) := by
  have hbound : ∀ r, t r < (stop.map (min · cutoff)).getD cutoff ↔ t r < cutoff ∧ ∀ e ∈ stop, t r < e := by
    cases stop <;> simp [and_comm]
  generalize (stop.map (min · cutoff)).getD cutoff = bound at hbound
  have hfilter : inRange t start stop (frames.filter fun r => t r < cutoff) =
      frames.filter fun r => start ≤ t r ∧ t r < bound := by
    simp only [inRange, filter_filter, hbound]
    refine filter_congr fun r _ => ?_
    grind
  rw [hfilter, FileLog.frameRange]
  clear hfilter hbound
  induction frames with
  | nil => rfl
  | cons a rest ih =>
    obtain ⟨ha, hrest⟩ := pairwise_cons.mp h
    by_cases hstop : t a < bound
    · by_cases hstart : t a < start
      · simpa [FileLog.partition, hstop, hstart, Nat.not_le.mpr hstart] using ih hrest
      · -- from here on every frame is at or past the start
        have hkeep : rest.filter (fun r => start ≤ t r ∧ t r < bound) = rest.filter fun r => t r < bound := by
          refine filter_congr fun r hr => ?_
          have := ha r hr
          grind
        have := partition_eq_filter hrest bound
        rw [FileLog.partition] at this
        simp only [FileLog.partition, takeWhile_cons, hstop, hstart, decide_true, decide_false, if_true,
          filter_cons, Nat.le_of_not_lt hstart, and_self, hkeep, this]
        rfl
    · have hpast : ∀ r ∈ rest, start ≤ t r → bound ≤ t r := fun r hr _ => by
        have := ha r hr
        omega
      simpa [FileLog.partition, hstop] using hpast

theorem validateSortedFrames_of_ascending (h : frames.Pairwise fun a b => t a < t b) :
    FileLog.validateSortedFrames t frames = .ok () := by
  induction frames with
  | nil => rfl
  | cons a rest ih =>
    obtain ⟨ha, hrest⟩ := pairwise_cons.mp h
    cases rest with
    | nil => rfl
    | cons b rest =>
      have := ha b mem_cons_self
      rw [FileLog.validateSortedFrames, if_neg (by omega)]
      exact ih hrest

/-- Within frames whose front is contiguous the first gap is past the front. -/
theorem le_of_firstGapIndex {front rest : List α} {gap : Nat} (h : front.map t = List.range' first front.length)
    (hgap : FileLog.firstGapIndex t (front ++ rest) = some gap) : front.length ≤ gap := by
  induction front generalizing first gap with
  | nil => exact Nat.zero_le _
  | cons a front ih =>
    cases front with
    | nil =>
      cases rest with
      | nil => cases hgap
      | cons b rest =>
        simp only [cons_append, nil_append, FileLog.firstGapIndex] at hgap
        split at hgap
        · cases hgap
          exact Nat.le_refl 1
        · obtain ⟨g, -, rfl⟩ := Option.map_eq_some_iff.mp hgap
          simp
    | cons b front =>
      simp only [map_cons, length_cons, List.range'_succ, List.cons.injEq] at h
      obtain ⟨ha, hb, hfront⟩ := h
      have hstep : ¬ t a + 1 ≠ t b := by omega
      simp only [cons_append, FileLog.firstGapIndex, if_neg hstep] at hgap
      obtain ⟨g, hg, rfl⟩ := Option.map_eq_some_iff.mp hgap
      have := @ih (first + 1) g (by simp [List.range'_succ, hb, hfront]) hg
      simp only [length_cons] at this ⊢
      omega

/-! ## The merge of the files -/

/-- What each file keeps, with its cutoff. -/
def retained (files : Files α) : List (List α) :=
  (files.zip (FileLog.versionCutoffs t files).1).map fun f => FileLog.partition t f.2 f.1.2

theorem versionCutoffs_eq (files : Files α) :
    (FileLog.versionCutoffs t files).2 = (mergeVersions t (files.map Prod.snd)).2 := by
  induction files with
  | nil => rfl
  | cons f later ih =>
    obtain ⟨v, frames⟩ := f
    cases frames <;> simp [FileLog.versionCutoffs, mergeVersions, ih]

variable {files : Files α} {v : Nat} {r : α} {i : Nat} {batch : List α} {l l' : FileLog α}

/-- The files keep what the merge of their records keeps. -/
theorem retained_flatten (h : ∀ f ∈ files, f.2.Pairwise fun a b => t a < t b) :
    (retained (t := t) files).flatten = (mergeVersions t (files.map Prod.snd)).1 := by
  induction files with
  | nil => rfl
  | cons f later ih =>
    obtain ⟨v, frames⟩ := f
    have hframes : frames.Pairwise fun a b => t a < t b := h (v, frames) mem_cons_self
    have ih' := ih fun f hf => h f (mem_cons_of_mem _ hf)
    rw [retained] at ih'
    simp only [retained, FileLog.versionCutoffs, zip_cons_cons, map_cons, flatten_cons, mergeVersions,
      ih', partition_eq_filter hframes, versionCutoffs_eq]

theorem readMergedRange_eq (h : ∀ f ∈ files, f.2.Pairwise fun a b => t a < t b) (start : Nat)
    (stop : Option Nat) :
    FileLog.readMergedRange t files (FileLog.versionCutoffs t files).1 start stop =
      inRange t start stop (mergeVersions t (files.map Prod.snd)).1 := by
  rw [← retained_flatten h, retained, FileLog.readMergedRange, inRange, filter_flatten, map_map,
    flatMap_def]
  refine congrArg List.flatten (map_congr_left fun f hf => ?_)
  have hframes := h f.1 (of_mem_zip hf).1
  rw [frameRange_eq_inRange hframes, Function.comp_apply, partition_eq_filter hframes]
  rfl

/-- The last list that is not empty ends the concatenation. -/
theorem getLast?_flatten (ls : List (List α)) :
    ((ls.reverse.find? (· ≠ [])).getD []).getLast? = ls.flatten.getLast? := by
  induction ls using List.reverseRecOn with
  | nil => rfl
  | append_singleton ls l ih =>
    rw [reverse_concat, flatten_concat]
    by_cases hl : l = []
    · simpa [hl] using ih
    · rw [List.find?_cons_of_pos (by simpa using hl), Option.getD_some, List.getLast?_append_of_ne_nil _ hl]

theorem mergedNextT_eq (h : ∀ f ∈ files, f.2.Pairwise fun a b => t a < t b) :
    FileLog.mergedNextT t files (FileLog.versionCutoffs t files).1 =
      nextT t (mergeVersions t (files.map Prod.snd)).1 := by
  rw [← retained_flatten h, FileLog.mergedNextT, nextT, nextT, map_reverse]
  exact congrArg (fun last => (last.map (t · + 1)).getD 1) (getLast?_flatten (retained files))

/-- The ends of a contiguous run. -/
theorem ends_of_contiguous {records : List α} (h : records.map t = List.range' first records.length)
    (hne : records ≠ []) :
    ∃ a b, records.head? = some a ∧ records.getLast? = some b ∧ t a = first ∧ t b + 1 = first + records.length := by
  have hpos := length_pos_iff.mpr hne
  obtain ⟨a, ha⟩ := Option.ne_none_iff_exists'.mp fun hnone => hne (List.head?_eq_none_iff.mp hnone)
  obtain ⟨b, hb⟩ := Option.ne_none_iff_exists'.mp fun hnone => hne (List.getLast?_eq_none_iff.mp hnone)
  have hfirst := congrArg List.head? h
  have hlast := congrArg List.getLast? h
  rw [List.head?_map, ha, List.head?_range', if_neg (by omega)] at hfirst
  rw [List.getLast?_map, hb, List.getLast?_range', if_neg (by omega)] at hlast
  simp only [Option.map_some, Option.some.injEq] at hfirst hlast
  exact ⟨a, b, ha, hb, hfirst, by omega⟩

/-- Files that keep a contiguous run, going on from what was kept before, pass. -/
theorem validateRetained_of_contiguous {zipped : List ((Nat × List α) × Nat)} {previous : Option Nat} {n : Nat}
    (h : (zipped.flatMap fun f => FileLog.partition t f.2 f.1.2).map t = List.range' first n)
    (hprevious : ∀ p ∈ previous, p + 1 = first) : FileLog.validateRetained t previous zipped = .ok () := by
  induction zipped generalizing previous first n with
  | nil => rfl
  | cons f rest ih =>
    obtain ⟨⟨v, frames⟩, cutoff⟩ := f
    simp only [flatMap_cons, map_append] at h
    obtain ⟨k, -, hfront, hrest⟩ := List.range'_eq_append_iff.mp h.symm
    obtain ⟨past, hpast⟩ : FileLog.partition t cutoff frames <+: frames := takeWhile_prefix _
    rw [FileLog.validateRetained]
    generalize FileLog.partition t cutoff frames = kept at h hfront hrest hpast
    have hk : k = kept.length := by simpa using (congrArg List.length hfront).symm
    subst hk
    by_cases hne : kept = []
    · subst hne
      exact ih h hprevious
    obtain ⟨a, b, ha, hb, hfirst, hlast⟩ := ends_of_contiguous hfront hne
    have hgap : ∀ gap ∈ FileLog.firstGapIndex t frames, kept.length ≤ gap := fun gap hgap =>
      le_of_firstGapIndex hfront (hpast ▸ hgap)
    have hgo : ∀ p ∈ previous, p + 1 = t a := fun p hp => (hprevious p hp).trans hfirst.symm
    simp only [ha, hb, require, if_pos hgap, if_pos hgo]
    exact ih hrest fun p hp => by
      cases hp
      omega

/-! ## Each log's records, and their merge -/

/-- Ascending records are determined by which they are. -/
theorem eq_of_ascending {l l' : List α} (h : l.Pairwise fun a b => t a < t b) (h' : l'.Pairwise fun a b => t a < t b)
    (hmem : ∀ r, r ∈ l ↔ r ∈ l') : l = l' := by
  have hnodup : ∀ {l : List α}, (l.Pairwise fun a b => t a < t b) → l.Nodup := fun h =>
    h.imp fun hlt heq => Nat.ne_of_lt hlt (congrArg t heq)
  exact ((perm_ext_iff_of_nodup (hnodup h) (hnodup h')).mpr hmem).eq_of_pairwise
    (fun a b _ _ hab hba => absurd hab (Nat.lt_asymm hba)) h h'

variable {log : List (Nat × α)}

/-- The merge over any ascending versions that take in those of the log. -/
theorem mergeVersions_eq_merged (h : WellFormed t log) {vs : List Nat} (hvs : vs.Pairwise (· < ·))
    (hall : ∀ v r, (v, r) ∈ log → v ∈ vs) :
    (mergeVersions t (vs.map (versionRecords t log))).1 = merged t log := by
  refine eq_of_ascending (mergeVersions_sorted h hvs) (merged_sorted h) fun r => ?_
  rw [mem_mergeVersions hvs, mem_merged h]
  refine ⟨?_, ?_⟩
  · rintro ⟨v, -, hr, -, hlt⟩
    exact ⟨v, hr, fun w r' hr' hvw => hlt w (hall w r' hr') hvw r' hr'⟩
  · intro ⟨v, hr, hlt⟩
    exact ⟨v, hall v r hr, hr, h.bounded v r hr, fun w _ hvw r' hr' => hlt w r' hr' hvw⟩

theorem mem_version : r ∈ MemLog.version log v ↔ (v, r) ∈ log := by
  simp [MemLog.version]

theorem mem_merged_mem (h : WellFormed t log) (l : MemLog α) (hl : l.records = log) : l.merged t = merged t log := by
  have hversion : MemLog.version log = versionRecords t log := funext fun v => (h.versionRecords_eq v).symm
  rw [MemLog.merged, hl, hversion, merged]

/-- The objects are the log's records, batch by batch. -/
structure NativeLog.Holds (objects : List (Nat × List α)) (log : List (Nat × α)) : Prop where
  records : objects.flatMap (fun o => o.2.map (Prod.mk o.1)) = log
  nonempty : ∀ o ∈ objects, o.2 ≠ []

theorem NativeLog.Holds.mem (h : NativeLog.Holds objects log) : (v, r) ∈ log ↔ ∃ o ∈ objects, o.1 = v ∧ r ∈ o.2 := by
  rw [← h.records]
  simp only [mem_flatMap, mem_map, Prod.mk.injEq]
  grind

theorem version_append (l l' : List (Nat × α)) (v : Nat) :
    MemLog.version (l ++ l') v = MemLog.version l v ++ MemLog.version l' v := by
  simp [MemLog.version]

theorem version_batch (batch : List α) (w v : Nat) :
    MemLog.version (batch.map (Prod.mk w)) v = if w = v then batch else [] := by
  by_cases hw : w = v <;> simp [MemLog.version, hw, filter_map, Function.comp_def]

theorem flatten_version (objects : List (Nat × List α)) (v : Nat) :
    ((objects.filter (fun o => o.1 = v)).map Prod.snd).flatten =
      MemLog.version (objects.flatMap fun o => o.2.map (Prod.mk o.1)) v := by
  induction objects with
  | nil => rfl
  | cons o objects ih =>
    obtain ⟨w, batch⟩ := o
    rw [flatMap_cons, version_append, version_batch, ← ih]
    by_cases hw : w = v <;> simp [hw]

theorem NativeLog.Holds.version_eq (h : NativeLog.Holds objects log)
    (hw : WellFormed t log) (v : Nat) : NativeLog.version t objects v = versionRecords t log v := by
  have hperm : (NativeLog.version t objects v).Perm (versionRecords t log v) := by
    rw [hw.versionRecords_eq, NativeLog.version]
    refine (perm_insertionSort _ _).trans ((perm_insertionSort _ _).flatten.trans ?_)
    rw [flatten_version, h.records, MemLog.version]
  have hlt := hw.versionRecords_lt v
  -- a version has no two records of one `t`, so sorting leaves no choice
  have hinj : ∀ a ∈ versionRecords t log v, ∀ b ∈ versionRecords t log v, t a = t b → a = b := fun a ha b hb heq =>
    inj_on_of_nodup_map (pairwise_map.mpr (hlt.imp Nat.ne_of_lt)) ha hb heq
  have : Std.Total fun a b : α => t a ≤ t b := ⟨fun a b => Nat.le_total (t a) (t b)⟩
  have : IsTrans α fun a b => t a ≤ t b := ⟨fun _ _ _ => Nat.le_trans⟩
  refine hperm.eq_of_pairwise (fun a b ha hb hab hba => ?_) (pairwise_insertionSort _ _) (hlt.imp Nat.le_of_lt)
  exact hinj a (hperm.mem_iff.mp ha) b hb (Nat.le_antisymm hab hba)

theorem NativeLog.Holds.merged_eq {l : NativeLog α} (h : NativeLog.Holds l.objects log) (hw : WellFormed t log) :
    l.merged t = Log.merged t log := by
  have hversion : NativeLog.version t l.objects = versionRecords t log := funext fun v => h.version_eq hw v
  rw [NativeLog.merged, hversion]
  refine mergeVersions_eq_merged hw (versions_sorted _) fun v r hr => ?_
  obtain ⟨o, ho, rfl, -⟩ := h.mem.mp hr
  exact mem_versions.mpr ⟨o.2, ho⟩

/-- The files are the log's records by version. -/
structure FileLog.Holds (files : Files α) (log : List (Nat × α)) : Prop where
  sorted : files.Pairwise fun f g => f.1 < g.1
  frames : ∀ f ∈ files, f.2 = MemLog.version log f.1
  complete : ∀ v r, (v, r) ∈ log → ∃ f ∈ files, f.1 = v

theorem FileLog.Holds.ascending (h : FileLog.Holds files log) (hw : WellFormed t log) :
    ∀ f ∈ files, f.2.Pairwise fun a b => t a < t b := by
  intro f hf
  rw [h.frames f hf]
  exact hw.appended_lt f.1

theorem FileLog.Holds.merged_eq (h : FileLog.Holds files log) (hw : WellFormed t log) :
    (mergeVersions t (files.map Prod.snd)).1 = merged t log := by
  have hmap : files.map Prod.snd = (files.map Prod.fst).map (versionRecords t log) := by
    rw [map_map]
    exact map_congr_left fun f hf => (h.frames f hf).trans (hw.versionRecords_eq f.1).symm
  rw [hmap]
  refine mergeVersions_eq_merged hw (pairwise_map.mpr h.sorted) fun v r hr => ?_
  obtain ⟨f, hf, rfl⟩ := h.complete v r hr
  exact mem_map_of_mem hf

/-! ## Reads of a log without holes -/

variable {bound : Nat}

theorem NativeLog.Holds.readNativeMerged_eq {l : NativeLog α} (h : NativeLog.Holds l.objects log)
    (hw : WellFormed t log) (hc : Covers t log bound) : l.readNativeMerged t = .ok (Log.merged t log) := by
  have hread := readMerged_of_covers hw hc
  rw [readMerged] at hread
  rw [NativeLog.readNativeMerged, h.merged_eq hw]
  exact hread

theorem FileLog.Holds.validatedVersionCutoffs_eq (h : FileLog.Holds files log)
    (hw : WellFormed t log) (hc : Covers t log bound) :
    FileLog.validatedVersionCutoffs t files = .ok (FileLog.versionCutoffs t files).1 := by
  have hmerged := retained_flatten (h.ascending hw)
  rw [h.merged_eq hw, retained, ← flatMap_def] at hmerged
  have hcontiguous := hc.merged_eq hw
  rw [← hmerged] at hcontiguous
  rw [FileLog.validatedVersionCutoffs,
    validateRetained_of_contiguous hcontiguous fun p hp => absurd hp (Option.not_mem_none p)]
  rfl

theorem FileLog.lookup_of_mem (h : files.Pairwise fun f g => f.1 < g.1) {f : Nat × List α}
    (hf : f ∈ files) : FileLog.lookup files f.1 = some f.2 := by
  induction files with
  | nil => cases hf
  | cons g files ih =>
    obtain ⟨hg, hfiles⟩ := pairwise_cons.mp h
    rcases mem_cons.mp hf with rfl | hf
    · simp [FileLog.lookup]
    · have hne := Nat.ne_of_lt (hg f hf)
      simpa [FileLog.lookup, hne] using ih hfiles hf

theorem FileLog.refreshVersionFiles_self (h : FileLog.Holds files log) :
    FileLog.refreshVersionFiles t files files = .ok files := by
  have hself : ∀ own : List α, FileLog.refreshFile t own own = .ok own := fun own => by
    simp [FileLog.refreshFile, FileLog.validateSortedFrames, require, bind, Except.bind]
  rw [FileLog.refreshVersionFiles, mapM_ok_of_forall (g := id), map_id]
  intro f hf
  simp only [FileLog.lookup_of_mem h.sorted hf, hself, bind, Except.bind, id]

/-- A current index answers every range with that range of the merged log. -/
theorem FileLog.Holds.txRange_eq (h : FileLog.Holds files log) (hw : WellFormed t log)
    (hc : Covers t log bound) (start : Nat) (stop : Option Nat) :
    FileLog.txRange t files files start stop = .ok (inRange t start stop (Log.merged t log), files) := by
  have hread := readMergedRange_eq (h.ascending hw) start stop
  rw [h.merged_eq hw] at hread
  rw [FileLog.txRange]
  split
  case isTrue hempty =>
    obtain ⟨e, he, hle⟩ := hempty
    have hnone : inRange t start stop (Log.merged t log) = [] := by
      refine filter_eq_nil_iff.mpr fun r _ => ?_
      simp only [decide_eq_true_eq, not_and]
      intro hstart hstop
      have := hstop e he
      omega
    rw [hnone]
  case isFalse =>
    simp only [FileLog.readMerged, h.validatedVersionCutoffs_eq hw hc, FileLog.refreshVersionFiles_self h, bind,
      Except.bind, hread, ite_self]

/-! ## One event -/

theorem checkedSucc_eq_ok {n m : Nat} : checkedSucc n = .ok m ↔ n < u64Max ∧ m = n + 1 := by
  unfold checkedSucc
  split <;> simp_all [eq_comm]

theorem MemLog.append_ok {l l' : MemLog α} (h : MemLog.append t i l r = .ok l') :
    ∃ hd, l.handles[i]? = some hd ∧ hd.nextT = t r ∧ hd.nextT < u64Max ∧
      l' = ⟨l.records ++ [(hd.writeVersion, r)], l.handles.set i ⟨hd.writeVersion, hd.nextT + 1⟩⟩ := by
  unfold MemLog.append at h
  cases hh : l.handles[i]? with
  | none => simp [hh] at h
  | some hd =>
    simp only [hh, bind_eq_ok, require_eq_ok, checkedSucc_eq_ok] at h
    obtain ⟨-, ht, next, ⟨hlt, rfl⟩, hl⟩ := h
    cases hl
    exact ⟨hd, rfl, ht, hlt, rfl⟩

/-- A batch is the next run of the handle's `t`s, and goes to the handle's version. -/
theorem MemLog.appendBatch_ok {l l' : MemLog α} {hd : Handle}
    (h : MemLog.appendBatch t i batch l = .ok l') (hhd : l.handles[i]? = some hd) :
    batch.map t = List.range' hd.nextT batch.length ∧ (batch ≠ [] → hd.nextT + batch.length ≤ u64Max) ∧
      l'.records = l.records ++ batch.map (Prod.mk hd.writeVersion) ∧
      l'.handles = l.handles.set i ⟨hd.writeVersion, hd.nextT + batch.length⟩ := by
  induction batch generalizing l hd with
  | nil =>
    rw [MemLog.appendBatch, foldlM_nil, pure_eq_ok] at h
    subst h
    obtain ⟨hi, rfl⟩ := List.getElem?_eq_some_iff.mp hhd
    exact ⟨rfl, fun hne => absurd rfl hne, by simp, (set_getElem_self hi).symm⟩
  | cons r batch ih =>
    rw [MemLog.appendBatch, foldlM_cons, bind_eq_ok] at h
    obtain ⟨l1, h1, h2⟩ := h
    obtain ⟨hd', hhd', ht, hlt, rfl⟩ := MemLog.append_ok h1
    cases hhd.symm.trans hhd'
    have hnext : (l.handles.set i ⟨hd.writeVersion, hd.nextT + 1⟩)[i]? = some ⟨hd.writeVersion, hd.nextT + 1⟩ := by
      rw [List.getElem?_set_self' , hhd]
      rfl
    obtain ⟨hb, hmax, hrec, hhandles⟩ := ih h2 hnext
    refine ⟨?_, fun _ => ?_, ?_, ?_⟩
    · simp [List.range'_succ, hb, ht]
    · by_cases hne : batch = []
      · simp only [hne, length_cons, length_nil]
        omega
      · have := hmax hne
        simp only [length_cons] at this ⊢
        omega
    · simp [hrec]
    · rw [hhandles, set_set]
      simp only [length_cons]
      congr 2
      omega

/-- Replacing an element by one with the same image. -/
theorem map_set_of_eq {β γ : Type} {f : β → γ} {l : List β} {a b : β} (h : l[i]? = some a) (hf : f b = f a) :
    (l.set i b).map f = l.map f := by
  refine ext_getElem? fun j => ?_
  rw [List.getElem?_map, List.getElem?_map, List.getElem?_set']
  split
  · subst_vars
    simp [h, hf]
  · rfl

theorem NativeLog.appendBatch_ok {l l' : NativeLog α}
    (h : NativeLog.appendBatch t i batch l = .ok l') :
    ∃ hd, l.handles[i]? = some hd ∧
      l'.objects = l.objects ++ (if batch = [] then [] else [(hd.writeVersion, batch)]) ∧
      l'.handles.map Handle.writeVersion = l.handles.map Handle.writeVersion := by
  unfold NativeLog.appendBatch at h
  cases hhd : l.handles[i]? with
  | none => simp [hhd] at h
  | some hd =>
    refine ⟨hd, rfl, ?_⟩
    simp only [hhd] at h
    split at h
    case isTrue hempty =>
      cases h
      simp [hempty]
    case isFalse hne =>
      simp only [bind_eq_ok, require_eq_ok] at h
      obtain ⟨-, -, -, -, hl⟩ := h
      cases hl
      exact ⟨by rw [if_neg hne], map_set_of_eq hhd rfl⟩

theorem FileLog.append_ok (h : FileLog.append t i l r = .ok l') :
    ∃ hd, l.handles[i]? = some hd ∧ (FileLog.lookup l.files hd.writeVersion).isSome ∧
      l'.files = FileLog.extend hd.writeVersion r l.files ∧
      l'.handles.map FileHandle.writeVersion = l.handles.map FileHandle.writeVersion := by
  unfold FileLog.append at h
  cases hhd : l.handles[i]? with
  | none => simp [hhd] at h
  | some hd =>
    simp only [hhd] at h
    split at h
    case h_1 own file _ hfile =>
      simp only [bind_eq_ok, require_eq_ok] at h
      obtain ⟨-, -, -, -, -, -, next, -, hl⟩ := h
      cases hl
      exact ⟨hd, rfl, by rw [hfile]; rfl, rfl, map_set_of_eq hhd rfl⟩
    case h_2 => cases h

theorem mem_of_lookup (h : (FileLog.lookup files v).isSome) : ∃ f ∈ files, f.1 = v := by
  rw [FileLog.lookup, Option.isSome_map] at h
  obtain ⟨f, hf, hv⟩ := List.find?_isSome.mp h
  exact ⟨f, hf, by simpa using hv⟩

theorem FileLog.Holds.extend (h : FileLog.Holds files log)
    (hv : (FileLog.lookup files v).isSome) : FileLog.Holds (FileLog.extend v r files) (log ++ [(v, r)]) := by
  have hfst : ∀ f : Nat × List α, (if f.1 = v then (f.1, f.2 ++ [r]) else f).1 = f.1 := fun f => by split <;> rfl
  refine ⟨pairwise_map.mpr (h.sorted.imp fun hlt => by rwa [hfst, hfst]), ?_, ?_⟩
  · intro f hf
    obtain ⟨g, hg, rfl⟩ := mem_map.mp hf
    rw [hfst, version_append, show [(v, r)] = [r].map (Prod.mk v) from rfl, version_batch, ← h.frames g hg]
    by_cases hgv : g.1 = v
    · rw [if_pos hgv, if_pos hgv.symm]
    · rw [if_neg hgv, if_neg (Ne.symm hgv), append_nil]
  · have hkeep : ∀ w, (∃ f ∈ files, f.1 = w) → ∃ f ∈ FileLog.extend v r files, f.1 = w := by
      rintro w ⟨f, hf, rfl⟩
      exact ⟨_, mem_map_of_mem hf, hfst f⟩
    intro w r' hr'
    rcases mem_append.mp hr' with hr' | hr'
    · exact hkeep w (h.complete w r' hr')
    · cases mem_singleton.mp hr'
      exact hkeep v (mem_of_lookup hv)

theorem FileLog.appendBatch_ok
    (h : FileLog.appendBatch t i batch l = .ok l') (hv : (l.handles.map FileHandle.writeVersion)[i]? = some v)
    (hl : FileLog.Holds l.files log) :
    FileLog.Holds l'.files (log ++ batch.map (Prod.mk v)) ∧
      l'.handles.map FileHandle.writeVersion = l.handles.map FileHandle.writeVersion := by
  induction batch generalizing l log with
  | nil =>
    rw [FileLog.appendBatch, foldlM_nil, pure_eq_ok] at h
    subst h
    exact ⟨by simpa using hl, rfl⟩
  | cons r batch ih =>
    rw [FileLog.appendBatch, foldlM_cons, bind_eq_ok] at h
    obtain ⟨l1, h1, h2⟩ := h
    obtain ⟨hd, hhd, hlookup, hfiles, hversions⟩ := FileLog.append_ok h1
    have hhdv : hd.writeVersion = v := by simpa [hhd] using hv
    subst hhdv
    obtain ⟨hrest, hrestv⟩ := ih h2 (hversions ▸ hv) (hfiles ▸ hl.extend hlookup)
    refine ⟨?_, hrestv.trans hversions⟩
    rw [map_cons, append_cons]
    exact hrest

theorem FileLog.Holds.create (h : FileLog.Holds files log) (v : Nat) :
    FileLog.Holds (FileLog.create v files) log := by
  unfold FileLog.create
  split
  case isTrue => exact h
  case isFalse hnone =>
    have hfresh : ∀ f ∈ files, f.1 ≠ v := by
      rintro f hf rfl
      exact hnone (by rw [FileLog.lookup_of_mem h.sorted hf]; rfl)
    have hmem : ∀ f, f ∈ files.orderedInsert (fun a b => a.1 ≤ b.1) (v, []) ↔ f = (v, []) ∨ f ∈ files := fun f =>
      mem_orderedInsert _
    refine ⟨?_, ?_, ?_⟩
    · have : Std.Total fun a b : Nat × List α => a.1 ≤ b.1 := ⟨fun a b => Nat.le_total a.1 b.1⟩
      have : IsTrans (Nat × List α) fun a b => a.1 ≤ b.1 := ⟨fun _ _ _ => Nat.le_trans⟩
      have hle := List.Pairwise.orderedInsert (v, []) files (h.sorted.imp Nat.le_of_lt)
      have hne : (files.orderedInsert (fun a b => a.1 ≤ b.1) (v, [])).Pairwise fun a b => a.1 ≠ b.1 :=
        ((perm_orderedInsert _ _ _).pairwise_iff fun hab => hab.symm).mpr
          (pairwise_cons.mpr ⟨fun f hf => (hfresh f hf).symm, h.sorted.imp Nat.ne_of_lt⟩)
      exact hle.imp₂ (fun _ _ hab hne => Nat.lt_of_le_of_ne hab hne) hne
    · intro f hf
      rcases (hmem f).mp hf with rfl | hf
      · refine (eq_nil_iff_forall_not_mem.mpr fun r hr => ?_).symm
        obtain ⟨f, hf, hfv⟩ := h.complete v r (mem_version.mp hr)
        exact hfresh f hf hfv
      · exact h.frames f hf
    · intro w r hr
      obtain ⟨f, hf, hfw⟩ := h.complete w r hr
      exact ⟨f, (hmem f).mpr (.inr hf), hfw⟩

theorem FileLog.openAt_ok (h : FileLog.openAt t v l = .ok l') :
    l'.files = FileLog.create v l.files ∧
      l'.handles.map FileHandle.writeVersion = l.handles.map FileHandle.writeVersion ++ [v] := by
  simp only [FileLog.openAt, bind_eq_ok] at h
  obtain ⟨-, -, cutoffs, -, hl⟩ := h
  cases hl
  simp

theorem NativeLog.openAt_ok {l l' : NativeLog α} (h : NativeLog.openAt t v l = .ok l') :
    l'.objects = l.objects ∧ l'.handles.map Handle.writeVersion = l.handles.map Handle.writeVersion ++ [v] := by
  simp only [NativeLog.openAt, bind_eq_ok] at h
  obtain ⟨records, -, hl⟩ := h
  cases hl
  simp

theorem FileLog.read_ok {i start : Nat} {stop : Option Nat} {records : List α}
    (h : FileLog.read t i start stop l = .ok (records, l')) :
    l'.files = l.files ∧ l'.handles.map FileHandle.writeVersion = l.handles.map FileHandle.writeVersion := by
  unfold FileLog.read at h
  cases hhd : l.handles[i]? with
  | none => simp [hhd] at h
  | some hd =>
    simp only [hhd, bind_eq_ok] at h
    obtain ⟨a, -, hl⟩ := h
    cases hl
    exact ⟨rfl, map_set_of_eq hhd rfl⟩

/-! ## Runs -/

/-- The three hold the same log, which has no hole, and their handles the same versions. -/
structure Sound (s : Logs α) : Prop where
  wellFormed : WellFormed t s.mem.records
  covers : ∃ bound, Covers t s.mem.records bound
  native : NativeLog.Holds s.native.objects s.mem.records
  file : FileLog.Holds s.file.files s.mem.records
  positive : ∀ h ∈ s.mem.handles, 1 ≤ h.nextT
  nativeVersions : s.native.handles.map Handle.writeVersion = s.mem.handles.map Handle.writeVersion
  fileVersions : s.file.handles.map FileHandle.writeVersion = s.mem.handles.map Handle.writeVersion

theorem one_le_nextT (records : List α) : 1 ≤ nextT t records := by
  unfold nextT
  cases records.getLast? <;> simp

theorem sound_start : Sound (t := t) {} where
  wellFormed := ⟨nofun, List.Pairwise.nil⟩
  covers := ⟨1, Nat.le_refl 1, fun k => ⟨fun ⟨_, _, hl, _⟩ => (nomatch hl.1), by omega⟩⟩
  native := ⟨rfl, nofun⟩
  file := ⟨List.Pairwise.nil, nofun, nofun⟩
  positive := nofun
  nativeVersions := rfl
  fileVersions := rfl

/-- A batch that fits keeps the log without holes. -/
theorem covers_append {v next : Nat} (h : WellFormed t log) (hc : Covers t log bound)
    (hfits : Fits t log v next) (hnext : 1 ≤ next) (ha : accepts t next batch = true) (hne : batch ≠ []) :
    WellFormed t (log ++ batch.map (Prod.mk v)) ∧ ∃ bound', Covers t (log ++ batch.map (Prod.mk v)) bound' := by
  obtain ⟨hfits, hplace⟩ := hfits
  have hown : ∀ r, (v, r) ∈ log → t r < next := fun r hr => hfits (v, r) hr rfl
  refine ⟨h.append ha hown, ?_⟩
  simp only [accepts, decide_eq_true_eq] at ha
  rcases hplace with ⟨⟨w, r⟩, hr, hvw, hle⟩ | ⟨hlater, hle⟩
  · exact ⟨bound, hc.append_dead ha.1 hne ⟨w, r, hr, hvw, hle⟩⟩
  · rw [nextT_of_covers h hc] at hle
    exact ⟨_, hc.append_last ha.1 hne ⟨hnext, hle⟩ hown fun w r hr => hlater (w, r) hr⟩

theorem NativeLog.Holds.append (h : NativeLog.Holds objects log) (v : Nat) (batch : List α) :
    NativeLog.Holds (objects ++ if batch = [] then [] else [(v, batch)]) (log ++ batch.map (Prod.mk v)) := by
  by_cases hne : batch = []
  · simpa [hne] using h
  · rw [if_neg hne]
    refine ⟨by simp [h.records], fun o ho => ?_⟩
    rcases mem_append.mp ho with ho | ho
    · exact h.nonempty o ho
    · cases mem_singleton.mp ho
      exact hne

theorem Sound.step {s s' : Logs α} {e : Event α} (h : Sound (t := t) s) (hfit : Fitting t s e)
    (hstep : s.step t e = .ok s') : Sound (t := t) s' := by
  cases e with
  | openAt v =>
    simp only [Logs.step, bind_eq_ok] at hstep
    obtain ⟨native, hnative, file, hfile, hs⟩ := hstep
    cases hs
    obtain ⟨hobjects, hnv⟩ := NativeLog.openAt_ok hnative
    obtain ⟨hfiles, hfv⟩ := FileLog.openAt_ok hfile
    refine ⟨h.wellFormed, h.covers, hobjects ▸ h.native, hfiles ▸ h.file.create v, ?_, ?_, ?_⟩
    · intro hd hhd
      rcases mem_append.mp hhd with hhd | hhd
      · exact h.positive hd hhd
      · cases mem_singleton.mp hhd
        exact one_le_nextT _
    · simp only [MemLog.openAt, map_append, hnv, h.nativeVersions, map_cons, map_nil]
    · simp only [MemLog.openAt, map_append, hfv, h.fileVersions, map_cons, map_nil]
  | append i batch =>
    simp only [Logs.step, bind_eq_ok] at hstep
    obtain ⟨mem, hmem, native, hnative, file, hfile, hs⟩ := hstep
    cases hs
    obtain ⟨nh, hnh, hobjects, hnv⟩ := NativeLog.appendBatch_ok hnative
    -- the handle is the same one in all three, by its version
    have hversion : (s.mem.handles.map Handle.writeVersion)[i]? = some nh.writeVersion := by
      rw [← h.nativeVersions, List.getElem?_map, hnh]
      rfl
    rw [List.getElem?_map] at hversion
    obtain ⟨hd, hhd, hnhv⟩ := Option.map_eq_some_iff.mp hversion
    obtain ⟨hb, hmax, hrecords, hhandles⟩ := MemLog.appendBatch_ok hmem hhd
    have hfileVersion : (s.file.handles.map FileHandle.writeVersion)[i]? = some hd.writeVersion := by
      rw [h.fileVersions, List.getElem?_map, hhd]
      rfl
    obtain ⟨hfiles, hfv⟩ := FileLog.appendBatch_ok hfile hfileVersion h.file
    have hmv : mem.handles.map Handle.writeVersion = s.mem.handles.map Handle.writeVersion := by
      rw [hhandles]
      exact map_set_of_eq hhd rfl
    have hpos := h.positive hd (mem_of_getElem? hhd)
    obtain ⟨bound, hc⟩ := h.covers
    have hlog : WellFormed t mem.records ∧ ∃ bound', Covers t mem.records bound' := by
      rw [hrecords]
      by_cases hne : batch = []
      · simpa [hne] using ⟨h.wellFormed, bound, hc⟩
      · have ha : accepts t hd.nextT batch = true := by
          simp only [accepts, decide_eq_true_eq]
          exact ⟨hb, hmax hne⟩
        exact covers_append h.wellFormed hc (hfit hd hhd) hpos ha hne
    refine ⟨hlog.1, hlog.2, ?_, ?_, ?_, ?_, ?_⟩
    · rw [hobjects, hrecords, ← hnhv]
      exact h.native.append _ _
    · rw [hrecords]
      exact hfiles
    · intro hd' hhd'
      rw [hhandles] at hhd'
      rcases mem_or_eq_of_mem_set hhd' with hhd' | rfl
      · exact h.positive hd' hhd'
      · exact Nat.le_add_right_of_le hpos
    · rw [hnv, hmv, h.nativeVersions]
    · rw [hfv, hmv, h.fileVersions]
  | read i start stop =>
    simp only [Logs.step, bind_eq_ok] at hstep
    obtain ⟨-, -, ⟨records, file⟩, hfile, hs⟩ := hstep
    cases hs
    obtain ⟨hfiles, hfv⟩ := FileLog.read_ok hfile
    exact ⟨h.wellFormed, h.covers, h.native, hfiles ▸ h.file, h.positive, h.nativeVersions,
      hfv.trans h.fileVersions⟩

theorem sound_of_reaches (h : Reaches t (Fitting t) s) : Sound (t := t) s := by
  induction h with
  | start => exact sound_start
  | step _ hfit hstep ih => exact ih.step hfit hstep

instance decidableFits (log : List (Nat × α)) (v next : Nat) : Decidable (Fits t log v next) :=
  inferInstanceAs (Decidable (_ ∧ _))

instance decidableFitting (s : Logs α) (e : Event α) : Decidable (Fitting t s e) :=
  match e with
  | .append i _ => inferInstanceAs (Decidable (∀ h ∈ s.mem.handles[i]?, Fits t s.mem.records h.writeVersion h.nextT))
  | .openAt _ => .isTrue trivial
  | .read _ _ _ => .isTrue trivial

/-- A run that stops at the first event that does not fit. -/
def runFitting (events : List (Event α)) : Except LogError (Logs α) :=
  events.foldlM (fun s e => do require (Fitting t s e) .corrupt; s.step t e) {}

theorem reaches_of_runFitting {events : List (Event α)} (h : runFitting (t := t) events = .ok s) :
    Reaches t (Fitting t) s := by
  refine foldlM_inv (P := Reaches t (Fitting t)) (fun e _ s s' hs hstep => ?_) .start h
  simp only [bind_eq_ok, require_eq_ok] at hstep
  obtain ⟨-, hfit, hstep⟩ := hstep
  exact hs.step hfit hstep

/-- What the merge keeps is, for each `t`, the record of the highest version not cut off there. -/
theorem mem_merged_iff_chosen (h : WellFormed t log) : r ∈ merged t log ↔ Chosen t log r := by
  rw [mem_merged h]
  refine ⟨fun ⟨v, hl⟩ => ⟨v, hl, fun w r' hl' heq => ?_⟩, fun ⟨v, hl, _⟩ => ⟨v, hl⟩⟩
  by_contra hlt
  have := hl.2 w r' hl'.1 (Nat.lt_of_not_le hlt)
  omega

/-- After every run whose appends fit, the three logs read back the same records in
    every range and open at the same `t`. -/
theorem logs_agree_when_appends_fit {s : Logs α} (h : Reaches t (Fitting t) s) :
    ∃ records : List α, (records.Pairwise fun a b => t a < t b) ∧
      (∀ r, r ∈ records ↔ Chosen t s.mem.records r) ∧
      (∀ start stop, s.mem.txRange t start stop = .ok (inRange t start stop records) ∧
        s.native.txRange t start stop = .ok (inRange t start stop records) ∧
        FileLog.txRange t s.file.files s.file.files start stop =
          .ok (inRange t start stop records, s.file.files)) ∧
      ∀ v, s.mem.openAt t v = { s.mem with handles := s.mem.handles ++ [⟨v, nextT t records⟩] } ∧
        s.native.openAt t v = .ok { s.native with handles := s.native.handles ++ [⟨v, nextT t records⟩] } ∧
        s.file.openAt t v = .ok ⟨FileLog.create v s.file.files,
          s.file.handles ++ [⟨v, nextT t records, FileLog.create v s.file.files⟩]⟩ := by
  have hs := sound_of_reaches h
  obtain ⟨bound, hc⟩ := hs.covers
  have hw := hs.wellFormed
  have hmem := mem_merged_mem hw s.mem rfl
  have hnative := hs.native.readNativeMerged_eq hw hc
  refine ⟨merged t s.mem.records, merged_sorted hw, fun r => mem_merged_iff_chosen hw, fun start stop => ⟨?_, ?_, ?_⟩,
    fun v => ⟨?_, ?_, ?_⟩⟩
  · rw [MemLog.txRange, hmem]
  · rw [NativeLog.txRange, hnative]
    rfl
  · exact hs.file.txRange_eq hw hc start stop
  · rw [MemLog.openAt, hmem]
  · rw [NativeLog.openAt, hnative]
    rfl
  · have hfiles := hs.file.create v
    have hsorted : (FileLog.create v s.file.files).forM (fun f => FileLog.validateSortedFrames t f.2) = .ok () :=
      forM_of_forall fun f hf => validateSortedFrames_of_ascending (hfiles.ascending hw f hf)
    simp only [FileLog.openAt, hsorted, hfiles.validatedVersionCutoffs_eq hw hc, bind, Except.bind,
      mergedNextT_eq (hfiles.ascending hw), hfiles.merged_eq hw]

namespace LogsExample

/-- Version 2 takes over at 3; the writer of version 1 goes on with its own 3. -/
def takenOver : List (Event (Nat × Nat)) :=
  [.openAt 1, .append 0 [(1, 10), (2, 10)], .openAt 2, .append 1 [(3, 20)], .append 0 [(3, 10)]]

/-- Version 8 opens behind records of version 5 that version 7 then cuts off. -/
def cutOff : List (Event (Nat × Nat)) :=
  [.openAt 5, .append 0 [(1, 50), (2, 50), (3, 50)], .openAt 7, .append 0 [(4, 50), (5, 50)], .openAt 8,
    .append 1 [(4, 70)], .append 2 [(6, 80)]]

def run (events : List (Event (Nat × Nat))) : Except LogError (Logs (Nat × Nat)) :=
  events.foldlM (Logs.step Prod.fst) {}

/-- What the three read, the file-based log through handle `i`. -/
def reads (i start : Nat) (stop : Option Nat) (s : Logs (Nat × Nat)) : List (Option (List (Nat × Nat))) :=
  [(s.mem.txRange Prod.fst start stop).toOption, (s.native.txRange Prod.fst start stop).toOption,
    ((s.file.read Prod.fst i start stop).map Prod.fst).toOption]

end LogsExample

open LogsExample in
/-- A range its index covers a file handle reads from the index, with the record of a
    version cut off since; and past a hole only the in-memory log reads on. -/
theorem the_three_logs_differ :
    ((run takenOver).map (reads 0 1 (some 4))).toOption =
        some [some [(1, 10), (2, 10), (3, 20)], some [(1, 10), (2, 10), (3, 20)], some [(1, 10), (2, 10), (3, 10)]] ∧
      ((run cutOff).map (reads 2 1 none)).toOption =
        some [some [(1, 50), (2, 50), (3, 50), (4, 70), (6, 80)], none, none] := by
  decide

open LogsExample in
/-- The run with a takeover fits, deposed append included. -/
theorem logs_agree_after_a_takeover :
    ∃ s : Logs (Nat × Nat), runFitting (t := Prod.fst) takenOver = .ok s ∧ s.mem.records.length = 4 ∧
      ∃ records : List (Nat × Nat), (∀ r, r ∈ records ↔ Chosen Prod.fst s.mem.records r) ∧
        ∀ start stop, s.native.txRange Prod.fst start stop = .ok (inRange Prod.fst start stop records) := by
  have hlength : ((runFitting (t := Prod.fst) takenOver).map (·.mem.records.length)).toOption = some 4 := by
    decide
  cases hrun : runFitting (t := Prod.fst) takenOver with
  | error e =>
    rw [hrun] at hlength
    cases hlength
  | ok s =>
    rw [hrun] at hlength
    obtain ⟨records, -, hchosen, hreads, -⟩ := logs_agree_when_appends_fit (reaches_of_runFitting hrun)
    exact ⟨s, rfl, Option.some.inj hlength, records, hchosen, fun start stop => (hreads start stop).2.1⟩

end Corium.Log
