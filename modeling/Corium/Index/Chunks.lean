/-
  Corium.Index.Chunks — where the leaves of a segment end.

  A segment built from scratch has the canonical chunks of its keys: only its last leaf
  may be open. A pass carries leaves it does not touch, and a run it rebuilt goes on
  through them until it is cut where they are. That search is bounded: a run still open
  after `resyncLeafLimit` leaves is closed before the leaf that is carried next
  (`applyChanges_ended`). In a segment of no more leaves than that, and wherever no run
  was closed so, a pass leaves the chunks a build from scratch would
  (`Ended.eq_fromKeys`).
-/

import Corium.Index.Segment
import Corium.Lib.Chunking

namespace Corium.Index

open Corium.Core Corium.Lib List

/-! ## The rule -/

theorem cutAfter_of_lt (key : Bytes) (n : Nat) (h : n < chunkMinEntries) : cutAfter key n = false := by
  unfold cutAfter chunkMaxEntries
  unfold chunkMinEntries at *
  rw [if_neg (by omega), decide_eq_false (by omega), Bool.false_and]

theorem cutAfter_of_le (key : Bytes) (n : Nat) (h : chunkMaxEntries ≤ n) : cutAfter key n = true := by
  rw [cutAfter, if_pos h]

theorem Leaf.isClosed_iff {leaf : Leaf} : leaf.isClosed = true ↔ EndsAtCut cutAfter leaf := by
  unfold Leaf.isClosed EndsAtCut
  cases leaf.getLast? <;> simp

/-- Leaves as passes leave them: chunks of the rule, each cut at its end unless it is the
    last or the next one is `carried`. -/
structure Ended (carried : Leaf → Prop) (leaves : List Leaf) : Prop where
  isChunk : ∀ l ∈ leaves, IsChunk cutAfter l
  chain : leaves.IsChain fun a b => EndsAtCut cutAfter a ∨ carried b

variable {carried : Leaf → Prop} {leaves : List Leaf} {leaf : Leaf}

theorem Ended.concat (h : Ended carried leaves) (hlast : ∀ l ∈ leaves.getLast?, EndsAtCut cutAfter l ∨ carried leaf)
    (hleaf : IsChunk cutAfter leaf) : Ended carried (leaves ++ [leaf]) where
  isChunk l hl := (mem_append.mp hl).elim (h.isChunk l) fun hl => mem_singleton.mp hl ▸ hleaf
  chain := isChain_append.mpr ⟨h.chain, isChain_singleton _, fun a ha b hb => by
    obtain rfl : leaf = b := by simpa using hb
    exact hlast a ha⟩

theorem Ended.canonical (h : Ended carried leaves) (hcut : leaves.IsChain fun a _ => EndsAtCut cutAfter a) : Canonical cutAfter leaves :=
  ⟨h.isChunk, hcut⟩

/-! ## Building -/

/-- What building keeps: the leaves so far end at a cut, and the open run was cut nowhere.
    `n` bounds the leaves the run has passed through. -/
structure Tidy (carried : Leaf → Prop) (n : Nat) (b : LeafBuilder) : Prop where
  ended : Ended carried b.leaves
  last : ∀ l ∈ b.leaves.getLast?, EndsAtCut cutAfter l
  pending : Uncut cutAfter b.pending
  spilled : b.spilled ≤ n

theorem tidy_empty : Tidy carried 0 LeafBuilder.empty :=
  ⟨⟨forall_mem_nil _, .nil⟩, fun _ h => (nomatch h), uncut_nil, Nat.le_refl _⟩

namespace Tidy

variable {n : Nat} {b : LeafBuilder} (h : Tidy carried n b)

include h

theorem mono {m : Nat} (hm : n ≤ m) : Tidy carried m b := ⟨h.ended, h.last, h.pending, h.spilled.trans hm⟩

theorem beginDirty : Tidy carried n b.beginDirty := ⟨h.ended, h.last, h.pending, Nat.zero_le _⟩

theorem push (key : Bytes) : Tidy carried n (b.push key) := by
  unfold LeafBuilder.push
  simp only
  cases hcut : cutAfter key (b.pending.length + 1) with
  | true =>
    have hne : (b.pending ++ [key]).isEmpty = false := by simp
    simp only [LeafBuilder.sealRun, hne]
    refine ⟨h.ended.concat (fun l hl => .inl (h.last l hl)) (isChunk_concat h.pending), fun l hl => ?_, uncut_nil, h.spilled⟩
    obtain rfl : b.pending ++ [key] = l := by simpa using hl
    exact endsAtCut_concat.mpr hcut
  | false => exact ⟨h.ended, h.last, uncut_concat.mpr ⟨h.pending, hcut⟩, h.spilled⟩

theorem foldl_push (keys : List Bytes) : Tidy carried n (keys.foldl LeafBuilder.push b) :=
  List.foldlRecOn keys LeafBuilder.push h fun _ hb key _ => hb.push key

theorem pushChange (c : Option Bytes) : Tidy carried n (b.pushChange c) := by
  cases c with
  | none => exact h
  | some key => exact h.push key

theorem pushChanges (changes : List Change) : Tidy carried n (pushChanges b changes) :=
  List.foldlRecOn changes _ h fun _ hb c _ => hb.pushChange c.2

theorem ended_finish : Ended carried b.finish := by
  unfold LeafBuilder.finish LeafBuilder.sealRun
  split
  · exact h.ended
  · rename_i hne
    exact h.ended.concat (fun l hl => .inl (h.last l hl)) (h.pending.isChunk fun hnil => hne (by rw [hnil]; rfl))

/-- A leaf that is carried ends the leaves; if it is closed, others may follow it. -/
theorem carry (hleaf : IsChunk cutAfter leaf) (hcarried : resyncLeafLimit ≤ n → carried leaf) :
    Ended carried (b.carry leaf).finish ∧ (EndsAtCut cutAfter leaf → Tidy carried (n + 1) (b.carry leaf)) := by
  unfold LeafBuilder.carry
  split
  · rename_i hempty
    have hended := h.ended.concat (fun l hl => .inl (h.last l hl)) hleaf
    refine ⟨?_, fun hclosed => ⟨hended, fun l hl => ?_, h.pending, Nat.zero_le _⟩⟩
    · simpa [LeafBuilder.finish, LeafBuilder.sealRun, isEmpty_iff.mp hempty] using hended
    · obtain rfl : leaf = l := by simpa using hl
      exact hclosed
  · rename_i hne
    split
    · rename_i hlimit
      have hpending : b.pending ≠ [] := fun hnil => hne (by rw [hnil]; rfl)
      have hended : Ended carried (b.leaves ++ [b.pending] ++ [leaf]) :=
        (h.ended.concat (fun l hl => .inl (h.last l hl)) (h.pending.isChunk hpending)).concat
          (fun _ _ => .inr (hcarried (hlimit.trans h.spilled))) hleaf
      have hseal : b.sealRun = { b with leaves := b.leaves ++ [b.pending], pending := [] } := by
        rw [LeafBuilder.sealRun, if_neg hne]
      rw [hseal]
      refine ⟨hended, fun hclosed => ⟨hended, fun l hl => ?_, uncut_nil, Nat.zero_le _⟩⟩
      obtain rfl : leaf = l := by simpa using hl
      exact hclosed
    · have hspill : Tidy carried (n + 1) { b with spilled := b.spilled + 1 } :=
        ⟨h.ended, h.last, h.pending, Nat.succ_le_succ h.spilled⟩
      have hpushed := hspill.foldl_push leaf
      exact ⟨hpushed.ended_finish, fun _ => hpushed⟩

end Tidy

/-! ## A pass -/

section Pass

variable {loc : Bytes → Bytes} {alwaysDirty : Bool} {n : Nat} {w : Walk}

theorem Tidy.mergeKey (h : Tidy carried n w.1) (key : Bytes) : Tidy carried n (mergeKey loc w key).1 := by
  have hbefore : Tidy carried n (pushBefore (loc key) w).1 := h.pushChanges _
  unfold Index.mergeKey
  simp only
  cases hchanges : (pushBefore (loc key) w).2 with
  | nil => exact hbefore.push key
  | cons c rest =>
    simp only
    split
    · exact hbefore.pushChange c.2
    · exact hbefore.push key

theorem Tidy.foldl_mergeKey (h : Tidy carried n w.1) (keys : List Bytes) : Tidy carried n (keys.foldl (Index.mergeKey loc) w).1 := by
  induction keys generalizing w with
  | nil => exact h
  | cons key keys ih => exact ih (h.mergeKey key)

/-- After a leaf others may follow, unless it was the last and open: then no key does. -/
theorem Tidy.walkLeaf (h : Tidy carried n w.1) (hleaf : IsChunk cutAfter leaf) (hcarried : resyncLeafLimit ≤ n → carried leaf)
    (isLast : Bool) :
    Tidy carried (n + 1) (walkLeaf loc alwaysDirty w leaf isLast).1 ∨
      isLast = true ∧ Ended carried (walkLeaf loc alwaysDirty w leaf isLast).1.finish ∧
        ∀ c ∈ (walkLeaf loc alwaysDirty w leaf isLast).2, c.2 = none := by
  unfold Index.walkLeaf
  split
  · rename_i first last _ _
    have hbefore : Tidy carried n (pushBefore (loc first) w).1 := h.pushChanges _
    simp only
    split
    · rename_i hcarry
      obtain ⟨-, hcarry⟩ := Bool.and_eq_true_iff.mp hcarry
      obtain ⟨hended, htidy⟩ := hbefore.carry hleaf hcarried
      rcases Bool.or_eq_true_iff.mp hcarry with hclosed | hnone
      · exact .inl (htidy (Leaf.isClosed_iff.mp hclosed))
      · refine .inr ⟨?_, hended, fun c hc => ?_⟩
        · cases isLast
          · simp at hnone
          · rfl
        · simp only [Bool.not_or, Bool.not_not, Bool.and_eq_true, Bool.not_eq_true', any_eq_false] at hnone
          simpa using hnone.2 c hc
    · refine .inl (Tidy.mono (Tidy.foldl_mergeKey ?_ _) (Nat.le_succ n))
      split
      · exact hbefore.beginDirty
      · exact hbefore
  · exact .inl (h.mono (Nat.le_succ n))

theorem pushChanges_of_none {b : LeafBuilder} {changes : List Change} (h : ∀ c ∈ changes, c.2 = none) : pushChanges b changes = b := by
  unfold pushChanges
  induction changes with
  | nil => rfl
  | cons c changes ih =>
    obtain ⟨hc, hchanges⟩ := forall_mem_cons.mp h
    rw [foldl_cons, hc]
    exact ih hchanges

theorem Tidy.ended_walkLeaves (h : Tidy carried n w.1) (hleaves : ∀ l ∈ leaves, IsChunk cutAfter l)
    (hcarried : ∀ i l, leaves[i]? = some l → resyncLeafLimit ≤ n + i → carried l) :
    Ended carried (Index.pushChanges (walkLeaves loc alwaysDirty w leaves).1 (walkLeaves loc alwaysDirty w leaves).2).finish := by
  induction leaves generalizing w n with
  | nil => exact (h.pushChanges _).ended_finish
  | cons leaf leaves ih =>
    obtain ⟨hleaf, hleaves⟩ := forall_mem_cons.mp hleaves
    rw [walkLeaves]
    rcases @Tidy.walkLeaf carried leaf loc alwaysDirty n w h hleaf (hcarried 0 leaf rfl) leaves.isEmpty with htidy | ⟨hlast, hended, hnone⟩
    · refine ih htidy hleaves fun i l hl hlimit => hcarried (i + 1) l hl (by omega)
    · rw [isEmpty_iff.mp hlast] at hended hnone ⊢
      rw [walkLeaves, pushChanges_of_none hnone]
      exact hended

end Pass

/-- A leaf of the segment a run may be closed before: at least `resyncLeafLimit` leaves come before it. -/
def Segment.Late (s : Segment) (leaf : Leaf) : Prop := ∃ i, resyncLeafLimit ≤ i ∧ s.leaves[i]? = some leaf

variable {s : Segment}

theorem applyChanges_ended (loc : Bytes → Bytes) (alwaysDirty : Bool) (hs : ∀ l ∈ s.leaves, IsChunk cutAfter l)
    {changes : List Change} (hne : changes ≠ []) : Ended s.Late (applyChanges loc alwaysDirty s changes).leaves := by
  unfold applyChanges
  rw [if_neg (by simpa using hne)]
  exact tidy_empty.ended_walkLeaves (w := (LeafBuilder.empty, changes)) hs fun i l hl hlimit => ⟨i, by omega, hl⟩

theorem applyChanges_isChunk (loc : Bytes → Bytes) (alwaysDirty : Bool) (hs : ∀ l ∈ s.leaves, IsChunk cutAfter l)
    (changes : List Change) : ∀ l ∈ (applyChanges loc alwaysDirty s changes).leaves, IsChunk cutAfter l := by
  by_cases hne : changes = []
  · subst hne
    exact hs
  · exact (applyChanges_ended loc alwaysDirty hs hne).isChunk

theorem Segment.canonical_fromKeys (keys : List Bytes) : Canonical cutAfter (fromKeys keys).leaves := by
  have h : Ended (fun _ => False) (fromKeys keys).leaves := (tidy_empty.foldl_push keys).ended_finish
  exact h.canonical (h.chain.imp fun _ _ h => h.resolve_right id)

@[simp] theorem Segment.keys_fromKeys (keys : List Bytes) : (fromKeys keys).keys = keys := by
  unfold fromKeys Segment.keys
  rw [LeafBuilder.flatten_finish, LeafBuilder.contents_foldl_push]
  rfl

/-- Canonical leaves are those of a build from scratch. -/
theorem Segment.eq_fromKeys (h : Canonical cutAfter s.leaves) : s = fromKeys s.keys := by
  have hleaves : s.leaves = (fromKeys s.keys).leaves :=
    h.eq (canonical_fromKeys s.keys) (show s.keys = (fromKeys s.keys).keys from (keys_fromKeys s.keys).symm)
  cases s
  exact congrArg Segment.mk hleaves

theorem Ended.canonical_of_few (h : Ended s.Late leaves) (hfew : s.leaves.length ≤ resyncLeafLimit) :
    Canonical cutAfter leaves := by
  refine h.canonical (h.chain.imp fun a b hab => hab.resolve_right ?_)
  rintro ⟨i, hi, hb⟩
  have := (List.getElem?_eq_some_iff.mp hb).1
  omega

/-! ## A pass that brings nothing new -/

section Again

variable {loc : Bytes → Bytes} {alwaysDirty : Bool} {b : LeafBuilder}

namespace LeafBuilder

variable {keys : List Bytes}

theorem foldl_push_of_uncut (h : Uncut cutAfter (b.pending ++ keys)) :
    keys.foldl push b = { b with pending := b.pending ++ keys } := by
  induction keys generalizing b with
  | nil => rw [foldl_nil, append_nil]
  | cons key keys ih =>
    rw [append_cons] at h
    have hcut := (uncut_concat.mp h.left).2
    have hpush : b.push key = { b with pending := b.pending ++ [key] } := by simp [push, hcut]
    rw [foldl_cons, hpush, ih h, append_cons b.pending key keys]

theorem foldl_push_of_cut {key : Bytes} (h : Uncut cutAfter (b.pending ++ keys))
    (hcut : cutAfter key ((b.pending ++ keys).length + 1) = true) :
    (keys ++ [key]).foldl push b = ⟨b.leaves ++ [b.pending ++ keys ++ [key]], [], b.spilled⟩ := by
  rw [foldl_append, foldl_push_of_uncut h, foldl_cons, foldl_nil, push, if_pos hcut]
  simp [sealRun]

end LeafBuilder

/-- The changes that put keys where they are. -/
def present (loc : Bytes → Bytes) (keys : List Bytes) : List Change := keys.map fun key => (loc key, some key)

variable {changes : List Change}
variable {keys : List Bytes} {c : Change} {place : Bytes} {later : List Change}

theorem mem_of_sublist_present (h : changes.Sublist (present loc keys))
    (hc : c ∈ changes) : ∃ key ∈ keys, c = (loc key, some key) := by
  obtain ⟨key, hkey, rfl⟩ := mem_map.mp (h.subset hc)
  exact ⟨key, hkey, rfl⟩

theorem pushBefore_of_not_before {w : Walk} (h : ∀ c ∈ w.2, before place c = false) : pushBefore place w = w := by
  obtain ⟨b, changes⟩ := w
  cases changes with
  | nil => rfl
  | cons c rest =>
    have hc : before place c = false := h c mem_cons_self
    simp [pushBefore, hc, pushChanges]

theorem before_of_lt (h : compare place c.1 = .lt) : before place c = false := by
  rw [before, Std.OrientedCmp.gt_of_lt h]
  rfl

/-- Keys met by the changes that put them are pushed as they are. -/
theorem foldl_mergeKey_present (hs : SortedBy loc keys)
    (h : changes.Sublist (present loc keys)) (hlater : ∀ key ∈ keys, ∀ c ∈ later, compare (loc key) c.1 = .lt) :
    keys.foldl (mergeKey loc) (b, changes ++ later) = (keys.foldl LeafBuilder.push b, later) := by
  induction keys generalizing b changes with
  | nil =>
    rw [sublist_nil.mp h]
    rfl
  | cons key keys ih =>
    obtain ⟨hkey, hs⟩ := pairwise_cons.mp hs
    obtain ⟨hlaterKey, hlater⟩ := forall_mem_cons.mp hlater
    have hafter : ∀ {cs : List Change}, cs.Sublist (present loc keys) → ∀ c ∈ cs ++ later, compare (loc key) c.1 = .lt := fun hcs c hc => by
      rcases mem_append.mp hc with hc | hc
      · obtain ⟨k, hk, rfl⟩ := mem_of_sublist_present hcs hc
        exact hkey k hk
      · exact hlaterKey c hc
    rw [foldl_cons, foldl_cons]
    rcases sublist_cons_iff.mp h with hrest | ⟨rest, rfl, hrest⟩
    · have hbefore : pushBefore (loc key) (b, changes ++ later) = (b, changes ++ later) :=
        pushBefore_of_not_before fun c hc => before_of_lt (hafter hrest c hc)
      have hstep : mergeKey loc (b, changes ++ later) key = (b.push key, changes ++ later) := by
        unfold mergeKey
        simp only [hbefore]
        cases hchanges : changes ++ later with
        | nil => rfl
        | cons c cs =>
          have hlt := hafter hrest c (by rw [hchanges]; exact mem_cons_self)
          simp only
          rw [if_neg fun heq => ne_of_lt_loc hlt heq.symm]
      rw [hstep]
      exact ih hs hrest hlater
    · have hbefore : pushBefore (loc key) (b, (loc key, some key) :: (rest ++ later)) = (b, (loc key, some key) :: (rest ++ later)) := by
        refine pushBefore_of_not_before fun c hc => ?_
        rcases mem_cons.mp hc with rfl | hc
        · rw [before, compare_same]
          rfl
        · exact before_of_lt (hafter hrest c hc)
      have hstep : mergeKey loc (b, (loc key, some key) :: (rest ++ later)) key = (b.push key, rest ++ later) := by
        unfold mergeKey
        simp only [hbefore, if_true]
        rfl
      rw [cons_append, hstep]
      exact ih hs hrest hlater

/-- A leaf met by changes that put its keys is left as it is, and so is what comes after it. -/
theorem walkLeaf_present (alwaysDirty : Bool) (done : List Leaf) (spilled : Nat) (hleaf : IsChunk cutAfter leaf)
    (hs : SortedBy loc leaf) (h : changes.Sublist (present loc leaf)) (hlater : ∀ key ∈ leaf, ∀ c ∈ later, compare (loc key) c.1 = .lt)
    {isLast : Bool} (hlast : EndsAtCut cutAfter leaf ∨ isLast = true ∧ later = []) :
    ∃ b, walkLeaf loc alwaysDirty (⟨done, [], spilled⟩, changes ++ later) leaf isLast = (b, later) ∧
      b.finish = done ++ [leaf] ∧ (EndsAtCut cutAfter leaf → b.leaves = done ++ [leaf] ∧ b.pending = []) := by
  obtain ⟨init, last, rfl⟩ := (eq_nil_or_concat' leaf).resolve_left hleaf.ne_nil
  obtain ⟨first, hfirst⟩ : ∃ first, (init ++ [last]).head? = some first := Option.isSome_iff_exists.mp (by simp)
  have huncut : Uncut cutAfter init := by simpa using hleaf.uncut
  have hmem : first ∈ init ++ [last] := mem_of_mem_head? hfirst
  have hbefore : pushBefore (loc first) (⟨done, [], spilled⟩, changes ++ later) = (⟨done, [], spilled⟩, changes ++ later) := by
    refine pushBefore_of_not_before fun c hc => ?_
    rcases mem_append.mp hc with hc | hc
    · obtain ⟨key, hkey, rfl⟩ := mem_of_sublist_present h hc
      obtain ⟨rest, hrest⟩ := List.head?_eq_some_iff.mp hfirst
      rw [hrest] at hkey hs
      rcases mem_cons.mp hkey with rfl | hkey
      · rw [before, compare_same]
        rfl
      · exact before_of_lt ((pairwise_cons.mp hs).1 key hkey)
    · exact before_of_lt (hlater first hmem c hc)
  unfold walkLeaf
  rw [hfirst, List.getLast?_concat]
  simp only [hbefore]
  cases changes with
  | nil =>
    have htouched : ((later.head?).any fun c => compare c.1 (loc last) != .gt) = false := by
      rw [Option.any_eq_false]
      intro c hc
      have hlt := hlater last (by simp) c (mem_of_mem_head? hc)
      rw [Std.OrientedCmp.gt_of_lt hlt]
      rfl
    have hcarry : (!((later.head?).any fun c => compare c.1 (loc last) != .gt) &&
        (Leaf.isClosed (init ++ [last]) || !(!isLast || later.any (·.2.isSome)))) = true := by
      rw [htouched]
      rcases hlast with hclosed | ⟨rfl, rfl⟩
      · rw [Leaf.isClosed_iff.mpr hclosed]
        rfl
      · simp
    rw [nil_append, if_pos hcarry]
    exact ⟨⟨done ++ [init ++ [last]], [], 0⟩, rfl, rfl, fun _ => ⟨rfl, rfl⟩⟩
  | cons c changes =>
    have htouched : (((c :: changes ++ later).head?).any fun c => compare c.1 (loc last) != .gt) = true := by
      obtain ⟨key, hkey, rfl⟩ := mem_of_sublist_present h mem_cons_self
      have hle : compare (loc key) (loc last) ≠ .gt := by
        rcases mem_append.mp hkey with hkey | hkey
        · rw [(pairwise_append.mp hs).2.2 key hkey last (by simp)]
          decide
        · rw [mem_singleton.mp hkey, compare_same]
          decide
      simpa using hle
    rw [htouched, Bool.not_true, Bool.false_and, if_neg Bool.false_ne_true, Bool.true_or, if_pos rfl, foldl_mergeKey_present hs h hlater]
    refine ⟨_, rfl, ?_⟩
    by_cases hclosed : cutAfter last (init.length + 1) = true
    · rw [LeafBuilder.foldl_push_of_cut (b := LeafBuilder.beginDirty ⟨done, [], spilled⟩) huncut hclosed]
      exact ⟨rfl, fun _ => ⟨rfl, rfl⟩⟩
    · have hopen : Uncut cutAfter (init ++ [last]) := uncut_concat.mpr ⟨huncut, Bool.eq_false_iff.mpr hclosed⟩
      have hpush : (init ++ [last]).foldl LeafBuilder.push (LeafBuilder.beginDirty ⟨done, [], spilled⟩) = ⟨done, init ++ [last], 0⟩ :=
        LeafBuilder.foldl_push_of_uncut (b := LeafBuilder.beginDirty ⟨done, [], spilled⟩) hopen
      rw [hpush]
      refine ⟨?_, fun hends => absurd (endsAtCut_concat.mp hends) hclosed⟩
      simp [LeafBuilder.finish, LeafBuilder.sealRun]

theorem walkLeaves_present (alwaysDirty : Bool) (done : List Leaf) (spilled : Nat) (hleaves : Canonical cutAfter leaves)
    (hs : SortedBy loc leaves.flatten) (h : changes.Sublist (present loc leaves.flatten)) :
    ∃ b, walkLeaves loc alwaysDirty (⟨done, [], spilled⟩, changes) leaves = (b, []) ∧ b.finish = done ++ leaves := by
  induction leaves generalizing done spilled changes with
  | nil =>
    rw [sublist_nil.mp h]
    exact ⟨_, rfl, (append_nil done).symm⟩
  | cons leaf leaves ih =>
    rw [flatten_cons] at hs h
    obtain ⟨hleaf, hrest, hlt⟩ := pairwise_append.mp hs
    rw [present, map_append] at h
    obtain ⟨changes, later, rfl, hchanges, hlater⟩ := sublist_append_iff.mp h
    have hafter : ∀ key ∈ leaf, ∀ c ∈ later, compare (loc key) c.1 = .lt := fun key hkey c hc => by
      obtain ⟨k, hk, rfl⟩ := mem_of_sublist_present hlater hc
      exact hlt key hkey k hk
    have hlast : EndsAtCut cutAfter leaf ∨ leaves.isEmpty = true ∧ later = [] := by
      cases leaves with
      | nil => exact .inr ⟨rfl, sublist_nil.mp hlater⟩
      | cons l ls => exact .inl (isChain_cons_cons.mp hleaves.endsAtCut).1
    obtain ⟨b, hb, hfinish, hclosed⟩ := walkLeaf_present alwaysDirty done spilled
      (hleaves.isChunk leaf mem_cons_self) hleaf hchanges hafter hlast
    rw [walkLeaves, hb]
    cases leaves with
    | nil =>
      rw [sublist_nil.mp hlater]
      exact ⟨b, rfl, hfinish⟩
    | cons l ls =>
      obtain ⟨hdone, hpending⟩ := hclosed (isChain_cons_cons.mp hleaves.endsAtCut).1
      obtain ⟨_, pending, spilled⟩ := b
      cases hdone
      cases hpending
      obtain ⟨b, hwalk, hfinish⟩ := ih (done ++ [leaf]) spilled hleaves.tail hrest hlater
      exact ⟨b, hwalk, by rw [hfinish, append_assoc]; rfl⟩

/-- Putting what is there changes no leaf of a segment as it is built from scratch. -/
theorem applyChanges_present {s : Segment} (hleaves : Canonical cutAfter s.leaves) (hs : SortedBy loc s.keys)
    (h : changes.Sublist (present loc s.keys)) : applyChanges loc alwaysDirty s changes = s := by
  unfold applyChanges
  split
  · rfl
  · obtain ⟨b, hwalk, hfinish⟩ := walkLeaves_present alwaysDirty [] 0 hleaves hs h
    simp only [LeafBuilder.empty, hwalk]
    exact congrArg Segment.mk hfinish

end Again

end Corium.Index
