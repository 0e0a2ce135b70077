/-
  Corium.Index.Segment — immutable sorted key segments (`crates/corium-index/src/lib.rs`)
  cut into leaves at content-defined boundaries (`crates/corium-core/src/chunk.rs`).

  A pass over a segment folds a tail of changes into it: leaves the tail does not
  touch are carried over, the others are merged key by key, and `LeafBuilder`
  decides where to cut. Leaf identities, which only decide what is uploaded
  again, are left out. Proved: whatever is carried and wherever it is cut, the
  keys of the result are the merge of the segment's keys with the changes
  (`applyChanges_keys`).
-/

import Corium.Core.Datom
import Corium.Lib.Replay
import Corium.Lib.SortedMerge

namespace Corium.Index

open Corium.Core Corium.Lib List Std

/-! ## Where a leaf is cut -/

def chunkTargetEntries : UInt64 := 2048
def chunkMinEntries : Nat := 512
def chunkMaxEntries : Nat := 8192

/-- FNV-1a. -/
def boundaryHash (key : Bytes) : UInt64 :=
  key.foldl (fun hash byte => (hash ^^^ byte.toUInt64) * 0x00000100000001b3) 0xcbf29ce484222325

def cutAfter (key : Bytes) (entries : Nat) : Bool :=
  if chunkMaxEntries ≤ entries then true
  else chunkMinEntries ≤ entries && boundaryHash key % chunkTargetEntries == chunkTargetEntries - 1

abbrev Leaf := List Bytes

/-- A leaf that ends where the rule says to cut. -/
def Leaf.isClosed (leaf : Leaf) : Bool :=
  match leaf.getLast? with
  | some key => cutAfter key leaf.length
  | none => false

structure Segment where
  leaves : List Leaf
  deriving DecidableEq

def Segment.keys (s : Segment) : List Bytes := s.leaves.flatten

/-! ## Building leaves -/

/-- How many untouched leaves a rebuilt run may be cut anew through. -/
def resyncLeafLimit : Nat := 4

structure LeafBuilder where
  leaves : List Leaf
  /-- Keys since the last cut. -/
  pending : List Bytes
  /-- Untouched leaves the open run has passed through. -/
  spilled : Nat

namespace LeafBuilder

def empty : LeafBuilder := ⟨[], [], 0⟩

def sealRun (b : LeafBuilder) : LeafBuilder :=
  if b.pending.isEmpty then b else { b with leaves := b.leaves ++ [b.pending], pending := [] }

def push (b : LeafBuilder) (key : Bytes) : LeafBuilder :=
  let cut := cutAfter key (b.pending.length + 1)
  let b := { b with pending := b.pending ++ [key] }
  if cut then b.sealRun else b

def pushChange (b : LeafBuilder) : Option Bytes → LeafBuilder
  | some key => b.push key
  | none => b

def beginDirty (b : LeafBuilder) : LeafBuilder := { b with spilled := 0 }

def carry (b : LeafBuilder) (leaf : Leaf) : LeafBuilder :=
  if b.pending.isEmpty then { b with spilled := 0, leaves := b.leaves ++ [leaf] }
  else if resyncLeafLimit ≤ b.spilled then
    let b := b.sealRun
    { b with spilled := 0, leaves := b.leaves ++ [leaf] }
  else leaf.foldl push { b with spilled := b.spilled + 1 }

def finish (b : LeafBuilder) : List Leaf := b.sealRun.leaves

/-- The keys built so far. -/
def contents (b : LeafBuilder) : List Bytes := b.leaves.flatten ++ b.pending

end LeafBuilder

/-! ## Folding changes in -/

/-- A change: a place, and the key to put there, or none to remove what is there. -/
abbrev Change := Bytes × Option Bytes

/-- The leaves built and the changes still to come. -/
abbrev Walk := LeafBuilder × List Change

section Walk

variable (loc : Bytes → Bytes) (alwaysDirty : Bool)

def pushChanges (b : LeafBuilder) (changes : List Change) : LeafBuilder :=
  changes.foldl (fun b c => b.pushChange c.2) b

/-- Push the changes that sort before `place`. -/
def pushBefore (place : Bytes) (w : Walk) : Walk :=
  (pushChanges w.1 (w.2.takeWhile (before place)), w.2.dropWhile (before place))

def mergeKey (w : Walk) (key : Bytes) : Walk :=
  let w := pushBefore (loc key) w
  match w.2 with
  | [] => (w.1.push key, [])
  | (place, c) :: rest => if place = loc key then (w.1.pushChange c, rest) else (w.1.push key, (place, c) :: rest)

/-- One leaf. An open leaf is rebuilt when something follows it: `isLast` says
    no leaf does, and a change that puts a key may still. -/
def walkLeaf (w : Walk) (leaf : Leaf) (isLast : Bool) : Walk :=
  match leaf.head?, leaf.getLast? with
  | some first, some last =>
    let w := pushBefore (loc first) w
    let touched := w.2.head?.any fun c => compare c.1 (loc last) != .gt
    let followed := !isLast || w.2.any (·.2.isSome)
    if !touched && (leaf.isClosed || !followed) then (w.1.carry leaf, w.2)
    else leaf.foldl (mergeKey loc) (if touched || alwaysDirty then w.1.beginDirty else w.1, w.2)
  | _, _ => w

def walkLeaves (w : Walk) : List Leaf → Walk
  | [] => w
  | leaf :: leaves => walkLeaves (walkLeaf loc alwaysDirty w leaf leaves.isEmpty) leaves

def applyChanges (s : Segment) (changes : List Change) : Segment :=
  if changes.isEmpty then s
  else
    let w := walkLeaves loc alwaysDirty (LeafBuilder.empty, changes) s.leaves
    ⟨(pushChanges w.1 w.2).finish⟩

end Walk

namespace Segment

def fromKeys (keys : List Bytes) : Segment := ⟨(keys.foldl LeafBuilder.push LeafBuilder.empty).finish⟩

def fromSorted (order : IndexOrder) (datoms : List Datom) : Segment := fromKeys (datoms.map (·.key order))

/-- The tail collapsed to one net change per fact. -/
def foldedChanges (order : IndexOrder) (datoms : List Datom) : ExtTreeMap Bytes (Option Bytes) :=
  datoms.foldl (fun folded d =>
    let key := d.key order
    folded.insert (keyComponents key) (if d.added then some key else none)) ∅

/-- `apply`: an assertion replaces what the index held for its fact, a retraction removes it. -/
def apply (s : Segment) (order : IndexOrder) (datoms : List Datom) : Segment :=
  applyChanges keyComponents true s (foldedChanges order datoms).toList

/-- `insert_history_ref`: every statement is an entry of its own, placed by its
    whole key; inserting a key that is there puts the same key. -/
def insertHistory (s : Segment) (order : IndexOrder) (datoms : List Datom) : Segment :=
  applyChanges id false s
    ((ExtTreeSet.ofList (datoms.map (·.key order)) compare).toList.map fun key => (key, some key))

end Segment

/-! ## What is built -/

namespace LeafBuilder

@[simp] theorem contents_sealRun (b : LeafBuilder) : b.sealRun.contents = b.contents := by
  unfold sealRun contents
  split
  · rfl
  · simp

@[simp] theorem contents_push (b : LeafBuilder) (key : Bytes) : (b.push key).contents = b.contents ++ [key] := by
  unfold push
  simp only
  split
  · rw [contents_sealRun]
    simp [contents]
  · simp [contents]

@[simp] theorem contents_pushChange (b : LeafBuilder) (c : Option Bytes) :
    (b.pushChange c).contents = b.contents ++ c.toList := by
  cases c <;> simp [pushChange]

theorem contents_foldl_push (b : LeafBuilder) (keys : List Bytes) :
    (keys.foldl push b).contents = b.contents ++ keys := by
  induction keys generalizing b with
  | nil => simp
  | cons key keys ih => rw [foldl_cons, ih]; simp

@[simp] theorem contents_carry (b : LeafBuilder) (leaf : Leaf) : (b.carry leaf).contents = b.contents ++ leaf := by
  unfold carry
  split
  · rename_i h
    simp [contents, isEmpty_iff.mp h]
  · split
    · have hseal : b.sealRun.pending = [] := by
        unfold sealRun
        split
        · contradiction
        · rfl
      have hcontents := contents_sealRun b
      unfold contents at hcontents ⊢
      rw [hseal, append_nil] at hcontents
      simp [hseal, hcontents]
    · rw [contents_foldl_push]
      rfl

@[simp] theorem flatten_finish (b : LeafBuilder) : b.finish.flatten = b.contents := by
  unfold finish
  rw [← contents_sealRun]
  unfold contents sealRun
  split
  · rename_i h
    simp [isEmpty_iff.mp h]
  · simp

end LeafBuilder

theorem contents_pushChanges (b : LeafBuilder) (changes : List Change) :
    (pushChanges b changes).contents = b.contents ++ changes.filterMap (·.2) := by
  unfold pushChanges
  induction changes generalizing b with
  | nil => simp
  | cons c changes ih =>
    rw [foldl_cons, ih, LeafBuilder.contents_pushChange, filterMap_cons]
    cases c.2 <;> simp

/-! ## A walk merges -/

section Merge

variable (loc : Bytes → Bytes) (alwaysDirty : Bool)

/-- The keys a walk ends with when `keys` are still to come. -/
def outcome (w : Walk) (keys : List Bytes) : List Bytes := w.1.contents ++ mergeChanges loc keys w.2

theorem outcome_pushBefore (w : Walk) (key : Bytes) (keys : List Bytes) :
    outcome loc (pushBefore (loc key) w) (key :: keys) = outcome loc w (key :: keys) := by
  unfold outcome pushBefore
  simp only
  rw [contents_pushChanges, append_assoc, ← mergeChanges_cons]

theorem outcome_mergeKey (w : Walk) (key : Bytes) (keys : List Bytes) :
    outcome loc (mergeKey loc w key) keys = outcome loc w (key :: keys) := by
  unfold outcome mergeKey pushBefore
  rw [mergeChanges]
  simp only
  cases hd : w.2.dropWhile (before (loc key)) with
  | nil => simp [contents_pushChanges]
  | cons c rest =>
    obtain ⟨place, c⟩ := c
    by_cases heq : place = loc key
    · simp [heq, contents_pushChanges]
    · simp [heq, contents_pushChanges]

theorem outcome_foldl_mergeKey (w : Walk) (leaf keys : List Bytes) :
    outcome loc (leaf.foldl (mergeKey loc) w) keys = outcome loc w (leaf ++ keys) := by
  induction leaf generalizing w with
  | nil => rfl
  | cons key leaf ih => rw [foldl_cons, ih, outcome_mergeKey, cons_append]

/-- A leaf carried over sorts before every change still to come. -/
theorem outcome_walkLeaf (w : Walk) {leaf : Leaf} (hleaf : SortedBy loc leaf) (isLast : Bool) (keys : List Bytes) :
    outcome loc (walkLeaf loc alwaysDirty w leaf isLast) keys = outcome loc w (leaf ++ keys) := by
  unfold walkLeaf
  cases leaf with
  | nil => rfl
  | cons first leaf =>
    obtain ⟨last, hlast⟩ : ∃ last, (first :: leaf).getLast? = some last :=
      Option.isSome_iff_exists.mp (by simp)
    rw [hlast, cons_append, ← outcome_pushBefore loc w first, ← cons_append]
    simp only [List.head?_cons]
    split
    · rename_i hcarry
      have hafter : ∀ x ∈ first :: leaf, ∀ p ∈ (pushBefore (loc first) w).2.head?, compare (loc x) p.1 = .lt := by
        intro x hx p hp
        have hgt : compare p.1 (loc last) = .gt := by
          simp only [Bool.and_eq_true, Bool.not_eq_true', Option.any_eq_false] at hcarry
          simpa using hcarry.1 p hp
        have hle : x = last ∨ compare (loc x) (loc last) = .lt := by
          obtain ⟨init, hinit⟩ := List.getLast?_eq_some_iff.mp hlast
          rw [hinit] at hx hleaf
          rcases mem_append.mp hx with hx | hx
          · exact Or.inr ((pairwise_append.mp hleaf).2.2 x hx last (by simp))
          · exact Or.inl (by simpa using hx)
        have hlt := Std.OrientedCmp.lt_of_gt hgt
        rcases hle with rfl | hle
        · exact hlt
        · exact Std.TransCmp.lt_trans hle hlt
      unfold outcome
      rw [LeafBuilder.contents_carry, mergeChanges_append hafter, append_assoc]
    · rw [outcome_foldl_mergeKey]
      unfold outcome
      split <;> rfl

theorem outcome_walkLeaves (w : Walk) {leaves : List Leaf} (hs : SortedBy loc leaves.flatten) :
    outcome loc (walkLeaves loc alwaysDirty w leaves) [] = outcome loc w leaves.flatten := by
  induction leaves generalizing w with
  | nil => rfl
  | cons leaf leaves ih =>
    rw [flatten_cons] at hs ⊢
    obtain ⟨hleaf, hrest, -⟩ := pairwise_append.mp hs
    rw [walkLeaves, ih _ hrest, outcome_walkLeaf loc alwaysDirty w hleaf]

/-- The keys of a segment after a pass are its keys merged with the changes. -/
theorem applyChanges_keys (s : Segment) (hs : SortedBy loc s.keys) (changes : List Change) :
    (applyChanges loc alwaysDirty s changes).keys = mergeChanges loc s.keys changes := by
  unfold applyChanges
  split
  · rename_i h
    rw [isEmpty_iff.mp h]
    have h : mergeChanges loc (s.keys ++ []) [] = s.keys ++ mergeChanges loc [] [] := mergeChanges_append (by simp)
    simpa [mergeChanges] using h.symm
  · have := outcome_walkLeaves loc alwaysDirty (LeafBuilder.empty, changes) hs
    unfold outcome at this
    rw [mergeChanges] at this
    show (LeafBuilder.finish _).flatten = _
    rw [LeafBuilder.flatten_finish, contents_pushChanges, this]
    rfl

end Merge

/-! ## Segments of datoms -/

namespace Segment

@[simp] theorem fromSorted_keys (order : IndexOrder) (datoms : List Datom) :
    (fromSorted order datoms).keys = datoms.map (·.key order) := by
  unfold fromSorted fromKeys keys
  rw [LeafBuilder.flatten_finish, LeafBuilder.contents_foldl_push]
  rfl

theorem foldedChanges_eq (order : IndexOrder) (datoms : List Datom) :
    foldedChanges order datoms = replay (fun d => factComponents order d.fact)
      (fun d => some (if d.added then some (d.key order) else none)) ∅ datoms := by
  unfold foldedChanges replay applyEvent
  simp only [Datom.keyComponents_key]

theorem getElem?_foldedChanges (order : IndexOrder) (datoms : List Datom) (f : Fact) :
    (foldedChanges order datoms)[factComponents order f]? =
      (lastOn Datom.fact f datoms).map fun d => if d.added then some (d.key order) else none := by
  rw [foldedChanges_eq, getElem?_replay_empty, lastOn_map_key (factComponents_injective order)]
  cases lastOn Datom.fact f datoms <;> rfl

theorem mem_foldedChanges (order : IndexOrder) (datoms : List Datom) {place : Bytes} {c : Option Bytes} :
    (place, c) ∈ (foldedChanges order datoms).toList ↔
      ∃ d, lastOn Datom.fact d.fact datoms = some d ∧ place = factComponents order d.fact ∧
        c = if d.added then some (d.key order) else none := by
  rw [ExtTreeMap.mem_toList_iff_getElem?_eq_some]
  constructor
  · intro h
    obtain ⟨d, rfl⟩ : ∃ d : Datom, factComponents order d.fact = place := by
      rw [foldedChanges_eq, getElem?_replay_empty] at h
      obtain ⟨d, hd, -⟩ := Option.bind_eq_some_iff.mp h
      have hk := key_of_lastOn hd
      exact ⟨d, hk⟩
    rw [getElem?_foldedChanges, Option.map_eq_some_iff] at h
    obtain ⟨x, hx, hc⟩ := h
    have hk : x.fact = d.fact := key_of_lastOn hx
    exact ⟨x, by rw [hk]; exact hx, by rw [hk], hc.symm⟩
  · rintro ⟨d, hd, rfl, rfl⟩
    rw [getElem?_foldedChanges, hd]
    rfl

theorem placed_foldedChanges (order : IndexOrder) (datoms : List Datom) :
    Placed keyComponents (foldedChanges order datoms).toList := by
  refine ⟨ExtTreeMap.ordered_keys_toList, fun p hp x hx => ?_⟩
  obtain ⟨place, c⟩ := p
  obtain ⟨d, -, rfl, hc⟩ := (mem_foldedChanges order datoms).mp hp
  rw [show c = some x from hx] at hc
  split at hc
  · cases hc
    exact d.keyComponents_key order
  · cases hc

theorem apply_sorted {s : Segment} (hs : SortedBy keyComponents s.keys) (order : IndexOrder) (datoms : List Datom) :
    SortedBy keyComponents (s.apply order datoms).keys := by
  unfold apply
  rw [applyChanges_keys keyComponents true s hs]
  exact mergeChanges_sorted hs (placed_foldedChanges order datoms)

/-- After a tail, a segment holds the facts the tail last asserts and those it does not touch. -/
theorem mem_apply {s : Segment} (hs : SortedBy keyComponents s.keys) (order : IndexOrder) (datoms : List Datom)
    {key : Bytes} : key ∈ (s.apply order datoms).keys ↔
      (∃ d, lastOn Datom.fact d.fact datoms = some d ∧ d.added = true ∧ key = d.key order) ∨
        (key ∈ s.keys ∧ ∀ d ∈ datoms, factComponents order d.fact ≠ keyComponents key) := by
  unfold apply
  rw [applyChanges_keys keyComponents true s hs, mem_mergeChanges hs (placed_foldedChanges order datoms).sorted]
  apply or_congr
  · constructor
    · intro ⟨place, hp⟩
      obtain ⟨d, hd, -, hc⟩ := (mem_foldedChanges order datoms).mp hp
      split at hc
      · cases hc
        exact ⟨d, hd, ‹_›, rfl⟩
      · cases hc
    · rintro ⟨d, hd, ha, rfl⟩
      exact ⟨_, (mem_foldedChanges order datoms).mpr ⟨d, hd, rfl, by rw [if_pos ha]⟩⟩
  · refine and_congr_right fun _ => ⟨fun h d hd heq => ?_, fun h p hp heq => ?_⟩
    · cases hl : lastOn Datom.fact d.fact datoms with
      | none => exact lastOn_eq_none_iff.mp hl d hd rfl
      | some x =>
        have hk : x.fact = d.fact := key_of_lastOn hl
        refine h (factComponents order x.fact, if x.added then some (x.key order) else none)
          ((mem_foldedChanges order datoms).mpr ⟨x, by rw [hk]; exact hl, rfl, rfl⟩) ?_
        rw [hk]
        exact heq
    · obtain ⟨place, c⟩ := p
      obtain ⟨d, hd, rfl, -⟩ := (mem_foldedChanges order datoms).mp hp
      exact h d (mem_of_lastOn hd) heq

theorem insertHistory_keys {s : Segment} (hs : SortedBy id s.keys) (order : IndexOrder) (datoms : List Datom) :
    SortedBy id (s.insertHistory order datoms).keys ∧
      ∀ key, key ∈ (s.insertHistory order datoms).keys ↔ key ∈ s.keys ∨ ∃ d ∈ datoms, key = d.key order := by
  have hset : ∀ key, key ∈ (ExtTreeSet.ofList (datoms.map (·.key order)) compare).toList ↔
      ∃ d ∈ datoms, key = d.key order := by
    intro key
    rw [ExtTreeSet.mem_toList, ExtTreeSet.mem_ofList]
    simp [eq_comm]
  have hplaced : Placed id
      ((ExtTreeSet.ofList (datoms.map (·.key order)) compare).toList.map fun key => (key, some key)) := by
    refine ⟨?_, ?_⟩
    · have hsorted := ExtTreeSet.ordered_toList (t := ExtTreeSet.ofList (datoms.map (·.key order)) compare)
      rw [pairwise_map]
      exact hsorted
    · intro p hp x hx
      obtain ⟨key, -, rfl⟩ := mem_map.mp hp
      cases hx
      rfl
  unfold insertHistory
  rw [applyChanges_keys id false s hs]
  refine ⟨mergeChanges_sorted hs hplaced, fun key => ?_⟩
  rw [mem_mergeChanges hs hplaced.sorted]
  constructor
  · intro h
    rcases h with ⟨k, hk⟩ | ⟨hk, -⟩
    · obtain ⟨key', hkey', heq⟩ := mem_map.mp hk
      cases heq
      exact Or.inr ((hset key).mp hkey')
    · exact Or.inl hk
  · intro h
    by_cases hin : ∃ d ∈ datoms, key = d.key order
    · exact Or.inl ⟨key, mem_map.mpr ⟨key, (hset key).mpr hin, rfl⟩⟩
    · refine Or.inr ⟨h.resolve_right hin, fun p hp heq => hin ?_⟩
      obtain ⟨key', hkey', rfl⟩ := mem_map.mp hp
      rw [← show key' = key from heq]
      exact (hset key').mp hkey'

end Segment

end Corium.Index
