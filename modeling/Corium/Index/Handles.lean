/-
  Corium.Index.Handles — the leaves of a segment as they are shared (`Leaf`, `LeafId`,
  `apply_borrowed`, `insert_history_ref` and `shared_leaf_count` of
  `crates/corium-index/src/lib.rs`).

  A leaf is a handle on an allocation. A pass carries the handles of leaves it does not
  touch and allocates the others, and a publisher uploads only leaves whose identity the
  segment before did not have. So an identity has to stand for one run of keys. Here it
  is a number an allocator hands out; forgetting it gives the passes of
  `Corium.Index.Segment` (`plain_applyChanges`). No pass gives an identity to a second run
  of keys (`applyChanges_identified`).
-/

import Corium.Index.Chunks

namespace Corium.Index

open Corium.Core Corium.Lib List

/-! ## Passes over handles -/

structure Handle where
  id : Nat
  keys : Leaf
  deriving DecidableEq

structure SharedSegment where
  leaves : List Handle
  deriving DecidableEq

def SharedSegment.plain (s : SharedSegment) : Segment := ⟨s.leaves.map Handle.keys⟩

def SharedSegment.keys (s : SharedSegment) : List Bytes := s.plain.keys

/-- Leaves of `s` whose identity `older` has. -/
def SharedSegment.shared (s older : SharedSegment) : List Handle := s.leaves.filter fun l => l.id ∈ older.leaves.map Handle.id

namespace Shared

structure Builder where
  leaves : List Handle
  pending : List Bytes
  spilled : Nat
  /-- The identity the next allocation gets. -/
  next : Nat

namespace Builder

def empty (next : Nat) : Builder := ⟨[], [], 0, next⟩

def sealRun (b : Builder) : Builder :=
  if b.pending.isEmpty then b else { b with leaves := b.leaves ++ [⟨b.next, b.pending⟩], pending := [], next := b.next + 1 }

def push (b : Builder) (key : Bytes) : Builder :=
  let cut := cutAfter key (b.pending.length + 1)
  let b := { b with pending := b.pending ++ [key] }
  if cut then b.sealRun else b

def pushChange (b : Builder) : Option Bytes → Builder
  | some key => b.push key
  | none => b

def beginDirty (b : Builder) : Builder := { b with spilled := 0 }

def carry (b : Builder) (leaf : Handle) : Builder :=
  if b.pending.isEmpty then { b with spilled := 0, leaves := b.leaves ++ [leaf] }
  else if resyncLeafLimit ≤ b.spilled then
    let b := b.sealRun
    { b with spilled := 0, leaves := b.leaves ++ [leaf] }
  else leaf.keys.foldl push { b with spilled := b.spilled + 1 }

end Builder

abbrev Walk := Builder × List Change

section Walk

variable (loc : Bytes → Bytes) (alwaysDirty : Bool)

def pushChanges (b : Builder) (changes : List Change) : Builder := changes.foldl (fun b c => b.pushChange c.2) b

def pushBefore (place : Bytes) (w : Walk) : Walk :=
  (pushChanges w.1 (w.2.takeWhile (before place)), w.2.dropWhile (before place))

def mergeKey (w : Walk) (key : Bytes) : Walk :=
  let w := pushBefore (loc key) w
  match w.2 with
  | [] => (w.1.push key, [])
  | (place, c) :: rest => if place = loc key then (w.1.pushChange c, rest) else (w.1.push key, (place, c) :: rest)

def walkLeaf (w : Walk) (leaf : Handle) (isLast : Bool) : Walk :=
  match leaf.keys.head?, leaf.keys.getLast? with
  | some first, some last =>
    let w := pushBefore (loc first) w
    let touched := w.2.head?.any fun c => compare c.1 (loc last) != .gt
    let followed := !isLast || w.2.any (·.2.isSome)
    if !touched && (leaf.keys.isClosed || !followed) then (w.1.carry leaf, w.2)
    else leaf.keys.foldl (mergeKey loc) (if touched || alwaysDirty then w.1.beginDirty else w.1, w.2)
  | _, _ => w

def walkLeaves (w : Walk) : List Handle → Walk
  | [] => w
  | leaf :: leaves => walkLeaves (walkLeaf loc alwaysDirty w leaf leaves.isEmpty) leaves

/-- The segment, and the identity the next allocation gets. -/
def applyChanges (s : SharedSegment) (next : Nat) (changes : List Change) : SharedSegment × Nat :=
  if changes.isEmpty then (s, next)
  else
    let w := walkLeaves loc alwaysDirty (Builder.empty next, changes) s.leaves
    let b := (pushChanges w.1 w.2).sealRun
    (⟨b.leaves⟩, b.next)

end Walk

end Shared

namespace SharedSegment

def fromKeys (keys : List Bytes) (next : Nat) : SharedSegment × Nat :=
  let b := (keys.foldl Shared.Builder.push (Shared.Builder.empty next)).sealRun
  (⟨b.leaves⟩, b.next)

/-- The last datom stated for each fact, by its fact. -/
def lastStated (order : IndexOrder) (datoms : List Datom) : Std.ExtTreeMap Bytes Bytes :=
  datoms.foldl (fun byFact d => byFact.insert (keyComponents (d.key order)) (d.key order)) ∅

def build (order : IndexOrder) (datoms : List Datom) (next : Nat) : SharedSegment × Nat :=
  fromKeys ((lastStated order datoms).toList.map Prod.snd) next

def apply (s : SharedSegment) (order : IndexOrder) (datoms : List Datom) (next : Nat) : SharedSegment × Nat :=
  Shared.applyChanges keyComponents true s next (Segment.foldedChanges order datoms).toList

def insertHistory (s : SharedSegment) (order : IndexOrder) (datoms : List Datom) (next : Nat) : SharedSegment × Nat :=
  Shared.applyChanges id false s next
    ((Std.ExtTreeSet.ofList (datoms.map (·.key order)) compare).toList.map fun key => (key, some key))

end SharedSegment

/-! ## Forgetting identities -/

namespace Shared

def Builder.plain (b : Builder) : LeafBuilder := ⟨b.leaves.map Handle.keys, b.pending, b.spilled⟩

def Walk.plain (w : Walk) : Index.Walk := (w.1.plain, w.2)

namespace Builder

theorem plain_sealRun (b : Builder) : b.sealRun.plain = b.plain.sealRun := by
  unfold sealRun LeafBuilder.sealRun
  by_cases h : b.pending.isEmpty = true
  · rw [if_pos h, if_pos (show b.plain.pending.isEmpty = true from h)]
  · rw [if_neg h, if_neg (show ¬ b.plain.pending.isEmpty = true from h)]
    simp [plain]

theorem plain_push (b : Builder) (key : Bytes) : (b.push key).plain = b.plain.push key := by
  unfold push LeafBuilder.push
  simp only
  by_cases h : cutAfter key (b.pending.length + 1) = true
  · rw [if_pos h, if_pos (show cutAfter key (b.plain.pending.length + 1) = true from h), plain_sealRun]
    rfl
  · rw [if_neg h, if_neg (show ¬ cutAfter key (b.plain.pending.length + 1) = true from h)]
    rfl

theorem plain_foldl_push (b : Builder) (keys : List Bytes) : (keys.foldl push b).plain = keys.foldl LeafBuilder.push b.plain := by
  induction keys generalizing b with
  | nil => rfl
  | cons key keys ih => rw [foldl_cons, foldl_cons, ih, plain_push]

theorem plain_pushChange (b : Builder) (c : Option Bytes) : (b.pushChange c).plain = b.plain.pushChange c := by
  cases c with
  | none => rfl
  | some key => exact plain_push b key

theorem plain_carry (b : Builder) (leaf : Handle) : (b.carry leaf).plain = b.plain.carry leaf.keys := by
  unfold carry LeafBuilder.carry
  by_cases h : b.pending.isEmpty = true
  · rw [if_pos h, if_pos (show b.plain.pending.isEmpty = true from h)]
    simp [plain]
  · rw [if_neg h, if_neg (show ¬ b.plain.pending.isEmpty = true from h)]
    by_cases hlimit : resyncLeafLimit ≤ b.spilled
    · rw [if_pos hlimit, if_pos (show resyncLeafLimit ≤ b.plain.spilled from hlimit), ← plain_sealRun]
      simp [plain]
    · rw [if_neg hlimit, if_neg (show ¬ resyncLeafLimit ≤ b.plain.spilled from hlimit), plain_foldl_push]
      rfl

end Builder

theorem plain_pushChanges (b : Builder) (changes : List Change) : (pushChanges b changes).plain = Index.pushChanges b.plain changes := by
  unfold pushChanges Index.pushChanges
  induction changes generalizing b with
  | nil => rfl
  | cons c changes ih => rw [foldl_cons, foldl_cons, ih, Builder.plain_pushChange]

variable (loc : Bytes → Bytes) (alwaysDirty : Bool)

theorem plain_pushBefore (place : Bytes) (w : Walk) : (pushBefore place w).plain = Index.pushBefore place w.plain :=
  congrArg (·, w.2.dropWhile (before place)) (plain_pushChanges w.1 _)

theorem plain_mergeKey (w : Walk) (key : Bytes) : (mergeKey loc w key).plain = Index.mergeKey loc w.plain key := by
  unfold mergeKey Index.mergeKey
  simp only [← plain_pushBefore]
  obtain ⟨b, changes⟩ := pushBefore (loc key) w
  cases changes with
  | nil => exact congrArg (·, _) (b.plain_push key)
  | cons c rest =>
    simp only [Walk.plain]
    split
    · exact congrArg (·, _) (b.plain_pushChange c.2)
    · exact congrArg (·, _) (b.plain_push key)

theorem plain_foldl_mergeKey (w : Walk) (keys : List Bytes) :
    (keys.foldl (mergeKey loc) w).plain = keys.foldl (Index.mergeKey loc) w.plain := by
  induction keys generalizing w with
  | nil => rfl
  | cons key keys ih => rw [foldl_cons, foldl_cons, ih, plain_mergeKey]

theorem plain_walkLeaf (w : Walk) (leaf : Handle) (isLast : Bool) :
    (walkLeaf loc alwaysDirty w leaf isLast).plain = Index.walkLeaf loc alwaysDirty w.plain leaf.keys isLast := by
  unfold walkLeaf Index.walkLeaf
  cases leaf.keys.head? with
  | none => rfl
  | some first =>
    cases leaf.keys.getLast? with
    | none => rfl
    | some last =>
      simp only [← plain_pushBefore]
      obtain ⟨b, changes⟩ := pushBefore (loc first) w
      simp only [Walk.plain]
      by_cases hcarry : (!(changes.head?.any fun c => compare c.1 (loc last) != .gt) &&
          (leaf.keys.isClosed || !(!isLast || changes.any (·.2.isSome)))) = true
      · rw [if_pos hcarry]
        exact (congrArg (·, changes) (b.plain_carry leaf)).trans (if_pos hcarry).symm
      · rw [if_neg hcarry]
        refine ((plain_foldl_mergeKey loc _ _).trans ?_).trans (if_neg hcarry).symm
        rw [Walk.plain, apply_ite Builder.plain]
        rfl

theorem plain_walkLeaves (w : Walk) (leaves : List Handle) :
    (walkLeaves loc alwaysDirty w leaves).plain = Index.walkLeaves loc alwaysDirty w.plain (leaves.map Handle.keys) := by
  induction leaves generalizing w with
  | nil => rfl
  | cons leaf leaves ih =>
    rw [walkLeaves, ih, plain_walkLeaf, map_cons, Index.walkLeaves, isEmpty_map]

theorem plain_applyChanges (s : SharedSegment) (next : Nat) (changes : List Change) :
    (applyChanges loc alwaysDirty s next changes).1.plain = Index.applyChanges loc alwaysDirty s.plain changes := by
  unfold applyChanges Index.applyChanges
  split
  · rfl
  · have hwalk := plain_walkLeaves loc alwaysDirty (Builder.empty next, changes) s.leaves
    have hfinish : ∀ b : Builder, (⟨b.sealRun.leaves⟩ : SharedSegment).plain = ⟨b.plain.finish⟩ := fun b =>
      congrArg (fun p : LeafBuilder => Segment.mk p.leaves) b.plain_sealRun
    simp only [hfinish, plain_pushChanges]
    show Segment.mk (LeafBuilder.finish (Index.pushChanges (Walk.plain (walkLeaves loc alwaysDirty (Builder.empty next, changes) s.leaves)).1
      (Walk.plain (walkLeaves loc alwaysDirty (Builder.empty next, changes) s.leaves)).2)) = _
    rw [hwalk]
    rfl

/-! ## An identity stands for one leaf -/

/-- Identities below `next`, each of one leaf. -/
structure Identified (leaves : List Handle) (next : Nat) : Prop where
  below : ∀ l ∈ leaves, l.id < next
  unique : ∀ l ∈ leaves, ∀ l' ∈ leaves, l.id = l'.id → l = l'

theorem Identified.mono {leaves : List Handle} {n m : Nat} (h : Identified leaves n) (hm : n ≤ m) : Identified leaves m :=
  ⟨fun l hl => (h.below l hl).trans_le hm, h.unique⟩

/-- What building from the leaves `old` keeps: a leaf is one of them, or allocated since. -/
structure Numbered (old : List Handle) (base : Nat) (b : Builder) : Prop where
  base_le : base ≤ b.next
  origin : ∀ l ∈ b.leaves, l ∈ old ∨ base ≤ l.id
  identified : Identified b.leaves b.next

namespace Numbered

variable {old : List Handle} {base : Nat} {b : Builder}

theorem empty (old : List Handle) (base : Nat) : Numbered old base (Builder.empty base) :=
  ⟨Nat.le_refl _, forall_mem_nil _, forall_mem_nil _, forall_mem_nil _⟩

variable {leaf : Handle} {pending : List Bytes} {w : Walk}

/-- One more leaf, whose identity no other has. -/
theorem concat (h : Numbered old base b) {next spilled : Nat} (horigin : leaf ∈ old ∨ base ≤ leaf.id)
    (hnew : ∀ l ∈ b.leaves, l.id = leaf.id → l = leaf) (hbelow : leaf.id < next) (hnext : b.next ≤ next) :
    Numbered old base ⟨b.leaves ++ [leaf], pending, spilled, next⟩ := by
  refine ⟨h.base_le.trans hnext, fun l hl => ?_, fun l hl => ?_, fun l hl l' hl' hid => ?_⟩
  · rcases mem_append.mp hl with hl | hl
    · exact h.origin l hl
    · exact mem_singleton.mp hl ▸ horigin
  · rcases mem_append.mp hl with hl | hl
    · exact (h.identified.below l hl).trans_le hnext
    · exact mem_singleton.mp hl ▸ hbelow
  · rcases mem_append.mp hl with hmem | hmem <;> rcases mem_append.mp hl' with hmem' | hmem'
    · exact h.identified.unique l hmem l' hmem' hid
    · obtain rfl := mem_singleton.mp hmem'
      exact hnew l hmem hid
    · obtain rfl := mem_singleton.mp hmem
      exact (hnew l' hmem' hid.symm).symm
    · rw [mem_singleton.mp hmem, mem_singleton.mp hmem']

theorem sealRun (h : Numbered old base b) : Numbered old base b.sealRun := by
  unfold Builder.sealRun
  split
  · exact h
  · exact h.concat (.inr h.base_le) (fun l hl hid => absurd hid (h.identified.below l hl).ne) (Nat.lt_succ_self _) (Nat.le_succ _)

theorem push (h : Numbered old base b) (key : Bytes) : Numbered old base (b.push key) := by
  have hpending : Numbered old base { b with pending := b.pending ++ [key] } := ⟨h.base_le, h.origin, h.identified⟩
  unfold Builder.push
  simp only
  split
  · exact hpending.sealRun
  · exact hpending

theorem foldl_push (h : Numbered old base b) (keys : List Bytes) : Numbered old base (keys.foldl Builder.push b) :=
  List.foldlRecOn keys Builder.push h fun _ hb key _ => hb.push key

theorem pushChange (h : Numbered old base b) (c : Option Bytes) : Numbered old base (b.pushChange c) := by
  cases c with
  | none => exact h
  | some key => exact h.push key

theorem pushChanges (h : Numbered old base b) (changes : List Change) : Numbered old base (pushChanges b changes) :=
  List.foldlRecOn changes _ h fun _ hb c _ => hb.pushChange c.2

variable (hold : Identified old base)

include hold

theorem handle (h : Numbered old base b) (hleaf : leaf ∈ old) :
    Numbered old base ⟨b.leaves ++ [leaf], pending, 0, b.next⟩ := by
  refine h.concat (.inl hleaf) (fun l hl hid => ?_) ((hold.below leaf hleaf).trans_le h.base_le) (Nat.le_refl _)
  rcases h.origin l hl with hl | hl
  · exact hold.unique l hl leaf hleaf hid
  · have := hold.below leaf hleaf
    omega

theorem carry (h : Numbered old base b) (hleaf : leaf ∈ old) : Numbered old base (b.carry leaf) := by
  unfold Builder.carry
  split
  · exact h.handle hold hleaf
  · split
    · exact h.sealRun.handle hold hleaf
    · have hspill : Numbered old base { b with spilled := b.spilled + 1 } := ⟨h.base_le, h.origin, h.identified⟩
      exact hspill.foldl_push leaf.keys

omit hold in
theorem foldl_mergeKey {loc : Bytes → Bytes} (h : Numbered old base w.1) (keys : List Bytes) :
    Numbered old base (keys.foldl (mergeKey loc) w).1 := by
  refine List.foldlRecOn (motive := fun w : Walk => Numbered old base w.1) keys (mergeKey loc) h fun w hw key _ => ?_
  have hbefore : Numbered old base (pushBefore (loc key) w).1 := hw.pushChanges _
  unfold mergeKey
  simp only
  cases hchanges : (pushBefore (loc key) w).2 with
  | nil => exact hbefore.push key
  | cons c rest =>
    simp only
    split
    · exact hbefore.pushChange c.2
    · exact hbefore.push key

theorem walkLeaf {loc : Bytes → Bytes} {alwaysDirty : Bool} {w : Walk} (h : Numbered old base w.1) {leaf : Handle} (hleaf : leaf ∈ old)
    (isLast : Bool) : Numbered old base (walkLeaf loc alwaysDirty w leaf isLast).1 := by
  unfold Shared.walkLeaf
  split
  · rename_i first last _ _
    have hbefore : Numbered old base (pushBefore (loc first) w).1 := h.pushChanges _
    simp only
    split
    · exact hbefore.carry hold hleaf
    · refine foldl_mergeKey ?_ _
      split
      · exact ⟨hbefore.base_le, hbefore.origin, hbefore.identified⟩
      · exact hbefore
  · exact h

theorem walkLeaves {loc : Bytes → Bytes} {alwaysDirty : Bool} (h : Numbered old base w.1) {leaves : List Handle}
    (hleaves : ∀ l ∈ leaves, l ∈ old) : Numbered old base (walkLeaves loc alwaysDirty w leaves).1 := by
  induction leaves generalizing w with
  | nil => exact h
  | cons leaf leaves ih =>
    obtain ⟨hleaf, hleaves⟩ := forall_mem_cons.mp hleaves
    exact ih (h.walkLeaf hold hleaf _) hleaves

end Numbered

/-- After a pass identities still stand for one leaf each, and one the old segment has for the leaf it had there. -/
theorem applyChanges_identified {s : SharedSegment} {next : Nat} (hs : Identified s.leaves next) (changes : List Change) :
    Identified (applyChanges loc alwaysDirty s next changes).1.leaves (applyChanges loc alwaysDirty s next changes).2 ∧
      ∀ l ∈ (applyChanges loc alwaysDirty s next changes).1.leaves, ∀ old ∈ s.leaves, l.id = old.id → l = old := by
  unfold applyChanges
  split
  · exact ⟨hs, hs.unique⟩
  · have hwalk : Numbered s.leaves next (walkLeaves loc alwaysDirty (Builder.empty next, changes) s.leaves).1 :=
      Numbered.walkLeaves hs (.empty s.leaves next) fun _ hl => hl
    have h := (hwalk.pushChanges (walkLeaves loc alwaysDirty (Builder.empty next, changes) s.leaves).2).sealRun
    refine ⟨h.identified, fun l hl old hold hid => ?_⟩
    rcases h.origin l hl with hl | hl
    · exact hs.unique l hl old hold hid
    · have := hs.below old hold
      omega

end Shared

end Corium.Index
