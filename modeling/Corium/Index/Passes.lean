/-
  Corium.Index.Passes — what passes over index segments leave.

  A current segment is built from scratch or by passes that fold transaction tails into
  it; a history segment by passes that insert every statement. A pass over the first
  leaves the current-value fold of its facts with the tail (`a_pass_is_the_fold`), however
  the tail is cut into passes (`passes_compose`), one over the second the union of its keys with the statements'
  (`history_passes_are_unions`), in leaves of the chunking rule. They are the leaves of a
  build from scratch unless a run was closed at the resync limit: `ResyncExample` is a
  segment of six leaves where one inserted key moves every cut of the first five.
-/

import Corium.Index.Handles

namespace Corium.Index

open Corium.Core Corium.Lib List Std

/-! ## Current segments -/

/-- What a current-value index holds: an assertion replaces what it held for the fact, a retraction removes it. -/
def currentFold (order : IndexOrder) (keys : List Bytes) (tail : List Datom) : ExtTreeMap Bytes Bytes :=
  tail.foldl (fun facts d =>
      if d.added then facts.insert (keyComponents (d.key order)) (d.key order) else facts.erase (keyComponents (d.key order)))
    (keys.foldl (fun facts key => facts.insert (keyComponents key) key) ∅)

variable {keys : List Bytes} {s : Segment}
variable {place : Bytes} {order : IndexOrder} {datoms tail : List Datom}

theorem getElem?_currentFold (order : IndexOrder) (hs : SortedBy keyComponents keys) (tail : List Datom) {key : Bytes} :
    (currentFold order keys tail)[place]? = some key ↔
      match lastOn (fun d : Datom => factComponents order d.fact) place tail with
      | some d => d.added = true ∧ d.key order = key
      | none => key ∈ keys ∧ keyComponents key = place := by
  have hfold : currentFold order keys tail = replay (fun d : Datom => factComponents order d.fact)
      (fun d => if d.added then some (d.key order) else none) (replay keyComponents some ∅ keys) tail := by
    unfold currentFold replay
    congr 1
    funext facts d
    rw [applyEvent, Datom.keyComponents_key]
    cases d.added <;> rfl
  have hinj : ∀ x ∈ keys, ∀ y ∈ keys, keyComponents x = keyComponents y → x = y := fun x hx y hy =>
    inj_on_of_nodup_map (pairwise_map.mpr (hs.imp ne_of_lt_loc)) hx hy
  rw [hfold, getElem?_replay]
  cases lastOn (fun d : Datom => factComponents order d.fact) place tail with
  | some d => cases d.added <;> simp
  | none =>
    simp only [getElem?_replay_empty, Option.bind_fun_some]
    exact lastOn_of_injOn hinj

/-- Its keys, in the order of their facts. -/
def currentKeys (order : IndexOrder) (keys : List Bytes) (tail : List Datom) : List Bytes :=
  (currentFold order keys tail).toList.map Prod.snd

theorem mem_currentKeys (order : IndexOrder) (hs : SortedBy keyComponents keys) (tail : List Datom) {key : Bytes} :
    key ∈ currentKeys order keys tail ↔
      (∃ d, lastOn Datom.fact d.fact tail = some d ∧ d.added = true ∧ key = d.key order) ∨
        (key ∈ keys ∧ ∀ d ∈ tail, factComponents order d.fact ≠ keyComponents key) := by
  have hmem : key ∈ currentKeys order keys tail ↔ ∃ place : Bytes, (currentFold order keys tail)[place]? = some key := by
    simp [currentKeys, ExtTreeMap.mem_toList_iff_getElem?_eq_some]
  rw [hmem]
  constructor
  · rintro ⟨place, h⟩
    have h := (getElem?_currentFold order hs tail).mp h
    split at h
    · rename_i d hd
      obtain ⟨hadded, rfl⟩ := h
      have hfact : factComponents order d.fact = place := (lastOn_eq_some_iff.mp hd).1
      rw [← hfact, lastOn_map_key (factComponents_injective order)] at hd
      exact .inl ⟨d, hd, hadded, rfl⟩
    · rename_i hd
      obtain ⟨hkey, rfl⟩ := h
      exact .inr ⟨hkey, fun d hmem => lastOn_eq_none_iff.mp hd d hmem⟩
  · rintro (⟨d, hd, hadded, rfl⟩ | ⟨hkey, hnone⟩)
    · refine ⟨factComponents order d.fact, (getElem?_currentFold order hs tail).mpr ?_⟩
      rw [lastOn_map_key (factComponents_injective order), hd]
      exact ⟨hadded, rfl⟩
    · refine ⟨keyComponents key, (getElem?_currentFold order hs tail).mpr ?_⟩
      rw [lastOn_eq_none_iff.mpr hnone]
      exact ⟨hkey, rfl⟩

/-- The keys of a map by facts ascend by their facts. -/
theorem sorted_byFact {facts : ExtTreeMap Bytes Bytes} (h : ∀ place key : Bytes, facts[place]? = some key → keyComponents key = place) :
    SortedBy keyComponents (facts.toList.map Prod.snd) := by
  have hplace : ∀ p ∈ facts.toList, keyComponents p.2 = p.1 := fun p hp =>
    h p.1 p.2 (ExtTreeMap.mem_toList_iff_getElem?_eq_some.mp hp)
  unfold SortedBy
  rw [pairwise_map]
  refine List.Pairwise.imp_of_mem (fun {p q} hp hq hlt => ?_) (ExtTreeMap.ordered_keys_toList (t := facts))
  rw [hplace p hp, hplace q hq]
  exact hlt

theorem keyComponents_of_currentFold (hs : SortedBy keyComponents keys) {key : Bytes}
    (h : (currentFold order keys tail)[place]? = some key) : keyComponents key = place := by
  have h := (getElem?_currentFold order hs tail).mp h
  split at h
  · rename_i d hd
    rw [← h.2, Datom.keyComponents_key]
    exact (lastOn_eq_some_iff.mp hd).1
  · exact h.2

theorem sorted_currentKeys (order : IndexOrder) (hs : SortedBy keyComponents keys) (tail : List Datom) :
    SortedBy keyComponents (currentKeys order keys tail) :=
  sorted_byFact fun _ _ h => keyComponents_of_currentFold hs h

/-- A pass leaves the keys of the fold. -/
theorem Segment.apply_keys (hs : SortedBy keyComponents s.keys) (order : IndexOrder) (tail : List Datom) :
    (s.apply order tail).keys = currentKeys order s.keys tail :=
  eq_of_sorted_of_mem (apply_sorted hs order tail) (sorted_currentKeys order hs tail) fun key => by
    rw [mem_apply hs, mem_currentKeys order hs]

/-- What a pass leaves is what the next one goes on from. -/
theorem currentFold_currentKeys (order : IndexOrder) (hs : SortedBy keyComponents keys) (tail later : List Datom) :
    currentFold order (currentKeys order keys tail) later = currentFold order keys (tail ++ later) := by
  have hread : currentFold order (currentKeys order keys tail) [] = currentFold order keys tail := by
    ext place key
    rw [getElem?_currentFold order (sorted_currentKeys order hs tail)]
    simp only [lastOn_nil, currentKeys, mem_map, Prod.exists, exists_eq_right, ExtTreeMap.mem_toList_iff_getElem?_eq_some]
    constructor
    · rintro ⟨⟨place', h⟩, rfl⟩
      rwa [keyComponents_of_currentFold hs h]
    · intro h
      exact ⟨⟨place, h⟩, keyComponents_of_currentFold hs h⟩
  rw [currentFold, currentFold, foldl_append]
  exact congrArg (later.foldl _) hread

/-- However a tail is cut into passes, they leave the keys of one pass over all of it. -/
theorem passes_compose (hs : SortedBy keyComponents s.keys) (order : IndexOrder) (tails : List (List Datom)) :
    (tails.foldl (·.apply order ·) s).keys = (s.apply order tails.flatten).keys := by
  induction tails generalizing s with
  | nil => exact eq_of_sorted_of_mem hs (Segment.apply_sorted hs order []) fun key => by simp [Segment.mem_apply hs]
  | cons tail tails ih =>
    have hpass := Segment.apply_sorted hs order tail
    rw [foldl_cons, ih hpass, flatten_cons, Segment.apply_keys hpass, Segment.apply_keys hs, Segment.apply_keys hs, currentKeys,
      currentFold_currentKeys order hs]
    rfl

namespace SharedSegment

/-- Segments that builds and passes make; in between, other segments are allocated. -/
inductive Built (order : IndexOrder) : SharedSegment → Nat → Prop where
  | build (datoms : List Datom) (next : Nat) : Built order (build order datoms next).1 (build order datoms next).2
  | fromKeys {keys : List Bytes} (hs : SortedBy keyComponents keys) (next : Nat) :
      Built order (fromKeys keys next).1 (fromKeys keys next).2
  | apply {s : SharedSegment} {n next : Nat} (h : Built order s n) (hn : n ≤ next) (tail : List Datom) :
      Built order (s.apply order tail next).1 (s.apply order tail next).2

@[simp] theorem plain_fromKeys (keys : List Bytes) (next : Nat) : (fromKeys keys next).1.plain = Segment.fromKeys keys := by
  have h := Shared.Builder.plain_sealRun (keys.foldl Shared.Builder.push (Shared.Builder.empty next))
  rw [Shared.Builder.plain_foldl_push] at h
  exact congrArg (fun b : LeafBuilder => Segment.mk b.leaves) h

theorem identified_fromKeys (keys : List Bytes) (next : Nat) :
    Shared.Identified (fromKeys keys next).1.leaves (fromKeys keys next).2 :=
  ((Shared.Numbered.empty [] next).foldl_push keys).sealRun.identified

theorem sorted_lastStated (order : IndexOrder) (datoms : List Datom) :
    SortedBy keyComponents ((lastStated order datoms).toList.map Prod.snd) := by
  have heq : lastStated order datoms =
      replay (fun d : Datom => keyComponents (d.key order)) (fun d => some (d.key order)) ∅ datoms := rfl
  refine sorted_byFact fun place key h => ?_
  rw [heq, getElem?_replay_empty] at h
  obtain ⟨d, hd, hkey⟩ := Option.bind_eq_some_iff.mp h
  cases hkey
  exact (lastOn_eq_some_iff.mp hd).1

/-- What builds and passes keep. -/
structure Sound (s : SharedSegment) (n : Nat) : Prop where
  sorted : SortedBy keyComponents s.keys
  isChunk : ∀ l ∈ s.plain.leaves, IsChunk cutAfter l
  identified : Shared.Identified s.leaves n

theorem Built.sound {order : IndexOrder} {s : SharedSegment} {n : Nat} (h : Built order s n) : s.Sound n := by
  have hfrom : ∀ {keys : List Bytes} (next : Nat), SortedBy keyComponents keys → (SharedSegment.fromKeys keys next).1.Sound (SharedSegment.fromKeys keys next).2 :=
    fun {keys} next hs => ⟨by rw [SharedSegment.keys, plain_fromKeys, Segment.keys_fromKeys]; exact hs,
      by rw [plain_fromKeys]; exact (Segment.canonical_fromKeys keys).isChunk, identified_fromKeys keys next⟩
  induction h with
  | build datoms next => exact hfrom next (sorted_lastStated order datoms)
  | fromKeys hs next => exact hfrom next hs
  | @apply s n next h hn tail ih =>
    have hplain : (s.apply order tail next).1.plain = s.plain.apply order tail := Shared.plain_applyChanges keyComponents true s next _
    exact ⟨by rw [SharedSegment.keys, hplain]; exact Segment.apply_sorted ih.sorted order tail,
      by rw [hplain]; exact applyChanges_isChunk keyComponents true ih.isChunk _,
      (Shared.applyChanges_identified keyComponents true (ih.identified.mono hn) _).1⟩

end SharedSegment

theorem foldedChanges_ne_nil (order : IndexOrder) (h : tail ≠ []) : (Segment.foldedChanges order tail).toList ≠ [] := by
  intro hnil
  obtain ⟨init, d, rfl⟩ := (eq_nil_or_concat' tail).resolve_left h
  have hlast : lastOn Datom.fact d.fact (init ++ [d]) = some d := by rw [lastOn_concat, if_pos rfl]
  have := (Segment.mem_foldedChanges order (init ++ [d])).mpr ⟨d, hlast, rfl, rfl⟩
  rw [hnil] at this
  cases this

/-- A pass over a segment that builds and passes made leaves the keys of the current-value
    fold, in leaves that are not empty, hold at most the most keys and pass no cut; what
    it shares is as it was. Each leaf ends at a cut, is the last, or stands before a leaf
    carried at the resync limit; if it is the first or second for all of them, as it is
    where no leaf is late enough, the leaves are those of a build from scratch. -/
theorem a_pass_is_the_fold {order : IndexOrder} {s : SharedSegment} {n next : Nat} (h : SharedSegment.Built order s n) (hn : n ≤ next)
    (tail : List Datom) :
    let result := (s.apply order tail next).1
    let scratch := Segment.fromKeys (currentKeys order s.keys tail)
    result.keys = scratch.keys ∧
    (∀ l ∈ result.leaves, l.keys ≠ [] ∧ l.keys.length ≤ chunkMaxEntries ∧ Uncut cutAfter l.keys.dropLast) ∧
    (∀ l ∈ result.shared s, l ∈ s.leaves) ∧
    (tail = [] → result = s) ∧
    (tail ≠ [] → result.plain.leaves.IsChain fun a b => a.isClosed = true ∨ s.plain.Late b) ∧
    (result.plain.leaves.IsChain (fun a _ => a.isClosed = true) → result.plain = scratch) ∧
    (tail ≠ [] → s.leaves.length ≤ resyncLeafLimit → result.plain = scratch) := by
  intro result scratch
  have hsound := h.sound
  have hresult : result.Sound (s.apply order tail next).2 := (h.apply hn tail).sound
  have hplain : result.plain = s.plain.apply order tail := Shared.plain_applyChanges keyComponents true s next _
  have hkeys : result.plain.keys = currentKeys order s.keys tail := by
    rw [hplain]
    exact Segment.apply_keys hsound.sorted order tail
  have hscratch : Canonical cutAfter result.plain.leaves → result.plain = scratch := fun hc => by
    rw [Segment.eq_fromKeys hc, hkeys]
  have hended : tail ≠ [] → Ended s.plain.Late result.plain.leaves := fun hne => by
    rw [hplain]
    exact applyChanges_ended keyComponents true hsound.isChunk (foldedChanges_ne_nil order hne)
  refine ⟨?_, fun l hl => ?_, fun l hl => ?_, ?_, fun hne => ?_, fun hcut => ?_, fun hne hfew => ?_⟩
  · rw [Segment.keys_fromKeys]
    exact hkeys
  · have hchunk := hresult.isChunk l.keys (mem_map_of_mem hl)
    exact ⟨hchunk.ne_nil, hchunk.length_le cutAfter_of_le, hchunk.uncut⟩
  · obtain ⟨hl, hshared⟩ := mem_filter.mp hl
    obtain ⟨old, hold, hid⟩ := mem_map.mp (of_decide_eq_true hshared)
    have := (Shared.applyChanges_identified keyComponents true (hsound.identified.mono hn) _).2 l hl old hold hid.symm
    rw [this]
    exact hold
  · rintro rfl
    rfl
  · exact (hended hne).chain.imp fun a b hab => hab.imp_left Leaf.isClosed_iff.mpr
  · exact hscratch ⟨hresult.isChunk, hcut.imp fun a _ ha => Leaf.isClosed_iff.mp ha⟩
  · exact hscratch ((hended hne).canonical_of_few (by simpa [SharedSegment.plain] using hfew))

/-! ## History segments -/

/-- Segments that hold every statement. -/
inductive Segment.History (order : IndexOrder) : Segment → Prop where
  | fromKeys {keys : List Bytes} (hs : SortedBy id keys) : History order (fromKeys keys)
  | insertHistory {s : Segment} (h : History order s) (datoms : List Datom) : History order (s.insertHistory order datoms)

theorem Segment.History.sound (h : History order s) : SortedBy id s.keys ∧ ∀ l ∈ s.leaves, IsChunk cutAfter l := by
  induction h with
  | @fromKeys keys hs => exact ⟨by rwa [keys_fromKeys], (canonical_fromKeys keys).isChunk⟩
  | insertHistory _ datoms ih => exact ⟨(insertHistory_keys ih.1 order datoms).1, applyChanges_isChunk id false ih.2 _⟩

/-- The union of the keys there are with those of the statements. -/
def unionKeys (order : IndexOrder) (keys : List Bytes) (datoms : List Datom) : List Bytes :=
  (ExtTreeSet.ofList (keys ++ datoms.map (·.key order)) compare).toList

theorem sorted_toList (keys : ExtTreeSet Bytes) : SortedBy id keys.toList :=
  (ExtTreeSet.ordered_toList : keys.toList.Pairwise fun a b => compare a b = .lt)

theorem mem_unionKeys {key : Bytes} :
    key ∈ unionKeys order keys datoms ↔ key ∈ keys ∨ ∃ d ∈ datoms, key = d.key order := by
  rw [unionKeys, ExtTreeSet.mem_toList, ExtTreeSet.mem_ofList, contains_iff_mem, mem_append, mem_map]
  simp only [eq_comm]

theorem Segment.insertHistory_union (hs : SortedBy id s.keys) (order : IndexOrder) (datoms : List Datom) :
    (s.insertHistory order datoms).keys = unionKeys order s.keys datoms := by
  obtain ⟨hsorted, hmem⟩ := insertHistory_keys hs order datoms
  exact eq_of_sorted_of_mem hsorted (sorted_toList _) fun key => by rw [hmem, mem_unionKeys]

/-- Statements a segment of canonical leaves has are inserted without a change. -/
theorem Segment.insertHistory_again (hs : SortedBy id s.keys) (hc : Canonical cutAfter s.leaves)
    (h : ∀ d ∈ datoms, d.key order ∈ s.keys) : s.insertHistory order datoms = s := by
  have hsub : (ExtTreeSet.ofList (datoms.map (·.key order)) compare).toList =
      s.keys.filter (· ∈ ExtTreeSet.ofList (datoms.map (·.key order)) compare) := by
    refine eq_of_sorted_of_mem (sorted_toList _) (hs.sublist filter_sublist) fun key => ?_
    rw [ExtTreeSet.mem_toList, mem_filter, decide_eq_true_iff]
    refine (and_iff_right_of_imp fun hkey => ?_).symm
    rw [ExtTreeSet.mem_ofList, contains_iff_mem, mem_map] at hkey
    obtain ⟨d, hd, rfl⟩ := hkey
    exact h d hd
  refine applyChanges_present hc hs (List.Sublist.map _ ?_)
  rw [hsub]
  exact filter_sublist

/-- A pass over a history segment leaves the union of its keys with the statements', in any
    order and however often they are stated: again or in another order, passes leave the
    same keys. The leaves are as those of other passes; where they are canonical they are
    those of a build from scratch, and a second pass leaves them. -/
theorem history_passes_are_unions {order : IndexOrder} {s : Segment} (h : s.History order) (datoms : List Datom) :
    let result := s.insertHistory order datoms
    let scratch := Segment.fromKeys (unionKeys order s.keys datoms)
    result.keys = scratch.keys ∧ SortedBy id result.keys ∧
    (∀ key, key ∈ result.keys ↔ key ∈ s.keys ∨ ∃ d ∈ datoms, key = d.key order) ∧
    (∀ l ∈ result.leaves, l ≠ [] ∧ l.length ≤ chunkMaxEntries ∧ Uncut cutAfter l.dropLast) ∧
    (datoms ≠ [] → result.leaves.IsChain fun a b => a.isClosed = true ∨ s.Late b) ∧
    (result.leaves.IsChain (fun a _ => a.isClosed = true) → result = scratch ∧ result.insertHistory order datoms = result) ∧
    (datoms ≠ [] → s.leaves.length ≤ resyncLeafLimit → result = scratch) ∧
    (result.insertHistory order datoms).keys = result.keys ∧
    ∀ others, (result.insertHistory order others).keys = ((s.insertHistory order others).insertHistory order datoms).keys := by
  intro result scratch
  obtain ⟨hs, hchunks⟩ := h.sound
  obtain ⟨hsorted, hresultChunks⟩ := (h.insertHistory datoms).sound
  have hkeys : result.keys = unionKeys order s.keys datoms := Segment.insertHistory_union hs order datoms
  have hmem : ∀ key, key ∈ result.keys ↔ key ∈ s.keys ∨ ∃ d ∈ datoms, key = d.key order := fun key => by
    rw [hkeys, mem_unionKeys]
  have hscratch : Canonical cutAfter result.leaves → result = scratch := fun hc => by
    rw [Segment.eq_fromKeys hc, hkeys]
  have hended : datoms ≠ [] → Ended s.Late result.leaves := fun hne => by
    refine applyChanges_ended id false hchunks fun hnil => hne ?_
    have hempty := map_eq_nil_iff.mp hnil
    cases datoms with
    | nil => rfl
    | cons d ds =>
      have hd : d.key order ∈ (ExtTreeSet.ofList ((d :: ds).map (·.key order)) compare).toList := by
        rw [ExtTreeSet.mem_toList, ExtTreeSet.mem_ofList, contains_iff_mem]
        exact mem_cons_self
      rw [hempty] at hd
      cases hd
  refine ⟨by rw [Segment.keys_fromKeys]; exact hkeys, hsorted, hmem, fun l hl => ?_, fun hne => ?_, fun hcut => ?_, fun hne hfew => ?_, ?_, ?_⟩
  · exact ⟨(hresultChunks l hl).ne_nil, (hresultChunks l hl).length_le cutAfter_of_le, (hresultChunks l hl).uncut⟩
  · exact (hended hne).chain.imp fun a b hab => hab.imp_left Leaf.isClosed_iff.mpr
  · have hc : Canonical cutAfter result.leaves := ⟨hresultChunks, hcut.imp fun a _ ha => Leaf.isClosed_iff.mp ha⟩
    exact ⟨hscratch hc, Segment.insertHistory_again hsorted hc fun d hd => (hmem _).mpr (.inr ⟨d, hd, rfl⟩)⟩
  · exact hscratch ((hended hne).canonical_of_few hfew)
  · refine eq_of_sorted_of_mem ((h.insertHistory datoms).insertHistory datoms).sound.1 hsorted fun key => ?_
    rw [Segment.insertHistory_union hsorted, mem_unionKeys, hmem]
    tauto
  · intro others
    obtain ⟨hsorted', -⟩ := (h.insertHistory others).sound
    refine eq_of_sorted_of_mem ((h.insertHistory datoms).insertHistory others).sound.1
      ((h.insertHistory others).insertHistory datoms).sound.1 fun key => ?_
    rw [Segment.insertHistory_union hsorted, mem_unionKeys, hmem, Segment.insertHistory_union hsorted', mem_unionKeys,
      Segment.insertHistory_union hs, mem_unionKeys]
    exact or_right_comm

/-! ## A run closed at the limit

Five leaves whose cuts lie 512 keys apart, and after them one key. Two keys before each cut
but the first is another key the rule cuts after, one it does not reach. A key inserted into
the first leaf ends it two keys early, and from there on the rule cuts at those. -/

namespace ResyncExample

def datom (i : Nat) (v : Nat) : Datom :=
  ⟨EntityId.new Partition.user.id i, EntityId.new Partition.db.id 100, .long (Int64.ofNat v), EntityId.new Partition.tx.id 1, true⟩

def key (i v : Nat) : Bytes := (datom i v).key .eavt

def fill (i n : Nat) : List Bytes := (List.range' i n).map (key · 0)

def first : Leaf := fill 0 511 ++ [key 511 0] ++ [key 512 270]

def middle (i u w : Nat) : Leaf := fill i 509 ++ [key (i + 509) u] ++ [key (i + 510) 0] ++ [key (i + 511) w]

def old : Segment :=
  ⟨[first, middle 513 1668 850, middle 1025 3021 1679, middle 1537 265 894, middle 2049 1519 3064, [key 2561 0]]⟩

def inserted : Datom := datom 510 2921

/-- What an insertion leaves. -/
def resynced : Segment :=
  ⟨[fill 0 511 ++ [key 510 2921],
    [key 511 0, key 512 270] ++ fill 513 509 ++ [key 1022 1668],
    [key 1023 0, key 1024 850] ++ fill 1025 509 ++ [key 1534 3021],
    [key 1535 0, key 1536 1679] ++ fill 1537 509 ++ [key 2046 265],
    [key 2047 0, key 2048 894] ++ fill 2049 509 ++ [key 2558 1519],
    [key 2559 0, key 2560 3064],
    [key 2561 0]]⟩

@[simp] theorem length_fill (i n : Nat) : (fill i n).length = n := by rw [fill, length_map, length_range']

theorem uncut_of_short {run : List Bytes} (h : run.length < 512) : Uncut cutAfter run := uncut_of_lt cutAfter_of_lt h

theorem isChunk_middle (i u w : Nat) : IsChunk cutAfter (middle i u w) := isChunk_concat (uncut_of_short (by simp))

variable {i u w : Nat} {b : LeafBuilder}

theorem endsAtCut_middle (h : cutAfter (key (i + 511) w) 512 = true) : EndsAtCut cutAfter (middle i u w) :=
  endsAtCut_concat.mpr (by simpa using h)

theorem isChunk_first : IsChunk cutAfter first :=
  isChunk_concat (uncut_concat.mpr ⟨uncut_of_short (by simp), by rw [length_fill]; decide +kernel⟩)

theorem endsAtCut_first : EndsAtCut cutAfter first := endsAtCut_concat.mpr (by
  simp only [length_append, length_fill, length_singleton]
  decide +kernel)

theorem canonical_old : Canonical cutAfter old.leaves := by
  refine ⟨?_, ?_⟩
  · simp only [old, forall_mem_cons]
    exact ⟨isChunk_first, isChunk_middle _ _ _, isChunk_middle _ _ _, isChunk_middle _ _ _, isChunk_middle _ _ _,
      (uncut_of_short (by simp)).isChunk (by simp), forall_mem_nil _⟩
  · simp only [old, isChain_cons_cons, isChain_singleton, and_true]
    exact ⟨endsAtCut_first, endsAtCut_middle (by decide +kernel), endsAtCut_middle (by decide +kernel),
      endsAtCut_middle (by decide +kernel), endsAtCut_middle (by decide +kernel)⟩

/-- The walk carries a middle leaf through: it is cut two keys early again. -/
theorem carry_middle {leaves : List Leaf} {a b : Bytes} {spilled : Nat} (hspilled : spilled < resyncLeafLimit)
    (hcut : cutAfter (key (i + 509) u) 512 = true) : LeafBuilder.carry ⟨leaves, [a, b], spilled⟩ (middle i u w) =
      ⟨leaves ++ [[a, b] ++ fill i 509 ++ [key (i + 509) u]], [key (i + 510) 0, key (i + 511) w], spilled + 1⟩ := by
  unfold LeafBuilder.carry
  rw [if_neg (by simp), if_neg (by simpa using hspilled)]
  have hsplit : middle i u w = fill i 509 ++ [key (i + 509) u] ++ [key (i + 510) 0, key (i + 511) w] := by simp [middle]
  rw [hsplit, foldl_append, LeafBuilder.foldl_push_of_cut (uncut_of_short (by simp)) (by simpa using hcut)]
  exact LeafBuilder.foldl_push_of_uncut (uncut_of_short (by simp))

theorem mergeKey_nil (loc : Bytes → Bytes) (b : LeafBuilder) (k : Bytes) : mergeKey loc (b, []) k = (b.push k, []) := rfl

theorem foldl_mergeKey_nil (loc : Bytes → Bytes) (b : LeafBuilder) (keys : List Bytes) :
    keys.foldl (mergeKey loc) (b, []) = (keys.foldl LeafBuilder.push b, []) := by
  induction keys generalizing b with
  | nil => rfl
  | cons k keys ih => rw [foldl_cons, foldl_cons, mergeKey_nil, ih]

/-- A key put between others is pushed between them. -/
theorem foldl_mergeKey_insert {loc : Bytes → Bytes} {x k : Bytes} {before after : List Bytes}
    (hbefore : ∀ a ∈ before, compare (loc a) (loc x) = .lt) (hk : compare (loc x) (loc k) = .lt) :
    (before ++ k :: after).foldl (mergeKey loc) (b, [(loc x, some x)]) = ((before ++ x :: k :: after).foldl LeafBuilder.push b, []) := by
  induction before generalizing b with
  | nil =>
    have hstep : mergeKey loc (b, [(loc x, some x)]) k = ((b.push x).push k, []) := by
      simp [mergeKey, pushBefore, Lib.before, hk, pushChanges, LeafBuilder.pushChange]
    rw [nil_append, nil_append, foldl_cons, hstep, foldl_mergeKey_nil]
    rfl
  | cons a before ih =>
    obtain ⟨ha, hbefore⟩ := forall_mem_cons.mp hbefore
    have hstep : mergeKey loc (b, [(loc x, some x)]) a = (b.push a, [(loc x, some x)]) := by
      have hne : loc x ≠ loc a := fun heq => ne_of_lt_loc ha heq.symm
      simp [mergeKey, pushBefore, Lib.before, Std.OrientedCmp.gt_of_lt ha, pushChanges, hne]
    rw [cons_append, cons_append, foldl_cons, foldl_cons, hstep, ih hbefore]

theorem walkLeaf_nil {loc : Bytes → Bytes} {alwaysDirty : Bool} {leaf : Leaf} (hne : leaf ≠ []) {isLast : Bool}
    (h : leaf.isClosed = true ∨ isLast = true) : walkLeaf loc alwaysDirty (b, []) leaf isLast = (b.carry leaf, []) := by
  obtain ⟨k, keys, rfl⟩ := exists_cons_of_ne_nil hne
  obtain ⟨last, hlast⟩ : ∃ last, (k :: keys).getLast? = some last := Option.isSome_iff_exists.mp (by simp)
  unfold walkLeaf
  rw [hlast]
  rcases h with h | h <;> simp [pushBefore, pushChanges, h]

/-- A pass that places keys by `loc`, and finds the inserted one where it belongs. -/
theorem applyChanges_old {loc : Bytes → Bytes} (alwaysDirty : Bool)
    (hbefore : ∀ a ∈ fill 0 511, compare (loc a) (loc (key 510 2921)) = .lt) (hk : compare (loc (key 510 2921)) (loc (key 511 0)) = .lt)
    (hlast : compare (loc (key 510 2921)) (loc (key 512 270)) = .lt) :
    applyChanges loc alwaysDirty old [(loc (key 510 2921), some (key 510 2921))] = resynced := by
  have hfirst : walkLeaf loc alwaysDirty (LeafBuilder.empty, [(loc (key 510 2921), some (key 510 2921))]) first false =
      (⟨[fill 0 511 ++ [key 510 2921]], [key 511 0, key 512 270], 0⟩, []) := by
    have hhead : first.head? = some (key 0 0) := rfl
    have hbegin : pushBefore (loc (key 0 0)) (LeafBuilder.empty, [(loc (key 510 2921), some (key 510 2921))]) =
        (LeafBuilder.empty, [(loc (key 510 2921), some (key 510 2921))]) :=
      pushBefore_of_not_before fun c hc => by
        obtain rfl := mem_singleton.mp hc
        exact before_of_lt (hbefore _ (mem_map.mpr ⟨0, by simp, rfl⟩))
    unfold walkLeaf
    rw [hhead, first, List.getLast?_concat]
    simp only [hbegin, List.head?_cons, Option.any_some, hlast]
    have hsplit : fill 0 511 ++ key 510 2921 :: key 511 0 :: [key 512 270] =
        fill 0 511 ++ [key 510 2921] ++ [key 511 0, key 512 270] := by simp
    have hmerge : (fill 0 511 ++ key 511 0 :: [key 512 270]).foldl (mergeKey loc)
        (LeafBuilder.empty, [(loc (key 510 2921), some (key 510 2921))]) = _ := foldl_mergeKey_insert hbefore hk
    rw [append_assoc]
    refine Eq.trans hmerge ?_
    rw [hsplit, foldl_append, LeafBuilder.foldl_push_of_cut (b := LeafBuilder.empty) (uncut_of_short (by simp [LeafBuilder.empty]))
      (by simp only [LeafBuilder.empty, nil_append, length_fill]; decide +kernel),
      LeafBuilder.foldl_push_of_uncut (uncut_of_short (by simp))]
    rfl
  have hmiddle : ∀ {leaves : List Leaf} {a b : Bytes} {spilled i u w : Nat}, spilled < resyncLeafLimit →
      cutAfter (key (i + 509) u) 512 = true → cutAfter (key (i + 511) w) 512 = true →
      walkLeaf loc alwaysDirty (⟨leaves, [a, b], spilled⟩, []) (middle i u w) false =
        (⟨leaves ++ [[a, b] ++ fill i 509 ++ [key (i + 509) u]], [key (i + 510) 0, key (i + 511) w], spilled + 1⟩, []) :=
    fun {_ _ _ _ i u w} hspilled hearly hlate => by
      rw [walkLeaf_nil (isChunk_middle i u w).ne_nil (.inl (Leaf.isClosed_iff.mpr (endsAtCut_middle hlate))), carry_middle hspilled hearly]
  unfold applyChanges old
  rw [if_neg (by simp)]
  simp only [walkLeaves, isEmpty_cons, isEmpty_nil]
  rw [hfirst, hmiddle (by decide) (by decide +kernel) (by decide +kernel), hmiddle (by decide) (by decide +kernel) (by decide +kernel),
    hmiddle (by decide) (by decide +kernel) (by decide +kernel), hmiddle (by decide) (by decide +kernel) (by decide +kernel),
    walkLeaf_nil (cons_ne_nil _ _) (.inr rfl)]
  rfl

/-- An open leaf in the middle. -/
theorem open_resynced : ∃ leaf ∈ resynced.leaves.dropLast, leaf.isClosed = false :=
  ⟨[key 2559 0, key 2560 3064], by simp [resynced], by decide⟩

/-- Keys are placed by their entity first. -/
def ByEntity (loc : Bytes → Bytes) : Prop := ∀ i v, ∃ rest, loc (key i v) = encodeEntityId (EntityId.new Partition.user.id i) ++ rest

theorem byEntity_id : ByEntity id := fun _ _ => ⟨_, append_assoc _ _ _⟩

theorem byEntity_keyComponents : ByEntity keyComponents := fun i v => ⟨_, (datom i v).keyComponents_key .eavt⟩

/-- Sorted keys of entities from `lo` to below `hi`. -/
structure Within (loc : Bytes → Bytes) (lo hi : Nat) (keys : List Bytes) : Prop where
  sorted : SortedBy loc keys
  entity : ∀ k ∈ keys, ∃ i v, lo ≤ i ∧ i < hi ∧ k = key i v

section Within

variable {loc : Bytes → Bytes} (hloc : ByEntity loc)

include hloc

variable {i : Nat}

theorem compare_key {j v w : Nat} (hij : i < j) (hj : j < 2 ^ 42) : compare (loc (key i v)) (loc (key j w)) = .lt := by
  obtain ⟨rest, hi⟩ := hloc i v
  obtain ⟨rest', hj'⟩ := hloc j w
  have hlt : compare (EntityId.new Partition.user.id i) (EntityId.new Partition.user.id j) = .lt := by
    show compare (UInt64.ofNat _) (UInt64.ofNat _) = .lt
    rw [UInt64.compare_eq_toNat_compare_toNat, Nat.compare_eq_lt]
    simp only [UInt64.toNat_ofNat', Partition.id]
    omega
  rw [hi, hj', ordCode_encodeEntityId, hlt]
  rfl

omit hloc in
theorem within_key (i v : Nat) : Within loc i (i + 1) [key i v] :=
  ⟨pairwise_singleton _ _, fun _ hk => ⟨i, v, Nat.le_refl _, Nat.lt_succ_self _, mem_singleton.mp hk⟩⟩

theorem within_fill {n : Nat} (h : i + n ≤ 2 ^ 42) : Within loc i (i + n) (fill i n) := by
  refine ⟨pairwise_map.mpr (List.Pairwise.imp_of_mem ?_ pairwise_lt_range'), fun k hk => ?_⟩
  · intro a b _ hb hab
    exact compare_key hloc hab (by have := (mem_range'_1.mp hb).2; omega)
  · obtain ⟨j, hj, rfl⟩ := mem_map.mp hk
    exact ⟨j, 0, (mem_range'_1.mp hj).1, (mem_range'_1.mp hj).2, rfl⟩

theorem Within.append {lo mid hi : Nat} {ks ls : List Bytes} (hk : Within loc lo mid ks) (hl : Within loc mid hi ls) (hlo : lo ≤ mid)
    (hmid : mid ≤ hi) (hhi : hi ≤ 2 ^ 42) : Within loc lo hi (ks ++ ls) := by
  refine ⟨pairwise_append.mpr ⟨hk.sorted, hl.sorted, fun a ha b hb => ?_⟩, fun k hk' => ?_⟩
  · obtain ⟨i, v, -, hi', rfl⟩ := hk.entity a ha
    obtain ⟨j, w, hj, hj', rfl⟩ := hl.entity b hb
    exact compare_key hloc (by omega) (by omega)
  · rcases mem_append.mp hk' with hmem | hmem
    · obtain ⟨i, v, hi', hlt, rfl⟩ := hk.entity k hmem
      exact ⟨i, v, hi', by omega, rfl⟩
    · obtain ⟨i, v, hi', hlt, rfl⟩ := hl.entity k hmem
      exact ⟨i, v, by omega, hlt, rfl⟩

theorem within_middle (h : i + 512 ≤ 2 ^ 42) (u w : Nat) : Within loc i (i + 512) (middle i u w) := by
  have h1 := (within_fill hloc (i := i) (n := 509) (by omega)).append hloc (within_key (i + 509) u) (by omega) (by omega) (by omega)
  have h2 := h1.append hloc (within_key (i + 510) 0) (by omega) (by omega) (by omega)
  exact h2.append hloc (within_key (i + 511) w) (by omega) (by omega) (by omega)

theorem sorted_old : SortedBy loc old.keys := by
  have h0 : Within loc 0 513 first := ((within_fill hloc (i := 0) (n := 511) (by decide)).append hloc (within_key 511 0) (by decide)
    (by decide) (by decide)).append hloc (within_key 512 270) (by decide) (by decide) (by decide)
  have h5 : Within loc 2049 2562 (middle 2049 1519 3064 ++ [key 2561 0]) :=
    (within_middle hloc (by decide) _ _).append hloc (within_key 2561 0) (by decide) (by decide) (by decide)
  have h4 : Within loc 1537 2562 (middle 1537 265 894 ++ (middle 2049 1519 3064 ++ [key 2561 0])) :=
    (within_middle hloc (by decide) _ _).append hloc h5 (by decide) (by decide) (by decide)
  have h3 : Within loc 1025 2562 (middle 1025 3021 1679 ++ (middle 1537 265 894 ++ (middle 2049 1519 3064 ++ [key 2561 0]))) :=
    (within_middle hloc (by decide) _ _).append hloc h4 (by decide) (by decide) (by decide)
  have h2 := (within_middle hloc (i := 513) (by decide) 1668 850).append hloc h3 (by decide) (by decide) (by decide)
  have := (h0.append hloc h2 (by decide) (by decide) (by decide)).sorted
  simpa [Segment.keys, old] using this

end Within

theorem resynced_of_byEntity {loc : Bytes → Bytes} (hloc : ByEntity loc) (alwaysDirty : Bool)
    (hsame : compare (loc (key 510 0)) (loc (key 510 2921)) = .lt) :
    applyChanges loc alwaysDirty old [(loc (key 510 2921), some (key 510 2921))] = resynced := by
  refine applyChanges_old alwaysDirty (fun a ha => ?_) (compare_key hloc (by decide) (by decide)) (compare_key hloc (by decide) (by decide))
  obtain ⟨i, hi, rfl⟩ := mem_map.mp ha
  rcases Nat.lt_or_ge i 510 with hlt | hge
  · exact compare_key hloc hlt (by decide)
  · obtain rfl : i = 510 := by have := (mem_range'_1.mp hi).2; omega
    exact hsame

theorem old_eq : old = Segment.fromKeys old.keys := Segment.eq_fromKeys canonical_old

theorem passes_compose_over_old : (([[datom 510 1], [datom 511 2, datom 510 3]] : List _).foldl (·.apply .eavt ·) old).keys =
    (old.apply .eavt [datom 510 1, datom 511 2, datom 510 3]).keys :=
  passes_compose (sorted_old byEntity_keyComponents) .eavt _

/-- A run closed at the resync limit ends where the rule does not cut. -/
theorem a_pass_closes_a_run_early :
    SharedSegment.Built .eavt (SharedSegment.fromKeys old.keys 0).1 (SharedSegment.fromKeys old.keys 0).2 ∧
    ∃ leaf ∈ ((SharedSegment.fromKeys old.keys 0).1.apply .eavt [inserted] (SharedSegment.fromKeys old.keys 0).2).1.plain.leaves.dropLast,
      leaf.isClosed = false := by
  refine ⟨.fromKeys (sorted_old byEntity_keyComponents) 0, ?_⟩
  have hplain := Shared.plain_applyChanges keyComponents true (SharedSegment.fromKeys old.keys 0).1 (SharedSegment.fromKeys old.keys 0).2
    (Segment.foldedChanges .eavt [inserted]).toList
  have hfolded : (Segment.foldedChanges .eavt [inserted]).toList = [(keyComponents (key 510 2921), some (key 510 2921))] := by
    decide
  rw [SharedSegment.apply, hplain, SharedSegment.plain_fromKeys, ← old_eq, hfolded,
    resynced_of_byEntity byEntity_keyComponents true (by decide)]
  exact open_resynced

theorem a_pass_is_the_fold_at_the_limit :
    ((SharedSegment.fromKeys old.keys 0).1.apply .eavt [inserted] (SharedSegment.fromKeys old.keys 0).2).1.keys =
      (Segment.fromKeys (currentKeys .eavt (SharedSegment.fromKeys old.keys 0).1.keys [inserted])).keys :=
  (a_pass_is_the_fold (.fromKeys (sorted_old byEntity_keyComponents) 0) (Nat.le_refl _) [inserted]).1

theorem history_old : old.History .eavt := by
  rw [old_eq]
  exact .fromKeys (sorted_old byEntity_id)

/-- So does one over a history segment: its leaves are not those of a build from scratch. -/
theorem a_history_pass_closes_a_run_early :
    old.History .eavt ∧ old.insertHistory .eavt [inserted] ≠ Segment.fromKeys (unionKeys .eavt old.keys [inserted]) := by
  refine ⟨history_old, fun heq => ?_⟩
  have hset : (ExtTreeSet.ofList ([inserted].map (·.key .eavt)) compare).toList.map (fun k => (k, some k)) =
      [(id (key 510 2921), some (key 510 2921))] := by decide
  have hresynced : old.insertHistory .eavt [inserted] = resynced := by
    rw [Segment.insertHistory, hset, resynced_of_byEntity byEntity_id false (by decide)]
  have hcanonical := Segment.canonical_fromKeys (unionKeys .eavt old.keys [inserted])
  rw [← heq, hresynced] at hcanonical
  have hends := hcanonical.endsAtCut
  simp only [resynced, isChain_cons_cons] at hends
  have hclosed := Leaf.isClosed_iff.mpr hends.2.2.2.2.2.1
  exact absurd hclosed (by decide)

theorem history_passes_are_unions_at_the_limit :
    (old.insertHistory .eavt [inserted]).keys = (Segment.fromKeys (unionKeys .eavt old.keys [inserted])).keys :=
  (history_passes_are_unions history_old [inserted]).1

end ResyncExample

end Corium.Index
