/-
  Corium.Store.Snapshot — how a covering index is published
  (`crates/corium-store/src/snapshot.rs`; `load_index_keys` of
  `crates/corium-transactor/src/node.rs` and `crates/corium-peer/src/segment.rs`).

  A manifest names the blobs of the leaf chunks in key order; a chunk is a run of keys,
  each behind its length. `chunk_segment_keys` cuts a key stream itself, counting keys and
  collecting bytes; a segment cuts by its `LeafBuilder`. Both ask the same rule, and
  `Follows` ties their states: a chunk is the encoding of a leaf
  (`chunkSegmentKeys_eq`). Loading a manifest and its chunks gives the keys, and so the
  segment, back (`published_chunks_are_the_segment`).
-/

import Corium.Index.Chunks
import Corium.Lib.Result
import Corium.Store.RootRecord

namespace Corium.Snapshot

open Corium.Core Corium.Index Corium.Lib Corium.Transactor List

inductive StoreError where
  | io (detail : String)
  | missingBlob (id : BlobId)
  deriving DecidableEq, Repr

/-! ## Manifests -/

def indexManifestMagic : String := "corium-index-manifest-v1"

def isIndexManifest (bytes : Bytes) : Bool := (utf8 indexManifestMagic).isPrefixOf bytes

def encodeIndexManifest (children : List BlobId) : Bytes :=
  utf8 (String.ofList (unlines (indexManifestMagic.toList :: children.map String.toList)))

def malformedManifest (detail : String) : StoreError := .io ("malformed index manifest: " ++ detail)

def childId (line : List Char) : Except StoreError BlobId :=
  match fromHex line with
  | some id => .ok id
  | none => .error (malformedManifest "invalid child id")

def decodeIndexManifest (bytes : Bytes) : Except StoreError (List BlobId) :=
  match String.fromUTF8? ⟨bytes.toArray⟩ with
  | none => .error (malformedManifest "not UTF-8")
  | some text =>
    match lines text.toList with
    | first :: rest =>
      if first = indexManifestMagic.toList then rest.mapM childId else .error (malformedManifest "missing magic")
    | [] => .error (malformedManifest "missing magic")

/-! ## Chunks -/

def encodeKey (key : Bytes) : Bytes := beBytes 8 key.length ++ key

def encodeSegmentChunk (keys : List Bytes) : Bytes := keys.flatMap encodeKey

def decodeSegmentKeys (input : Bytes) : Except StoreError (List Bytes) :=
  if input = [] then .ok []
  else if input.length < 8 then .error (.io "truncated segment")
  else
    let len := beValue (input.take 8)
    let rest := input.drop 8
    if rest.length < len then .error (.io "truncated segment")
    else do
      let keys ← decodeSegmentKeys (rest.drop len)
      pure (rest.take len :: keys)
termination_by input.length
decreasing_by simp only [length_drop]; omega

/-- The chunks cut so far, and the open one with its number of keys. -/
structure Chunking where
  chunks : List Bytes
  chunk : Bytes
  entries : Nat

namespace Chunking

def empty : Chunking := ⟨[], [], 0⟩

def push (c : Chunking) (key : Bytes) : Chunking :=
  let chunk := c.chunk ++ encodeKey key
  let entries := c.entries + 1
  if cutAfter key entries then ⟨c.chunks ++ [chunk], [], 0⟩ else ⟨c.chunks, chunk, entries⟩

def finish (c : Chunking) : List Bytes := if c.chunk.isEmpty then c.chunks else c.chunks ++ [c.chunk]

end Chunking

def chunkSegmentKeys (keys : List Bytes) : List Bytes := (keys.foldl Chunking.push Chunking.empty).finish

/-! ## Loading -/

section Load

variable (get : BlobId → Option Bytes)

def getBlob (id : BlobId) : Except StoreError Bytes :=
  match get id with
  | some blob => .ok blob
  | none => .error (.missingBlob id)

def loadChunk (id : BlobId) : Except StoreError (List Bytes) := do decodeSegmentKeys (← getBlob get id)

/-- A manifest's chunks in order, or a flat key stream of an earlier format. -/
def loadIndexKeys (id : BlobId) : Except StoreError (List Bytes) := do
  let blob ← getBlob get id
  if isIndexManifest blob then do
    let children ← decodeIndexManifest blob
    let chunks ← children.mapM (loadChunk get)
    pure chunks.flatten
  else decodeSegmentKeys blob

end Load

/-! ## The two cutters agree -/

/-- The store's cutter is at the same point as the segment's. -/
structure Follows (c : Chunking) (b : LeafBuilder) : Prop where
  chunks : c.chunks = b.leaves.map encodeSegmentChunk
  chunk : c.chunk = encodeSegmentChunk b.pending
  entries : c.entries = b.pending.length

theorem encodeSegmentChunk_concat (keys : List Bytes) (key : Bytes) :
    encodeSegmentChunk (keys ++ [key]) = encodeSegmentChunk keys ++ encodeKey key := by
  simp [encodeSegmentChunk]

theorem encodeSegmentChunk_isEmpty (keys : List Bytes) : (encodeSegmentChunk keys).isEmpty = keys.isEmpty := by
  cases keys with
  | nil => rfl
  | cons key keys => simp [encodeSegmentChunk, encodeKey, beBytes]

variable {b : LeafBuilder} {c : Chunking}

theorem Follows.push (h : Follows c b) (key : Bytes) : Follows (c.push key) (b.push key) := by
  have hchunk : c.chunk ++ encodeKey key = encodeSegmentChunk (b.pending ++ [key]) := by
    rw [h.chunk, encodeSegmentChunk_concat]
  unfold Chunking.push LeafBuilder.push
  simp only [h.entries, hchunk]
  split
  · have hne : (b.pending ++ [key]).isEmpty = false := by simp
    simp only [LeafBuilder.sealRun, hne]
    exact ⟨by simp [h.chunks], rfl, rfl⟩
  · exact ⟨h.chunks, rfl, by simp⟩

theorem Follows.foldl (h : Follows c b) (keys : List Bytes) :
    Follows (keys.foldl Chunking.push c) (keys.foldl LeafBuilder.push b) := by
  induction keys generalizing c b with
  | nil => exact h
  | cons key keys ih => exact ih (h.push key)

theorem Follows.finish {c : Chunking} {b : LeafBuilder} (h : Follows c b) : c.finish = b.finish.map encodeSegmentChunk := by
  unfold Chunking.finish LeafBuilder.finish LeafBuilder.sealRun
  rw [h.chunk, encodeSegmentChunk_isEmpty, h.chunks]
  split
  · rfl
  · simp

/-- A chunk is the encoding of a leaf. -/
theorem chunkSegmentKeys_eq (keys : List Bytes) :
    chunkSegmentKeys keys = (Segment.fromKeys keys).leaves.map encodeSegmentChunk :=
  (Follows.foldl ⟨rfl, rfl, rfl⟩ keys).finish

theorem flatten_map_encodeSegmentChunk (leaves : List Leaf) :
    (leaves.map encodeSegmentChunk).flatten = encodeSegmentChunk leaves.flatten := by
  induction leaves with
  | nil => rfl
  | cons leaf leaves ih => simp [ih, encodeSegmentChunk]

/-! ## Reading back -/

theorem decodeSegmentKeys_encode {keys : List Bytes} (h : ∀ key ∈ keys, key.length < 2 ^ 64) :
    decodeSegmentKeys (encodeSegmentChunk keys) = .ok keys := by
  induction keys with
  | nil =>
    rw [decodeSegmentKeys]
    rfl
  | cons key keys ih =>
    obtain ⟨hkey, hkeys⟩ := forall_mem_cons.mp h
    have hcons : encodeSegmentChunk (key :: keys) = beBytes 8 key.length ++ (key ++ encodeSegmentChunk keys) := by
      simp [encodeSegmentChunk, encodeKey]
    have hlen : (beBytes 8 key.length).length = 8 := beBytes_length 8 _
    have htake : (beBytes 8 key.length ++ (key ++ encodeSegmentChunk keys)).take 8 = beBytes 8 key.length := take_left' hlen
    have hdrop : (beBytes 8 key.length ++ (key ++ encodeSegmentChunk keys)).drop 8 = key ++ encodeSegmentChunk keys :=
      drop_left' hlen
    have hvalue : beValue (beBytes 8 key.length) = key.length := beValue_beBytes (by simpa using hkey)
    have hne : beBytes 8 key.length ++ (key ++ encodeSegmentChunk keys) ≠ [] := by simp [beBytes]
    rw [hcons, decodeSegmentKeys, if_neg hne, if_neg (by simp)]
    simp only [htake, hdrop, hvalue, length_append, take_left, drop_left]
    rw [if_neg (by omega), ih hkeys]
    rfl

theorem decodeIndexManifest_encode {children : List BlobId} (h : ∀ id ∈ children, isBlobId id.toList = true) :
    decodeIndexManifest (encodeIndexManifest children) = .ok children := by
  have hhex : ∀ {c : Char}, isHexDigit c = false → ∀ id ∈ children, c ∉ id.toList := by
    intro c hc id hid hmem
    rw [isHexDigit_of_mem (h id hid) hmem] at hc
    cases hc
  have hnewline : ∀ l ∈ indexManifestMagic.toList :: children.map String.toList, '\n' ∉ l := by
    refine forall_mem_cons.mpr ⟨by decide, fun l hl => ?_⟩
    obtain ⟨id, hid, rfl⟩ := mem_map.mp hl
    exact hhex (by decide) id hid
  have hstrip : (children.map String.toList).map stripCr = children.map String.toList := by
    rw [map_map]
    exact map_congr_left fun id hid => stripCr_of_notMem (hhex (by decide) id hid)
  have hchildren : (children.map String.toList).mapM childId = .ok children := by
    rw [mapM_map]
    refine (mapM_ok_of_forall (g := id) fun id hid => ?_).trans (by rw [map_id])
    show childId id.toList = .ok id
    rw [childId, fromHex_of_isBlobId (h id hid)]
  rw [decodeIndexManifest, encodeIndexManifest, fromUTF8_utf8]
  simp only [String.toList_ofList, lines_unlines hnewline, map_cons, hstrip]
  rw [if_pos (stripCr_of_notMem (by decide)), hchildren]

theorem isIndexManifest_encode (children : List BlobId) : isIndexManifest (encodeIndexManifest children) = true := by
  have hcons : unlines (indexManifestMagic.toList :: children.map String.toList) =
      indexManifestMagic.toList ++ '\n' :: unlines (children.map String.toList) := by simp [unlines]
  rw [isIndexManifest, encodeIndexManifest, hcons, String.ofList_append, String.ofList_toList, utf8_append]
  exact isPrefixOf_iff_prefix.mpr (prefix_append _ _)

section Published

variable {digest : Bytes → BlobId} {get : BlobId → Option Bytes} {leaves : List Leaf}

theorem loadIndexKeys_manifest (hleaves : ∀ leaf ∈ leaves, ∀ key ∈ leaf, key.length < 2 ^ 64)
    (hhex : ∀ blob, isBlobId (digest blob).toList = true)
    (hget : ∀ leaf ∈ leaves, get (digest (encodeSegmentChunk leaf)) = some (encodeSegmentChunk leaf)) {id : BlobId}
    (hid : get id = some (encodeIndexManifest (leaves.map fun leaf => digest (encodeSegmentChunk leaf)))) :
    loadIndexKeys get id = .ok leaves.flatten := by
  have hchildren : ∀ child ∈ leaves.map fun leaf => digest (encodeSegmentChunk leaf), isBlobId child.toList = true := by
    intro child hchild
    obtain ⟨leaf, -, rfl⟩ := mem_map.mp hchild
    exact hhex _
  have hload : (leaves.map fun leaf => digest (encodeSegmentChunk leaf)).mapM (loadChunk get) = .ok leaves := by
    rw [mapM_map]
    refine (mapM_ok_of_forall (g := fun leaf => leaf) fun leaf hleaf => ?_).trans (by rw [map_id'])
    simp only [Function.comp_apply, loadChunk, getBlob, hget leaf hleaf, bind, Except.bind]
    exact decodeSegmentKeys_encode (hleaves leaf hleaf)
  simp only [loadIndexKeys, getBlob, hid, bind, Except.bind, isIndexManifest_encode, if_true, decodeIndexManifest_encode hchildren, hload,
    pure, Except.pure]

end Published

/--
  What `chunk_segment_keys` makes of a key stream: chunk by chunk the leaves of the segment of those keys, which put
  together are the keys, in one blob or through a manifest. `get` is any store that holds what was put in it under its digest.
-/
theorem published_chunks_are_the_segment (keys : List Bytes) (hkeys : ∀ key ∈ keys, key.length < 2 ^ 64) :
    (chunkSegmentKeys keys).mapM decodeSegmentKeys = .ok (Segment.fromKeys keys).leaves ∧
      (Segment.fromKeys keys).leaves.flatten = keys ∧
      decodeSegmentKeys (chunkSegmentKeys keys).flatten = .ok keys ∧
      ∀ (digest : Bytes → BlobId) (get : BlobId → Option Bytes), (∀ blob, isBlobId (digest blob).toList = true) →
        (∀ blob ∈ encodeIndexManifest ((chunkSegmentKeys keys).map digest) :: chunkSegmentKeys keys, get (digest blob) = some blob) →
        (loadIndexKeys get (digest (encodeIndexManifest ((chunkSegmentKeys keys).map digest)))).map Segment.fromKeys =
          .ok (Segment.fromKeys keys) := by
  have hflat : (Segment.fromKeys keys).leaves.flatten = keys := Segment.keys_fromKeys keys
  have hleaves : ∀ leaf ∈ (Segment.fromKeys keys).leaves, ∀ key ∈ leaf, key.length < 2 ^ 64 := by
    intro leaf hleaf key hkey
    refine hkeys key ?_
    rw [← hflat]
    exact mem_flatten_of_mem hleaf hkey
  refine ⟨?_, hflat, ?_, fun digest get hhex hget => ?_⟩
  · rw [chunkSegmentKeys_eq, mapM_map]
    refine (mapM_ok_of_forall (g := fun leaf => leaf) fun leaf hleaf => ?_).trans (by rw [map_id'])
    exact decodeSegmentKeys_encode (hleaves leaf hleaf)
  · rw [chunkSegmentKeys_eq, flatten_map_encodeSegmentChunk, hflat]
    exact decodeSegmentKeys_encode hkeys
  · rw [chunkSegmentKeys_eq, map_map] at hget ⊢
    obtain ⟨hmanifest, hchunks⟩ := forall_mem_cons.mp hget
    have hload := loadIndexKeys_manifest hleaves hhex (fun leaf hleaf => hchunks _ (mem_map_of_mem hleaf)) hmanifest
    show Except.map Segment.fromKeys (loadIndexKeys get _) = _
    rw [hload, hflat]
    rfl

namespace SnapshotExample

def keys : List Bytes := [[1], [2, 0]]

/-- Two blobs, told apart by what they begin with. -/
def digest (blob : Bytes) : BlobId := String.ofList (List.replicate 64 (if isIndexManifest blob then 'a' else 'b'))

def get (id : BlobId) : Option Bytes :=
  if id.toList.head? = some 'a' then some (encodeIndexManifest ((chunkSegmentKeys keys).map digest)) else some (encodeSegmentChunk keys)

theorem published_chunks_are_the_segment_of_two_keys :
    (loadIndexKeys get (digest (encodeIndexManifest ((chunkSegmentKeys keys).map digest)))).map Segment.fromKeys =
      .ok (Segment.fromKeys keys) := by
  refine (published_chunks_are_the_segment keys (by decide)).2.2.2 digest get (fun blob => ?_) (by decide)
  rw [digest, String.toList_ofList]
  split <;> decide

end SnapshotExample

end Corium.Snapshot
