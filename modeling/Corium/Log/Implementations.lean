/-
  Corium.Log.Implementations — the three versioned logs side by side
  (`VersionedLog`, `NativeVersionedLog` and `MemVersionedLog` of
  `crates/corium-log/src/lib.rs`).

  All three append under a lease version and read back one merged log. The
  in-memory log keeps one vector and merges each version in append order. The
  native log writes one create-only object per batch, keyed by version and last
  `t`, sorts each version by `t` and refuses a merged log with a hole. The
  file-based log keeps one file per version; each handle has an index of the
  files, brought up to date at opening and by a read that reaches past it, and an
  append is refused when the file has grown behind the index.

  An event of a run is one all three accept: opening a handle under a version,
  appending a batch through a handle, reading a range through one. Frames, sealing,
  torn tails and poisoned handles are left out: an append is whole or is not an
  event. A frame index is the records themselves, and `partition_point` the length
  of the longest prefix below the bound, which is what it finds in an ascending index.

  `Fits` is the condition on an append under which the three agree, and `Chosen` the
  record they then read for a `t`.
-/

import Corium.Lib.Result
import Corium.Log.Versioned

namespace Corium.Log

open Corium.Lib

variable {α : Type} (t : α → Nat)

structure Handle where
  writeVersion : Nat
  nextT : Nat
  deriving DecidableEq, Repr

/-- The records of `[start, stop)`. -/
def inRange (start : Nat) (stop : Option Nat) (records : List α) : List α :=
  records.filter fun r => start ≤ t r ∧ ∀ e ∈ stop, t r < e

/-- `next_t + 1`, within 64 bits. -/
def checkedSucc (n : Nat) : Except LogError Nat := if n < u64Max then .ok (n + 1) else .error .corrupt

/-! ## In memory -/

structure MemLog (α : Type) where
  records : List (Nat × α) := []
  handles : List Handle := []

namespace MemLog

/-- One version's records as they were appended. -/
def version (records : List (Nat × α)) (v : Nat) : List α := (records.filter (fun r => r.1 = v)).map Prod.snd

def merged (l : MemLog α) : List α := (mergeVersions t ((versions l.records).map (version l.records))).1

def openAt (v : Nat) (l : MemLog α) : MemLog α :=
  { l with handles := l.handles ++ [⟨v, nextT t (l.merged t)⟩] }

def append (i : Nat) (l : MemLog α) (r : α) : Except LogError (MemLog α) :=
  match l.handles[i]? with
  | none => .error .corrupt
  | some h => do
    require (h.nextT = t r) .corrupt
    let next ← checkedSucc h.nextT
    .ok ⟨l.records ++ [(h.writeVersion, r)], l.handles.set i ⟨h.writeVersion, next⟩⟩

def appendBatch (i : Nat) (records : List α) (l : MemLog α) : Except LogError (MemLog α) :=
  records.foldlM (append t i) l

def txRange (l : MemLog α) (start : Nat) (stop : Option Nat) : Except LogError (List α) :=
  .ok (inRange t start stop (l.merged t))

end MemLog

/-! ## In the store -/

structure NativeLog (α : Type) where
  /-- The batches, each with its version, in the order they were written. -/
  objects : List (Nat × List α) := []
  handles : List Handle := []

namespace NativeLog

/-- The key of a batch in its version. -/
def lastT (batch : List α) : Nat := (batch.getLast?.map t).getD 0

/-- One version's records: its objects by key, then sorted by `t`. -/
def version (objects : List (Nat × List α)) (v : Nat) : List α :=
  let batches := ((objects.filter (fun o => o.1 = v)).map Prod.snd).insertionSort fun a b => lastT t a ≤ lastT t b
  batches.flatten.insertionSort fun a b => t a ≤ t b

def merged (l : NativeLog α) : List α := (mergeVersions t ((versions l.objects).map (version t l.objects))).1

def readNativeMerged (l : NativeLog α) : Except LogError (List α) :=
  (validateMergedContiguity t (l.merged t)).map fun _ => l.merged t

def openAt (v : Nat) (l : NativeLog α) : Except LogError (NativeLog α) := do
  let records ← l.readNativeMerged t
  .ok { l with handles := l.handles ++ [⟨v, nextT t records⟩] }

/-- Create-only: no object has this version and last `t`. -/
def vacant (l : NativeLog α) (v : Nat) (batch : List α) : Bool :=
  l.objects.all fun o => ¬ (o.1 = v ∧ lastT t o.2 = lastT t batch)

def appendBatch (i : Nat) (records : List α) (l : NativeLog α) : Except LogError (NativeLog α) :=
  match l.handles[i]? with
  | none => .error .corrupt
  | some h =>
    if records = [] then .ok l
    else do
      require (accepts t h.nextT records = true) .corrupt
      require (l.vacant t h.writeVersion records = true) .corrupt
      .ok ⟨l.objects ++ [(h.writeVersion, records)], l.handles.set i ⟨h.writeVersion, h.nextT + records.length⟩⟩

def txRange (l : NativeLog α) (start : Nat) (stop : Option Nat) : Except LogError (List α) := do
  .ok (inRange t start stop (← l.readNativeMerged t))

end NativeLog

/-! ## In files -/

/-- The files of a log by version, each with the records it holds; also the index
    a handle has of them. -/
abbrev Files (α : Type) := List (Nat × List α)

structure FileHandle (α : Type) where
  writeVersion : Nat
  nextT : Nat
  index : Files α

structure FileLog (α : Type) where
  files : Files α := []
  handles : List (FileHandle α) := []

namespace FileLog

/-- The frames below `bound` at the front of an index. -/
def partition (bound : Nat) (frames : List α) : List α := frames.takeWhile fun r => t r < bound

def validateSortedFrames : List α → Except LogError Unit
  | a :: b :: rest => if t a ≥ t b then .error .corrupt else validateSortedFrames (b :: rest)
  | _ => .ok ()

def firstGapIndex : List α → Option Nat
  | a :: b :: rest => if t a + 1 ≠ t b then some 1 else (firstGapIndex (b :: rest)).map (· + 1)
  | _ => none

/-- For each file the first `t` of any later one, and the cutoff before all of them. -/
def versionCutoffs : Files α → List Nat × Nat
  | [] => ([], u64Max)
  | (_, frames) :: later =>
    let (cutoffs, cutoff) := versionCutoffs later
    (cutoff :: cutoffs,
      match frames.head? with
      | some first => min cutoff (t first)
      | none => cutoff)

/-- The check of `validated_version_cutoffs`, with the last `t` kept so far. -/
def validateRetained : Option Nat → List ((Nat × List α) × Nat) → Except LogError Unit
  | _, [] => .ok ()
  | previous, ((_, frames), cutoff) :: rest =>
    let retained := partition t cutoff frames
    match retained.head?, retained.getLast? with
    | some first, some last => do
      require (∀ gap ∈ firstGapIndex t frames, retained.length ≤ gap) .corrupt
      require (∀ p ∈ previous, p + 1 = t first) .corrupt
      validateRetained (some (t last)) rest
    | _, _ => validateRetained previous rest

def validatedVersionCutoffs (files : Files α) : Except LogError (List Nat) :=
  let cutoffs := (versionCutoffs t files).1
  (validateRetained t none (files.zip cutoffs)).map fun _ => cutoffs

/-- One past the last frame kept of the last file that keeps one. -/
def mergedNextT (files : Files α) (cutoffs : List Nat) : Nat :=
  nextT t (((files.zip cutoffs).reverse.map fun f => partition t f.2 f.1.2).find? (· ≠ []) |>.getD [])

/-- One file's frames from `start` to below `stop`, by position. -/
def frameRange (start stop : Nat) (frames : List α) : List α :=
  (partition t stop frames).drop (partition t start frames).length

def readMergedRange (files : Files α) (cutoffs : List Nat) (start : Nat) (stop : Option Nat) : List α :=
  (files.zip cutoffs).flatMap fun f => frameRange t start ((stop.map (min · f.2)).getD f.2) f.1.2

def lookup (files : Files α) (v : Nat) : Option (List α) := (files.find? (·.1 = v)).map Prod.snd

def create (v : Nat) (files : Files α) : Files α :=
  if (lookup files v).isSome then files else files.orderedInsert (fun a b => a.1 ≤ b.1) (v, [])

/-- The file of version `v` with one more frame. -/
def extend (v : Nat) (r : α) (files : Files α) : Files α :=
  files.map fun f => if f.1 = v then (f.1, f.2 ++ [r]) else f

def openAt (v : Nat) (l : FileLog α) : Except LogError (FileLog α) := do
  let files := create v l.files
  files.forM fun f => validateSortedFrames t f.2
  let cutoffs ← validatedVersionCutoffs t files
  .ok ⟨files, l.handles ++ [⟨v, mergedNextT t files cutoffs, files⟩]⟩

/-- A current writer goes on from its own file's last frame. -/
def extendsTail (h : FileHandle α) (own : List α) (r : α) : Bool :=
  let cutoffs := (versionCutoffs t h.index).1
  (h.index.zip cutoffs).all fun f => f.1.1 = h.writeVersion → f.2 = u64Max → own ≠ [] → nextT t own = t r

def append (i : Nat) (l : FileLog α) (r : α) : Except LogError (FileLog α) :=
  match l.handles[i]? with
  | none => .error .corrupt
  | some h =>
    match lookup h.index h.writeVersion, lookup l.files h.writeVersion with
    | some own, some file => do
      require (h.nextT = t r) .corrupt
      require (extendsTail t h own r = true) .corrupt
      -- the file has not grown behind this handle
      require (file.length = own.length) .corrupt
      let next ← checkedSucc h.nextT
      .ok ⟨extend h.writeVersion r l.files,
        l.handles.set i ⟨h.writeVersion, next, extend h.writeVersion r h.index⟩⟩
    | _, _ => .error .corrupt

def appendBatch (i : Nat) (records : List α) (l : FileLog α) : Except LogError (FileLog α) :=
  records.foldlM (append t i) l

/-- An indexed file brought up to date: what was appended is read after the index, a
    file that shrank is read again. -/
def refreshFile (own file : List α) : Except LogError (List α) :=
  if file.length < own.length then do
    validateSortedFrames t file
    .ok file
  else do
    let appended := file.drop own.length
    validateSortedFrames t appended
    require (∀ p ∈ own.getLast?, ∀ n ∈ appended.head?, t p < t n) .corrupt
    .ok (own ++ appended)

/-- No version file goes away, so the refreshed index has those of the directory. -/
def refreshVersionFiles (index files : Files α) : Except LogError (Files α) :=
  files.mapM fun f =>
    match lookup index f.1 with
    | some own => do .ok (f.1, ← refreshFile t own f.2)
    | none => do
      validateSortedFrames t f.2
      .ok f

/-- The records of the range through a handle, with the index it then has. -/
def readMerged (files : Files α) (index : Files α) (start : Nat) (stop : Option Nat) :
    Except LogError (List α × Files α) := do
  let cutoffs ← validatedVersionCutoffs t index
  if ∃ e ∈ stop, e ≤ mergedNextT t index cutoffs then
    .ok (readMergedRange t index cutoffs start stop, index)
  else
    let index ← refreshVersionFiles t index files
    let cutoffs ← validatedVersionCutoffs t index
    .ok (readMergedRange t index cutoffs start stop, index)

def txRange (files index : Files α) (start : Nat) (stop : Option Nat) : Except LogError (List α × Files α) :=
  if ∃ e ∈ stop, e ≤ start then .ok ([], index) else readMerged t files index start stop

/-- A read through a handle, with the log after it. -/
def read (i start : Nat) (stop : Option Nat) (l : FileLog α) : Except LogError (List α × FileLog α) :=
  match l.handles[i]? with
  | none => .error .corrupt
  | some h => do
    let (records, index) ← txRange t l.files h.index start stop
    .ok (records, { l with handles := l.handles.set i { h with index := index } })

end FileLog

/-! ## The three together -/

structure Logs (α : Type) where
  mem : MemLog α := {}
  native : NativeLog α := {}
  file : FileLog α := {}

inductive Event (α : Type) where
  | openAt (v : Nat)
  | append (i : Nat) (records : List α)
  | read (i start : Nat) (stop : Option Nat)

/-- An event each of the three accepts. -/
def Logs.step (s : Logs α) : Event α → Except LogError (Logs α)
  | .openAt v => do .ok ⟨s.mem.openAt t v, ← s.native.openAt t v, ← s.file.openAt t v⟩
  | .append i records => do
    .ok ⟨← s.mem.appendBatch t i records, ← s.native.appendBatch t i records, ← s.file.appendBatch t i records⟩
  | .read i start stop => do
    let _ ← s.native.txRange t start stop
    let (_, file) ← s.file.read t i start stop
    .ok { s with file := file }

/-- The logs after a run whose events all meet `P` in the state they come in. -/
inductive Reaches (P : Logs α → Event α → Prop) : Logs α → Prop where
  | start : Reaches P {}
  | step {s s' : Logs α} {e : Event α} : Reaches P s → P s e → s.step t e = .ok s' → Reaches P s'

/-- An append under version `v` at `next` goes on past the version's records, and is
    behind the beginning of a later version or, with none begun, within the merged
    log or right after it. -/
def Fits (log : List (Nat × α)) (v next : Nat) : Prop :=
  (∀ x ∈ log, x.1 = v → t x.2 < next) ∧
    ((∃ x ∈ log, v < x.1 ∧ t x.2 ≤ next) ∨ ((∀ x ∈ log, x.1 ≤ v) ∧ next ≤ nextT t (merged t log)))

def Fitting (s : Logs α) : Event α → Prop
  | .append i _ => ∀ h ∈ s.mem.handles[i]?, Fits t s.mem.records h.writeVersion h.nextT
  | _ => True

/-- For its `t`, the record of the highest version no later version cuts off there. -/
def Chosen (log : List (Nat × α)) (r : α) : Prop :=
  ∃ v, Live t log v r ∧ ∀ w r', Live t log w r' → t r' = t r → w ≤ v

end Corium.Log
