/-
  Corium.Log.Frames — the frames of a log file, and what a crash leaves of them
  (`frame_header`, `scan_frames`, `append_framed_payload`, `split_frames` and
  `IndexedFile` of `crates/corium-log/src/lib.rs`).

  A frame is a length word whose high bit says that a checksum follows the payload. The
  checksum is CRC32C of the word and the payload, a parameter here. Two parsers read
  frames: `scanFrames` stops at a frame cut short, which a crash leaves at the end of a
  file, and `splitFrames`, for values written whole, refuses it. Whatever is cut off a
  run of frames, a scan finds the records of the complete ones and where they end; what
  is appended there is found after them (`torn_tail_recovery_is_exact`).
-/

import Corium.Log.Agreement
import Corium.Log.Record

namespace Corium.Log

open Corium.Core Corium.Lib Corium.Transactor List

/-! ## Frames -/

def checksummedFrame : Nat := 2 ^ 63

def frameChecksumLen : Nat := 4

/-- A length below the checksum bit, with that bit. -/
def frameHeader (payloadLen : Nat) : Except LogError Bytes :=
  if checksummedFrame ≤ payloadLen then .error .corrupt else .ok (beBytes 8 (payloadLen ||| checksummedFrame))

/-- The length, and whether a checksum follows; records written before checksums have none. -/
def framePayloadLen (header : Bytes) : Nat × Bool :=
  (beValue header &&& (checksummedFrame - 1), (beValue header).testBit 63)

def frameLen (payloadLen : Nat) (checksummed : Bool) : Nat := 8 + payloadLen + if checksummed then frameChecksumLen else 0

structure FrameIndex where
  t : Nat
  offset : Nat
  len : Nat
  deriving DecidableEq, Repr

section Frames

variable (crc32c : Bytes → UInt32)

def framedPayload (payload : Bytes) : Except LogError Bytes := do
  let header ← frameHeader payload.length
  pure (header ++ payload ++ encodeU32 (crc32c (header ++ payload)))

/-- `stored` is what follows the payload. -/
def checksumFits (header payload stored : Bytes) (checksummed : Bool) : Bool :=
  !checksummed || stored = encodeU32 (crc32c (header ++ payload))

/-- From `offset`, with `rest` the bytes from there on. A frame cut short ends the scan. -/
def scanFrom (frameT : Bytes → Except LogError Nat) : Nat → Nat → Bytes → Except LogError (List FrameIndex × Nat)
  | 0, offset, _ => .ok ([], offset)
  | fuel + 1, offset, rest =>
    if rest.length < 8 then .ok ([], offset)
    else
      let header := rest.take 8
      let (payloadLen, checksummed) := framePayloadLen header
      let len := frameLen payloadLen checksummed
      if rest.length < len then .ok ([], offset)
      else
        let payload := (rest.drop 8).take payloadLen
        if checksumFits crc32c header payload ((rest.take len).drop (8 + payloadLen)) checksummed then do
          let t ← frameT payload
          let (frames, durableLen) ← scanFrom frameT fuel (offset + len) (rest.drop len)
          pure (⟨t, offset, len⟩ :: frames, durableLen)
        else .error .corrupt

/-- The frames written in full from `offset` on, and where they end. A frame has at
    least eight bytes, so there are fewer of them than bytes. -/
def scanFrames (frameT : Bytes → Except LogError Nat) (file : Bytes) (offset : Nat) : Except LogError (List FrameIndex × Nat) :=
  scanFrom crc32c frameT (file.length + 1) offset (file.drop offset)

def splitFrom : Nat → Bytes → Except LogError (List (Bytes × Bytes))
  | 0, _ => .ok []
  | fuel + 1, bytes =>
    if bytes = [] then .ok []
    else if bytes.length < 8 then .error .corrupt
    else
      let header := bytes.take 8
      let (payloadLen, checksummed) := framePayloadLen header
      let len := frameLen payloadLen checksummed
      if bytes.length < len then .error .corrupt
      else
        let frame := bytes.take len
        let payload := (frame.drop 8).take payloadLen
        if checksumFits crc32c header payload (frame.drop (8 + payloadLen)) checksummed then do
          let frames ← splitFrom fuel (bytes.drop len)
          pure ((frame, payload) :: frames)
        else .error .corrupt

/-- The whole frames with their payloads; a frame cut short is refused. -/
def splitFrames (bytes : Bytes) : Except LogError (List (Bytes × Bytes)) := splitFrom crc32c (bytes.length + 1) bytes

def decodeFramedPayloads (decode : Bytes → Except LogError TxRecord) (bytes : Bytes) : Except LogError (List TxRecord) := do
  let frames ← splitFrames crc32c bytes
  frames.mapM fun f => decode f.2

/-! ## One frame -/

variable {crc32c} {payload frame : Bytes}

theorem or_checksummedFrame {n : Nat} (h : n < checksummedFrame) : n ||| checksummedFrame = checksummedFrame + n := by
  have := Nat.two_pow_add_eq_or_of_lt h 1
  rw [Nat.mul_one] at this
  rw [Nat.or_comm]
  exact this.symm

/-- A frame that was written: its header says what it holds. -/
structure IsFrame (crc32c : Bytes → UInt32) (payload frame : Bytes) : Prop where
  fits : payload.length < checksummedFrame
  parts : ∃ header, frame = header ++ payload ++ encodeU32 (crc32c (header ++ payload)) ∧ header.length = 8 ∧
    framePayloadLen header = (payload.length, true)

theorem isFrame_of_framedPayload (h : framedPayload crc32c payload = .ok frame) : IsFrame crc32c payload frame := by
  unfold framedPayload frameHeader at h
  split at h
  · cases h
  · rename_i hfits
    cases h
    have hfits : payload.length < checksummedFrame := Nat.lt_of_not_le hfits
    refine ⟨hfits, _, rfl, beBytes_length 8 _, ?_⟩
    have hlt : checksummedFrame + payload.length < 256 ^ 8 := by
      unfold checksummedFrame at *
      omega
    have hmod : (checksummedFrame + payload.length) &&& (checksummedFrame - 1) = payload.length := by
      rw [checksummedFrame, Nat.and_two_pow_sub_one_eq_mod, Nat.add_mod_left]
      exact Nat.mod_eq_of_lt hfits
    have hbit : (checksummedFrame + payload.length).testBit 63 = true := by
      rw [testBit_63 hlt]
      exact decide_eq_true (Nat.le_add_right _ _)
    rw [framePayloadLen, or_checksummedFrame hfits, beValue_beBytes hlt, hmod, hbit]

namespace IsFrame

variable (h : IsFrame crc32c payload frame)
include h

theorem length_eq : frame.length = frameLen payload.length true := by
  obtain ⟨header, rfl, hheader, -⟩ := h.parts
  simp only [length_append, hheader, frameLen, frameChecksumLen, if_true, encodeU32, beBytes_length]

/-- Read from in front of anything, a frame gives its payload. -/
theorem read (rest : Bytes) :
    framePayloadLen ((frame ++ rest).take 8) = (payload.length, true) ∧ ((frame ++ rest).drop 8).take payload.length = payload ∧
      (frame ++ rest).take (frameLen payload.length true) = frame ∧ (frame ++ rest).drop (frameLen payload.length true) = rest ∧
      (frame.drop 8).take payload.length = payload ∧
      checksumFits crc32c ((frame ++ rest).take 8) payload (frame.drop (8 + payload.length)) true = true := by
  have hlen := h.length_eq
  obtain ⟨header, rfl, hheader, hparse⟩ := h.parts
  have htake : (header ++ payload ++ encodeU32 (crc32c (header ++ payload)) ++ rest).take 8 = header := by
    rw [append_assoc, append_assoc]
    exact take_left' hheader
  have hdrop : ∀ tail, ((header ++ payload ++ tail).drop 8).take payload.length = payload := by
    intro tail
    rw [append_assoc, drop_left' hheader, take_left' rfl]
  refine ⟨by rw [htake, hparse], ?_, take_left' hlen, drop_left' hlen, hdrop _, ?_⟩
  · rw [append_assoc]
    exact hdrop _
  · rw [htake, drop_left' (by rw [length_append, hheader])]
    simp [checksumFits]

/-- A frame cut short, but not in its length word, still says how long it is. -/
theorem cut {n : Nat} (h8 : 8 ≤ n) : framePayloadLen ((frame.take n).take 8) = (payload.length, true) := by
  obtain ⟨header, rfl, hheader, hparse⟩ := h.parts
  rw [take_take, Nat.min_eq_left h8, append_assoc, take_left' hheader, hparse]

variable {frameT : Bytes → Except LogError Nat} {fuel offset : Nat}

theorem scanFrom_append {t : Nat} (ht : frameT payload = .ok t) (rest : Bytes) :
    scanFrom crc32c frameT (fuel + 1) offset (frame ++ rest) =
      (scanFrom crc32c frameT fuel (offset + frame.length) rest).map fun x => (⟨t, offset, frame.length⟩ :: x.1, x.2) := by
  obtain ⟨hparse, hpayload, htake, hdrop, -, hfits⟩ := h.read rest
  have hlen := h.length_eq
  have h8 : ¬ (frame ++ rest).length < 8 := by
    rw [length_append, hlen, frameLen]
    omega
  have hwhole : ¬ (frame ++ rest).length < frameLen payload.length true := by
    rw [length_append, hlen]
    omega
  rw [scanFrom, if_neg h8]
  simp only [hparse, if_neg hwhole, hpayload, htake, hdrop, hfits, if_true, ht, hlen]
  cases scanFrom crc32c frameT fuel (offset + frameLen payload.length true) rest <;> rfl

/-- A scan ends at a frame cut short. -/
theorem scanFrom_cut {n : Nat} (hn : n < frame.length) : scanFrom crc32c frameT fuel offset (frame.take n) = .ok ([], offset) := by
  cases fuel with
  | zero => rfl
  | succ fuel =>
    have hlength : (frame.take n).length = n := length_take_of_le hn.le
    rw [scanFrom]
    split
    · rfl
    · rename_i h8
      rw [hlength] at h8
      simp only [h.cut (Nat.le_of_not_lt h8), hlength, ← h.length_eq, if_pos hn]

theorem splitFrom_append (rest : Bytes) :
    splitFrom crc32c (fuel + 1) (frame ++ rest) = (splitFrom crc32c fuel rest).map ((frame, payload) :: ·) := by
  obtain ⟨hparse, -, htake, hdrop, hpayload, hfits⟩ := h.read rest
  have hlen := h.length_eq
  have hne : frame ++ rest ≠ [] := by
    intro hnil
    have := congrArg List.length hnil
    rw [length_append, hlen, frameLen] at this
    simp at this
  have h8 : ¬ (frame ++ rest).length < 8 := by
    rw [length_append, hlen, frameLen]
    omega
  have hwhole : ¬ (frame ++ rest).length < frameLen payload.length true := by
    rw [length_append, hlen]
    omega
  rw [splitFrom, if_neg hne, if_neg h8]
  simp only [hparse, if_neg hwhole, htake, hpayload, hdrop, hfits, if_true]
  cases splitFrom crc32c fuel rest <;> rfl

/-- A split refuses a frame cut short. -/
theorem splitFrom_cut {n : Nat} (hpos : 0 < n) (hn : n < frame.length) : splitFrom crc32c (fuel + 1) (frame.take n) = .error .corrupt := by
  have hlength : (frame.take n).length = n := length_take_of_le hn.le
  have hne : frame.take n ≠ [] := fun hnil => by rw [hnil] at hlength; simp at hlength; omega
  rw [splitFrom, if_neg hne]
  split
  · rfl
  · rename_i h8
    rw [hlength] at h8
    simp only [h.cut (Nat.le_of_not_lt h8), hlength, ← h.length_eq, if_pos hn]

end IsFrame

end Frames

/-! ## Runs of frames -/

section Runs

variable (aead : Aead) (crc32c : Bytes → UInt32) (codec : RecordCodec)

/-- The frames records are written as. -/
inductive Written : List TxRecord → List Bytes → Prop where
  | nil : Written [] []
  | cons {r : TxRecord} {nonce payload frame : Bytes} {rs : List TxRecord} {fs : List Bytes} : nonce.length = nonceLen →
      codec.encode aead nonce r = .ok payload → framedPayload crc32c payload = .ok frame → Written rs fs → Written (r :: rs) (frame :: fs)

/-- `t` is a `u64`, and in the clear it does not look like a sealed record. -/
def Readable (codec : RecordCodec) (r : TxRecord) : Prop := r.t < 2 ^ 64 ∧ (codec.mode = .plain → r.t ≠ logMagicT)

/-- The index of records in frames that begin at `offset`. -/
def indexFrom : Nat → List TxRecord → List Bytes → List FrameIndex
  | offset, r :: rs, f :: fs => ⟨r.t, offset, f.length⟩ :: indexFrom (offset + f.length) rs fs
  | _, _, _ => []

/-- Nothing, or a frame cut short. -/
def CutShort (tail : Bytes) : Prop :=
  tail = [] ∨ ∃ payload frame n, IsFrame crc32c payload frame ∧ 0 < n ∧ n < frame.length ∧ tail = frame.take n

variable {aead} {crc32c} {codec} {rs rs' : List TxRecord} {fs fs' : List Bytes} {tail : Bytes}

namespace Written

theorem append (h : Written aead crc32c codec rs fs) (h' : Written aead crc32c codec rs' fs') :
    Written aead crc32c codec (rs ++ rs') (fs ++ fs') := by
  induction h with
  | nil => exact h'
  | cons hnonce henc hframe _ ih => exact .cons hnonce henc hframe ih

theorem take (h : Written aead crc32c codec rs fs) (k : Nat) : Written aead crc32c codec (rs.take k) (fs.take k) := by
  induction h generalizing k with
  | nil => simpa using .nil
  | cons hnonce henc hframe _ ih =>
    cases k with
    | zero => exact .nil
    | succ k => exact .cons hnonce henc hframe (ih k)

theorem length_eq (h : Written aead crc32c codec rs fs) : rs.length = fs.length := by
  induction h with
  | nil => rfl
  | cons _ _ _ _ ih => rw [length_cons, length_cons, ih]

theorem isFrame (h : Written aead crc32c codec rs fs) : ∀ f ∈ fs, ∃ payload, IsFrame crc32c payload f := by
  induction h with
  | nil => exact forall_mem_nil _
  | cons _ _ hframe _ ih => exact forall_mem_cons.mpr ⟨⟨_, isFrame_of_framedPayload hframe⟩, ih⟩

theorem length_le (h : Written aead crc32c codec rs fs) : rs.length ≤ fs.flatten.length := by
  induction h with
  | nil => exact Nat.le_refl _
  | cons _ _ hframe _ ih =>
    rw [length_cons, flatten_cons, length_append, (isFrame_of_framedPayload hframe).length_eq, frameLen]
    omega

/-- A scan finds the frames there are, and ends after them. -/
theorem scanFrom_eq (h : Written aead crc32c codec rs fs) (hr : ∀ r ∈ rs, Readable codec r) (htail : CutShort crc32c tail)
    {fuel : Nat} (hfuel : rs.length < fuel) (offset : Nat) :
    scanFrom crc32c (codec.frameT aead) fuel offset (fs.flatten ++ tail) = .ok (indexFrom offset rs fs, offset + fs.flatten.length) := by
  induction h generalizing fuel offset with
  | nil =>
    rw [flatten_nil, nil_append, length_nil, Nat.add_zero]
    rcases htail with rfl | ⟨payload, frame, n, hframe, -, hn, rfl⟩
    · cases fuel <;> rfl
    · exact hframe.scanFrom_cut hn
  | cons hnonce henc hframe _ ih =>
    obtain ⟨hr, hrs⟩ := forall_mem_cons.mp hr
    have hisframe := isFrame_of_framedPayload hframe
    obtain ⟨fuel, rfl⟩ := Nat.exists_eq_add_one_of_ne_zero (Nat.ne_of_gt (Nat.zero_lt_of_lt hfuel))
    have ht := (RecordCodec.decode_encode hnonce hr.1 hr.2 henc (hisframe.fits.trans (by decide))).2
    rw [flatten_cons, append_assoc, hisframe.scanFrom_append ht, ih hrs (by simpa using hfuel)]
    simp [Except.map, indexFrom, Nat.add_assoc]

/-- A split gives the frames and payloads that decode to the records. -/
theorem splitFrom_eq (h : Written aead crc32c codec rs fs) (hr : ∀ r ∈ rs, Readable codec r) {fuel : Nat} (hfuel : rs.length < fuel) :
    ∃ pieces, splitFrom crc32c fuel fs.flatten = .ok pieces ∧ pieces.map Prod.fst = fs ∧
      pieces.mapM (fun p => codec.decode aead p.2) = .ok rs := by
  induction h generalizing fuel with
  | nil => exact ⟨[], by cases fuel <;> rfl, rfl, rfl⟩
  | @cons r _ payload frame _ _ hnonce henc hframe _ ih =>
    obtain ⟨hr, hrs⟩ := forall_mem_cons.mp hr
    have hisframe := isFrame_of_framedPayload hframe
    obtain ⟨fuel, rfl⟩ := Nat.exists_eq_add_one_of_ne_zero (Nat.ne_of_gt (Nat.zero_lt_of_lt hfuel))
    have hdecode := (RecordCodec.decode_encode hnonce hr.1 hr.2 henc (hisframe.fits.trans (by decide))).1
    obtain ⟨pieces, hpieces, hfst, hmapM⟩ := @ih hrs fuel (by simpa using hfuel)
    refine ⟨(frame, payload) :: pieces, ?_, by rw [map_cons, hfst], ?_⟩
    · rw [flatten_cons, hisframe.splitFrom_append, hpieces]
      rfl
    · rw [mapM_cons, hdecode, hmapM]
      rfl

/-- It refuses frames whose last one is cut short. -/
theorem splitFrom_cut (h : Written aead crc32c codec rs fs) (htail : CutShort crc32c tail) (hne : tail ≠ []) {fuel : Nat}
    (hfuel : rs.length < fuel) : splitFrom crc32c fuel (fs.flatten ++ tail) = .error .corrupt := by
  induction h generalizing fuel with
  | nil =>
    obtain ⟨fuel, rfl⟩ := Nat.exists_eq_add_one_of_ne_zero (Nat.ne_of_gt hfuel)
    obtain ⟨payload, frame, n, hframe, hpos, hn, rfl⟩ := htail.resolve_left hne
    exact hframe.splitFrom_cut hpos hn
  | cons _ _ hframe _ ih =>
    obtain ⟨fuel, rfl⟩ := Nat.exists_eq_add_one_of_ne_zero (Nat.ne_of_gt (Nat.zero_lt_of_lt hfuel))
    rw [flatten_cons, append_assoc, (isFrame_of_framedPayload hframe).splitFrom_append, ih (by simpa using hfuel)]
    rfl

end Written

/-- What is left of frames after a cut: some of them whole, and a frame cut short. -/
theorem exists_cut {fs : List Bytes} (h : ∀ f ∈ fs, ∃ payload, IsFrame crc32c payload f) {n : Nat} (hn : n ≤ fs.flatten.length) :
    ∃ k ≤ fs.length, (fs.take k).flatten.length ≤ n ∧ (k < fs.length → n < (fs.take (k + 1)).flatten.length) ∧
      ∃ tail, fs.flatten.take n = (fs.take k).flatten ++ tail ∧ CutShort crc32c tail := by
  induction fs generalizing n with
  | nil => exact ⟨0, Nat.le_refl _, Nat.zero_le _, nofun, [], by simp, .inl rfl⟩
  | cons f fs ih =>
    obtain ⟨⟨payload, hf⟩, hfs⟩ := forall_mem_cons.mp h
    by_cases hlt : n < f.length
    · refine ⟨0, Nat.zero_le _, Nat.zero_le _, fun _ => by simpa using hlt, f.take n, ?_, ?_⟩
      · rw [flatten_cons, take_append_of_le_length hlt.le]
        rfl
      · rcases Nat.eq_zero_or_pos n with rfl | hpos
        · exact .inl rfl
        · exact .inr ⟨payload, f, n, hf, hpos, hlt, rfl⟩
    · have hle : f.length ≤ n := Nat.le_of_not_lt hlt
      rw [flatten_cons, length_append] at hn
      obtain ⟨k, hk, hbelow, habove, tail, hcut, htail⟩ := ih hfs (n := n - f.length) (by omega)
      refine ⟨k + 1, Nat.succ_le_succ hk, ?_, fun hlt => ?_, tail, ?_, htail⟩
      · rw [take_succ_cons, flatten_cons, length_append]
        omega
      · have := habove (Nat.lt_of_succ_lt_succ hlt)
        rw [take_succ_cons, flatten_cons, length_append]
        omega
      · rw [flatten_cons, take_append, take_of_length_le hle, hcut, take_succ_cons, flatten_cons, append_assoc]

/-- What a scan, a split and the decoder make of frames that are whole. -/
theorem Written.reads (h : Written aead crc32c codec rs fs) (hr : ∀ r ∈ rs, Readable codec r) :
    scanFrames crc32c (codec.frameT aead) fs.flatten 0 = .ok (indexFrom 0 rs fs, fs.flatten.length) ∧
    (splitFrames crc32c fs.flatten).map (List.map Prod.fst) = .ok fs ∧
    decodeFramedPayloads crc32c (codec.decode aead) fs.flatten = .ok rs := by
  have hfuel : rs.length < fs.flatten.length + 1 := Nat.lt_succ_of_le h.length_le
  have hscan := h.scanFrom_eq hr (.inl rfl) hfuel 0
  rw [append_nil, Nat.zero_add] at hscan
  obtain ⟨pieces, hpieces, hfst, hmapM⟩ := h.splitFrom_eq hr hfuel
  refine ⟨hscan, ?_, ?_⟩
  · rw [splitFrames, hpieces, Except.map, hfst]
  · simp only [decodeFramedPayloads, splitFrames, hpieces, bind, Except.bind, hmapM]

end Runs

/-! ## A log file -/

/-- What a handle knows of its file. A write that stops short poisons the handle: what it
    leaves in the file is a frame cut short, for the next handle to cut off. -/
structure IndexedFile where
  frames : List FrameIndex
  durableLen : Nat
  firstGap : Option Nat

namespace IndexedFile

variable (aead : Aead) (crc32c : Bytes → UInt32) (codec : RecordCodec)

/-- The handle, and what is then in the file: a log opened for writing loses its torn tail. -/
def «open» (truncateTorn : Bool) (file : Bytes) : Except LogError (IndexedFile × Bytes) := do
  let (frames, durableLen) ← scanFrames crc32c (codec.frameT aead) file 0
  FileLog.validateSortedFrames FrameIndex.t frames
  pure (⟨frames, durableLen, FileLog.firstGapIndex FrameIndex.t frames⟩, if truncateTorn then file.take durableLen else file)

/-- Bytes past the handle's own may be another handle's acknowledged append, so they are not cut off here. -/
def append (nonce : Bytes) (r : TxRecord) (f : IndexedFile) (file : Bytes) : Except LogError (IndexedFile × Bytes) := do
  require (file.length = f.durableLen) .corrupt
  let payload ← codec.encode aead nonce r
  let frame ← framedPayload crc32c payload
  let gap := if ∃ p ∈ f.frames.getLast?, p.t + 1 ≠ r.t then some f.frames.length else none
  pure (⟨f.frames ++ [⟨r.t, f.durableLen, frame.length⟩], f.durableLen + frame.length, f.firstGap.or gap⟩, file ++ frame)

/-- Records with the nonces they are sealed under, one after the other. -/
def appendAll (added : List (Bytes × TxRecord)) (f : IndexedFile) (file : Bytes) : Except LogError (IndexedFile × Bytes) :=
  added.foldlM (fun s a => append aead crc32c codec a.1 a.2 s.1 s.2) (f, file)

variable {aead} {crc32c} {codec} {rs : List TxRecord} {fs : List Bytes} {f f' : IndexedFile} {file file' : Bytes}

theorem indexFrom_append {rs' : List TxRecord} {fs' : List Bytes} (hlen : rs.length = fs.length) (offset : Nat) :
    indexFrom offset (rs ++ rs') (fs ++ fs') = indexFrom offset rs fs ++ indexFrom (offset + fs.flatten.length) rs' fs' := by
  induction rs generalizing fs offset with
  | nil => rw [eq_nil_of_length_eq_zero hlen.symm]; rfl
  | cons r rs ih =>
    cases fs with
    | nil => cases hlen
    | cons g gs =>
      rw [cons_append, cons_append, indexFrom, ih (Nat.succ.inj hlen), indexFrom, cons_append, flatten_cons,
        length_append, Nat.add_assoc]

theorem append_ok {nonce : Bytes} {r : TxRecord} (h : append aead crc32c codec nonce r f file = .ok (f', file')) :
    ∃ payload frame, codec.encode aead nonce r = .ok payload ∧ framedPayload crc32c payload = .ok frame ∧ file.length = f.durableLen ∧
      file' = file ++ frame ∧ f'.frames = f.frames ++ [⟨r.t, f.durableLen, frame.length⟩] ∧ f'.durableLen = f.durableLen + frame.length := by
  unfold append at h
  obtain ⟨_, hlen, h⟩ := bind_eq_ok.mp h
  obtain ⟨payload, hpayload, h⟩ := bind_eq_ok.mp h
  obtain ⟨frame, hframe, h⟩ := bind_eq_ok.mp h
  cases h
  exact ⟨payload, frame, hpayload, hframe, require_eq_ok.mp hlen, rfl, rfl, rfl⟩

/-- Appends write frames after those there are, and the handle keeps their index. -/
theorem appendAll_ok {added : List (Bytes × TxRecord)} (hnonce : ∀ a ∈ added, a.1.length = nonceLen)
    (hw : Written aead crc32c codec rs fs) (hfile : file = fs.flatten) (hframes : f.frames = indexFrom 0 rs fs)
    (hdurable : f.durableLen = file.length) (h : appendAll aead crc32c codec added f file = .ok (f', file')) :
    ∃ fs', Written aead crc32c codec (rs ++ added.map Prod.snd) fs' ∧ file' = fs'.flatten ∧
      f'.frames = indexFrom 0 (rs ++ added.map Prod.snd) fs' ∧ f'.durableLen = file'.length := by
  induction added generalizing rs fs f file with
  | nil =>
    cases h
    exact ⟨fs, by simpa using hw, hfile, by simpa using hframes, hdurable⟩
  | cons a added ih =>
    obtain ⟨hnonce, hnonces⟩ := forall_mem_cons.mp hnonce
    rw [appendAll, foldlM_cons] at h
    obtain ⟨⟨g, file₁⟩, happend, h⟩ := bind_eq_ok.mp h
    obtain ⟨payload, frame, hpayload, hframe, -, rfl, hg, hdurable'⟩ := append_ok happend
    have hw' := hw.append (.cons hnonce hpayload hframe .nil)
    have hflat : file ++ frame = (fs ++ [frame]).flatten := by
      rw [hfile, flatten_append, flatten_cons, flatten_nil, append_nil]
    have hindex : g.frames = indexFrom 0 (rs ++ [a.2]) (fs ++ [frame]) := by
      rw [hg, hframes, indexFrom_append hw.length_eq, Nat.zero_add, ← hfile, hdurable]
      rfl
    have happ : rs ++ [a.2] ++ added.map Prod.snd = rs ++ (a :: added).map Prod.snd := by simp
    rw [← happ]
    exact ih hnonces hw' hflat hindex (by rw [hdurable', length_append, hdurable]) h

theorem mem_indexFrom {offset : Nat} {x : FrameIndex} (h : x ∈ indexFrom offset rs fs) : ∃ r ∈ rs, x.t = r.t := by
  induction rs generalizing fs offset with
  | nil => cases fs <;> cases h
  | cons r rs ih =>
    cases fs with
    | nil => cases h
    | cons g gs =>
      rcases mem_cons.mp h with rfl | h
      · exact ⟨r, mem_cons_self, rfl⟩
      · obtain ⟨s, hs, hxs⟩ := ih h
        exact ⟨s, mem_cons_of_mem _ hs, hxs⟩

/-- The index of ascending records is ascending. -/
theorem ascending_indexFrom (h : rs.Pairwise fun a b => a.t < b.t) (fs : List Bytes) (offset : Nat) :
    (indexFrom offset rs fs).Pairwise fun a b => a.t < b.t := by
  induction rs generalizing fs offset with
  | nil => cases fs <;> exact .nil
  | cons r rs ih =>
    cases fs with
    | nil => exact .nil
    | cons g gs =>
      obtain ⟨hr, hrs⟩ := pairwise_cons.mp h
      refine pairwise_cons.mpr ⟨fun x hx => ?_, ih hrs gs _⟩
      obtain ⟨s, hs, hxs⟩ := mem_indexFrom hx
      rw [hxs]
      exact hr s hs

end IndexedFile

/-! ## Recovery -/

section Recovery

variable {aead : Aead} {crc32c : Bytes → UInt32} {codec : RecordCodec} {rs : List TxRecord} {fs : List Bytes}

/-- Cut anywhere, a log file scans to the records of the frames that are whole, and to
    where they end; there the frames written next are found after them. A file opened for
    writing is cut there, and its handle knows what it and its appends wrote. A split
    finds the same frames up to there, and refuses what a cut left of the next one. -/
theorem torn_tail_recovery_is_exact (h : Written aead crc32c codec rs fs) (hr : ∀ r ∈ rs, Readable codec r) {n : Nat}
    (hn : n ≤ fs.flatten.length) :
    ∃ k ≤ rs.length, ∃ durable,
      durable = (fs.take k).flatten.length ∧ durable ≤ n ∧ (k < fs.length → n < (fs.take (k + 1)).flatten.length) ∧
      scanFrames crc32c (codec.frameT aead) (fs.flatten.take n) 0 = .ok (indexFrom 0 (rs.take k) (fs.take k), durable) ∧
      decodeFramedPayloads crc32c (codec.decode aead) ((fs.flatten.take n).take durable) = .ok (rs.take k) ∧
      (splitFrames crc32c ((fs.flatten.take n).take durable)).map (List.map Prod.fst) = .ok (fs.take k) ∧
      (durable < n → splitFrames crc32c (fs.flatten.take n) = .error .corrupt) ∧
      (∀ rs' fs', Written aead crc32c codec rs' fs' → (∀ r ∈ rs', Readable codec r) →
        let file := (fs.flatten.take n).take durable ++ fs'.flatten
        scanFrames crc32c (codec.frameT aead) file 0 = .ok (indexFrom 0 (rs.take k ++ rs') (fs.take k ++ fs'), file.length) ∧
        decodeFramedPayloads crc32c (codec.decode aead) file = .ok (rs.take k ++ rs')) ∧
      (rs.Pairwise (fun a b => a.t < b.t) →
        ∃ f, IndexedFile.open aead crc32c codec true (fs.flatten.take n) = .ok (f, (fs.flatten.take n).take durable) ∧
          ∀ added f' file', (∀ a ∈ added, a.1.length = nonceLen ∧ Readable codec a.2) →
            IndexedFile.appendAll aead crc32c codec added f ((fs.flatten.take n).take durable) = .ok (f', file') →
            scanFrames crc32c (codec.frameT aead) file' 0 = .ok (f'.frames, f'.durableLen) ∧
            decodeFramedPayloads crc32c (codec.decode aead) file' = .ok (rs.take k ++ added.map Prod.snd)) := by
  obtain ⟨k, hk, hbelow, habove, tail, hcut, htail⟩ := exists_cut h.isFrame hn
  have hwhole := h.take k
  have hreadable : ∀ r ∈ rs.take k, Readable codec r := fun r hr' => hr r (mem_of_mem_take hr')
  have hdurable : (fs.flatten.take n).take (fs.take k).flatten.length = (fs.take k).flatten := by
    rw [hcut, take_left]
  have hfuel : (rs.take k).length < (fs.flatten.take n).length + 1 := by
    have := hwhole.length_le
    rw [hcut, length_append]
    omega
  have hscan : scanFrames crc32c (codec.frameT aead) (fs.flatten.take n) 0 =
      .ok (indexFrom 0 (rs.take k) (fs.take k), (fs.take k).flatten.length) := by
    have := hwhole.scanFrom_eq hreadable htail hfuel 0
    rwa [← hcut, Nat.zero_add] at this
  obtain ⟨-, hsplit, hdecode⟩ := hwhole.reads hreadable
  refine ⟨k, h.length_eq ▸ hk, _, rfl, hbelow, habove, hscan, by rwa [hdurable], by rwa [hdurable], fun hlt => ?_, ?_, fun hasc => ?_⟩
  · have hne : tail ≠ [] := by
      rintro rfl
      have := congrArg List.length hcut
      rw [append_nil, length_take, Nat.min_eq_left hn] at this
      omega
    have := hwhole.splitFrom_cut htail hne hfuel
    rwa [← hcut] at this
  · intro rs' fs' hw' hr'
    obtain ⟨hscan', -, hdecode'⟩ := (hwhole.append hw').reads fun r hr => (mem_append.mp hr).elim (hreadable r) (hr' r)
    rw [hdurable, ← flatten_append]
    exact ⟨hscan', hdecode'⟩
  · have hsorted := validateSortedFrames_of_ascending
      (IndexedFile.ascending_indexFrom (hasc.sublist (take_sublist k rs)) (fs.take k) 0)
    refine ⟨⟨indexFrom 0 (rs.take k) (fs.take k), (fs.take k).flatten.length,
      FileLog.firstGapIndex FrameIndex.t (indexFrom 0 (rs.take k) (fs.take k))⟩, ?_, fun added f' file' hadded happend => ?_⟩
    · simp only [IndexedFile.open, hscan, hsorted, bind, Except.bind, pure, Except.pure, if_true]
    · rw [hdurable] at happend
      obtain ⟨fs', hw', rfl, hframes, hlen⟩ :=
        IndexedFile.appendAll_ok (fun a ha => (hadded a ha).1) hwhole rfl rfl rfl happend
      have hr' : ∀ r ∈ rs.take k ++ added.map Prod.snd, Readable codec r := fun r hr => by
        rcases mem_append.mp hr with hr | hr
        · exact hreadable r hr
        · obtain ⟨a, ha, rfl⟩ := mem_map.mp hr
          exact (hadded a ha).2
      obtain ⟨hscan', -, hdecode'⟩ := hw'.reads hr'
      rw [hframes, hlen]
      exact ⟨hscan', hdecode'⟩

end Recovery

/-! Two records without datoms, in the clear. -/

namespace TornExample

/-- Sealing is not used. -/
def aead : Aead where
  encrypt _ _ _ msg := msg ++ List.replicate aeadTagLen 0
  decrypt _ _ _ ciphertext := some (ciphertext.take (ciphertext.length - aeadTagLen))
  length_encrypt _ _ _ msg := by rw [length_append, length_replicate]
  decrypt_encrypt _ _ _ msg := by simp

def crc32c (bytes : Bytes) : UInt32 := bytes.foldl (fun c b => c * 31 + b.toUInt32) 0

def codec : RecordCodec := {}

def record (t : Nat) : TxRecord := ⟨t, 0, []⟩

def frame (t : Nat) : Bytes := ((framedPayload crc32c (encodeRecord (record t))).toOption).getD []

theorem framedPayload_frame (t : Nat) : framedPayload crc32c (encodeRecord (record t)) = .ok (frame t) := by
  have hlen : (encodeRecord (record t)).length = 24 := by
    simp [encodeRecord, encodeU64_length, record]
  simp only [frame, framedPayload, frameHeader, hlen, checksummedFrame]
  rfl

theorem written : ∀ ts : List Nat, Written aead crc32c codec (ts.map record) (ts.map frame)
  | [] => .nil
  | t :: ts =>
    .cons (show (List.replicate nonceLen (0 : UInt8)).length = nonceLen from length_replicate) rfl (framedPayload_frame t) (written ts)

/-- The two parsers differ on what a cut leaves of a frame; and a cleartext record whose `t` spells the magic of sealed ones is not read. -/
theorem torn_tails_are_scanned_and_not_split :
    (Written aead crc32c codec [record 1, record 2] [frame 1, frame 2] ∧ 40 ≤ [frame 1, frame 2].flatten.length ∧
      scanFrames crc32c (codec.frameT aead) ([frame 1, frame 2].flatten.take 40) 0 = .ok ([⟨1, 0, 36⟩], 36) ∧
      splitFrames crc32c ([frame 1, frame 2].flatten.take 40) = .error .corrupt) ∧
    (Written aead crc32c codec [record logMagicT] [frame logMagicT] ∧ logMagicT < 2 ^ 64 ∧
      scanFrames crc32c (codec.frameT aead) [frame logMagicT].flatten 0 = .error .encrypted) :=
  ⟨⟨written [1, 2], by decide, by decide +kernel, by decide +kernel⟩, written [logMagicT], by decide, by decide +kernel⟩

theorem readable_record {t : Nat} (ht : t < logMagicT) : Readable codec (record t) := ⟨ht.trans (by decide), fun _ => ht.ne⟩

theorem torn_tail_recovery_is_exact_after_one :
    ∃ k ≤ 2, ∃ durable, durable = ([frame 1, frame 2].take k).flatten.length ∧ durable ≤ 40 ∧
      scanFrames crc32c (codec.frameT aead) ([frame 1, frame 2].flatten.take 40) 0 =
        .ok (indexFrom 0 ([record 1, record 2].take k) ([frame 1, frame 2].take k), durable) := by
  obtain ⟨k, hk, durable, hdurable, hle, -, hscan, -⟩ := torn_tail_recovery_is_exact (written [1, 2])
    (forall_mem_map.mpr fun t ht => readable_record (show t < logMagicT from by revert t; decide)) (n := 40) (by decide)
  exact ⟨k, hk, durable, hdurable, hle, hscan⟩

end TornExample

end Corium.Log
