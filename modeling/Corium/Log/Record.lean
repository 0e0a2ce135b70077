/-
  Corium.Log.Record — how a log record becomes the payload of a frame
  (`encode_record`, `decode_record` and `RecordCodec` of `crates/corium-log/src/lib.rs`;
  `encrypt_log_record`, `decrypt_log_record` and `parse_log_header` of
  `crates/corium-crypt/src/lib.rs`).

  A payload is the record in the clear, or sealed behind a header that begins with
  `CORIUML1`. A cleartext payload begins with the record's `t`, so of all `t` one looks
  sealed (`logMagicT`). The cipher itself, AES-256-GCM, is a parameter (`Aead`) that
  opens what it sealed. What a codec writes it reads back (`RecordCodec.decode_encode`).
-/

import Corium.Log.Versioned
import Corium.Transactor.Commit

namespace Corium.Log

open Corium.Core Corium.Lib Corium.Transactor List

/-! ## Cleartext -/

def encodeDatom (d : Datom) : Bytes :=
  encodeEntityId d.e ++ encodeEntityId d.a ++ encodeEntityId d.tx ++ [if d.added then 1 else 0] ++
    beBytes 8 (encodeValue d.v).length ++ encodeValue d.v

def encodeRecord (r : TxRecord) : Bytes :=
  beBytes 8 r.t ++ encodeU64 r.txInstant.toUInt64 ++ beBytes 8 r.datoms.length ++ r.datoms.flatMap encodeDatom

def takeBytes (n : Nat) (bytes : Bytes) : Except LogError (Bytes × Bytes) :=
  if n ≤ bytes.length then .ok (bytes.take n, bytes.drop n) else .error .corrupt

def u64Be (bytes : Bytes) : Except LogError (Nat × Bytes) := do
  let (word, rest) ← takeBytes 8 bytes
  pure (beValue word, rest)

def entityBe (bytes : Bytes) : Except LogError (EntityId × Bytes) := do
  let (raw, rest) ← u64Be bytes
  pure (⟨UInt64.ofNat raw⟩, rest)

/-- A value that fills its length. -/
def valueOf (raw : Bytes) : Except LogError Value :=
  match decodeValueUsed raw with
  | .ok (v, used) => if used = raw.length then .ok v else .error .corrupt
  | .error _ => .error .corrupt

def decodeDatom (bytes : Bytes) : Except LogError (Datom × Bytes) := do
  let (e, bytes) ← entityBe bytes
  let (a, bytes) ← entityBe bytes
  let (tx, bytes) ← entityBe bytes
  let (added, bytes) ← takeBytes 1 bytes
  let (len, bytes) ← u64Be bytes
  let (raw, bytes) ← takeBytes len bytes
  let v ← valueOf raw
  pure ({ e, a, v, tx, added := beValue added ≠ 0 }, bytes)

def decodeDatoms : Nat → Bytes → Except LogError (List Datom × Bytes)
  | 0, bytes => .ok ([], bytes)
  | count + 1, bytes => do
    let (d, bytes) ← decodeDatom bytes
    let (ds, bytes) ← decodeDatoms count bytes
    pure (d :: ds, bytes)

def decodeRecord (bytes : Bytes) : Except LogError TxRecord := do
  let (t, bytes) ← u64Be bytes
  let (instant, bytes) ← u64Be bytes
  let (count, bytes) ← u64Be bytes
  let (datoms, bytes) ← decodeDatoms count bytes
  if bytes = [] then pure { t, txInstant := (UInt64.ofNat instant).toInt64, datoms } else .error .corrupt

theorem takeBytes_append {n : Nat} {bs : Bytes} (h : bs.length = n) (s : Bytes) : takeBytes n (bs ++ s) = .ok (bs, s) := by
  subst h
  simp [takeBytes]

theorem u64Be_beBytes {x : Nat} (h : x < 2 ^ 64) (s : Bytes) : u64Be (beBytes 8 x ++ s) = .ok (x, s) := by
  rw [u64Be, takeBytes_append (beBytes_length 8 x)]
  exact congrArg (fun y => Except.ok (y, s)) (beValue_beBytes (by simpa using h))

theorem u64Be_encodeU64 (x : UInt64) (s : Bytes) : u64Be (encodeU64 x ++ s) = .ok (x.toNat, s) := u64Be_beBytes x.toNat_lt s

theorem entityBe_encodeEntityId (e : EntityId) (s : Bytes) : entityBe (encodeEntityId e ++ s) = .ok (e, s) := by
  rw [entityBe, encodeEntityId, u64Be_encodeU64]
  simp [bind, Except.bind, pure, Except.pure]

theorem valueOf_encodeValue (v : Value) : valueOf (encodeValue v) = .ok v := by
  have h := decodeValueUsed_encodeValue v []
  rw [append_nil] at h
  simp [valueOf, h]

theorem decodeDatom_encodeDatom (d : Datom) (h : (encodeValue d.v).length < 2 ^ 64) (s : Bytes) :
    decodeDatom (encodeDatom d ++ s) = .ok (d, s) := by
  have hadded : takeBytes 1 ([if d.added then 1 else 0] ++ (beBytes 8 (encodeValue d.v).length ++ (encodeValue d.v ++ s))) =
      .ok ([if d.added then (1 : UInt8) else 0], beBytes 8 (encodeValue d.v).length ++ (encodeValue d.v ++ s)) :=
    @takeBytes_append 1 [if d.added then 1 else 0] rfl _
  simp only [decodeDatom, encodeDatom, append_assoc, entityBe_encodeEntityId, bind, Except.bind, hadded, u64Be_beBytes h,
    takeBytes_append rfl, valueOf_encodeValue, pure, Except.pure]
  cases d with
  | mk e a v tx added => cases added <;> rfl

theorem decodeDatoms_encode (ds : List Datom) (h : ∀ d ∈ ds, (encodeValue d.v).length < 2 ^ 64) (s : Bytes) :
    decodeDatoms ds.length (ds.flatMap encodeDatom ++ s) = .ok (ds, s) := by
  induction ds with
  | nil => rfl
  | cons d ds ih =>
    obtain ⟨hd, hds⟩ := List.forall_mem_cons.mp h
    rw [flatMap_cons, append_assoc, length_cons, decodeDatoms, decodeDatom_encodeDatom d hd]
    simp only [bind, Except.bind, ih hds, pure, Except.pure]

theorem length_encodeDatom (d : Datom) : (encodeDatom d).length = 33 + (encodeValue d.v).length := by
  simp only [encodeDatom, encodeEntityId, length_append, encodeU64_length, beBytes_length, length_singleton]

/-- What fits a frame is read back. -/
theorem decodeRecord_encodeRecord {r : TxRecord} (ht : r.t < 2 ^ 64) (h : (encodeRecord r).length < 2 ^ 64) :
    decodeRecord (encodeRecord r) = .ok r := by
  have hlen : (r.datoms.flatMap encodeDatom).length < 2 ^ 64 := by
    simp only [encodeRecord, length_append] at h
    omega
  have hdatom : ∀ d ∈ r.datoms, (encodeDatom d).length ≤ (r.datoms.flatMap encodeDatom).length :=
    fun d hd => (sublist_flatten_of_mem (mem_map_of_mem hd)).length_le
  have hcount : r.datoms.length < 2 ^ 64 := by
    refine Nat.lt_of_le_of_lt ?_ hlen
    rw [length_flatMap, ← length_map (fun d => (encodeDatom d).length)]
    refine length_le_sum_of_one_le _ fun n hn => ?_
    obtain ⟨d, -, rfl⟩ := List.mem_map.mp hn
    rw [length_encodeDatom]
    omega
  have hdatoms := decodeDatoms_encode r.datoms (fun d hd => by have := hdatom d hd; rw [length_encodeDatom] at this; omega) []
  rw [append_nil] at hdatoms
  simp only [decodeRecord, encodeRecord, append_assoc, u64Be_beBytes ht, u64Be_encodeU64, u64Be_beBytes hcount, hdatoms, bind,
    Except.bind, pure, Except.pure, if_pos]
  simp

/-! ## Sealed -/

/-- `CORIUML1`. -/
def logMagic : Bytes := [0x43, 0x4f, 0x52, 0x49, 0x55, 0x4d, 0x4c, 0x31]

/-- The `t` whose cleartext record looks sealed. -/
def logMagicT : Nat := beValue logMagic

def isEncryptedLogRecord (payload : Bytes) : Bool := logMagic.isPrefixOf payload

def nonceLen : Nat := 12

def aeadTagLen : Nat := 16

/-- AES-256-GCM. -/
structure Aead where
  encrypt : (key nonce aad msg : Bytes) → Bytes
  decrypt : (key nonce aad ciphertext : Bytes) → Option Bytes
  length_encrypt : ∀ key nonce aad msg, (encrypt key nonce aad msg).length = msg.length + aeadTagLen
  decrypt_encrypt : ∀ key nonce aad msg, decrypt key nonce aad (encrypt key nonce aad msg) = some msg

def algorithmAes256Gcm : UInt8 := 2

structure LogHeader where
  epoch : Nat
  t : Nat

def logHeader (h : LogHeader) (nonce : Bytes) : Bytes :=
  logMagic ++ [algorithmAes256Gcm] ++ beBytes 4 h.epoch ++ beBytes 8 h.t ++ nonce

/-- `corium/log-v1`, the lineage with its length, the log version and the header. -/
def logAad (h : LogHeader) (lineage : Bytes) (logVersion : Nat) (nonce : Bytes) : Bytes :=
  utf8 "corium/log-v1" ++ beBytes 8 lineage.length ++ lineage ++ beBytes 8 logVersion ++ logHeader h nonce

def logHeaderLen : Nat := 8 + 1 + 4 + 8 + nonceLen

def parseLogHeader (payload : Bytes) : Except LogError LogHeader :=
  if isEncryptedLogRecord payload = false ∨ payload.length < logHeaderLen + aeadTagLen then .error .crypt
  else if (payload.drop 8).take 1 ≠ [algorithmAes256Gcm] then .error .crypt
  else .ok ⟨beValue ((payload.drop 9).take 4), beValue ((payload.drop 13).take 8)⟩

structure LogCipher where
  lineage : Bytes
  keys : Std.ExtTreeMap Nat Bytes
  currentEpoch : Nat
  /-- New records are sealed under a key there is. -/
  current : currentEpoch ∈ keys
  bounded : currentEpoch < 2 ^ 32

inductive RecordMode where
  | plain
  | sealed (cipher : LogCipher)
  /-- Keyless access: frames are indexed and copied, never opened. -/
  | framesOnly

structure RecordCodec where
  mode : RecordMode := .plain
  logVersion : Nat := 0

section Codec

variable (aead : Aead)

/-- `nonce` is what the random generator gave. -/
def LogCipher.seal (c : LogCipher) (logVersion t : Nat) (nonce plaintext : Bytes) : Bytes :=
  let h : LogHeader := ⟨c.currentEpoch, t⟩
  logHeader h nonce ++ aead.encrypt (c.keys.getD c.currentEpoch []) nonce (logAad h c.lineage logVersion nonce) plaintext

def LogCipher.open (c : LogCipher) (logVersion : Nat) (h : LogHeader) (payload : Bytes) : Except LogError Bytes :=
  match c.keys[h.epoch]? with
  | none => .error (.missingKeyEpoch h.epoch)
  | some key =>
    let nonce := (payload.take logHeaderLen).drop (logHeaderLen - nonceLen)
    match aead.decrypt key nonce (logAad h c.lineage logVersion nonce) (payload.drop logHeaderLen) with
    | some plaintext => .ok plaintext
    | none => .error .crypt

namespace RecordCodec

def encode (codec : RecordCodec) (nonce : Bytes) (r : TxRecord) : Except LogError Bytes :=
  match codec.mode with
  | .sealed cipher => .ok (cipher.seal aead codec.logVersion r.t nonce (encodeRecord r))
  | .plain => .ok (encodeRecord r)
  | .framesOnly => .error .framesOnly

def decode (codec : RecordCodec) (payload : Bytes) : Except LogError TxRecord :=
  match codec.mode, isEncryptedLogRecord payload with
  | .framesOnly, _ => .error .framesOnly
  | .sealed cipher, true => do
    let header ← parseLogHeader payload
    let plaintext ← cipher.open aead codec.logVersion header payload
    let r ← decodeRecord plaintext
    if r.t ≠ header.t then .error .corrupt else pure r
  | .plain, true => .error .encrypted
  | .sealed _, false => .error .unencrypted
  | .plain, false => decodeRecord payload

/-- The transaction number a frame is indexed by. -/
def frameT (codec : RecordCodec) (payload : Bytes) : Except LogError Nat :=
  match codec.mode with
  | .framesOnly =>
    if isEncryptedLogRecord payload then do
      let header ← parseLogHeader payload
      pure header.t
    else do
      let r ← decodeRecord payload
      pure r.t
  | _ => do
    let r ← codec.decode aead payload
    pure r.t

end RecordCodec

/-! ## What is written is read back -/

variable {aead} {codec : RecordCodec} {nonce payload : Bytes} {r : TxRecord}

theorem isEncryptedLogRecord_iff : isEncryptedLogRecord payload = true ↔ logMagic <+: payload := isPrefixOf_iff_prefix

theorem not_encrypted_of_encodeRecord (ht : r.t < 2 ^ 64) (hmagic : r.t ≠ logMagicT) : isEncryptedLogRecord (encodeRecord r) = false := by
  refine Bool.eq_false_iff.mpr fun h => hmagic ?_
  have hprefix := isEncryptedLogRecord_iff.mp h
  rw [encodeRecord, append_assoc, append_assoc] at hprefix
  have heq : logMagic = beBytes 8 r.t :=
    List.IsPrefix.eq_of_length (prefix_of_prefix_length_le hprefix (prefix_append _ _) (by simp [logMagic])) (by simp [logMagic])
  rw [logMagicT, heq, beValue_beBytes (by simpa using ht)]

theorem length_logHeader (h : LogHeader) (hnonce : nonce.length = nonceLen) : (logHeader h nonce).length = logHeaderLen := by
  simp only [logHeader, logMagic, length_append, length_cons, length_nil, beBytes_length, hnonce, logHeaderLen]

theorem isEncrypted_logHeader (h : LogHeader) (nonce rest : Bytes) : isEncryptedLogRecord (logHeader h nonce ++ rest) = true := by
  rw [isEncryptedLogRecord_iff, logHeader]
  simp only [append_assoc]
  exact prefix_append _ _

theorem parseLogHeader_logHeader {h : LogHeader} (hepoch : h.epoch < 2 ^ 32) (ht : h.t < 2 ^ 64) (hnonce : nonce.length = nonceLen)
    {rest : Bytes} (hrest : aeadTagLen ≤ rest.length) : parseLogHeader (logHeader h nonce ++ rest) = .ok h := by
  have hlen : ¬ (logHeader h nonce ++ rest).length < logHeaderLen + aeadTagLen := by
    rw [length_append, length_logHeader h hnonce]
    omega
  have h8 : (logHeader h nonce ++ rest).drop 8 = [algorithmAes256Gcm] ++ (beBytes 4 h.epoch ++ (beBytes 8 h.t ++ (nonce ++ rest))) := by
    simp only [logHeader, append_assoc]
    exact drop_left' rfl
  have h9 : (logHeader h nonce ++ rest).drop 9 = beBytes 4 h.epoch ++ (beBytes 8 h.t ++ (nonce ++ rest)) := by
    rw [← drop_drop (i := 1) (j := 8), h8]
    rfl
  have h13 : (logHeader h nonce ++ rest).drop 13 = beBytes 8 h.t ++ (nonce ++ rest) := by
    rw [← drop_drop (i := 4) (j := 9), h9]
    exact drop_left' (beBytes_length 4 _)
  unfold parseLogHeader
  rw [if_neg (not_or.mpr ⟨by rw [isEncrypted_logHeader]; nofun, hlen⟩), h8, if_neg (by simp), h9, h13, take_left' (beBytes_length 4 _),
    take_left' (beBytes_length 8 _), beValue_beBytes (by simpa using hepoch), beValue_beBytes (by simpa using ht)]

variable {c : LogCipher} {plaintext : Bytes} {logVersion t : Nat}

theorem length_seal (hnonce : nonce.length = nonceLen) :
    (c.seal aead logVersion t nonce plaintext).length = logHeaderLen + (plaintext.length + aeadTagLen) := by
  rw [LogCipher.seal, length_append, length_logHeader _ hnonce, aead.length_encrypt]

theorem parseLogHeader_seal (hnonce : nonce.length = nonceLen) (ht : t < 2 ^ 64) :
    parseLogHeader (c.seal aead logVersion t nonce plaintext) = .ok ⟨c.currentEpoch, t⟩ :=
  parseLogHeader_logHeader c.bounded ht hnonce (by rw [aead.length_encrypt]; omega)

theorem open_seal (hnonce : nonce.length = nonceLen) :
    c.open aead logVersion ⟨c.currentEpoch, t⟩ (c.seal aead logVersion t nonce plaintext) = .ok plaintext := by
  have hkey : c.keys[c.currentEpoch]? = some (c.keys.getD c.currentEpoch []) := by
    obtain ⟨key, hkey⟩ := Option.isSome_iff_exists.mp (Std.ExtTreeMap.isSome_getElem?_iff_mem.mpr c.current)
    rw [Std.ExtTreeMap.getD_eq_getD_getElem?, hkey]
    rfl
  have hnonceOf : ((c.seal aead logVersion t nonce plaintext).take logHeaderLen).drop (logHeaderLen - nonceLen) = nonce := by
    rw [LogCipher.seal, take_left' (length_logHeader _ hnonce), logHeader]
    exact drop_left' (by simp [logMagic, logHeaderLen])
  unfold LogCipher.open
  simp only [hkey, hnonceOf]
  rw [LogCipher.seal, drop_left' (length_logHeader _ hnonce), aead.decrypt_encrypt]

/-- What a codec writes it reads back: sealed records always, cleartext ones but for the `t` that looks sealed. -/
theorem RecordCodec.decode_encode (hnonce : nonce.length = nonceLen) (ht : r.t < 2 ^ 64)
    (hplain : codec.mode = .plain → r.t ≠ logMagicT) (h : codec.encode aead nonce r = .ok payload) (hlen : payload.length < 2 ^ 64) :
    codec.decode aead payload = .ok r ∧ codec.frameT aead payload = .ok r.t := by
  have hdecode : codec.decode aead payload = .ok r := by
    unfold RecordCodec.encode at h
    unfold RecordCodec.decode
    cases hmode : codec.mode with
    | framesOnly =>
      rw [hmode] at h
      cases h
    | plain =>
      rw [hmode] at h
      cases h
      rw [not_encrypted_of_encodeRecord ht (hplain hmode)]
      exact decodeRecord_encodeRecord ht hlen
    | sealed cipher =>
      rw [hmode] at h
      cases h
      have hfits : (encodeRecord r).length < 2 ^ 64 := by
        rw [length_seal hnonce] at hlen
        omega
      have hmagic : isEncryptedLogRecord (cipher.seal aead codec.logVersion r.t nonce (encodeRecord r)) = true :=
        isEncrypted_logHeader _ _ _
      simp only [hmagic, parseLogHeader_seal hnonce ht, open_seal hnonce, decodeRecord_encodeRecord ht hfits, bind, Except.bind, ne_eq,
        not_true_eq_false, if_false, pure, Except.pure]
  refine ⟨hdecode, ?_⟩
  unfold RecordCodec.frameT
  split
  · rename_i hmode
    rw [RecordCodec.encode, hmode] at h
    cases h
  · rw [hdecode]
    rfl

end Codec

end Corium.Log
