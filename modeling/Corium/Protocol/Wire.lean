/-
  Corium.Protocol.Wire — the wire format's items (`crates/corium-protocol/src/codec.rs`:
  `Writer`, `Reader`): bytes, variable-length integers, interned strings, and the
  two EDN forms a schema payload holds, keywords and strings.

  A `u64` is a `Nat`: the writer is given one below 2^64, and the reader's result is
  one. Both loops are bounded by the ten groups of seven bits a `u64` has, the
  reader's by its check of the shift. A keyword travels as the text `ns/name`, which
  `Keyword::parse` cuts at the first slash.

  Each item reads back what was written (`reads_u64`, `reads_intern`); a keyword
  reads back as the keyword its text parses to (`reads_keyword`).
-/

import Corium.Core.Keyword
import Corium.Lib.Wire

namespace Corium.Protocol

open Corium.Core Corium.Lib Corium.Lib.Wire

inductive CodecError where
  | truncated
  | unknownTag (tag : UInt8)
  | invalidIntern (index : Nat)
  | invalidUtf8
  | length
  | trailing
  | invalidField (field : String)
  | unsupportedSchemaFormat (format : Nat)
  deriving DecidableEq, Repr

/-! ## Writing -/

namespace Writer

def varintLoop : Nat → Nat → Bytes
  | 0, _ => []
  | rounds + 1, n =>
    if n / 128 = 0 then [UInt8.ofNat (n % 128)] else UInt8.ofNat (n % 128 + 128) :: varintLoop rounds (n / 128)

def varint (n : Nat) : Bytes := varintLoop 10 n

def u64 (n : Nat) : Write := .raw (varint n)

def byte (b : UInt8) : Write := .raw [b]

/-- The first use of a string defines the next index; later uses write the index, counted from one. -/
def intern (s : String) : Write where
  run table :=
    if s ∈ table then (varint (table.idxOf s + 1), table)
    else (varint 0 ++ varint (utf8 s).length ++ utf8 s, table ++ [s])
  grows table := by
    split <;> simp

def keywordName : UInt8 := 0x61

def strInterned : UInt8 := 0x71

def keyword (k : Keyword) : List Write := [byte keywordName, intern k.text]

def str (s : String) : List Write := [byte strInterned, intern s]

end Writer

/-! ## Reading -/

namespace Reader

def take (n : Nat) : Reader CodecError Bytes := fun input =>
  if n ≤ input.bytes.length then .ok (input.bytes.take n, { input with bytes := input.bytes.drop n })
  else .error .truncated

def byte : Reader CodecError UInt8 := fun input =>
  match input.bytes with
  | [] => .error .truncated
  | b :: rest => .ok (b, { input with bytes := rest })

def u64Loop : Nat → Nat → Nat → Reader CodecError Nat
  | 0, _, _ => throw .length
  | rounds + 1, shift, out => do
    let b ← byte
    let out := out ||| (b.toNat % 128) <<< shift % 2 ^ 64
    if b.toNat < 128 then pure out else u64Loop rounds (shift + 7) out

def u64 : Reader CodecError Nat := u64Loop 10 0 0

def define (bytes : Bytes) : Reader CodecError String := fun input =>
  match String.fromUTF8? ⟨bytes.toArray⟩ with
  | some s => .ok (s, { input with table := input.table ++ [s] })
  | none => .error .invalidUtf8

def lookup (index : Nat) : Reader CodecError String := fun input =>
  match input.table[index - 1]? with
  | some s => .ok (s, input)
  | none => .error (.invalidIntern index)

def intern : Reader CodecError String := do
  let index ← u64
  if index = 0 then
    let len ← u64
    let bytes ← take len
    define bytes
  else lookup index

/-- The tags of the EDN forms other than keywords and strings. -/
def otherForms : List UInt8 := [0x00, 0x10, 0x20, 0x30, 0xA0, 0xA1, 0xA2, 0xA3, 0xA4, 0xA5]

/-- A form that has to be of one kind. The source reads any form through and then
    refuses it; here another form is refused by its tag. -/
def form (tag : UInt8) (field : String) : Reader CodecError String := do
  let found ← byte
  if found = tag then intern
  else if found ∈ [Writer.keywordName, Writer.strInterned] ++ otherForms then throw (.invalidField field)
  else throw (.unknownTag found)

def keyword (field : String) : Reader CodecError Keyword := do
  let text ← form Writer.keywordName field
  pure (.parse text)

def str (field : String) : Reader CodecError String := form Writer.strInterned field

def expectEnd : Reader CodecError Unit := fun input =>
  if input.bytes = [] then .ok ((), input) else .error .trailing

/-- Runs a reader over a whole message. -/
def decode {α : Type} (r : Reader CodecError α) (bytes : Bytes) : Except CodecError α :=
  ((do let a ← r; expectEnd; pure a : Reader CodecError α).run ⟨bytes, []⟩).map (·.1)

end Reader

/-- The message of a list of items. -/
def message (ws : List Write) : Bytes := (writeAll ws []).1

/-! ## Round trips of the items -/

open Reader in
theorem run_byte (b : UInt8) (rest : Bytes) (t : Table) : byte.run ⟨b :: rest, t⟩ = .ok (b, ⟨rest, t⟩) := rfl

theorem or_shiftLeft {shift out : Nat} (m : Nat) (h : out < 2 ^ shift) : out ||| m <<< shift = out + m * 2 ^ shift := by
  rw [Nat.or_comm, ← Nat.shiftLeft_add_eq_or_of_lt h, Nat.shiftLeft_eq, Nat.add_comm]

/-- The reader's loop takes the writer's groups off, lowest first: what is read so far
    fills the bits below the shift. -/
theorem run_u64Loop {rounds shift out n : Nat} (hn : n < 2 ^ (7 * rounds)) (hr : 0 < rounds) (hout : out < 2 ^ shift)
    (hfit : out + n * 2 ^ shift < 2 ^ 64) (rest : Bytes) (t : Table) :
    (Reader.u64Loop rounds shift out).run ⟨Writer.varintLoop rounds n ++ rest, t⟩ =
      .ok (out + n * 2 ^ shift, ⟨rest, t⟩) := by
  induction rounds generalizing shift out n with
  | zero => exact absurd hr (Nat.lt_irrefl 0)
  | succ rounds ih =>
    have hlow : ((n % 128) <<< shift) % 2 ^ 64 = (n % 128) <<< shift := by
      refine Nat.mod_eq_of_lt ?_
      rw [Nat.shiftLeft_eq]
      have : n % 128 * 2 ^ shift ≤ n * 2 ^ shift := Nat.mul_le_mul_right _ (Nat.mod_le _ _)
      omega
    unfold Reader.u64Loop Writer.varintLoop
    split
    · have hbyte : (UInt8.ofNat (n % 128)).toNat = n := by
        rw [UInt8.toNat_ofNat']
        omega
      have hsmall : n % 128 = n := by omega
      rw [List.singleton_append, run_bind_ok (run_byte _ rest t)]
      simp only [hbyte, hlow, or_shiftLeft _ hout]
      rw [if_pos (by omega), hsmall]
      rfl
    · have hbyte : (UInt8.ofNat (n % 128 + 128)).toNat = n % 128 + 128 := by
        rw [UInt8.toNat_ofNat']
        omega
      have hmod : (n % 128 + 128) % 128 = n % 128 := by omega
      have hsplit : out + n * 2 ^ shift = out + n % 128 * 2 ^ shift + n / 128 * 2 ^ (shift + 7) := by
        have hdiv : n = n % 128 + n / 128 * 128 := by omega
        calc out + n * 2 ^ shift = out + (n % 128 + n / 128 * 128) * 2 ^ shift := by rw [← hdiv]
          _ = _ := by rw [Nat.pow_add]; ring
      rw [List.cons_append, run_bind_ok (run_byte _ _ t)]
      simp only [hbyte, hmod, hlow, or_shiftLeft _ hout]
      rw [if_neg (by omega), hsplit]
      have hrounds : n / 128 < 2 ^ (7 * rounds) := by
        rw [Nat.div_lt_iff_lt_mul (by decide), show (128 : Nat) = 2 ^ 7 from rfl, ← Nat.pow_add]
        exact hn
      refine ih hrounds ?_ ?_ (hsplit ▸ hfit)
      · rcases Nat.eq_zero_or_pos rounds with rfl | h
        · omega
        · exact h
      · have hlt : n % 128 * 2 ^ shift ≤ 127 * 2 ^ shift := Nat.mul_le_mul_right _ (by omega)
        rw [Nat.pow_add]
        omega

variable {n : Nat} {s : String}

theorem run_u64 (hn : n < 2 ^ 64) (rest : Bytes) (t : Table) :
    Reader.u64.run ⟨Writer.varint n ++ rest, t⟩ = .ok (n, ⟨rest, t⟩) := by
  have h := @run_u64Loop 10 0 0 n (by omega) (by decide) (by decide) (by omega) rest t
  rwa [Nat.pow_zero, Nat.mul_one, Nat.zero_add] at h

theorem reads_u64 (hn : n < 2 ^ 64) : Reads Reader.u64 [Writer.u64 n] n := by
  intro t rest _
  simp only [writeAll, Writer.u64, Write.raw, List.append_nil]
  exact run_u64 hn rest t

theorem reads_byte (b : UInt8) : Reads Reader.byte [Writer.byte b] b := fun _ _ _ => rfl

theorem run_take (bytes rest : Bytes) (t : Table) :
    (Reader.take bytes.length).run ⟨bytes ++ rest, t⟩ = .ok (bytes, ⟨rest, t⟩) := by
  simp [Reader.take, StateT.run]

theorem run_define (s : String) (rest : Bytes) (t : Table) :
    (Reader.define (utf8 s)).run ⟨rest, t⟩ = .ok (s, ⟨rest, t ++ [s]⟩) := by
  have hvalid : String.fromUTF8? ⟨(utf8 s).toArray⟩ = some s := by
    have hbytes : (⟨(utf8 s).toArray⟩ : ByteArray) = s.toByteArray := by simp [utf8]
    rw [hbytes, String.fromUTF8?, dif_pos s.isValidUTF8]
    rfl
  simp [Reader.define, StateT.run, hvalid]

theorem run_lookup {t : Table} (h : s ∈ t) (rest : Bytes) :
    (Reader.lookup (t.idxOf s + 1)).run ⟨rest, t⟩ = .ok (s, ⟨rest, t⟩) := by
  simp [Reader.lookup, StateT.run, List.getElem?_idxOf h]

theorem reads_intern (hs : (utf8 s).length < 2 ^ 64) : Reads Reader.intern [Writer.intern s] s := by
  intro t rest hlen
  simp only [writeAll, Writer.intern, List.append_nil]
  unfold Reader.intern
  split
  · have hidx := List.idxOf_lt_length_iff.mpr ‹s ∈ t›
    rw [run_bind_ok (run_u64 (by simp at hlen; omega) rest t), if_neg (Nat.succ_ne_zero _)]
    exact run_lookup ‹_› rest
  · rw [List.append_assoc, List.append_assoc, run_bind_ok (run_u64 (by decide) _ t), if_pos rfl,
      run_bind_ok (run_u64 hs _ t), run_bind_ok (run_take _ rest t)]
    exact run_define s rest t

theorem reads_form (tag : UInt8) (field : String) (hs : (utf8 s).length < 2 ^ 64) :
    Reads (Reader.form tag field) [Writer.byte tag, Writer.intern s] s := by
  refine (reads_byte tag).cons ?_
  rw [if_pos rfl]
  exact reads_intern hs

theorem reads_keyword {k : Keyword} (field : String) (hk : (utf8 k.text).length < 2 ^ 64) :
    Reads (Reader.keyword field) (Writer.keyword k) (.parse k.text) :=
  (reads_form _ field hk).then_pure (.pure _)

theorem reads_str (field : String) (hs : (utf8 s).length < 2 ^ 64) :
    Reads (Reader.str field) (Writer.str s) s := reads_form _ field hs

/-- A message that reads back decodes, with nothing left over. -/
theorem decode_message {α : Type} {r : Reader CodecError α} {ws : List Write} {a : α} (h : Reads r ws a)
    (hlen : ws.length < 2 ^ 64) : Reader.decode r (message ws) = .ok a := by
  have hrun := h [] [] (by simpa using hlen)
  rw [List.append_nil] at hrun
  unfold Reader.decode message
  rw [run_bind_ok hrun]
  rfl

end Corium.Protocol
