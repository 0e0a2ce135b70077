/-
  Corium.Core.Datom — datoms and covering index keys
  (`crates/corium-core/src/datom.rs`): the components of the index's order, each
  a self-delimiting code, then eight bytes of `(tx << 1) | added`.

  Two keys share their components exactly when the datoms state one fact, and
  then compare by transaction and, within one transaction, a retraction before
  an assertion (`compare_key_same_fact`). `fromKey_key` is the round trip.
-/

import Corium.Core.Encoding

namespace Corium.Core

open Corium.Lib

/-- One assertion (`added`) or retraction of a fact. -/
structure Datom where
  e : EntityId
  a : AttrId
  v : Value
  tx : TxId
  added : Bool
  deriving DecidableEq, Repr

/-- What a datom asserts or retracts. -/
abbrev Fact := EntityId × AttrId × Value

instance transOrdFact : Std.TransOrd Fact := transOrdPair

instance transOrdEntityAttribute : Std.TransOrd (EntityId × AttrId) := transOrdPair

def Datom.fact (d : Datom) : Fact := (d.e, d.a, d.v)

inductive IndexOrder where
  | eavt
  | aevt
  | avet
  | vaet
  deriving DecidableEq, Repr

/-- Byte width of the trailing `(tx, added)` component. -/
def keyTxSuffixLen : Nat := 8

/-- The fact prefix of a complete covering-index key. -/
def keyComponents (key : Bytes) : Bytes := key.take (key.length - keyTxSuffixLen)

/-- A fact's components in an index's order. -/
def factComponents : IndexOrder → Fact → Bytes
  | .eavt, (e, a, v) => encodeEntityId e ++ (encodeEntityId a ++ encodeValue v)
  | .aevt, (e, a, v) => encodeEntityId a ++ (encodeEntityId e ++ encodeValue v)
  | .avet, (e, a, v) => encodeEntityId a ++ (encodeValue v ++ encodeEntityId e)
  | .vaet, (e, a, v) => encodeValue v ++ (encodeEntityId a ++ encodeEntityId e)

def txAdded (tx : TxId) (added : Bool) : UInt64 := (tx.raw <<< 1) ||| (if added then 1 else 0)

def encodeTxAdded (tx : TxId) (added : Bool) : Bytes := encodeU64 (txAdded tx added)

namespace Datom

def key (d : Datom) (order : IndexOrder) : Bytes :=
  factComponents order d.fact ++ encodeTxAdded d.tx d.added

def fromKey (order : IndexOrder) (input : Bytes) : Except DecodeError Datom := do
  let ((e, a, v), rest) ← match order with
    | .eavt => do
      let (e, rest) ← decodeEntityId input
      let (a, rest) ← decodeEntityId rest
      let (v, rest) ← decodeValue rest
      pure ((e, a, v), rest)
    | .aevt => do
      let (a, rest) ← decodeEntityId input
      let (e, rest) ← decodeEntityId rest
      let (v, rest) ← decodeValue rest
      pure ((e, a, v), rest)
    | .avet => do
      let (a, rest) ← decodeEntityId input
      let (v, rest) ← decodeValue rest
      let (e, rest) ← decodeEntityId rest
      pure ((e, a, v), rest)
    | .vaet => do
      let (v, rest) ← decodeValue input
      let (a, rest) ← decodeEntityId rest
      let (e, rest) ← decodeEntityId rest
      pure ((e, a, v), rest)
  let (txAdded, rest) ← decodeU64 rest
  if rest ≠ [] then .error .trailing
  else return { e, a, v, tx := ⟨txAdded >>> 1⟩, added := txAdded &&& 1 == 1 }

end Datom

/-! ## The transaction suffix -/

variable {tx : TxId}

theorem txAdded_toNat (h : tx.raw.toNat < 2 ^ 63) (added : Bool) :
    (txAdded tx added).toNat = 2 * tx.raw.toNat + added.toNat := by
  have hor := Nat.shiftLeft_add_eq_or_of_lt (i := 1) (b := added.toNat) (by cases added <;> decide) tx.raw.toNat
  have hadded : (if added then (1 : UInt64) else 0).toNat = added.toNat := by cases added <;> rfl
  unfold txAdded
  rw [UInt64.toNat_or, UInt64.toNat_shiftLeft, hadded]
  rw [Nat.shiftLeft_eq] at hor ⊢
  have hsh : tx.raw.toNat * 2 ^ ((1 : UInt64).toNat % 64) % 2 ^ 64 = tx.raw.toNat * 2 ^ 1 :=
    Nat.mod_eq_of_lt (by show tx.raw.toNat * 2 < 2 ^ 64; omega)
  rw [hsh, ← hor]
  omega

theorem txAdded_decode (h : tx.raw.toNat < 2 ^ 63) (added : Bool) :
    (⟨txAdded tx added >>> 1⟩ : TxId) = tx ∧ (txAdded tx added &&& 1 == 1) = added := by
  have hn := txAdded_toNat h added
  have hb : added.toNat ≤ 1 := by cases added <;> decide
  constructor
  · have : txAdded tx added >>> 1 = tx.raw := by
      apply UInt64.toNat_inj.mp
      rw [UInt64.toNat_shiftRight, hn, Nat.shiftRight_eq_div_pow]
      show (2 * tx.raw.toNat + added.toNat) / 2 = _
      omega
    rw [this]
  · have hand : (txAdded tx added &&& 1).toNat = added.toNat := by
      rw [UInt64.toNat_and, hn]
      show (2 * tx.raw.toNat + added.toNat) &&& (2 ^ 1 - 1) = _
      rw [Nat.and_two_pow_sub_one_eq_mod]
      omega
    have hval : txAdded tx added &&& 1 = if added then 1 else 0 := by
      apply UInt64.toNat_inj.mp
      rw [hand]
      cases added <;> rfl
    rw [hval]
    cases added <;> rfl

@[simp] theorem encodeTxAdded_length (tx : TxId) (added : Bool) : (encodeTxAdded tx added).length = 8 :=
  beBytes_length 8 _

/-! ## Components -/

/-- A fact's components delimit themselves and determine the fact. -/
theorem factComponents_append_inj (order : IndexOrder) {f g : Fact} {s t : Bytes}
    (h : factComponents order f ++ s = factComponents order g ++ t) : f = g ∧ s = t := by
  obtain ⟨e, a, v⟩ := f
  obtain ⟨e', a', v'⟩ := g
  cases order <;> simp only [factComponents, List.append_assoc] at h
  case eavt =>
    obtain ⟨h1, hs1⟩ := ordCode_encodeEntityId.append_inj h
    obtain ⟨h2, hs2⟩ := ordCode_encodeEntityId.append_inj hs1
    obtain ⟨h3, hs3⟩ := ordCode_encodeValue.append_inj hs2
    exact ⟨by rw [h1, h2, h3], hs3⟩
  case aevt =>
    obtain ⟨h1, hs1⟩ := ordCode_encodeEntityId.append_inj h
    obtain ⟨h2, hs2⟩ := ordCode_encodeEntityId.append_inj hs1
    obtain ⟨h3, hs3⟩ := ordCode_encodeValue.append_inj hs2
    exact ⟨by rw [h1, h2, h3], hs3⟩
  case avet =>
    obtain ⟨h1, hs1⟩ := ordCode_encodeEntityId.append_inj h
    obtain ⟨h2, hs2⟩ := ordCode_encodeValue.append_inj hs1
    obtain ⟨h3, hs3⟩ := ordCode_encodeEntityId.append_inj hs2
    exact ⟨by rw [h1, h2, h3], hs3⟩
  case vaet =>
    obtain ⟨h1, hs1⟩ := ordCode_encodeValue.append_inj h
    obtain ⟨h2, hs2⟩ := ordCode_encodeEntityId.append_inj hs1
    obtain ⟨h3, hs3⟩ := ordCode_encodeEntityId.append_inj hs2
    exact ⟨by rw [h1, h2, h3], hs3⟩

theorem factComponents_injective (order : IndexOrder) : Function.Injective (factComponents order) := by
  intro f g h
  exact (factComponents_append_inj order (s := []) (t := []) (by rw [h])).1

namespace Datom

theorem keyComponents_key (d : Datom) (order : IndexOrder) :
    keyComponents (d.key order) = factComponents order d.fact := by
  simp [keyComponents, key, keyTxSuffixLen]

/-- Two keys share their components exactly when the datoms state one fact. -/
theorem keyComponents_eq_iff (d d' : Datom) (order : IndexOrder) :
    keyComponents (d.key order) = keyComponents (d'.key order) ↔ d.fact = d'.fact := by
  rw [keyComponents_key, keyComponents_key]
  exact (factComponents_injective order).eq_iff

variable {d d' : Datom}

/-- Keys of one fact sort by transaction, a retraction before an assertion. -/
theorem compare_key_same_fact (order : IndexOrder) (hf : d.fact = d'.fact)
    (hd : d.tx.raw.toNat < 2 ^ 63) (hd' : d'.tx.raw.toNat < 2 ^ 63) : compare (d.key order) (d'.key order) =
      compare (2 * d.tx.raw.toNat + d.added.toNat) (2 * d'.tx.raw.toNat + d'.added.toNat) := by
  unfold key encodeTxAdded
  rw [hf, compare_append_left, ordCode_encodeU64.compare_eq, UInt64.compare_eq_toNat_compare_toNat,
    txAdded_toNat hd, txAdded_toNat hd']

theorem key_injective (order : IndexOrder) (hd : d.tx.raw.toNat < 2 ^ 63)
    (hd' : d'.tx.raw.toNat < 2 ^ 63) (h : d.key order = d'.key order) : d = d' := by
  obtain ⟨hf, hs⟩ := factComponents_append_inj order h
  have htx : txAdded d.tx d.added = txAdded d'.tx d'.added := ordCode_encodeU64.injective hs
  obtain ⟨h1, h2⟩ := txAdded_decode hd d.added
  obtain ⟨h1', h2'⟩ := txAdded_decode hd' d'.added
  rw [htx] at h1 h2
  have htx' := h1.symm.trans h1'
  have hadded := h2.symm.trans h2'
  obtain ⟨e, a, v, tx, added⟩ := d
  obtain ⟨e', a', v', tx', added'⟩ := d'
  simp only [fact, Prod.mk.injEq] at hf htx' hadded
  obtain ⟨rfl, rfl, rfl⟩ := hf
  subst htx' hadded
  rfl

/-- Whatever the transaction, a key reads back the fact. -/
theorem fromKey_key_eq (d : Datom) (order : IndexOrder) :
    fromKey order (d.key order) = .ok { d with
      tx := ⟨txAdded d.tx d.added >>> 1⟩, added := txAdded d.tx d.added &&& 1 == 1 } := by
  have hsuffix : decodeU64 (encodeTxAdded d.tx d.added) = .ok (txAdded d.tx d.added, []) := by
    have := decodeU64_encodeU64 (txAdded d.tx d.added) []
    rwa [List.append_nil] at this
  cases order <;>
    simp only [fromKey, key, factComponents, fact, List.append_assoc, decodeEntityId_encodeEntityId,
      decodeValue_encodeValue, bind, Except.bind, pure, Except.pure, hsuffix, ne_eq, not_true, if_false]

theorem fromKey_key (order : IndexOrder) (h : d.tx.raw.toNat < 2 ^ 63) : fromKey order (d.key order) = .ok d := by
  obtain ⟨htx, hadded⟩ := txAdded_decode h d.added
  rw [fromKey_key_eq, htx, hadded]

end Datom

end Corium.Core
