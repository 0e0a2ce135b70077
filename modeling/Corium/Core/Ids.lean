/-
  Corium.Core.Ids — entity ids (`crates/corium-core/src/ids.rs`): 22 bits of
  partition over 42 bits of sequence in one `u64`.

  `new` is written with arithmetic rather than shifts; `new_raw_eq_or` states
  that the bits are the source's. Sequences, transaction numbers and partition
  ids are `Nat`: `new` keeps the source's wrap-around (the sequence is masked to
  42 bits, a partition's bits past 22 are shifted out).
-/

import Mathlib

namespace Corium.Core

/-- Number of low bits reserved for the sequence within a partition. -/
def sequenceBits : Nat := 42

/-- One past the largest sequence. -/
def sequenceLimit : Nat := 2 ^ 42

inductive Partition where
  /-- Schema and database metadata entities. -/
  | db
  /-- Transaction entities. -/
  | tx
  /-- Default user data partition. -/
  | user
  deriving DecidableEq, Repr

/-- The discriminant the source casts to `u32`. -/
def Partition.id : Partition → Nat
  | .db => 0
  | .tx => 1
  | .user => 2

theorem Partition.id_lt (p : Partition) : p.id < 2 ^ 22 := by cases p <;> decide

structure EntityId where
  raw : UInt64
  deriving DecidableEq, Repr, Inhabited

abbrev AttrId := EntityId
abbrev TxId := EntityId
abbrev KwId := UInt64

namespace EntityId

def new (partition sequence : Nat) : EntityId :=
  ⟨UInt64.ofNat (partition * 2 ^ 42 + sequence % 2 ^ 42)⟩

def fromRaw (raw : UInt64) : EntityId := ⟨raw⟩

def partition (e : EntityId) : Nat := e.raw.toNat / 2 ^ 42

def sequence (e : EntityId) : Nat := e.raw.toNat % 2 ^ 42

/-- `e` is in partition `p`: the source compares `partition()` with `p as u32`. -/
def inPartition (e : EntityId) (p : Partition) : Bool := e.partition == p.id

instance : Ord EntityId := ⟨fun a b => compare a.raw b.raw⟩

instance : Std.TransOrd EntityId where
  eq_swap {a b} := by
    show compare a.raw b.raw = (compare b.raw a.raw).swap
    exact Std.OrientedCmp.eq_swap
  isLE_trans {a b c} := by
    show (compare a.raw b.raw).isLE → (compare b.raw c.raw).isLE → (compare a.raw c.raw).isLE
    exact Std.TransCmp.isLE_trans

instance : Std.LawfulEqOrd EntityId where
  compare_self {a} := by
    show compare a.raw a.raw = .eq
    exact Std.ReflCmp.compare_self
  eq_of_compare {a b} h := by
    change compare a.raw b.raw = .eq at h
    have hraw : a.raw = b.raw := Std.LawfulEqCmp.eq_of_compare h
    cases a; cases b
    simp_all

theorem new_raw_toNat (p s : Nat) :
    (new p s).raw.toNat = (p * 2 ^ 42 + s % 2 ^ 42) % 2 ^ 64 := by
  simp [new, UInt64.toNat_ofNat']

@[simp] theorem new_partition {p : Nat} (s : Nat) (hp : p < 2 ^ 22) : (new p s).partition = p := by
  unfold partition
  rw [new_raw_toNat]
  omega

@[simp] theorem new_sequence (p s : Nat) : (new p s).sequence = s % 2 ^ 42 := by
  unfold sequence
  rw [new_raw_toNat]
  omega

theorem sequence_lt (e : EntityId) : e.sequence < 2 ^ 42 := Nat.mod_lt _ (by decide)

/-- An id is its partition and its sequence. -/
theorem ext_iff_parts {e f : EntityId} :
    e = f ↔ e.partition = f.partition ∧ e.sequence = f.sequence := by
  constructor
  · rintro rfl
    exact ⟨rfl, rfl⟩
  · rintro ⟨hp, hs⟩
    unfold partition at hp
    unfold sequence at hs
    have hraw : e.raw.toNat = f.raw.toNat := by omega
    cases e; cases f
    simpa using UInt64.toNat_inj.mp hraw

theorem new_injective_of_lt {p s s' : Nat} (hs : s < 2 ^ 42) (hs' : s' < 2 ^ 42)
    (h : new p s = new p s') : s = s' := by
  have := congrArg sequence h
  rw [new_sequence, new_sequence] at this
  omega

/-- `new` has the bits the source computes with a shift, a mask and an or. -/
theorem new_raw_eq_or (p : UInt32) (s : UInt64) :
    (new p.toNat s.toNat).raw = (p.toUInt64 <<< 42) ||| (s &&& (2 ^ 42 - 1)) := by
  apply UInt64.toNat_inj.mp
  have hmask : s.toNat &&& (2 ^ 42 - 1) = s.toNat % 2 ^ 42 := Nat.and_two_pow_sub_one_eq_mod _ _
  have hlt : s.toNat % 2 ^ 42 < 2 ^ 42 := Nat.mod_lt _ (by decide)
  have hor := Nat.shiftLeft_add_eq_or_of_lt hlt (p.toNat % 2 ^ 22)
  have hshift : p.toNat <<< 42 % 2 ^ 64 = (p.toNat % 2 ^ 22) <<< 42 := by
    rw [Nat.shiftLeft_eq, Nat.shiftLeft_eq]
    omega
  rw [new_raw_toNat, UInt64.toNat_or, UInt64.toNat_shiftLeft, UInt64.toNat_and, UInt32.toNat_toUInt64]
  simp only [show (42 : UInt64).toNat = 42 from rfl, show (2 ^ 42 - 1 : UInt64).toNat = 2 ^ 42 - 1 from rfl]
  rw [hmask, hshift, ← hor, Nat.shiftLeft_eq]
  omega

end EntityId

end Corium.Core
