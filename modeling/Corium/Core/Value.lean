/-
  Corium.Core.Value — engine values (`crates/corium-core/src/value.rs`) with the
  order the source derives: by variant in declaration order, then by payload.

  A double is its 64 bits; the source compares, equates and encodes it by
  `sortable_bits` alone. A string compares by its UTF-8 bytes.
-/

import Corium.Core.Schema
import Corium.Lib.OrdCode

namespace Corium.Core

open Corium.Lib

/-- `1_u64 << 63`. -/
def signBit : UInt64 := 0x8000000000000000

structure TotalF64 where
  bits : UInt64
  deriving DecidableEq, Repr

def TotalF64.sortableBits (f : TotalF64) : UInt64 :=
  if f.bits &&& signBit = 0 then f.bits ^^^ signBit else ~~~f.bits

instance : Ord TotalF64 := ⟨fun a b => compare a.sortableBits b.sortableBits⟩

/-- `ValueType` in declaration order. -/
def ValueType.tag : ValueType → UInt8
  | .bool => 0
  | .long => 1
  | .double => 2
  | .instant => 3
  | .uuid => 4
  | .keyword => 5
  | .str => 6
  | .bytes => 7
  | .ref => 8

instance : Ord ValueType := ⟨fun a b => compare a.tag b.tag⟩

/-- An encrypted value: protection class, key epoch and declared type in clear,
    and the ciphertext. -/
structure Sealed where
  cls : EntityId
  epoch : UInt32
  vtype : ValueType
  body : Bytes
  deriving DecidableEq, Repr

instance : Ord Sealed := ⟨fun a b =>
  (compare a.cls b.cls).then ((compare a.epoch b.epoch).then
    ((compare a.vtype b.vtype).then (compare a.body b.body)))⟩

inductive Value where
  | bool (b : Bool)
  | long (i : Int64)
  | double (d : TotalF64)
  /-- Milliseconds since Unix epoch, UTC. -/
  | instant (ms : Int64)
  | uuid (u : BitVec 128)
  | keyword (id : KwId)
  | str (s : String)
  | bytes (b : Bytes)
  | ref (e : EntityId)
  /-- Encrypted; sorts after every plaintext type. -/
  | sealed (s : Sealed)
  deriving DecidableEq, Repr

def utf8 (s : String) : Bytes := s.toByteArray.data.toList

theorem utf8_injective : Function.Injective utf8 := by
  intro s t h
  have hd : s.toByteArray.data = t.toByteArray.data := Array.toList_inj.mp h
  exact String.toByteArray_inj.mp (ByteArray.ext hd)

theorem utf8_append (s t : String) : utf8 (s ++ t) = utf8 s ++ utf8 t := by
  simp [utf8, String.toByteArray_append]

namespace Value

/-- Where the variant stands in the declaration. -/
def variant : Value → Nat
  | .bool _ => 0
  | .long _ => 1
  | .double _ => 2
  | .instant _ => 3
  | .uuid _ => 4
  | .keyword _ => 5
  | .str _ => 6
  | .bytes _ => 7
  | .ref _ => 8
  | .sealed _ => 9

instance : Ord Value where
  compare
    | .bool a, .bool b => compare a b
    | .long a, .long b => compare a b
    | .double a, .double b => compare a b
    | .instant a, .instant b => compare a b
    | .uuid a, .uuid b => compare a b
    | .keyword a, .keyword b => compare a b
    | .str a, .str b => compare (utf8 a) (utf8 b)
    | .bytes a, .bytes b => compare a b
    | .ref a, .ref b => compare a b
    | .sealed a, .sealed b => compare a b
    | a, b => compare a.variant b.variant

/-- Whether a value has the requested schema type; a sealed value has the type
    its header declares. -/
def hasType : Value → ValueType → Bool
  | .sealed s, t => s.vtype == t
  | .bool _, .bool => true
  | .long _, .long => true
  | .double _, .double => true
  | .instant _, .instant => true
  | .uuid _, .uuid => true
  | .keyword _, .keyword => true
  | .str _, .str => true
  | .bytes _, .bytes => true
  | .ref _, .ref => true
  | _, _ => false

end Value

end Corium.Core
