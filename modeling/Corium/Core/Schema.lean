/-
  Corium.Core.Schema — the schema model shared by transaction validation and
  peers (`crates/corium-core/src/schema.rs`): attributes, protection classes and
  timelines, documentation and retirement, each a table by attribute id.

  A `BTreeMap` is a `Std.ExtTreeMap`: two maps with the same entries are equal,
  and iteration is in key order.
-/

import Corium.Core.Ids

namespace Corium.Core

inductive ValueType where
  | bool
  | long
  | double
  | instant
  | uuid
  | keyword
  | str
  | bytes
  | ref
  deriving DecidableEq, Repr

inductive Cardinality where
  | one
  | many
  deriving DecidableEq, Repr

inductive Unique where
  /-- Upsert identity. -/
  | identity
  /-- Unique value with conflict errors. -/
  | value
  deriving DecidableEq, Repr

structure Attribute where
  id : AttrId
  valueType : ValueType
  cardinality : Cardinality
  unique : Option Unique
  isComponent : Bool
  indexed : Bool
  noHistory : Bool
  deriving DecidableEq, Repr

inductive SealAlgorithm where
  | aes256GcmSiv
  deriving DecidableEq, Repr

/-- What a sealed value's ciphertext is bound to. -/
inductive ProtectionScope where
  | attribute
  | entity
  deriving DecidableEq, Repr

inductive MissingKeyPolicy where
  | redact
  | hide
  | error
  deriving DecidableEq, Repr

inductive LegacyPlaintextPolicy where
  | redact
  | passThrough
  deriving DecidableEq, Repr

structure ProtectionClass where
  id : EntityId
  keyId : String
  algorithm : SealAlgorithm
  scope : ProtectionScope
  padding : Option UInt32
  onMissingKey : MissingKeyPolicy
  legacyPlaintext : LegacyPlaintextPolicy
  /-- The only epoch an assertion may name. -/
  currentEpoch : UInt32
  deriving DecidableEq, Repr

/-- An attribute's protection over time, `(t, class)` in ascending `t`. -/
structure ProtectionTimeline where
  entries : List (Nat × Option EntityId)
  deriving DecidableEq, Repr

namespace ProtectionTimeline

def unprotected : ProtectionTimeline := ⟨[]⟩

def protectedFrom (t : Nat) (cls : EntityId) : ProtectionTimeline := ⟨[(t, some cls)]⟩

def current (p : ProtectionTimeline) : Option EntityId := p.entries.getLast?.bind (·.2)

def atBasis (p : ProtectionTimeline) (t : Nat) : Option EntityId :=
  (p.entries.takeWhile fun entry => entry.1 ≤ t).getLast?.bind (·.2)

def everProtected (p : ProtectionTimeline) : Bool := p.entries.any (·.2.isSome)

def classes (p : ProtectionTimeline) : List EntityId := p.entries.filterMap (·.2)

def isEmpty (p : ProtectionTimeline) : Bool := p.entries.isEmpty

end ProtectionTimeline

structure Schema where
  attrs : Std.ExtTreeMap AttrId Attribute
  classes : Std.ExtTreeMap EntityId ProtectionClass
  protection : Std.ExtTreeMap AttrId ProtectionTimeline
  docs : Std.ExtTreeMap AttrId String
  retired : Std.ExtTreeSet AttrId
  deriving DecidableEq

namespace Schema

def empty : Schema := ⟨∅, ∅, ∅, ∅, ∅⟩

def insert (s : Schema) (attr : Attribute) : Schema := { s with attrs := s.attrs.insert attr.id attr }

def get (s : Schema) (id : AttrId) : Option Attribute := s.attrs[id]?

def insertClass (s : Schema) (cls : ProtectionClass) : Schema :=
  { s with classes := s.classes.insert cls.id cls }

def cls (s : Schema) (id : EntityId) : Option ProtectionClass := s.classes[id]?

def setProtection (s : Schema) (attr : AttrId) (timeline : ProtectionTimeline) : Schema :=
  if timeline.isEmpty then { s with protection := s.protection.erase attr }
  else { s with protection := s.protection.insert attr timeline }

/-- An attribute's timeline, empty when it has never been protected. -/
def protectionOf (s : Schema) (attr : AttrId) : ProtectionTimeline :=
  s.protection[attr]?.getD ProtectionTimeline.unprotected

/-- The class currently protecting `attr`, resolved through the class table. -/
def protectionClass (s : Schema) (attr : AttrId) : Option ProtectionClass :=
  (s.protectionOf attr).current.bind s.cls

def isProtected (s : Schema) (attr : AttrId) : Bool := (s.protectionOf attr).current.isSome

def setDoc (s : Schema) (attr : AttrId) : Option String → Schema
  | some doc => { s with docs := s.docs.insert attr doc }
  | none => { s with docs := s.docs.erase attr }

def setRetired (s : Schema) (attr : AttrId) (retired : Bool) : Schema :=
  if retired then { s with retired := s.retired.insert attr }
  else { s with retired := s.retired.erase attr }

def isRetired (s : Schema) (attr : AttrId) : Bool := s.retired.contains attr

@[simp] theorem get_insert (s : Schema) (attr : Attribute) (id : AttrId) :
    (s.insert attr).get id = if attr.id = id then some attr else s.get id := by
  simp [insert, get, Std.ExtTreeMap.getElem?_insert]

end Schema

end Corium.Core
