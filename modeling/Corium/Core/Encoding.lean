/-
  Corium.Core.Encoding — the sortable binary encoding of values and key
  components (`crates/corium-core/src/encoding.rs`).

  Every encoder here is an `OrdCode`: byte order is value order, and a code
  delimits itself. `decodeValueUsed` is the source's decoder, which returns how many
  bytes it used; `decodeValue`, which the rest of the development reads keys with,
  returns what follows them. Both read a value back from in front of anything
  (`value_code_is_ordered_and_self_delimiting`).
-/

import Corium.Core.Value

namespace Corium.Core

open Corium.Lib List

/-! ## Encoders -/

def encodeU64 (x : UInt64) : Bytes := beBytes 8 x.toNat

def encodeU32 (x : UInt32) : Bytes := beBytes 4 x.toNat

def encodeEntityId (e : EntityId) : Bytes := encodeU64 e.raw

/-- The sign bit is flipped, so negative numbers sort first. -/
def encodeI64 (x : Int64) : Bytes := encodeU64 (x.toUInt64 ^^^ signBit)

/-- A zero byte is written `00 ff`, the end `00 00`. -/
def encodeEscaped : Bytes → Bytes
  | [] => [0, 0]
  | b :: bs => if b = 0 then 0 :: 0xff :: encodeEscaped bs else b :: encodeEscaped bs

def tagBool : UInt8 := 0x10
def tagLong : UInt8 := 0x20
def tagDouble : UInt8 := 0x30
def tagInstant : UInt8 := 0x40
def tagUuid : UInt8 := 0x50
def tagKeyword : UInt8 := 0x60
def tagStr : UInt8 := 0x70
def tagBytes : UInt8 := 0x80
def tagRef : UInt8 := 0x90
def tagSealed : UInt8 := 0xA0

def encodeSealed (s : Sealed) : Bytes :=
  encodeEntityId s.cls ++ (encodeU32 s.epoch ++ (s.vtype.tag :: encodeEscaped s.body))

def encodeValue : Value → Bytes
  | .bool b => [tagBool, if b then 1 else 0]
  | .long i => tagLong :: encodeI64 i
  | .double d => tagDouble :: encodeU64 d.sortableBits
  | .instant i => tagInstant :: encodeI64 i
  | .uuid u => tagUuid :: beBytes 16 u.toNat
  | .keyword k => tagKeyword :: encodeU64 k
  | .str s => tagStr :: encodeEscaped (utf8 s)
  | .bytes b => tagBytes :: encodeEscaped b
  | .ref e => tagRef :: encodeEntityId e
  | .sealed s => tagSealed :: encodeSealed s

/-! ## The sign bit -/

variable {n : Nat} {bs : Bytes}

theorem testBit_63 (h : n < 2 ^ 64) : n.testBit 63 = decide (2 ^ 63 ≤ n) := by
  rw [Nat.testBit_eq_decide_div_mod_eq]
  have : n / 2 ^ 63 % 2 = 1 ↔ 2 ^ 63 ≤ n := by omega
  simp only [this]

theorem signBit_clear_iff (b : UInt64) : b &&& signBit = 0 ↔ b.toNat < 2 ^ 63 := by
  have h : (b &&& signBit).toNat = (b.toNat.testBit 63).toNat * 2 ^ 63 := by
    rw [UInt64.toNat_and]
    exact Nat.and_two_pow b.toNat 63
  rw [← UInt64.toNat_inj, h, testBit_63 b.toNat_lt]
  by_cases hb : 2 ^ 63 ≤ b.toNat
  · simp only [hb, decide_true, Bool.toNat_true, UInt64.toNat_zero]; omega
  · simp only [hb, decide_false, Bool.toNat_false, UInt64.toNat_zero]; omega

theorem xor_two_pow_63 {m : Nat} (h : m < 2 ^ 63) : m ^^^ 2 ^ 63 = m + 2 ^ 63 := by
  have hor := Nat.two_pow_add_eq_or_of_lt h 1
  have hand : m &&& 2 ^ 63 = 0 := by
    rw [Nat.and_two_pow, Nat.testBit_eq_false_of_lt h]
    rfl
  apply Nat.eq_of_testBit_eq
  intro i
  have hi := congrArg (Nat.testBit · i) hand
  rw [Nat.add_comm, ← Nat.mul_one (2 ^ 63), hor, Nat.testBit_xor, Nat.testBit_or]
  simp only [Nat.testBit_and, Nat.zero_testBit, Nat.mul_one] at hi ⊢
  revert hi
  cases m.testBit i <;> cases (2 ^ 63).testBit i <;> decide

theorem xor_signBit_toNat (b : UInt64) :
    (b ^^^ signBit).toNat = if b.toNat < 2 ^ 63 then b.toNat + 2 ^ 63 else b.toNat - 2 ^ 63 := by
  rw [UInt64.toNat_xor]
  show b.toNat ^^^ 2 ^ 63 = _
  split
  · exact xor_two_pow_63 ‹_›
  · obtain ⟨m, hm⟩ : ∃ m, b.toNat = m + 2 ^ 63 := ⟨b.toNat - 2 ^ 63, by omega⟩
    have hlt : m < 2 ^ 63 := by have := b.toNat_lt; omega
    rw [hm, ← xor_two_pow_63 hlt, Nat.xor_assoc, Nat.xor_self, Nat.xor_zero, xor_two_pow_63 hlt]
    omega

theorem toNat_flip_sign (x : Int64) : ((x.toUInt64 ^^^ signBit).toNat : Int) = x.toInt + 2 ^ 63 := by
  have h : x.toInt = x.toUInt64.toBitVec.toInt := rfl
  have hlt := x.toUInt64.toNat_lt
  rw [h, BitVec.toInt_eq_toNat_cond, xor_signBit_toNat]
  show _ = (if 2 * x.toUInt64.toNat < 2 ^ 64 then (x.toUInt64.toNat : Int)
    else (x.toUInt64.toNat : Int) - (2 ^ 64 : Nat)) + _
  split <;> split <;> omega

theorem sortableBits_toNat (d : TotalF64) :
    d.sortableBits.toNat =
      if d.bits.toNat < 2 ^ 63 then d.bits.toNat + 2 ^ 63 else 2 ^ 64 - 1 - d.bits.toNat := by
  unfold TotalF64.sortableBits
  by_cases h : d.bits.toNat < 2 ^ 63
  · rw [if_pos ((signBit_clear_iff _).mpr h), xor_signBit_toNat, if_pos h, if_pos h]
  · rw [if_neg fun hc => h ((signBit_clear_iff _).mp hc), if_neg h, UInt64.toNat_not]
    rfl

theorem sortableBits_injective : Function.Injective TotalF64.sortableBits := by
  intro a b h
  have hn := congrArg UInt64.toNat h
  have ha := a.bits.toNat_lt
  have hb := b.bits.toNat_lt
  rw [sortableBits_toNat, sortableBits_toNat] at hn
  have : a.bits.toNat = b.bits.toNat := by split at hn <;> split at hn <;> omega
  cases a; cases b
  simpa using UInt64.toNat_inj.mp this

/-! ## Byte order is value order -/

theorem ordCode_encodeU64 : OrdCode encodeU64 :=
  ordCode_beBytes 8 UInt64.toNat (fun x => x.toNat_lt) fun x y => (UInt64.compare_eq_toNat_compare_toNat x y).symm

theorem ordCode_encodeU32 : OrdCode encodeU32 :=
  ordCode_beBytes 4 UInt32.toNat (fun x => x.toNat_lt) fun x y => (UInt32.compare_eq_toNat_compare_toNat x y).symm

theorem ordCode_encodeEntityId : OrdCode encodeEntityId :=
  ordCode_encodeU64.comp EntityId.raw fun _ _ => rfl

theorem ordCode_encodeI64 : OrdCode encodeI64 := by
  refine ordCode_encodeU64.comp (fun x : Int64 => x.toUInt64 ^^^ signBit) fun x y => ?_
  have hx := toNat_flip_sign x
  have hy := toNat_flip_sign y
  rw [UInt64.compare_eq_toNat_compare_toNat]
  show compareOfLessAndEq _ _ = compareOfLessAndEq x y
  have hlt : (x.toUInt64 ^^^ signBit).toNat < (y.toUInt64 ^^^ signBit).toNat ↔ x < y := by
    rw [Int64.lt_iff_toInt_lt]; omega
  have heq : (x.toUInt64 ^^^ signBit).toNat = (y.toUInt64 ^^^ signBit).toNat ↔ x = y := by
    rw [← Int64.toInt_inj]; omega
  simp only [compareOfLessAndEq, hlt, heq]

theorem ordCode_encodeUuid : OrdCode fun u : BitVec 128 => beBytes 16 u.toNat := by
  refine ordCode_beBytes 16 BitVec.toNat (fun u => u.isLt) fun x y => ?_
  show compareOfLessAndEq x.toNat y.toNat = compareOfLessAndEq x y
  simp only [compareOfLessAndEq, BitVec.lt_def, ← BitVec.toNat_inj]

theorem ordCode_encodeEscaped : OrdCode encodeEscaped := by
  have hzero : ∀ b : UInt8, b ≠ 0 → compare 0 b = .lt ∧ compare b 0 = .gt := by
    intro b hb
    have hpos : 0 < b.toNat := Nat.pos_of_ne_zero fun h => hb (UInt8.toNat_inj.mp h)
    rw [UInt8.compare_eq_toNat_compare_toNat, UInt8.compare_eq_toNat_compare_toNat]
    exact ⟨Nat.compare_eq_lt.mpr hpos, Nat.compare_eq_gt.mpr hpos⟩
  have hff : compare (0 : UInt8) 0xff = .lt ∧ compare (0xff : UInt8) 0 = .gt := by decide
  intro x
  induction x with
  | nil =>
    intro y s t
    cases y with
    | nil => simp [encodeEscaped]
    | cons c y =>
      rw [compare_nil_cons]
      by_cases hc : c = 0
      · simp [encodeEscaped, hc, hff]
      · simp [encodeEscaped, hc, hzero c hc]
  | cons b x ih =>
    intro y s t
    cases y with
    | nil =>
      rw [compare_cons_nil]
      by_cases hb : b = 0
      · simp [encodeEscaped, hb, hff]
      · simp [encodeEscaped, hb, hzero b hb]
    | cons c y =>
      rw [compare_cons_cons b c, Ordering.then_assoc, ← ih y s t]
      by_cases hb : b = 0 <;> by_cases hc : c = 0
      · simp [encodeEscaped, hb, hc]
      · simp [encodeEscaped, hb, hc, hzero c hc]
      · simp [encodeEscaped, hb, hc, hzero b hb]
      · simp [encodeEscaped, hb, hc]

theorem ordCode_encodeSealed : OrdCode encodeSealed := by
  intro x y s t
  show _ = ((compare x.cls y.cls).then ((compare x.epoch y.epoch).then
    ((compare x.vtype y.vtype).then (compare x.body y.body)))).then _
  simp only [encodeSealed, append_assoc, cons_append, Ordering.then_assoc]
  rw [ordCode_encodeEntityId, ordCode_encodeU32, compare_cons_cons, ordCode_encodeEscaped]
  rfl

/-- Values compare as their codes. Two values of one variant share the tag and
    compare by payload; values of different variants compare by tag. -/
theorem ordCode_encodeValue : OrdCode encodeValue := by
  have hbool : OrdCode fun b : Bool => [if b then (1 : UInt8) else 0] := by
    intro x y s t
    cases x <;> cases y <;> simp <;> rfl
  intro x y s t
  cases x <;> cases y <;> simp only [encodeValue, cons_append]
  case bool.bool a b => rw [compare_cons_same]; exact hbool a b s t
  case long.long a b => rw [compare_cons_same]; exact ordCode_encodeI64 a b s t
  case double.double a b => rw [compare_cons_same]; exact ordCode_encodeU64 _ _ s t
  case instant.instant a b => rw [compare_cons_same]; exact ordCode_encodeI64 a b s t
  case uuid.uuid a b => rw [compare_cons_same]; exact ordCode_encodeUuid a b s t
  case keyword.keyword a b => rw [compare_cons_same]; exact ordCode_encodeU64 a b s t
  case str.str a b => rw [compare_cons_same]; exact ordCode_encodeEscaped _ _ s t
  case bytes.bytes a b => rw [compare_cons_same]; exact ordCode_encodeEscaped a b s t
  case ref.ref a b => rw [compare_cons_same]; exact ordCode_encodeEntityId a b s t
  case sealed.sealed a b => rw [compare_cons_same]; exact ordCode_encodeSealed a b s t
  all_goals rfl

instance : Std.LawfulEqOrd ValueType where
  compare_self {a} := compare_same a.tag
  eq_of_compare {a b} h := by
    have htag : a.tag = b.tag := eq_of_compare_eq h
    cases a <;> cases b <;> first | rfl | exact absurd htag (by decide)

instance : Std.LawfulEqOrd Sealed where
  compare_self {a} := by
    show (compare a.cls a.cls).then ((compare a.epoch a.epoch).then
      ((compare a.vtype a.vtype).then (compare a.body a.body))) = .eq
    simp only [compare_same, Ordering.eq_then]
  eq_of_compare {a b} h := by
    change (compare a.cls b.cls).then ((compare a.epoch b.epoch).then
      ((compare a.vtype b.vtype).then (compare a.body b.body))) = .eq at h
    simp only [Ordering.then_eq_eq, Std.LawfulEqOrd.compare_eq_iff_eq] at h
    obtain ⟨hcls, hepoch, hvtype, hbody⟩ := h
    cases a; cases b
    simp_all

instance : Std.TransOrd Value where
  eq_swap {a b} := by
    rw [← ordCode_encodeValue.compare_eq, ← ordCode_encodeValue.compare_eq b a]
    exact Std.OrientedCmp.eq_swap
  isLE_trans {a b c} := by
    rw [← ordCode_encodeValue.compare_eq, ← ordCode_encodeValue.compare_eq b c, ← ordCode_encodeValue.compare_eq a c]
    exact Std.TransCmp.isLE_trans

instance : Std.LawfulEqOrd Value where
  compare_self {a} := by
    rw [← ordCode_encodeValue.compare_eq, compare_same]
  eq_of_compare {a b} h := by
    cases a <;> cases b
    case bool.bool => exact congrArg Value.bool (eq_of_compare_eq h)
    case long.long => exact congrArg Value.long (eq_of_compare_eq h)
    case double.double => exact congrArg Value.double (sortableBits_injective (eq_of_compare_eq h))
    case instant.instant => exact congrArg Value.instant (eq_of_compare_eq h)
    case uuid.uuid => exact congrArg Value.uuid (eq_of_compare_eq h)
    case keyword.keyword => exact congrArg Value.keyword (eq_of_compare_eq h)
    case str.str => exact congrArg Value.str (utf8_injective (eq_of_compare_eq h))
    case bytes.bytes => exact congrArg Value.bytes (eq_of_compare_eq h)
    case ref.ref => exact congrArg Value.ref (eq_of_compare_eq h)
    case sealed.sealed => exact congrArg Value.sealed (eq_of_compare_eq h)
    all_goals first | cases (h : Ordering.lt = .eq) | cases (h : Ordering.gt = .eq)

/-! ## Decoders -/

inductive DecodeError where
  | truncated
  | unknownTag (tag : UInt8)
  | invalidEscape
  | invalidUtf8
  | trailing
  | invalidValueType (tag : UInt8)
  deriving DecidableEq, Repr

def ValueType.fromTag (tag : UInt8) : Except DecodeError ValueType :=
  if tag = 0 then .ok .bool
  else if tag = 1 then .ok .long
  else if tag = 2 then .ok .double
  else if tag = 3 then .ok .instant
  else if tag = 4 then .ok .uuid
  else if tag = 5 then .ok .keyword
  else if tag = 6 then .ok .str
  else if tag = 7 then .ok .bytes
  else if tag = 8 then .ok .ref
  else .error (.invalidValueType tag)

/-- The first `n` bytes and what follows them. -/
def splitFixed (n : Nat) (input : Bytes) : Except DecodeError (Bytes × Bytes) :=
  if n ≤ input.length then .ok (input.take n, input.drop n) else .error .truncated

def decodeU64 (input : Bytes) : Except DecodeError (UInt64 × Bytes) := do
  let (bytes, rest) ← splitFixed 8 input
  return (UInt64.ofNat (beValue bytes), rest)

def decodeEntityId (input : Bytes) : Except DecodeError (EntityId × Bytes) := do
  let (raw, rest) ← decodeU64 input
  return (⟨raw⟩, rest)

def decodeI64 (input : Bytes) : Except DecodeError (Int64 × Bytes) := do
  let (raw, rest) ← decodeU64 input
  return ((raw ^^^ signBit).toInt64, rest)

def decodeF64Bits (s : UInt64) : UInt64 := if s &&& signBit = 0 then ~~~s else s ^^^ signBit

def decodeEscaped : Bytes → Except DecodeError (Bytes × Bytes)
  | [] => .error .truncated
  | [b] => if b = 0 then .error .invalidEscape else .error .truncated
  | b :: c :: rest =>
    if b = 0 then
      if c = 0 then .ok ([], rest)
      else if c = 0xff then do
        let (out, rest) ← decodeEscaped rest
        return (0 :: out, rest)
      else .error .invalidEscape
    else do
      let (out, rest) ← decodeEscaped (c :: rest)
      return (b :: out, rest)

def decodeSealed (input : Bytes) : Except DecodeError (Sealed × Bytes) := do
  let (cls, rest) ← decodeEntityId input
  let (epoch, rest) ← splitFixed 4 rest
  let (vtype, rest) ← splitFixed 1 rest
  let vtype ← ValueType.fromTag (UInt8.ofNat (beValue vtype))
  let (body, rest) ← decodeEscaped rest
  return ({ cls, epoch := UInt32.ofNat (beValue epoch), vtype, body }, rest)

def decodeValue : Bytes → Except DecodeError (Value × Bytes)
  | [] => .error .truncated
  | tag :: rest => do
    if tag = tagBool then
      let (b, rest) ← splitFixed 1 rest
      return (.bool (beValue b != 0), rest)
    else if tag = tagLong then
      let (i, rest) ← decodeI64 rest
      return (.long i, rest)
    else if tag = tagDouble then
      let (bits, rest) ← decodeU64 rest
      return (.double ⟨decodeF64Bits bits⟩, rest)
    else if tag = tagInstant then
      let (i, rest) ← decodeI64 rest
      return (.instant i, rest)
    else if tag = tagUuid then
      let (u, rest) ← splitFixed 16 rest
      return (.uuid (BitVec.ofNat 128 (beValue u)), rest)
    else if tag = tagKeyword then
      let (k, rest) ← decodeU64 rest
      return (.keyword k, rest)
    else if tag = tagRef then
      let (e, rest) ← decodeEntityId rest
      return (.ref e, rest)
    else if tag = tagStr then
      let (bytes, rest) ← decodeEscaped rest
      match String.fromUTF8? ⟨bytes.toArray⟩ with
      | some s => return (.str s, rest)
      | none => .error .invalidUtf8
    else if tag = tagBytes then
      let (bytes, rest) ← decodeEscaped rest
      return (.bytes bytes, rest)
    else if tag = tagSealed then
      let (s, rest) ← decodeSealed rest
      return (.sealed s, rest)
    else .error (.unknownTag tag)

/-! ## Round trips -/

theorem splitFixed_append (h : bs.length = n) (s : Bytes) : splitFixed n (bs ++ s) = .ok (bs, s) := by
  subst h
  simp [splitFixed]

theorem decodeU64_encodeU64 (x : UInt64) (s : Bytes) : decodeU64 (encodeU64 x ++ s) = .ok (x, s) := by
  have hx : x.toNat < 256 ^ 8 := x.toNat_lt
  simp only [decodeU64, encodeU64, splitFixed_append (beBytes_length 8 _), bind, Except.bind, pure, Except.pure,
    beValue_beBytes hx, UInt64.ofNat_toNat]

theorem decodeEntityId_encodeEntityId (e : EntityId) (s : Bytes) :
    decodeEntityId (encodeEntityId e ++ s) = .ok (e, s) := by
  simp only [decodeEntityId, encodeEntityId, decodeU64_encodeU64, bind, Except.bind, pure, Except.pure]

theorem decodeI64_encodeI64 (x : Int64) (s : Bytes) : decodeI64 (encodeI64 x ++ s) = .ok (x, s) := by
  have hx : (x.toUInt64 ^^^ signBit) ^^^ signBit = x.toUInt64 := by
    rw [UInt64.xor_assoc, UInt64.xor_self, UInt64.xor_zero]
  simp only [decodeI64, encodeI64, decodeU64_encodeU64, bind, Except.bind, pure, Except.pure, hx]
  rfl

theorem decodeF64Bits_sortableBits (d : TotalF64) : decodeF64Bits d.sortableBits = d.bits := by
  apply UInt64.toNat_inj.mp
  have hb := d.bits.toNat_lt
  have hs := sortableBits_toNat d
  unfold decodeF64Bits
  by_cases h : d.bits.toNat < 2 ^ 63
  · rw [if_pos h] at hs
    have hset : ¬ d.sortableBits.toNat < 2 ^ 63 := by omega
    rw [if_neg fun hc => hset ((signBit_clear_iff _).mp hc), xor_signBit_toNat, if_neg hset]
    omega
  · rw [if_neg h] at hs
    have hclear : d.sortableBits.toNat < 2 ^ 63 := by omega
    rw [if_pos ((signBit_clear_iff _).mpr hclear), UInt64.toNat_not]
    show 2 ^ 64 - 1 - _ = _
    omega

/-- An escaped string is never empty. -/
theorem encodeEscaped_ne_nil (bs s : Bytes) : ∃ c cs, encodeEscaped bs ++ s = c :: cs := by
  cases bs with
  | nil => exact ⟨_, _, rfl⟩
  | cons d ds =>
    by_cases hd : d = 0
    · exact ⟨0, _, by simp [encodeEscaped, hd]; rfl⟩
    · exact ⟨d, _, by simp [encodeEscaped, hd]; rfl⟩

theorem decodeEscaped_encodeEscaped (bs s : Bytes) : decodeEscaped (encodeEscaped bs ++ s) = .ok (bs, s) := by
  induction bs with
  | nil => simp [encodeEscaped, decodeEscaped]
  | cons b bs ih =>
    by_cases hb : b = 0
    · simp [encodeEscaped, decodeEscaped, hb, ih, bind, Except.bind, pure, Except.pure]
    · obtain ⟨c, cs, hc⟩ := encodeEscaped_ne_nil bs s
      simp only [encodeEscaped, hb, if_false, cons_append, hc, decodeEscaped]
      rw [← hc, ih]
      rfl

theorem fromTag_tag (t : ValueType) : ValueType.fromTag t.tag = .ok t := by cases t <;> rfl

theorem splitFixed_one (b : UInt8) (s : Bytes) : splitFixed 1 (b :: s) = .ok ([b], s) := by
  simp [splitFixed]

theorem beValue_singleton (b : UInt8) : beValue [b] = b.toNat := by simp [beValue]

theorem decodeSealed_encodeSealed (x : Sealed) (s : Bytes) :
    decodeSealed (encodeSealed x ++ s) = .ok (x, s) := by
  have hepoch : x.epoch.toNat < 256 ^ 4 := x.epoch.toNat_lt
  simp only [decodeSealed, encodeSealed, encodeU32, append_assoc, cons_append,
    decodeEntityId_encodeEntityId, splitFixed_append (beBytes_length 4 _), splitFixed_one, beValue_singleton,
    UInt8.ofNat_toNat, fromTag_tag, decodeEscaped_encodeEscaped, beValue_beBytes hepoch, UInt32.ofNat_toNat,
    bind, Except.bind, pure, Except.pure]

theorem fromUTF8_utf8 (s : String) : String.fromUTF8? ⟨(utf8 s).toArray⟩ = some s := by
  have h : (⟨(utf8 s).toArray⟩ : ByteArray) = s.toByteArray := by
    apply ByteArray.ext
    simp [utf8]
  rw [h]
  simp only [String.fromUTF8?, s.isValidUTF8, dite_true]
  rfl

theorem decodeValue_encodeValue (v : Value) (s : Bytes) : decodeValue (encodeValue v ++ s) = .ok (v, s) := by
  cases v with
  | bool b => cases b <;> rfl
  | long i =>
    simp [encodeValue, decodeValue, tagBool, tagLong, decodeI64_encodeI64, bind, Except.bind, pure, Except.pure]
  | double d =>
    simp [encodeValue, decodeValue, tagBool, tagLong, tagDouble, decodeU64_encodeU64, decodeF64Bits_sortableBits,
      bind, Except.bind, pure, Except.pure]
  | instant i =>
    simp [encodeValue, decodeValue, tagBool, tagLong, tagDouble, tagInstant, decodeI64_encodeI64,
      bind, Except.bind, pure, Except.pure]
  | uuid u =>
    have hu : u.toNat < 256 ^ 16 := u.isLt
    simp [encodeValue, decodeValue, tagBool, tagLong, tagDouble, tagInstant, tagUuid,
      splitFixed_append (beBytes_length 16 _), beValue_beBytes hu, bind, Except.bind, pure, Except.pure]
  | keyword k =>
    simp [encodeValue, decodeValue, tagBool, tagLong, tagDouble, tagInstant, tagUuid, tagKeyword,
      decodeU64_encodeU64, bind, Except.bind, pure, Except.pure]
  | ref e =>
    simp [encodeValue, decodeValue, tagBool, tagLong, tagDouble, tagInstant, tagUuid, tagKeyword, tagRef,
      decodeEntityId_encodeEntityId, bind, Except.bind, pure, Except.pure]
  | str x =>
    simp [encodeValue, decodeValue, tagBool, tagLong, tagDouble, tagInstant, tagUuid, tagKeyword, tagRef, tagStr,
      decodeEscaped_encodeEscaped, fromUTF8_utf8, bind, Except.bind, pure, Except.pure]
  | bytes b =>
    simp [encodeValue, decodeValue, tagBool, tagLong, tagDouble, tagInstant, tagUuid, tagKeyword, tagRef, tagStr,
      tagBytes, decodeEscaped_encodeEscaped, bind, Except.bind, pure, Except.pure]
  | sealed x =>
    simp [encodeValue, decodeValue, tagBool, tagLong, tagDouble, tagInstant, tagUuid, tagKeyword, tagRef, tagStr,
      tagBytes, tagSealed, decodeSealed_encodeSealed, bind, Except.bind, pure, Except.pure]

/-! ## Bytes used -/

def decodeEscapedUsed : Bytes → Except DecodeError (Bytes × Nat)
  | [] => .error .truncated
  | [b] => if b = 0 then .error .invalidEscape else .error .truncated
  | b :: c :: rest =>
    if b = 0 then
      if c = 0 then .ok ([], 2)
      else if c = 0xff then do
        let (out, used) ← decodeEscapedUsed rest
        return (0 :: out, used + 2)
      else .error .invalidEscape
    else do
      let (out, used) ← decodeEscapedUsed (c :: rest)
      return (b :: out, used + 1)

/-- `bytes[from..to]`, or the input ends before. -/
def slice (input : Bytes) (lo hi : Nat) : Except DecodeError Bytes :=
  if hi ≤ input.length then .ok ((input.take hi).drop lo) else .error .truncated

def decodeValueUsed : Bytes → Except DecodeError (Value × Nat)
  | [] => .error .truncated
  | tag :: rest => do
    if tag = tagBool then
      let b ← slice rest 0 1
      return (.bool (beValue b != 0), 2)
    else if tag = tagLong then
      let i ← slice rest 0 8
      return (.long (UInt64.ofNat (beValue i) ^^^ signBit).toInt64, 9)
    else if tag = tagDouble then
      let bits ← slice rest 0 8
      return (.double ⟨decodeF64Bits (UInt64.ofNat (beValue bits))⟩, 9)
    else if tag = tagInstant then
      let i ← slice rest 0 8
      return (.instant (UInt64.ofNat (beValue i) ^^^ signBit).toInt64, 9)
    else if tag = tagUuid then
      let u ← slice rest 0 16
      return (.uuid (BitVec.ofNat 128 (beValue u)), 17)
    else if tag = tagKeyword then
      let k ← slice rest 0 8
      return (.keyword (UInt64.ofNat (beValue k)), 9)
    else if tag = tagRef then
      let e ← slice rest 0 8
      return (.ref ⟨UInt64.ofNat (beValue e)⟩, 9)
    else if tag = tagStr then
      let (bytes, used) ← decodeEscapedUsed rest
      match String.fromUTF8? ⟨bytes.toArray⟩ with
      | some s => return (.str s, used + 1)
      | none => .error .invalidUtf8
    else if tag = tagBytes then
      let (bytes, used) ← decodeEscapedUsed rest
      return (.bytes bytes, used + 1)
    else if tag = tagSealed then
      let cls ← slice rest 0 8
      let epoch ← slice rest 8 12
      let vtype ← slice rest 12 13
      let vtype ← ValueType.fromTag (UInt8.ofNat (beValue vtype))
      let (body, used) ← decodeEscapedUsed (rest.drop 13)
      return (.sealed { cls := ⟨UInt64.ofNat (beValue cls)⟩, epoch := UInt32.ofNat (beValue epoch), vtype, body },
        1 + 13 + used)
    else .error (.unknownTag tag)

theorem slice_between {lo hi : Nat} {before bs : Bytes} (hlo : before.length = lo) (hhi : lo + bs.length = hi) (s : Bytes) :
    slice (before ++ (bs ++ s)) lo hi = .ok bs := by
  subst hlo hhi
  rw [slice, if_pos (by simp), ← append_assoc, ← length_append, take_left, drop_left]

theorem slice_append (h : bs.length = n) (s : Bytes) : slice (bs ++ s) 0 n = .ok bs :=
  @slice_between 0 n [] bs rfl (by rw [Nat.zero_add, h]) s

theorem decodeEscapedUsed_encodeEscaped (bs s : Bytes) :
    decodeEscapedUsed (encodeEscaped bs ++ s) = .ok (bs, (encodeEscaped bs).length) := by
  induction bs with
  | nil => simp [encodeEscaped, decodeEscapedUsed]
  | cons b bs ih =>
    by_cases hb : b = 0
    · simp [encodeEscaped, decodeEscapedUsed, hb, ih, bind, Except.bind, pure, Except.pure]
    · obtain ⟨c, cs, hc⟩ := encodeEscaped_ne_nil bs s
      simp only [encodeEscaped, hb, if_false, cons_append, hc, decodeEscapedUsed]
      rw [← hc, ih]
      rfl

theorem ofNat_beValue_encodeU64 (x : UInt64) : UInt64.ofNat (beValue (encodeU64 x)) = x := by
  have hx : x.toNat < 256 ^ 8 := x.toNat_lt
  rw [encodeU64, beValue_beBytes hx, UInt64.ofNat_toNat]

theorem slice_encodeU64 (x : UInt64) (s : Bytes) : slice (encodeU64 x ++ s) 0 8 = .ok (encodeU64 x) :=
  slice_append (beBytes_length 8 _) s

theorem encodeU64_length (x : UInt64) : (encodeU64 x).length = 8 := beBytes_length 8 _

theorem decodeValueUsed_sealed (x : Sealed) (s : Bytes) :
    decodeValueUsed (encodeValue (.sealed x) ++ s) = .ok (.sealed x, (encodeValue (.sealed x)).length) := by
  have hepoch : x.epoch.toNat < 256 ^ 4 := x.epoch.toNat_lt
  have hcls : (encodeEntityId x.cls).length = 8 := beBytes_length 8 _
  have hlen : (encodeU32 x.epoch).length = 4 := beBytes_length 4 _
  -- the header is thirteen bytes: class, epoch and type
  have hrest : encodeSealed x ++ s =
      encodeEntityId x.cls ++ (encodeU32 x.epoch ++ ([x.vtype.tag] ++ (encodeEscaped x.body ++ s))) := by
    simp [encodeSealed]
  have h₁ : slice (encodeSealed x ++ s) 0 8 = .ok (encodeEntityId x.cls) := by
    rw [hrest]
    exact slice_append hcls _
  have h₂ : slice (encodeSealed x ++ s) 8 12 = .ok (encodeU32 x.epoch) := by
    rw [hrest]
    exact slice_between hcls (by rw [hlen]) _
  have h₃ : slice (encodeSealed x ++ s) 12 13 = .ok [x.vtype.tag] := by
    rw [hrest, ← append_assoc]
    exact slice_between (by rw [length_append, hcls, hlen]) rfl _
  have h₄ : (encodeSealed x ++ s).drop 13 = encodeEscaped x.body ++ s := by
    rw [hrest, ← append_assoc, ← append_assoc, drop_left']
    simp [hcls, hlen]
  have hbody := decodeEscapedUsed_encodeEscaped x.body s
  have hraw : UInt64.ofNat (beValue (encodeEntityId x.cls)) = x.cls.raw := ofNat_beValue_encodeU64 x.cls.raw
  have hep : UInt32.ofNat (beValue (encodeU32 x.epoch)) = x.epoch := by
    rw [encodeU32, beValue_beBytes hepoch, UInt32.ofNat_toNat]
  have hused : 1 + 13 + (encodeEscaped x.body).length = (encodeValue (.sealed x)).length := by
    simp [encodeValue, encodeSealed, hcls, hlen]
    omega
  simp only [encodeValue, cons_append] at hused ⊢
  simp [decodeValueUsed, tagBool, tagLong, tagDouble, tagInstant, tagUuid, tagKeyword, tagRef, tagStr, tagBytes, tagSealed,
    h₁, h₂, h₃, h₄, hbody, hraw, hep, beValue_singleton, fromTag_tag, bind, Except.bind, pure, Except.pure]
  simpa using hused

theorem decodeValueUsed_encodeValue (v : Value) (s : Bytes) :
    decodeValueUsed (encodeValue v ++ s) = .ok (v, (encodeValue v).length) := by
  cases v with
  | bool b => cases b <;> rfl
  | long i =>
    simp [encodeValue, decodeValueUsed, tagBool, tagLong, encodeI64, slice_encodeU64, ofNat_beValue_encodeU64,
      encodeU64_length, bind, Except.bind, pure, Except.pure]
  | double d =>
    simp [encodeValue, decodeValueUsed, tagBool, tagLong, tagDouble, slice_encodeU64, ofNat_beValue_encodeU64,
      decodeF64Bits_sortableBits, encodeU64_length, bind, Except.bind, pure, Except.pure]
  | instant i =>
    simp [encodeValue, decodeValueUsed, tagBool, tagLong, tagDouble, tagInstant, encodeI64, slice_encodeU64,
      ofNat_beValue_encodeU64, encodeU64_length, bind, Except.bind, pure, Except.pure]
  | uuid u =>
    have hu : u.toNat < 256 ^ 16 := u.isLt
    simp [encodeValue, decodeValueUsed, tagBool, tagLong, tagDouble, tagInstant, tagUuid,
      slice_append (beBytes_length 16 _), beValue_beBytes hu, bind, Except.bind, pure, Except.pure]
  | keyword k =>
    simp [encodeValue, decodeValueUsed, tagBool, tagLong, tagDouble, tagInstant, tagUuid, tagKeyword,
      slice_encodeU64, ofNat_beValue_encodeU64, encodeU64_length, bind, Except.bind, pure, Except.pure]
  | ref e =>
    simp [encodeValue, decodeValueUsed, tagBool, tagLong, tagDouble, tagInstant, tagUuid, tagKeyword, tagRef,
      encodeEntityId, slice_encodeU64, ofNat_beValue_encodeU64, encodeU64_length, bind, Except.bind, pure, Except.pure]
  | str x =>
    simp [encodeValue, decodeValueUsed, tagBool, tagLong, tagDouble, tagInstant, tagUuid, tagKeyword, tagRef, tagStr,
      decodeEscapedUsed_encodeEscaped, fromUTF8_utf8, bind, Except.bind, pure, Except.pure]
  | bytes b =>
    simp [encodeValue, decodeValueUsed, tagBool, tagLong, tagDouble, tagInstant, tagUuid, tagKeyword, tagRef, tagStr,
      tagBytes, decodeEscapedUsed_encodeEscaped, bind, Except.bind, pure, Except.pure]
  | sealed x => exact decodeValueUsed_sealed x s

/--
  The code of values: byte order is value order, a value is read back from in front of any bytes with the number of
  bytes it takes, and no value's code starts another's.
-/
theorem value_code_is_ordered_and_self_delimiting (v w : Value) :
    compare (encodeValue v) (encodeValue w) = compare v w ∧
      (∀ s, decodeValueUsed (encodeValue v ++ s) = .ok (v, (encodeValue v).length)) ∧
      (encodeValue v <+: encodeValue w ↔ v = w) := by
  refine ⟨ordCode_encodeValue.compare_eq v w, decodeValueUsed_encodeValue v, fun h => ?_, fun h => h ▸ prefix_refl _⟩
  obtain ⟨s, hs⟩ := h
  exact (ordCode_encodeValue.append_inj (hs.trans (append_nil _).symm)).1

end Corium.Core
