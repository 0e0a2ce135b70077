/-
  Corium.Core.Canonical — which bytes the value decoder accepts
  (`decode_value` and `decode_escaped` of `crates/corium-core/src/encoding.rs`).

  Sign-flipped numbers, the sortable bits of a double, tags, escaped strings and
  UTF-8 have one reading each. The byte of a boolean is only asked whether it is
  zero, so of its two hundred and fifty-six readings two are the encoder's own.
  `Reads` says that bytes are an encoding up to such flags.
-/

import Corium.Core.Encoding
import Corium.Lib.Result

namespace Corium.Core

open Corium.Lib List

/-- A byte of an encoding; of a `flag` the decoder asks only whether it is zero. -/
structure Mark where
  byte : UInt8
  flag : Bool

def Mark.Reads (m : Mark) (b : UInt8) : Prop := b = m.byte ∨ (m.flag = true ∧ m.byte = 1 ∧ b ≠ 0)

/-- The bytes are the encoding, but for non-zero flags written `1`. -/
def Reads (marks : List Mark) (bytes : Bytes) : Prop := List.Forall₂ Mark.Reads marks bytes

def plain (bs : Bytes) : List Mark := bs.map (⟨·, false⟩)

def flagOf (b : Bool) : Mark := ⟨if b then 1 else 0, true⟩

def markedValue : Value → List Mark
  | .bool b => [⟨tagBool, false⟩, flagOf b]
  | v => plain (encodeValue v)

theorem map_byte_plain (bs : Bytes) : (plain bs).map Mark.byte = bs := by
  rw [plain, map_map]
  exact map_id bs

theorem map_byte_markedValue (v : Value) : (markedValue v).map Mark.byte = encodeValue v := by
  cases v
  case bool b => rfl
  all_goals exact map_byte_plain _

theorem reads_plain (bs : Bytes) : Reads (plain bs) bs := by
  induction bs with
  | nil => exact .nil
  | cons b bs ih => exact .cons (.inl rfl) ih

variable {bs input : Bytes}

theorem Reads.append {marks marks' : List Mark} {bs' : Bytes} (h : Reads marks bs) (h' : Reads marks' bs') :
    Reads (marks ++ marks') (bs ++ bs') := rel_append h h'

theorem reads_flagOf (b : UInt8) : Reads [flagOf (b != 0)] [b] := by
  refine .cons ?_ .nil
  by_cases hb : b = 0
  · exact .inl (by simp [flagOf, hb])
  · exact .inr ⟨rfl, by simp [flagOf, hb], hb⟩

/-- Bytes without a flag that is neither `0` nor `1` are the encoding itself. -/
theorem Reads.eq_of_flags {marks : List Mark} (h : Reads marks bs)
    (hflags : ∀ i (hm : i < marks.length) (hb : i < bs.length), (marks.get ⟨i, hm⟩).flag = true → bs.get ⟨i, hb⟩ ≤ 1) :
    marks.map Mark.byte = bs := by
  induction h with
  | nil => rfl
  | @cons m b marks bs hm h ih =>
    have hrest := ih fun i hi hb => hflags (i + 1) (Nat.succ_lt_succ hi) (Nat.succ_lt_succ hb)
    have hhead : m.byte = b := by
      obtain heq | ⟨hflag, hone, hne⟩ := hm
      · exact heq.symm
      · have hle : b ≤ 1 := hflags 0 (Nat.succ_pos _) (Nat.succ_pos _) hflag
        have hpos : b.toNat ≠ 0 := fun h0 => hne (UInt8.toNat_inj.mp h0)
        rw [hone]
        apply UInt8.toNat_inj.mp
        have : b.toNat ≤ 1 := UInt8.le_iff_toNat_le.mp hle
        show 1 = b.toNat
        omega
    rw [map_cons, hrest, hhead]

/-! ## The parts of a value -/

theorem slice_at_eq_ok {lo hi : Nat} (h : slice input lo hi = .ok bs) (hle : lo ≤ hi) :
    input.drop lo = bs ++ input.drop hi ∧ bs.length = hi - lo := by
  rw [slice] at h
  split at h
  · next hhi =>
    cases h
    have hdrop : input.drop hi = (input.drop lo).drop (hi - lo) := by rw [drop_drop, Nat.add_sub_cancel' hle]
    rw [drop_take, hdrop, take_append_drop, length_take, length_drop]
    exact ⟨rfl, by omega⟩
  · cases h

theorem slice_eq_ok {n : Nat} (h : slice input 0 n = .ok bs) : ∃ rest, input = bs ++ rest ∧ bs.length = n :=
  ⟨input.drop n, slice_at_eq_ok h (Nat.zero_le n)⟩

theorem encodeU64_ofNat_beValue (h : bs.length = 8) : encodeU64 (UInt64.ofNat (beValue bs)) = bs := by
  have hlt := beValue_lt bs
  rw [h] at hlt
  rw [encodeU64, UInt64.toNat_ofNat_of_lt' hlt, ← h, beBytes_beValue]

theorem encodeU32_ofNat_beValue (h : bs.length = 4) : encodeU32 (UInt32.ofNat (beValue bs)) = bs := by
  have hlt := beValue_lt bs
  rw [h] at hlt
  rw [encodeU32, UInt32.toNat_ofNat_of_lt' hlt, ← h, beBytes_beValue]

theorem beBytes_ofNat_beValue (h : bs.length = 16) : beBytes 16 (BitVec.ofNat 128 (beValue bs)).toNat = bs := by
  have hlt : beValue bs < 2 ^ 128 := by
    have hlt := beValue_lt bs
    rwa [h] at hlt
  rw [BitVec.toNat_ofNat, Nat.mod_eq_of_lt hlt, ← h, beBytes_beValue]

theorem encodeI64_flip (x : UInt64) : encodeI64 (x ^^^ signBit).toInt64 = encodeU64 x := by
  have hx : (x ^^^ signBit).toInt64.toUInt64 ^^^ signBit = x := by
    show (x ^^^ signBit) ^^^ signBit = x
    rw [UInt64.xor_assoc, UInt64.xor_self, UInt64.xor_zero]
  rw [encodeI64, hx]

theorem sortableBits_decodeF64Bits (s : UInt64) : (TotalF64.mk (decodeF64Bits s)).sortableBits = s := by
  apply UInt64.toNat_inj.mp
  have hs := s.toNat_lt
  rw [sortableBits_toNat, decodeF64Bits]
  by_cases h : s.toNat < 2 ^ 63
  · have hnot : (~~~s).toNat = 2 ^ 64 - 1 - s.toNat := UInt64.toNat_not s
    rw [if_pos ((signBit_clear_iff _).mpr h), hnot, if_neg (by omega)]
    omega
  · rw [if_neg fun hc => h ((signBit_clear_iff _).mp hc), xor_signBit_toNat, if_neg h, if_pos (by omega)]
    omega

theorem fromTag_eq_ok {tag : UInt8} {t : ValueType} (h : ValueType.fromTag tag = .ok t) : t.tag = tag := by
  rw [ValueType.fromTag] at h
  split_ifs at h <;> cases h <;> exact Eq.symm ‹_›

theorem utf8_fromUTF8 {s : String} (h : String.fromUTF8? ⟨bs.toArray⟩ = some s) : utf8 s = bs := by
  rw [String.fromUTF8?] at h
  split at h
  · cases h
    rfl
  · cases h

/-- The escape has one reading: what `decodeEscapedUsed` accepts is what `encodeEscaped` writes. -/
theorem decodeEscapedUsed_eq_ok {out : Bytes} {used : Nat} (h : decodeEscapedUsed input = .ok (out, used)) :
    ∃ rest, input = encodeEscaped out ++ rest ∧ used = (encodeEscaped out).length := by
  fun_induction decodeEscapedUsed input generalizing out used with
  | case1 => cases h
  | case2 => cases h
  | case3 => cases h
  | case4 rest =>
    cases h
    exact ⟨rest, rfl, rfl⟩
  | case5 rest hne ih =>
    obtain ⟨⟨out', used'⟩, hrec, heq⟩ := bind_eq_ok.mp h
    cases heq
    obtain ⟨rest', rfl, rfl⟩ := ih hrec
    exact ⟨rest', by simp [encodeEscaped], by simp [encodeEscaped]⟩
  | case6 => cases h
  | case7 b c rest hb ih =>
    obtain ⟨⟨out', used'⟩, hrec, heq⟩ := bind_eq_ok.mp h
    cases heq
    obtain ⟨rest', hrest, rfl⟩ := ih hrec
    exact ⟨rest', by rw [hrest]; simp [encodeEscaped, hb], by simp [encodeEscaped, hb]⟩

/-! ## A value -/

section Tagged

variable {tag : UInt8} {rest : Bytes} {v : Value} {used : Nat}

/-- What a decoded value says about the bytes it was read from. -/
def ReadFrom (input : Bytes) (v : Value) (used : Nat) : Prop :=
  ∃ bytes rest, input = bytes ++ rest ∧ used = bytes.length ∧ Reads (markedValue v) bytes

theorem readFrom_of_encode (v : Value) {bytes after : Bytes} (hmark : markedValue v = plain (encodeValue v)) (h : encodeValue v = bytes) :
    ReadFrom (bytes ++ after) v bytes.length := by
  refine ⟨bytes, after, rfl, rfl, ?_⟩
  rw [hmark, h]
  exact reads_plain bytes

theorem fixed_readFrom {n : Nat} {f : Bytes → Value}
    (h : (do let bs ← slice rest 0 n; pure (f bs, n + 1)) = Except.ok (v, used))
    (hmark : ∀ bs, markedValue (f bs) = plain (encodeValue (f bs)))
    (hf : ∀ bs, bs.length = n → encodeValue (f bs) = tag :: bs) : ReadFrom (tag :: rest) v used := by
  obtain ⟨bs, hbs, heq⟩ := bind_eq_ok.mp h
  cases heq
  obtain ⟨after, rfl, rfl⟩ := slice_eq_ok hbs
  exact readFrom_of_encode _ (hmark bs) (hf bs rfl)

theorem bool_readFrom (h : (do let b ← slice rest 0 1; pure (Value.bool (beValue b != 0), 2)) = Except.ok (v, used)) :
    ReadFrom (tagBool :: rest) v used := by
  obtain ⟨bs, hbs, heq⟩ := bind_eq_ok.mp h
  cases heq
  obtain ⟨after, rfl, hlen⟩ := slice_eq_ok hbs
  obtain ⟨b, rfl⟩ := List.length_eq_one_iff.mp hlen
  have hflag : (beValue [b] != 0) = (b != 0) := by
    rw [beValue_singleton, Bool.eq_iff_iff]
    simp [← UInt8.toNat_inj]
  refine ⟨[tagBool, b], after, rfl, rfl, ?_⟩
  rw [hflag]
  exact Reads.append (reads_plain [tagBool]) (reads_flagOf b)

theorem escaped_readFrom {out after : Bytes} (hmark : markedValue v = plain (encodeValue v))
    (h : encodeValue v = tag :: encodeEscaped out) (hrest : rest = encodeEscaped out ++ after)
    (hused : used = (encodeEscaped out).length + 1) : ReadFrom (tag :: rest) v used := by
  subst hrest hused
  exact readFrom_of_encode v hmark h

theorem sealed_readFrom {cls epoch vtype body : Bytes} {t : ValueType} {n : Nat} (hcls : slice rest 0 8 = .ok cls)
    (hepoch : slice rest 8 12 = .ok epoch) (hvtype : slice rest 12 13 = .ok vtype)
    (ht : ValueType.fromTag (UInt8.ofNat (beValue vtype)) = .ok t) (hbody : decodeEscapedUsed (rest.drop 13) = .ok (body, n)) :
    ReadFrom (tagSealed :: rest)
      (.sealed { cls := ⟨UInt64.ofNat (beValue cls)⟩, epoch := UInt32.ofNat (beValue epoch), vtype := t, body }) (1 + 13 + n) := by
  obtain ⟨hrest, hcls⟩ := slice_at_eq_ok hcls (by decide)
  obtain ⟨hepochs, hepoch⟩ := slice_at_eq_ok hepoch (by decide)
  obtain ⟨hvtypes, hvtype⟩ := slice_at_eq_ok hvtype (by decide)
  obtain ⟨after, hafter, rfl⟩ := decodeEscapedUsed_eq_ok hbody
  obtain ⟨b, rfl⟩ := List.length_eq_one_iff.mp hvtype
  have htag : t.tag = b := by
    rw [fromTag_eq_ok ht, beValue_singleton, UInt8.ofNat_toNat]
  have hencode : encodeSealed { cls := ⟨UInt64.ofNat (beValue cls)⟩, epoch := UInt32.ofNat (beValue epoch), vtype := t, body } =
      cls ++ (epoch ++ (b :: encodeEscaped body)) := by
    rw [encodeSealed, encodeEntityId, encodeU64_ofNat_beValue hcls, encodeU32_ofNat_beValue hepoch, htag]
  have hinput : rest = (cls ++ (epoch ++ (b :: encodeEscaped body))) ++ after := by
    rw [drop_zero] at hrest
    rw [hrest, hepochs, hvtypes, hafter]
    simp
  have hlen : 1 + 13 + (encodeEscaped body).length = (tagSealed :: (cls ++ (epoch ++ (b :: encodeEscaped body)))).length := by
    simp [hcls, hepoch]
    omega
  rw [hlen, hinput]
  exact readFrom_of_encode (.sealed _) rfl (congrArg (tagSealed :: ·) hencode)

end Tagged

theorem decodeValueUsed_eq_ok {v : Value} {used : Nat} (h : decodeValueUsed input = .ok (v, used)) :
    ReadFrom input v used := by
  cases input with
  | nil => cases h
  | cons tag rest =>
    rw [decodeValueUsed] at h
    by_cases htag : tag = tagBool
    · subst htag
      rw [if_pos rfl] at h
      exact bool_readFrom h
    rw [if_neg htag] at h
    by_cases htag : tag = tagLong
    · subst htag
      rw [if_pos rfl] at h
      exact fixed_readFrom h (fun _ => rfl) (fun bs hbs => congrArg (tagLong :: ·) ((encodeI64_flip _).trans (encodeU64_ofNat_beValue hbs)))
    rw [if_neg htag] at h
    by_cases htag : tag = tagDouble
    · subst htag
      rw [if_pos rfl] at h
      exact fixed_readFrom h (fun _ => rfl) (fun bs hbs => congrArg (tagDouble :: ·) ((congrArg encodeU64 (sortableBits_decodeF64Bits _)).trans (encodeU64_ofNat_beValue hbs)))
    rw [if_neg htag] at h
    by_cases htag : tag = tagInstant
    · subst htag
      rw [if_pos rfl] at h
      exact fixed_readFrom h (fun _ => rfl) (fun bs hbs => congrArg (tagInstant :: ·) ((encodeI64_flip _).trans (encodeU64_ofNat_beValue hbs)))
    rw [if_neg htag] at h
    by_cases htag : tag = tagUuid
    · subst htag
      rw [if_pos rfl] at h
      exact fixed_readFrom h (fun _ => rfl) (fun bs hbs => congrArg (tagUuid :: ·) (beBytes_ofNat_beValue hbs))
    rw [if_neg htag] at h
    by_cases htag : tag = tagKeyword
    · subst htag
      rw [if_pos rfl] at h
      exact fixed_readFrom h (fun _ => rfl) (fun bs hbs => congrArg (tagKeyword :: ·) (encodeU64_ofNat_beValue hbs))
    rw [if_neg htag] at h
    by_cases htag : tag = tagRef
    · subst htag
      rw [if_pos rfl] at h
      exact fixed_readFrom h (fun _ => rfl) (fun bs hbs => congrArg (tagRef :: ·) (encodeU64_ofNat_beValue hbs))
    rw [if_neg htag] at h
    by_cases htag : tag = tagStr
    · subst htag
      rw [if_pos rfl] at h
      obtain ⟨⟨bytes, n⟩, hbytes, h⟩ := bind_eq_ok.mp h
      obtain ⟨after, hrest, hn⟩ := decodeEscapedUsed_eq_ok hbytes
      cases hs : String.fromUTF8? ⟨bytes.toArray⟩ with
      | none => simp [hs] at h
      | some s =>
        simp only [hs, pure_eq_ok, Prod.mk.injEq] at h
        obtain ⟨rfl, rfl⟩ := h
        exact escaped_readFrom rfl (by rw [encodeValue, utf8_fromUTF8 hs]) hrest (by rw [hn])
    rw [if_neg htag] at h
    by_cases htag : tag = tagBytes
    · subst htag
      rw [if_pos rfl] at h
      obtain ⟨⟨bytes, n⟩, hbytes, h⟩ := bind_eq_ok.mp h
      obtain ⟨after, hrest, hn⟩ := decodeEscapedUsed_eq_ok hbytes
      cases h
      exact escaped_readFrom rfl rfl hrest (by rw [hn])
    rw [if_neg htag] at h
    by_cases htag : tag = tagSealed
    · subst htag
      rw [if_pos rfl] at h
      obtain ⟨cls, hcls, h⟩ := bind_eq_ok.mp h
      obtain ⟨epoch, hepoch, h⟩ := bind_eq_ok.mp h
      obtain ⟨vtype, hvtype, h⟩ := bind_eq_ok.mp h
      obtain ⟨t, ht, h⟩ := bind_eq_ok.mp h
      obtain ⟨⟨body, n⟩, hbody, h⟩ := bind_eq_ok.mp h
      cases h
      exact sealed_readFrom hcls hepoch hvtype ht hbody
    rw [if_neg htag] at h
    cases h

end Corium.Core
