/-
  Corium.Log.Canonical — which payloads are read as a log record
  (`encode_record` and `decode_record` of `crates/corium-log/src/lib.rs`).

  Every record that fits is read back, and a payload that is read has the length
  and the bytes the record is written with, but for two kinds of byte that are only
  asked whether they are zero: whether a datom adds, and the byte of a boolean.
-/

import Corium.Core.Canonical
import Corium.Log.Record

namespace Corium.Log

open Corium.Core Corium.Lib Corium.Transactor List

def markedDatom (d : Datom) : List Mark :=
  plain (encodeEntityId d.e ++ encodeEntityId d.a ++ encodeEntityId d.tx) ++ [flagOf d.added] ++
    plain (beBytes 8 (encodeValue d.v).length) ++ markedValue d.v

/-- The bytes of a record, with its flags marked. -/
def markedRecord (r : TxRecord) : List Mark :=
  plain (beBytes 8 r.t ++ encodeU64 r.txInstant.toUInt64 ++ beBytes 8 r.datoms.length) ++ r.datoms.flatMap markedDatom

theorem map_byte_markedDatom (d : Datom) : (markedDatom d).map Mark.byte = encodeDatom d := by
  simp only [markedDatom, encodeDatom, map_append, map_byte_plain, map_byte_markedValue]
  rfl

theorem map_byte_markedRecord (r : TxRecord) : (markedRecord r).map Mark.byte = encodeRecord r := by
  rw [markedRecord, encodeRecord, map_append, map_byte_plain, map_flatMap]
  exact congrArg _ (congrArg (r.datoms.flatMap ·) (funext map_byte_markedDatom))

/-! ## Reading backwards -/

variable {bytes rest : Bytes}

theorem takeBytes_eq_ok {n : Nat} {bs : Bytes} (h : takeBytes n bytes = .ok (bs, rest)) :
    bytes = bs ++ rest ∧ bs.length = n := by
  rw [takeBytes] at h
  split at h
  · next hn =>
    cases h
    exact ⟨(take_append_drop n bytes).symm, by simpa using hn⟩
  · cases h

theorem u64Be_eq_ok {x : Nat} (h : u64Be bytes = .ok (x, rest)) : bytes = beBytes 8 x ++ rest ∧ x < 2 ^ 64 := by
  obtain ⟨⟨word, rest'⟩, hword, heq⟩ := bind_eq_ok.mp h
  cases heq
  obtain ⟨rfl, hlen⟩ := takeBytes_eq_ok hword
  have hlt := beValue_lt word
  have hbytes := beBytes_beValue word
  rw [hlen] at hlt hbytes
  exact ⟨by rw [hbytes], hlt⟩

theorem entityBe_eq_ok {e : EntityId} (h : entityBe bytes = .ok (e, rest)) : bytes = encodeEntityId e ++ rest := by
  obtain ⟨⟨raw, rest'⟩, hraw, heq⟩ := bind_eq_ok.mp h
  cases heq
  obtain ⟨rfl, hlt⟩ := u64Be_eq_ok hraw
  rw [encodeEntityId, encodeU64, UInt64.toNat_ofNat_of_lt' hlt]

/-- A value fills its length, so the decoder's count of bytes is all of them. -/
theorem valueOf_eq_ok {raw : Bytes} {v : Value} (h : valueOf raw = .ok v) : Reads (markedValue v) raw := by
  rw [valueOf] at h
  split at h
  · next v' used hused =>
    split at h
    · next hfull =>
      cases h
      obtain ⟨bytes, rest, rfl, rfl, hreads⟩ := decodeValueUsed_eq_ok hused
      have hrest : rest = [] := by
        rw [length_append] at hfull
        exact eq_nil_of_length_eq_zero (by omega)
      rw [hrest, append_nil]
      exact hreads
    · cases h
  · cases h

theorem length_of_reads {v : Value} {raw : Bytes} (h : Reads (markedValue v) raw) : (encodeValue v).length = raw.length := by
  rw [← map_byte_markedValue, length_map]
  exact List.Forall₂.length_eq h

theorem decodeDatom_eq_ok {d : Datom} (h : decodeDatom bytes = .ok (d, rest)) :
    ∃ used, bytes = used ++ rest ∧ Reads (markedDatom d) used := by
  obtain ⟨⟨e, bytes₁⟩, he, h⟩ := bind_eq_ok.mp h
  obtain ⟨⟨a, bytes₂⟩, ha, h⟩ := bind_eq_ok.mp h
  obtain ⟨⟨tx, bytes₃⟩, htx, h⟩ := bind_eq_ok.mp h
  obtain ⟨⟨added, bytes₄⟩, hadded, h⟩ := bind_eq_ok.mp h
  obtain ⟨⟨len, bytes₅⟩, hlen, h⟩ := bind_eq_ok.mp h
  obtain ⟨⟨raw, bytes₆⟩, hraw, h⟩ := bind_eq_ok.mp h
  obtain ⟨v, hv, h⟩ := bind_eq_ok.mp h
  cases h
  obtain ⟨rfl, hone⟩ := takeBytes_eq_ok hadded
  obtain ⟨b, rfl⟩ := List.length_eq_one_iff.mp hone
  obtain ⟨rfl, -⟩ := u64Be_eq_ok hlen
  obtain ⟨rfl, rfl⟩ := takeBytes_eq_ok hraw
  have hvalue := valueOf_eq_ok hv
  have hflag : (decide (beValue [b] ≠ 0)) = (b != 0) := by
    rw [beValue_singleton, Bool.eq_iff_iff]
    simp [← UInt8.toNat_inj]
  refine ⟨encodeEntityId e ++ encodeEntityId a ++ encodeEntityId tx ++ [b] ++ beBytes 8 raw.length ++ raw, ?_, ?_⟩
  · rw [entityBe_eq_ok he, entityBe_eq_ok ha, entityBe_eq_ok htx]
    simp
  · rw [markedDatom, length_of_reads hvalue, hflag]
    exact (((reads_plain _).append (reads_flagOf b)).append (reads_plain _)).append hvalue

theorem decodeDatoms_eq_ok {count : Nat} {ds : List Datom} (h : decodeDatoms count bytes = .ok (ds, rest)) :
    ds.length = count ∧ ∃ used, bytes = used ++ rest ∧ Reads (ds.flatMap markedDatom) used := by
  induction count generalizing bytes ds with
  | zero =>
    cases h
    exact ⟨rfl, [], rfl, .nil⟩
  | succ count ih =>
    obtain ⟨⟨d, bytes'⟩, hd, h⟩ := bind_eq_ok.mp h
    obtain ⟨⟨ds', rest'⟩, hds, h⟩ := bind_eq_ok.mp h
    cases h
    obtain ⟨used, rfl, hreads⟩ := decodeDatom_eq_ok hd
    obtain ⟨rfl, used', rfl, hreads'⟩ := ih hds
    exact ⟨rfl, used ++ used', (append_assoc _ _ _).symm, hreads.append hreads'⟩

theorem decodeRecord_eq_ok {r : TxRecord} (h : decodeRecord bytes = .ok r) : Reads (markedRecord r) bytes := by
  obtain ⟨⟨t, bytes₁⟩, ht, h⟩ := bind_eq_ok.mp h
  obtain ⟨⟨instant, bytes₂⟩, hinstant, h⟩ := bind_eq_ok.mp h
  obtain ⟨⟨count, bytes₃⟩, hcount, h⟩ := bind_eq_ok.mp h
  obtain ⟨⟨datoms, bytes₄⟩, hdatoms, h⟩ := bind_eq_ok.mp h
  dsimp only at h
  split at h
  · next hend =>
    cases h
    obtain ⟨rfl, -⟩ := u64Be_eq_ok ht
    obtain ⟨rfl, hlt⟩ := u64Be_eq_ok hinstant
    obtain ⟨rfl, -⟩ := u64Be_eq_ok hcount
    obtain ⟨rfl, used, rfl, hreads⟩ := decodeDatoms_eq_ok hdatoms
    have hword : encodeU64 (UInt64.ofNat instant).toInt64.toUInt64 = beBytes 8 instant := by
      show encodeU64 (UInt64.ofNat instant) = _
      rw [encodeU64, UInt64.toNat_ofNat_of_lt' hlt]
    have happend := (reads_plain (beBytes 8 t ++ beBytes 8 instant ++ beBytes 8 datoms.length)).append hreads
    rw [markedRecord, hword]
    subst hend
    simpa using happend
  · cases h

/--
  A record is read back from its encoding, and a payload that is read as a record is the record's encoding, but for flags: a
  byte of a flag that is not zero is written back as `1`. With flags of `0` and `1` it is the encoding itself.
-/
theorem record_codec_is_exact_up_to_flags :
    (∀ r : TxRecord, r.t < 2 ^ 64 → (encodeRecord r).length < 2 ^ 64 → decodeRecord (encodeRecord r) = .ok r) ∧
      ∀ (bytes : Bytes) (r : TxRecord), decodeRecord bytes = .ok r →
        Reads (markedRecord r) bytes ∧ (markedRecord r).map Mark.byte = encodeRecord r ∧
        ((∀ i (hm : i < (markedRecord r).length) (hb : i < bytes.length),
            ((markedRecord r).get ⟨i, hm⟩).flag = true → bytes.get ⟨i, hb⟩ ≤ 1) → encodeRecord r = bytes) := by
  refine ⟨fun r ht hlen => decodeRecord_encodeRecord ht hlen, fun bytes r h => ?_⟩
  have hreads := decodeRecord_eq_ok h
  refine ⟨hreads, map_byte_markedRecord r, fun hflags => ?_⟩
  rw [← map_byte_markedRecord]
  exact hreads.eq_of_flags hflags

namespace FlagExample

def record : TxRecord :=
  { t := 1, txInstant := 0, datoms := [{ e := ⟨7⟩, a := ⟨8⟩, v := .bool true, tx := ⟨9⟩, added := true }] }

/-- Whether the datom adds stands at 48, its boolean at 58. -/
theorem other_flags_are_read_as_true :
    decodeRecord ((encodeRecord record).set 48 2) = .ok record ∧ (encodeRecord record).set 48 2 ≠ encodeRecord record ∧
      decodeRecord ((encodeRecord record).set 58 2) = .ok record ∧ (encodeRecord record).set 58 2 ≠ encodeRecord record := by
  decide

theorem record_codec_is_exact_up_to_flags_of_one :
    decodeRecord (encodeRecord record) = .ok record ∧ Reads (markedRecord record) ((encodeRecord record).set 48 2) :=
  ⟨record_codec_is_exact_up_to_flags.1 record (by decide) (by decide),
    (record_codec_is_exact_up_to_flags.2 _ record (by decide)).1⟩

end FlagExample

end Corium.Log
