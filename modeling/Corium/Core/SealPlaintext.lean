/-
  Corium.Core.SealPlaintext — what is inside a sealed value
  (`encode_seal_plaintext`, `decode_seal_plaintext` and `keyword_text` of
  `crates/corium-core/src/encoding.rs`, `intern_local` of
  `crates/corium-core/src/keyword.rs`, `pad` of `crates/corium-db/src/protect.rs`).

  A plaintext is the code of the value, with a keyword written as its text, so that its id in
  the writer's interner never leaves it. The reader parses the text and names the keyword in
  its own interner, in a table of its own if the shared one does not know it. Proved: with
  anything behind it a plaintext is read as the value that was written, except that a keyword
  must be one that its text parses to (`sealed_plaintext_round_trips_iff`).
-/

import Corium.Core.Encoding
import Corium.Core.Keyword

namespace Corium.Core

open Corium.Lib List

/-! ## The reader's interner -/

/-- The shared table and, above it, the keywords this reader found in sealed values. -/
structure LocalInterner where
  shared : KeywordInterner
  locals : List Keyword
  nodup : locals.Nodup

namespace LocalInterner

def firstLocalKwId : Nat := 2 ^ 56

/-- Ids of the shared table are below those of the reader, and these are `u64`s. -/
structure Fits (i : LocalInterner) : Prop where
  shared : i.shared.len ≤ firstLocalKwId
  locals : firstLocalKwId + i.locals.length < 2 ^ 64

def resolve (i : LocalInterner) (id : KwId) : Option Keyword :=
  (i.shared.resolve id).or (if firstLocalKwId ≤ id.toNat then i.locals[id.toNat - firstLocalKwId]? else none)

/-- A keyword of the shared table keeps its id there. -/
def internLocal (i : LocalInterner) (k : Keyword) : KwId × LocalInterner :=
  if k ∈ i.shared.names then (UInt64.ofNat (i.shared.names.idxOf k), i)
  else if h : k ∈ i.locals then (UInt64.ofNat (firstLocalKwId + i.locals.idxOf k), i)
  else (UInt64.ofNat (firstLocalKwId + i.locals.length), { i with
    locals := i.locals ++ [k]
    nodup := nodup_append.mpr ⟨i.nodup, nodup_singleton k, fun a ha b hb => by
      rw [mem_singleton] at hb
      exact fun hab => h (hb ▸ hab ▸ ha)⟩ })

theorem resolve_of_local {i : LocalInterner} (hi : i.shared.len ≤ firstLocalKwId) {n : Nat} (hn : firstLocalKwId + n < 2 ^ 64) :
    i.resolve (UInt64.ofNat (firstLocalKwId + n)) = i.locals[n]? := by
  have hid : (UInt64.ofNat (firstLocalKwId + n)).toNat = firstLocalKwId + n := UInt64.toNat_ofNat_of_lt' hn
  have hshared : i.shared.resolve (UInt64.ofNat (firstLocalKwId + n)) = none := by
    rw [KeywordInterner.resolve, hid]
    exact List.getElem?_eq_none (by unfold KeywordInterner.len at hi; omega)
  rw [resolve, hshared, hid, Option.none_or, if_pos (by omega), Nat.add_sub_cancel_left]

/-- What was interned resolves. -/
theorem resolve_internLocal {i : LocalInterner} (hi : i.Fits) (k : Keyword) :
    (i.internLocal k).2.resolve (i.internLocal k).1 = some k := by
  have hlocals := hi.locals
  unfold internLocal
  split
  · next hmem =>
    have hidx : i.shared.names.idxOf k < i.shared.names.length := idxOf_lt_length_of_mem hmem
    have hlt : i.shared.names.idxOf k < 2 ^ 64 := by
      have := hi.shared
      unfold KeywordInterner.len firstLocalKwId at this
      omega
    have hshared : i.shared.resolve (UInt64.ofNat (i.shared.names.idxOf k)) = some k := by
      rw [KeywordInterner.resolve, UInt64.toNat_ofNat_of_lt' hlt, List.getElem?_idxOf hmem]
    simp only [resolve, hshared, Option.some_or]
  · split
    · next hmem =>
      have hidx : i.locals.idxOf k < i.locals.length := idxOf_lt_length_of_mem hmem
      simp only
      rw [resolve_of_local hi.shared (by omega), List.getElem?_idxOf hmem]
    · simp only
      rw [resolve_of_local (by exact hi.shared) hlocals, List.getElem?_concat_length]

end LocalInterner

/-! ## Encoding and decoding -/

inductive SealPlaintextError where
  | nested
  | unresolvableKeyword (id : KwId)
  | malformed (error : DecodeError)
  | typeMismatch (expected actual : ValueType)
  deriving DecidableEq, Repr

def valueTypeOf : Value → Except SealPlaintextError ValueType
  | .bool _ => .ok .bool
  | .long _ => .ok .long
  | .double _ => .ok .double
  | .instant _ => .ok .instant
  | .uuid _ => .ok .uuid
  | .keyword _ => .ok .keyword
  | .str _ => .ok .str
  | .bytes _ => .ok .bytes
  | .ref _ => .ok .ref
  | .sealed _ => .error .nested

def encodeSealPlaintext (v : Value) (interner : LocalInterner) : Except SealPlaintextError Bytes :=
  match v with
  | .sealed _ => .error .nested
  | .keyword id =>
    match interner.resolve id with
    | some k => .ok (encodeValue (.str k.text))
    | none => .error (.unresolvableKeyword id)
  | v => .ok (encodeValue v)

/-- A value that is not of the declared type. -/
def mismatch (expected : ValueType) (v : Value) : Except SealPlaintextError Value :=
  match valueTypeOf v with
  | .ok actual => .error (.typeMismatch expected actual)
  | .error e => .error e

/-- Bytes after the first complete value are ignored. The reader's interner may grow. -/
def decodeSealPlaintext (bytes : Bytes) (expected : ValueType) (interner : LocalInterner) :
    Except SealPlaintextError Value × LocalInterner :=
  match decodeValueUsed bytes with
  | .error e => (.error (.malformed e), interner)
  | .ok (v, _) =>
    if expected = .keyword then
      match v with
      | .str text =>
        let (id, interner) := interner.internLocal (.parse text)
        (.ok (.keyword id), interner)
      | v => (mismatch expected v, interner)
    else if v.hasType expected then (.ok v, interner)
    else (mismatch expected v, interner)

/-- `pad`: zero bytes up to a multiple of the class's padding. -/
def pad (plaintext : Bytes) (padding : Option Nat) : Bytes :=
  match padding.filter (0 < ·) with
  | none => plaintext
  | some multiple =>
    let remainder := plaintext.length % multiple
    if remainder ≠ 0 then plaintext ++ List.replicate (multiple - remainder) 0 else plaintext

theorem pad_eq (plaintext : Bytes) (padding : Option Nat) : ∃ n, pad plaintext padding = plaintext ++ List.replicate n 0 := by
  unfold pad
  split
  · exact ⟨0, by simp⟩
  · simp only
    split
    · exact ⟨_, rfl⟩
    · exact ⟨0, by simp⟩

/-! ## Which keywords their text parses to -/

/-- Only the slash that separates the namespace is one to cut at: the namespace is there and holds none, and a name alone
    has no slash with text on both sides of it. -/
def Keyword.Cuts (k : Keyword) : Prop :=
  match k.ns with
  | some ns => ns ≠ "" ∧ '/' ∉ ns.toList ∧ k.name ≠ ""
  | none => ∀ before after, k.name.toList = before ++ '/' :: after → '/' ∉ before → before = [] ∨ after = []

/-- A text is cut at its first slash, if there is one. -/
theorem exists_first_slash {cs : List Char} (h : '/' ∈ cs) : ∃ before after, cs = before ++ '/' :: after ∧ '/' ∉ before := by
  obtain ⟨before, after, rfl, hbefore⟩ := eq_append_cons_of_mem h
  exact ⟨before, after, rfl, hbefore⟩

namespace Keyword

theorem parse_of_slash {text : String} {before after : List Char} (htext : text.toList = before ++ '/' :: after) (h : '/' ∉ before) :
    parse text = if before ≠ [] ∧ after ≠ [] then ⟨some (String.ofList before), String.ofList after⟩ else ⟨none, text⟩ := by
  have htake : ∀ c ∈ before, decide (c ≠ '/') = true := fun c hc => decide_eq_true fun hslash => h (hslash ▸ hc)
  have hspan : text.toList.span (· ≠ '/') = (before, '/' :: after) := by
    rw [htext, span_eq_takeWhile_dropWhile, takeWhile_append_of_pos htake, dropWhile_append_of_pos htake]
    simp
  rw [parse, hspan]

theorem parse_of_notMem {text : String} (h : '/' ∉ text.toList) : parse text = ⟨none, text⟩ := by
  have hall : ∀ c ∈ text.toList, decide (c ≠ '/') = true := fun c hc => decide_eq_true fun hslash => h (hslash ▸ hc)
  have hspan : text.toList.span (· ≠ '/') = (text.toList, []) := by
    rw [span_eq_takeWhile_dropWhile, takeWhile_eq_self_iff.mpr hall, dropWhile_eq_nil_iff.mpr hall]
  rw [parse, hspan]

theorem cuts_parse (text : String) : (parse text).Cuts := by
  by_cases hslash : '/' ∈ text.toList
  · obtain ⟨before, after, htext, hbefore⟩ := exists_first_slash hslash
    rw [parse_of_slash htext hbefore]
    split
    · next hne =>
      refine ⟨fun hempty => hne.1 ?_, by rwa [String.toList_ofList], fun hempty => hne.2 ?_⟩
      · simpa using congrArg String.toList hempty
      · simpa using congrArg String.toList hempty
    · next hne =>
      -- another such cut would parse to a namespace
      intro before' after' htext' hbefore'
      by_contra hcut
      have hnone := (parse_of_slash htext hbefore).trans (if_neg hne)
      rw [parse_of_slash htext' hbefore', if_pos (not_or.mp hcut)] at hnone
      cases hnone
  · rw [parse_of_notMem hslash]
    intro before after htext
    exact absurd (by rw [htext]; simp) hslash

/-- A keyword is the one its text parses to exactly if its text is cut where it was joined. -/
theorem parse_text_iff {k : Keyword} : parse k.text = k ↔ k.Cuts := by
  refine ⟨fun h => h ▸ cuts_parse k.text, fun h => ?_⟩
  obtain ⟨ns, name⟩ := k
  cases ns with
  | some ns =>
    obtain ⟨hne, hslash, hname⟩ := h
    have htext : (text ⟨some ns, name⟩).toList = ns.toList ++ '/' :: name.toList := by simp [text]
    rw [parse_of_slash htext hslash, if_pos ⟨by simpa using hne, by simpa using hname⟩, String.ofList_toList, String.ofList_toList]
  | none =>
    show parse name = _
    by_cases hslash : '/' ∈ name.toList
    · obtain ⟨before, after, htext, hbefore⟩ := exists_first_slash hslash
      rw [parse_of_slash htext hbefore, if_neg]
      rintro ⟨hb, ha⟩
      exact (h before after htext hbefore).elim hb ha
    · exact parse_of_notMem hslash

end Keyword

/-! ## Round trip -/

/-- The value read is the value written: keywords are the same by name. -/
def SameValue (writer : LocalInterner) (v : Value) (reader : LocalInterner) (w : Value) : Prop :=
  match v, w with
  | .keyword id, .keyword id' => ∃ k, writer.resolve id = some k ∧ reader.resolve id' = some k
  | v, w => v = w

section RoundTrip

variable {writer reader : LocalInterner} {v : Value} {t : ValueType} {bytes : Bytes}

theorem hasType_of_valueTypeOf (h : valueTypeOf v = .ok t) : v.hasType t = true := by
  cases v <;> cases h <;> rfl

theorem decodeSealPlaintext_keyword (text : String) (padding : Bytes) :
    decodeSealPlaintext (encodeValue (.str text) ++ padding) .keyword reader =
      (.ok (.keyword (reader.internLocal (.parse text)).1), (reader.internLocal (.parse text)).2) := by
  rw [decodeSealPlaintext, decodeValueUsed_encodeValue]
  rfl

/-- A value that is not a keyword is read back whatever the interners hold. -/
theorem decodeSealPlaintext_plain (hv : valueTypeOf v = .ok t) (hkeyword : t ≠ .keyword) (hbytes : encodeSealPlaintext v writer = .ok bytes)
    (padding : Bytes) : decodeSealPlaintext (bytes ++ padding) t reader = (.ok v, reader) := by
  have hencode : bytes = encodeValue v := by
    cases v <;> cases hv <;> first | exact absurd rfl hkeyword | exact (Except.ok.inj hbytes).symm
  rw [decodeSealPlaintext, hencode, decodeValueUsed_encodeValue]
  simp only [if_neg hkeyword, hasType_of_valueTypeOf hv, if_true]

/--
  What was sealed is read back, behind it anything a class pads with, exactly when a keyword is one that its text
  parses to: every other value is read back as it is.
-/
theorem sealed_plaintext_round_trips_iff (hreader : reader.Fits) (hv : valueTypeOf v = .ok t)
    (hbytes : encodeSealPlaintext v writer = .ok bytes) (padding : Bytes) :
    (∃ w reader', decodeSealPlaintext (bytes ++ padding) t reader = (.ok w, reader') ∧ SameValue writer v reader' w) ↔
      ∀ id k, v = .keyword id → writer.resolve id = some k → k.Cuts := by
  by_cases hkeyword : t = .keyword
  · subst hkeyword
    obtain ⟨id, rfl⟩ : ∃ id, v = .keyword id := by
      cases v <;> cases hv
      exact ⟨_, rfl⟩
    cases hk : writer.resolve id with
    | none => simp [encodeSealPlaintext, hk] at hbytes
    | some k =>
      have hencode : bytes = encodeValue (.str k.text) := by
        simp only [encodeSealPlaintext, hk, Except.ok.injEq] at hbytes
        exact hbytes.symm
      have hresolve := LocalInterner.resolve_internLocal hreader (.parse k.text)
      subst hencode
      rw [decodeSealPlaintext_keyword]
      constructor
      · rintro ⟨w, reader', hdecode, hsame⟩ id' k' hid hk'
        cases hid
        cases hdecode
        obtain ⟨k'', hwriter, hread⟩ := hsame
        rw [hk'] at hwriter
        cases hwriter
        rw [hk] at hk'
        cases hk'
        rw [hresolve, Option.some.injEq] at hread
        exact Keyword.parse_text_iff.mp hread
      · intro h
        refine ⟨_, _, rfl, k, hk, ?_⟩
        rw [hresolve, Keyword.parse_text_iff.mpr (h id k rfl hk)]
  · rw [decodeSealPlaintext_plain hv hkeyword hbytes padding]
    refine ⟨fun _ id k hid _ => ?_, fun _ => ⟨v, reader, rfl, ?_⟩⟩
    · subst hid
      cases hv
      exact absurd rfl hkeyword
    · cases v <;> first | rfl | (cases hv; exact absurd rfl hkeyword)

end RoundTrip

namespace SlashExample

/-- A keyword without a namespace, named `a/b`. -/
def writer : LocalInterner := ⟨⟨[⟨none, "a/b"⟩, ⟨some "status", "active"⟩], by decide⟩, [], .nil⟩

def reader : LocalInterner := ⟨.empty, [], .nil⟩

theorem a_name_with_a_slash_becomes_a_namespace :
    ∃ bytes, encodeSealPlaintext (.keyword 0) writer = .ok bytes ∧
      (decodeSealPlaintext bytes .keyword reader).1 = .ok (.keyword (UInt64.ofNat (2 ^ 56))) ∧
      (decodeSealPlaintext bytes .keyword reader).2.resolve (UInt64.ofNat (2 ^ 56)) = some ⟨some "a", "b"⟩ ∧
      writer.resolve 0 = some ⟨none, "a/b"⟩ :=
  ⟨_, rfl, by decide⟩

theorem sealed_plaintext_round_trips_for_a_status :
    ∃ w reader', decodeSealPlaintext (pad (encodeValue (.str "status/active")) (some 32)) .keyword reader = (.ok w, reader') ∧
      SameValue writer (.keyword 1) reader' w := by
  obtain ⟨n, hpad⟩ := pad_eq (encodeValue (.str "status/active")) (some 32)
  rw [hpad]
  refine (sealed_plaintext_round_trips_iff ⟨by decide, by decide⟩ rfl rfl _).mpr ?_
  intro id k hid hk
  cases hid
  cases hk
  exact ⟨by decide, by decide, by decide⟩

end SlashExample

end Corium.Core
