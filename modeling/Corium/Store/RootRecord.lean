/-
  Corium.Store.RootRecord — the text of a database root record
  (`DbRoot::encode`, `DbRoot::decode`, `field_line` and `parse_field` of
  `crates/corium-store/src/lib.rs`).

  The record is a text of lines. Its owner and its endpoint are whatever the transactor was
  configured with, and stand on a line of their own as they are, `-` for an empty one.
  Proved: a record is read back exactly when neither is `-` itself, holds a newline, or ends
  with a carriage return (`root_record_round_trips_iff`). A transactor whose owner is `-`
  acquires a lease that the stored record gives to nobody (`an_owner_named_by_the_sentinel`).
-/

import Corium.Core.Encoding
import Corium.Lib.Lines
import Corium.Transactor.Lease

namespace Corium.Transactor

open Corium.Core Corium.Lib List

/-! ## Blob ids -/

def isHexDigit (c : Char) : Bool :=
  ('0' ≤ c && c ≤ '9') || ('a' ≤ c && c ≤ 'f') || ('A' ≤ c && c ≤ 'F')

/-- Sixty-four hexadecimal digits. -/
def isBlobId (text : List Char) : Bool := text.length == 64 && text.all isHexDigit

def fromHex (text : List Char) : Option BlobId := if isBlobId text then some (String.ofList text) else none

def IndexRoots.ids (x : IndexRoots) : List BlobId := [x.eavt, x.aevt, x.avet, x.vaet]

/-! ## Writing -/

/-- A possibly empty single-line field. -/
def fieldLine (value : String) : List Char := if value = "" then ['-'] else value.toList

def idLines : Option IndexRoots → List (List Char)
  | some roots => roots.ids.map String.toList
  | none => [['-'], ['-'], ['-'], ['-']]

def rootHeader : List Char := "corium-root-v".toList

namespace DbRoot

def textLines (r : DbRoot) : List (List Char) :=
  [rootHeader ++ digits r.formatVersion, digits r.leaseVersion, digits r.indexBasisT] ++ idLines r.roots ++
    [fieldLine r.owner, intDigits r.leaseExpiresUnixMs, fieldLine r.ownerEndpoint, digits r.nextEntityId,
      intDigits r.lastTxInstant, digits r.keyManifestVersion] ++ idLines r.historyRoots

def encode (r : DbRoot) : Bytes := utf8 (String.ofList (unlines r.textLines))

end DbRoot

/-! ## Reading -/

def parseField (line : List Char) : String := if line = ['-'] then "" else String.ofList line

def parseU32 (line : List Char) : Option Nat := parseUnsigned (2 ^ 32) line
def parseU64 (line : List Char) : Option Nat := parseUnsigned (2 ^ 64) line
def parseI64 (line : List Char) : Option Int := parseSigned (2 ^ 63) line

/-- Four lines: no roots if all of them are `-`. -/
def decodeIds : List (List Char) → Option (Option IndexRoots)
  | [eavt, aevt, avet, vaet] =>
    if [eavt, aevt, avet, vaet].all (· == ['-']) then some none
    else do
      let eavt ← fromHex eavt
      let aevt ← fromHex aevt
      let avet ← fromHex avet
      let vaet ← fromHex vaet
      pure (some ⟨eavt, aevt, avet, vaet⟩)
  | _ => none

/-- The header and the lease version; a record without a header is of format 1. -/
def decodeVersions : List (List Char) → Option ((Nat × Nat) × List (List Char))
  | [] => none
  | first :: rest =>
    if rootHeader.isPrefixOf first then do
      let formatVersion ← parseU32 (first.drop rootHeader.length)
      let leaseVersion ← parseU64 (← rest.head?)
      pure ((formatVersion, leaseVersion), rest.tail)
    else do
      let leaseVersion ← parseU64 first
      pure ((1, leaseVersion), rest)

/-- Written from format 5 on; absent in earlier records. -/
def decodeHistoryIds (formatVersion : Nat) (ids : List (List Char)) : Option (Option IndexRoots) :=
  if ids = [] ∧ formatVersion < 5 then some none else decodeIds ids

/-- The lease fields and the recovery hints have defaults: earlier records end before them. -/
def decodeLines (ls : List (List Char)) : Option DbRoot := do
  let ((formatVersion, leaseVersion), ls) ← decodeVersions ls
  let indexBasisT ← parseU64 (← ls.head?)
  let ls := ls.tail
  let roots ← decodeIds (ls.take 4)
  let ls := ls.drop 4
  let owner := (ls.head?.map parseField).getD ""
  let ls := ls.tail
  let leaseExpiresUnixMs := (ls.head?.bind parseI64).getD 0
  let ls := ls.tail
  let ownerEndpoint := (ls.head?.map parseField).getD ""
  let ls := ls.tail
  let nextEntityId := (ls.head?.bind parseU64).getD 0
  let ls := ls.tail
  let lastTxInstant := (ls.head?.bind parseI64).getD (-(2 ^ 63))
  let ls := ls.tail
  let keyManifestVersion := (ls.head?.bind parseU64).getD 0
  let ls := ls.tail
  let historyRoots ← decodeHistoryIds formatVersion (ls.take 4)
  pure { formatVersion, leaseVersion, owner, leaseExpiresUnixMs, ownerEndpoint, indexBasisT, roots, historyRoots,
         nextEntityId, lastTxInstant, keyManifestVersion }

def DbRoot.decode (bytes : Bytes) : Option DbRoot := do
  let text ← String.fromUTF8? ⟨bytes.toArray⟩
  decodeLines (lines text.toList)

/-! ## Round trip -/

/-- The fields are in the ranges of their types, and blob ids are digests. -/
structure DbRoot.Typed (r : DbRoot) : Prop where
  formatVersion : r.formatVersion < 2 ^ 32
  leaseVersion : r.leaseVersion < 2 ^ 64
  indexBasisT : r.indexBasisT < 2 ^ 64
  nextEntityId : r.nextEntityId < 2 ^ 64
  keyManifestVersion : r.keyManifestVersion < 2 ^ 64
  leaseExpiresUnixMs : -(2 ^ 63) ≤ r.leaseExpiresUnixMs ∧ r.leaseExpiresUnixMs < 2 ^ 63
  lastTxInstant : -(2 ^ 63) ≤ r.lastTxInstant ∧ r.lastTxInstant < 2 ^ 63
  roots : ∀ x ∈ r.roots, ∀ id ∈ x.ids, isBlobId id.toList = true
  historyRoots : ∀ x ∈ r.historyRoots, ∀ id ∈ x.ids, isBlobId id.toList = true

/-- What a line of its own can hold. -/
def OneLine (value : String) : Prop :=
  value ≠ "-" ∧ '\n' ∉ value.toList ∧ value.toList.getLast? ≠ some '\r'

instance (value : String) : Decidable (OneLine value) :=
  inferInstanceAs (Decidable (value ≠ "-" ∧ '\n' ∉ value.toList ∧ value.toList.getLast? ≠ some '\r'))

variable {id : List Char} {c : Char} {value : String} {n : Nat}

theorem isHexDigit_of_mem (h : isBlobId id = true) (hc : c ∈ id) : isHexDigit c = true :=
  all_eq_true.mp (Bool.and_eq_true_iff.mp h).2 c hc

theorem fromHex_of_isBlobId {id : BlobId} (h : isBlobId id.toList = true) : fromHex id.toList = some id := by
  rw [fromHex, if_pos h, String.ofList_toList]

theorem ne_dash_of_isBlobId (h : isBlobId id = true) : id ≠ ['-'] := by
  intro hid
  rw [hid] at h
  exact absurd h (by decide)

section Ids

variable {roots : Option IndexRoots} (h : ∀ x ∈ roots, ∀ id ∈ x.ids, isBlobId id.toList = true)

include h

theorem decodeIds_idLines : decodeIds (idLines roots) = some roots := by
  cases roots with
  | none => rfl
  | some x =>
    have hx := h x rfl
    have heavt := hx x.eavt (by simp [IndexRoots.ids])
    have haevt := hx x.aevt (by simp [IndexRoots.ids])
    have havet := hx x.avet (by simp [IndexRoots.ids])
    have hvaet := hx x.vaet (by simp [IndexRoots.ids])
    simp [idLines, IndexRoots.ids, decodeIds, ne_dash_of_isBlobId heavt, fromHex_of_isBlobId heavt, fromHex_of_isBlobId haevt,
      fromHex_of_isBlobId havet, fromHex_of_isBlobId hvaet]

theorem decodeHistoryIds_idLines (formatVersion : Nat) :
    decodeHistoryIds formatVersion ((idLines roots).take 4) = some roots := by
  have hne : idLines roots ≠ [] := by cases roots <;> simp [idLines, IndexRoots.ids]
  have htake : (idLines roots).take 4 = idLines roots := by cases roots <;> rfl
  rw [htake, decodeHistoryIds, if_neg fun hnil => hne hnil.1, decodeIds_idLines h]

theorem notMem_idLines {c : Char} (hhex : isHexDigit c = false) (hdash : c ≠ '-') : ∀ l ∈ idLines roots, c ∉ l := by
  intro l hl hc
  cases roots with
  | none =>
    obtain rfl : l = ['-'] := by simpa [idLines] using hl
    exact hdash (mem_singleton.mp hc)
  | some x =>
    obtain ⟨id, hid, rfl⟩ := mem_map.mp hl
    rw [isHexDigit_of_mem (h x rfl id hid) hc] at hhex
    cases hhex

end Ids

/-- What `decode` makes of a field on one line. -/
def reread (value : String) : String := parseField (stripCr (fieldLine value))

theorem reread_eq_iff : reread value = value ↔ value ≠ "-" ∧ value.toList.getLast? ≠ some '\r' := by
  unfold reread fieldLine
  by_cases hempty : value = ""
  · subst hempty
    decide
  rw [if_neg hempty]
  constructor
  · intro h
    have hne : stripCr value.toList ≠ ['-'] := by
      intro hdash
      rw [hdash] at h
      exact hempty (by rw [← h]; rfl)
    rw [parseField, if_neg hne] at h
    have hstrip : stripCr value.toList = value.toList := by
      conv_rhs => rw [← h]
      rw [String.toList_ofList]
    refine ⟨fun hdash => hne ?_, stripCr_eq_iff.mp hstrip⟩
    rw [hstrip, hdash]
    rfl
  · rintro ⟨hdash, hcr⟩
    have hne : value.toList ≠ ['-'] := fun h => hdash (String.toList_inj.mp h)
    rw [stripCr_of_ne hcr, parseField, if_neg hne, String.ofList_toList]

theorem notMem_fieldLine (hdash : c ≠ '-') (h : c ∉ value.toList) : c ∉ fieldLine value := by
  unfold fieldLine
  split
  · exact fun hc => hdash (mem_singleton.mp hc)
  · exact h

theorem length_idLines (roots : Option IndexRoots) : (idLines roots).length = 4 := by cases roots <;> rfl

theorem parseU32_digits (h : n < 2 ^ 32) : parseU32 (digits n) = some n := parseUnsigned_digits h

theorem parseU64_digits (h : n < 2 ^ 64) : parseU64 (digits n) = some n := parseUnsigned_digits h

theorem parseI64_digits {i : Int} (h : -(2 ^ 63) ≤ i ∧ i < 2 ^ 63) : parseI64 (intDigits i) = some i :=
  parseSigned_digits h.1 h.2

theorem decodeVersions_lines {f v : Nat} (hf : f < 2 ^ 32) (hv : v < 2 ^ 64) (rest : List (List Char)) :
    decodeVersions ((rootHeader ++ digits f) :: digits v :: rest) = some ((f, v), rest) := by
  have hheader : rootHeader.isPrefixOf (rootHeader ++ digits f) = true := by
    rw [ isPrefixOf_iff_prefix]
    exact prefix_append _ _
  simp [decodeVersions, hheader, parseU32_digits hf, parseU64_digits hv]

namespace DbRoot

variable {r : DbRoot}

theorem decode_encode (r : DbRoot) : decode r.encode = decodeLines (lines (unlines r.textLines)) := by
  rw [decode, encode, fromUTF8_utf8]
  show decodeLines (lines (String.ofList _).toList) = _
  rw [String.toList_ofList]

theorem newline_notMem_textLines (hr : r.Typed) (howner : '\n' ∉ r.owner.toList) (hendpoint : '\n' ∉ r.ownerEndpoint.toList) :
    ∀ l ∈ r.textLines, '\n' ∉ l := by
  have hdigits : ∀ n, '\n' ∉ digits n := notMem_digits (by decide)
  have hints : ∀ i, '\n' ∉ intDigits i := notMem_intDigits (by decide) (by decide)
  have hheader : '\n' ∉ rootHeader := by decide
  simp only [textLines, forall_mem_append, forall_mem_cons]
  have hids : ∀ {roots : Option IndexRoots}, (∀ x ∈ roots, ∀ id ∈ x.ids, isBlobId id.toList = true) → ∀ l ∈ idLines roots, '\n' ∉ l :=
    fun h => notMem_idLines h (by decide) (by decide)
  have hversion : '\n' ∉ rootHeader ++ digits r.formatVersion :=
    fun hmem => (mem_append.mp hmem).elim hheader (hdigits _)
  exact ⟨⟨⟨⟨hversion, hdigits _, hdigits _, forall_mem_nil _⟩, hids hr.roots⟩,
    notMem_fieldLine (by decide) howner, hints _, notMem_fieldLine (by decide) hendpoint, hdigits _, hints _, hdigits _,
    forall_mem_nil _⟩, hids hr.historyRoots⟩

theorem map_stripCr_textLines (hr : r.Typed) :
    r.textLines.map stripCr =
      [rootHeader ++ digits r.formatVersion, digits r.leaseVersion, digits r.indexBasisT] ++ idLines r.roots ++
        [stripCr (fieldLine r.owner), intDigits r.leaseExpiresUnixMs, stripCr (fieldLine r.ownerEndpoint), digits r.nextEntityId,
          intDigits r.lastTxInstant, digits r.keyManifestVersion] ++ idLines r.historyRoots := by
  have hdigits : ∀ n, stripCr (digits n) = digits n := fun n => stripCr_of_notMem (notMem_digits (by decide) n)
  have hints : ∀ i, stripCr (intDigits i) = intDigits i := fun i => stripCr_of_notMem (notMem_intDigits (by decide) (by decide) i)
  have hheader : ∀ n, stripCr (rootHeader ++ digits n) = rootHeader ++ digits n := fun n =>
    stripCr_of_notMem fun hmem => (mem_append.mp hmem).elim (by decide) (notMem_digits (by decide) n)
  have hids : ∀ {roots : Option IndexRoots}, (∀ x ∈ roots, ∀ id ∈ x.ids, isBlobId id.toList = true) →
      (idLines roots).map stripCr = idLines roots := fun h =>
    (map_congr_left fun l hl => stripCr_of_notMem (notMem_idLines h (by decide) (by decide) l hl)).trans (map_id _)
  simp only [textLines, map_append, map_cons, map_nil, hdigits, hints, hheader, hids hr.roots, hids hr.historyRoots]

theorem decodeLines_textLines (hr : r.Typed) :
    decodeLines (r.textLines.map stripCr) = some { r with owner := reread r.owner, ownerEndpoint := reread r.ownerEndpoint } := by
  have hversions := decodeVersions_lines hr.formatVersion hr.leaseVersion
  rw [map_stripCr_textLines hr]
  simp only [append_assoc, cons_append, nil_append, decodeLines, hversions, Option.bind_eq_bind, Option.bind_some,
    List.head?_cons, tail_cons, parseU64_digits hr.indexBasisT, take_left' (length_idLines _),
    drop_left' (length_idLines _), decodeIds_idLines hr.roots, Option.map_some, Option.getD_some, reread,
    parseI64_digits hr.leaseExpiresUnixMs, parseU64_digits hr.nextEntityId, parseI64_digits hr.lastTxInstant,
    parseU64_digits hr.keyManifestVersion]
  rw [decodeHistoryIds_idLines hr.historyRoots]
  rfl

variable {ls : List (List Char)}

theorem mem_of_decodeVersions {rest : List (List Char)} {v : Nat × Nat} (h : decodeVersions ls = some (v, rest)) :
    ∀ l ∈ rest, l ∈ ls := by
  intro l hl
  cases ls with
  | nil => cases h
  | cons first ls =>
    rw [decodeVersions] at h
    split at h
    · simp only [Option.bind_eq_bind, Option.bind_eq_some_iff, Option.pure_def, Option.some.injEq, Prod.mk.injEq] at h
      obtain ⟨_, _, _, _, _, _, _, rfl⟩ := h
      exact mem_cons_of_mem _ (mem_of_mem_tail hl)
    · simp only [Option.bind_eq_bind, Option.bind_eq_some_iff, Option.pure_def, Option.some.injEq, Prod.mk.injEq] at h
      obtain ⟨_, _, _, rfl⟩ := h
      exact mem_cons_of_mem _ hl

theorem newline_notMem_field (h : ∀ l ∈ ls, '\n' ∉ l) : '\n' ∉ ((ls.head?.map parseField).getD "").toList := by
  cases ls with
  | nil => decide
  | cons l ls =>
    rw [List.head?_cons, Option.map_some, Option.getD_some, parseField]
    split
    · decide
    · rw [String.toList_ofList]
      exact h l mem_cons_self

/-- A record is read as one whose fields hold no newline. -/
theorem newline_notMem_of_decodeLines (hls : ∀ l ∈ ls, '\n' ∉ l) (h : decodeLines ls = some r) :
    '\n' ∉ r.owner.toList ∧ '\n' ∉ r.ownerEndpoint.toList := by
  simp only [decodeLines, Option.bind_eq_bind, Option.bind_eq_some_iff, Option.pure_def, Option.some.injEq] at h
  obtain ⟨⟨v, rest⟩, hversions, _, _, _, _, _, _, _, _, rfl⟩ := h
  have hrest : ∀ l ∈ rest, '\n' ∉ l := fun l hl => hls l (mem_of_decodeVersions hversions l hl)
  have howner : ∀ l ∈ rest.tail.drop 4, '\n' ∉ l := fun l hl => hrest l (mem_of_mem_tail (mem_of_mem_drop hl))
  exact ⟨newline_notMem_field howner,
    newline_notMem_field fun l hl => howner l (mem_of_mem_tail (mem_of_mem_tail hl))⟩

/--
  A root record is read back from its text exactly when its owner and its endpoint are what a line of its own can hold.
-/
theorem root_record_round_trips_iff (r : DbRoot) (hr : r.Typed) :
    decode r.encode = some r ↔ OneLine r.owner ∧ OneLine r.ownerEndpoint := by
  rw [decode_encode]
  constructor
  · intro h
    obtain ⟨howner, hendpoint⟩ := newline_notMem_of_decodeLines (fun l hl => newline_notMem_of_mem_lines hl) h
    rw [lines_unlines (newline_notMem_textLines hr howner hendpoint), decodeLines_textLines hr, Option.some.injEq] at h
    have hreowner := reread_eq_iff.mp (congrArg DbRoot.owner h)
    have hreendpoint := reread_eq_iff.mp (congrArg DbRoot.ownerEndpoint h)
    exact ⟨⟨hreowner.1, howner, hreowner.2⟩, hreendpoint.1, hendpoint, hreendpoint.2⟩
  · rintro ⟨⟨hdash, hnewline, hcr⟩, hdash', hnewline', hcr'⟩
    rw [lines_unlines (newline_notMem_textLines hr hnewline hnewline'), decodeLines_textLines hr, reread_eq_iff.mpr ⟨hdash, hcr⟩,
      reread_eq_iff.mpr ⟨hdash', hcr'⟩]

end DbRoot

namespace SentinelExample

def request : AcquireRequest := { owner := "-", endpoint := "http://transactor-a:4334", ttlMs := 5000, nowUnixMs := 1000 }

def root : DbRoot :=
  { formatVersion := 5, leaseVersion := 1, owner := "-", leaseExpiresUnixMs := 6000, ownerEndpoint := "http://transactor-a:4334",
    indexBasisT := 0, roots := none, historyRoots := none, nextEntityId := 0, lastTxInstant := -(2 ^ 63), keyManifestVersion := 0 }

/-- The record that is stored on acquisition is read as one that nobody owns, so the lease just acquired is lost. -/
theorem an_owner_named_by_the_sentinel :
    acquireNext request none none = .ok root ∧ DbRoot.decode root.encode = some { root with owner := "" } ∧
      verify (acquiredLease request root) (DbRoot.decode root.encode) = .error .lost := by
  decide

theorem root_record_round_trips_for_a_host_name :
    DbRoot.decode { root with owner := "transactor-a" }.encode = some { root with owner := "transactor-a" } := by
  refine (DbRoot.root_record_round_trips_iff _ ?_).mpr ⟨by decide, by decide⟩
  constructor <;> simp [root]

end SentinelExample

end Corium.Transactor
