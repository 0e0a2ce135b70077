/-
  Corium.Protocol.Codec — the schema payload and the durable metadata record
  (`crates/corium-protocol/src/codec.rs`: `encode_schema`, `decode_schema`,
  `decode_protection`, `encode_naming`, `decode_naming`, `encode_metadata`,
  `decode_metadata`).

  A payload lists the attributes, the keywords with the entities they name, the
  protection classes and the timelines, each list behind its count. It has no place
  for an attribute's documentation or retirement, and of the ident registry's two
  maps it carries one: the reader registers the keywords again in keyword order, so
  an entity ends up with the last of its keywords.

  `decode_encode_schema` says what comes back, field by field;
  `schema_survives_iff` says for which schemas and registries that is what was
  written.
-/

import Corium.Db.SchemaReplay
import Corium.Lib.Insertion
import Corium.Lib.Result
import Corium.Protocol.Wire

namespace Corium.Protocol

open Corium.Core Corium.Lib Corium.Lib.Wire List

/-! ## Tags -/

def valueTypeTag : ValueType → UInt8
  | .bool => 0
  | .long => 1
  | .double => 2
  | .instant => 3
  | .uuid => 4
  | .keyword => 5
  | .str => 6
  | .bytes => 7
  | .ref => 8

def valueTypeFrom : UInt8 → Option ValueType
  | 0 => some .bool
  | 1 => some .long
  | 2 => some .double
  | 3 => some .instant
  | 4 => some .uuid
  | 5 => some .keyword
  | 6 => some .str
  | 7 => some .bytes
  | 8 => some .ref
  | _ => none

def cardinalityTag : Cardinality → UInt8
  | .one => 0
  | .many => 1

def cardinalityFrom : UInt8 → Option Cardinality
  | 0 => some .one
  | 1 => some .many
  | _ => none

def uniqueTag : Option Unique → UInt8
  | none => 0
  | some .identity => 1
  | some .value => 2

def uniqueFrom : UInt8 → Option (Option Unique)
  | 0 => some none
  | 1 => some (some .identity)
  | 2 => some (some .value)
  | _ => none

def algorithmTag : SealAlgorithm → UInt8
  | .aes256GcmSiv => 0

def algorithmFrom : UInt8 → Option SealAlgorithm
  | 0 => some .aes256GcmSiv
  | _ => none

def scopeTag : ProtectionScope → UInt8
  | .attribute => 0
  | .entity => 1

def scopeFrom : UInt8 → Option ProtectionScope
  | 0 => some .attribute
  | 1 => some .entity
  | _ => none

def missingKeyTag : MissingKeyPolicy → UInt8
  | .redact => 0
  | .hide => 1
  | .error => 2

def missingKeyFrom : UInt8 → Option MissingKeyPolicy
  | 0 => some .redact
  | 1 => some .hide
  | 2 => some .error
  | _ => none

def legacyPlaintextTag : LegacyPlaintextPolicy → UInt8
  | .redact => 0
  | .passThrough => 1

def legacyPlaintextFrom : UInt8 → Option LegacyPlaintextPolicy
  | 0 => some .redact
  | 1 => some .passThrough
  | _ => none

/-- The three flags of an attribute, one bit each. -/
def flags (a : Attribute) : UInt8 := a.isComponent.toUInt8 ||| a.indexed.toUInt8 <<< 1 ||| a.noHistory.toUInt8 <<< 2

/-! ## Encoding -/

def schemaFormatMarker : Nat := 2 ^ 64 - 1

def schemaFormat : Nat := 2

namespace Writer

def entity (e : EntityId) : Write := u64 e.raw.toNat

/-- A list behind its count. -/
def counted {α : Type} (l : List α) (item : α → List Write) : List Write := u64 l.length :: l.flatMap item

def attr (a : Attribute) : List Write :=
  [entity a.id, byte (valueTypeTag a.valueType), byte (cardinalityTag a.cardinality), byte (uniqueTag a.unique),
    byte (flags a)]

def ident (x : Keyword × EntityId) : List Write := keyword x.1 ++ [entity x.2]

/-- Zero stands for no padding. -/
def protectionClass (c : ProtectionClass) : List Write :=
  entity c.id :: (str c.keyId ++
    [byte (algorithmTag c.algorithm), byte (scopeTag c.scope), u64 (c.padding.getD 0).toNat,
      byte (missingKeyTag c.onMissingKey), byte (legacyPlaintextTag c.legacyPlaintext), u64 c.currentEpoch.toNat])

/-- Zero stands for "unprotected from here". -/
def timelineEntry (x : Nat × Option EntityId) : List Write := [u64 x.1, entity (x.2.getD ⟨0⟩)]

def timeline (x : AttrId × ProtectionTimeline) : List Write := entity x.1 :: counted x.2.entries timelineEntry

def schema (schema : Schema) (idents : Idents) : List Write :=
  u64 schemaFormatMarker :: u64 schemaFormat ::
    (counted schema.attrs.toList (fun x => attr x.2) ++ counted idents.byKeyword.toList ident ++
      counted schema.classes.toList (fun x => protectionClass x.2) ++ counted schema.protection.toList timeline)

def naming (interner : KeywordInterner) : List Write := counted interner.names keyword

end Writer

def encodeSchema (schema : Schema) (idents : Idents) : Bytes := message (Writer.schema schema idents)

def encodeNaming (interner : KeywordInterner) : Bytes := message (Writer.naming interner)

/-- A length that does not fit is written as zero. -/
def lengthPrefix (n : Nat) : Bytes := beBytes 4 (if n < 2 ^ 32 then n else 0)

def encodeMetadata (schema : Schema) (idents : Idents) (interner : KeywordInterner) : Bytes :=
  let schemaBytes := encodeSchema schema idents
  let namingBytes := encodeNaming interner
  lengthPrefix schemaBytes.length ++ schemaBytes ++ (lengthPrefix namingBytes.length ++ namingBytes)

/-! ## Decoding -/

namespace Reader

def entity : Reader CodecError EntityId := do
  let raw ← u64
  pure (.fromRaw (UInt64.ofNat raw))

def tagged {α : Type} (field : String) (known : UInt8 → Option α) : Reader CodecError α := do
  let tag ← byte
  match known tag with
  | some a => pure a
  | none => throw (.invalidField field)

def counted {α : Type} (item : Reader CodecError α) : Reader CodecError (List α) := do
  let count ← u64
  readMany item count

def attr : Reader CodecError Attribute := do
  let id ← entity
  let valueType ← tagged "value type" valueTypeFrom
  let cardinality ← tagged "cardinality" cardinalityFrom
  let unique ← tagged "unique" uniqueFrom
  let flags ← byte
  pure { id, valueType, cardinality, unique, isComponent := flags &&& 1 ≠ 0, indexed := flags &&& 2 ≠ 0,
         noHistory := flags &&& 4 ≠ 0 }

def ident : Reader CodecError (Keyword × EntityId) := do
  let k ← keyword "ident keyword"
  let id ← entity
  pure (k, id)

def u32 : Reader CodecError UInt32 := do
  let n ← u64
  if n < 2 ^ 32 then pure (UInt32.ofNat n) else throw .length

def padding : Reader CodecError (Option UInt32) := do
  let n ← u64
  if n = 0 then pure none else if n < 2 ^ 32 then pure (some (UInt32.ofNat n)) else throw .length

def protectionClass : Reader CodecError ProtectionClass := do
  let id ← entity
  let keyId ← str "protection class key"
  let algorithm ← tagged "protection algorithm" algorithmFrom
  let scope ← tagged "protection scope" scopeFrom
  let padding ← padding
  let onMissingKey ← tagged "on-missing-key policy" missingKeyFrom
  let legacyPlaintext ← tagged "legacy-plaintext policy" legacyPlaintextFrom
  let currentEpoch ← u32
  pure { id, keyId, algorithm, scope, padding, onMissingKey, legacyPlaintext, currentEpoch }

def timelineEntry : Reader CodecError (Nat × Option EntityId) := do
  let t ← u64
  let cls ← entity
  pure (t, if cls = ⟨0⟩ then none else some cls)

def timeline : Reader CodecError (AttrId × ProtectionTimeline) := do
  let id ← entity
  let entries ← counted timelineEntry
  pure (id, ⟨entries⟩)

/-- The payload's format, and how many attributes follow: the first format opens with
    the count, later ones with the marker. -/
def schemaHeader : Reader CodecError (Nat × Nat) := do
  let first ← u64
  if first = schemaFormatMarker then
    let format ← u64
    if schemaFormat < format then throw (.unsupportedSchemaFormat format)
    else
      let count ← u64
      pure (format, count)
  else pure (1, first)

def protection (schema : Schema) : Reader CodecError Schema := do
  let classes ← counted protectionClass
  let timelines ← counted timeline
  pure (timelines.foldl (fun s x => s.setProtection x.1 x.2) (classes.foldl Schema.insertClass schema))

def schema : Reader CodecError (Schema × Idents) := do
  let (format, attrCount) ← schemaHeader
  let attrs ← readMany attr attrCount
  let names ← counted ident
  let schema := attrs.foldl Schema.insert Schema.empty
  let idents := names.foldl (fun i x => i.insert x.1 x.2) Idents.empty
  if 2 ≤ format then
    let schema ← protection schema
    pure (schema, idents)
  else pure (schema, idents)

def naming : Reader CodecError KeywordInterner := do
  let names ← counted (keyword "interner keyword")
  pure (names.foldl (fun i k => (i.intern k).2) KeywordInterner.empty)

end Reader

def decodeSchema (bytes : Bytes) : Except CodecError (Schema × Idents) := Reader.decode Reader.schema bytes

def decodeNaming (bytes : Bytes) : Except CodecError KeywordInterner := Reader.decode Reader.naming bytes

/-- One block behind its four-byte length. -/
def takeBlock (input : Bytes) : Except CodecError (Bytes × Bytes) :=
  if input.length < 4 then .error .truncated
  else
    let len := beValue (input.take 4)
    if input.length < 4 + len then .error .truncated else .ok ((input.drop 4).take len, input.drop (4 + len))

def decodeMetadata (bytes : Bytes) : Except CodecError (Schema × Idents × KeywordInterner) := do
  let (schemaBytes, input) ← takeBlock bytes
  let (namingBytes, input) ← takeBlock input
  require (input = []) CodecError.trailing
  let (schema, idents) ← decodeSchema schemaBytes
  let interner ← decodeNaming namingBytes
  pure (schema, idents, interner)

/-! ## What is read back -/

def returnedClass (c : ProtectionClass) : ProtectionClass :=
  { c with padding := if c.padding = some 0 then none else c.padding }

def returnedEntry (x : Nat × Option EntityId) : Nat × Option EntityId :=
  (x.1, if x.2 = some ⟨0⟩ then none else x.2)

def returnedTimeline (p : ProtectionTimeline) : ProtectionTimeline := ⟨p.entries.map returnedEntry⟩

def returnedSchema (schema : Schema) : Schema :=
  schema.protection.toList.foldl (fun s x => s.setProtection x.1 (returnedTimeline x.2))
    (schema.classes.toList.foldl (fun s x => s.insertClass (returnedClass x.2))
      (schema.attrs.toList.foldl (fun s x => s.insert x.2) Schema.empty))

def returnedIdents (idents : Idents) : Idents :=
  idents.byKeyword.toList.foldl (fun i x => i.insert (.parse x.1.text) x.2) Idents.empty

/-- What the machine's integers and memory can hold: as many items as a count counts,
    strings as long as a length says, and transaction numbers of a `u64`. -/
structure Representable (schema : Schema) (idents : Idents) : Prop where
  items : (Writer.schema schema idents).length < 2 ^ 64
  names : ∀ x ∈ idents.byKeyword.toList, (utf8 x.1.text).length < 2 ^ 64
  keys : ∀ x ∈ schema.classes.toList, (utf8 x.2.keyId).length < 2 ^ 64
  basis : ∀ x ∈ schema.protection.toList, ∀ entry ∈ x.2.entries, entry.1 < 2 ^ 64

structure RepresentableNames (interner : KeywordInterner) : Prop where
  items : (Writer.naming interner).length < 2 ^ 64
  names : ∀ k ∈ interner.names, (utf8 k.text).length < 2 ^ 64

theorem reads_entity (e : EntityId) : Reads Reader.entity [Writer.entity e] e := by
  refine (reads_u64 e.raw.toNat_lt).then_pure ?_
  rw [UInt64.ofNat_toNat]
  exact .pure e

theorem reads_tagged {α : Type} {field : String} {known : UInt8 → Option α} {tag : UInt8} {a : α}
    (h : known tag = some a) : Reads (Reader.tagged field known) [Writer.byte tag] a := by
  refine (reads_byte tag).then_pure ?_
  simp only [h]
  exact .pure a

theorem reads_counted {α β : Type} {item : Reader CodecError α} {w : β → List Write} {f : β → α} {l : List β}
    (hlen : l.length < 2 ^ 64) (h : ∀ x ∈ l, Reads item (w x) (f x)) :
    Reads (Reader.counted item) (Writer.counted l w) (l.map f) :=
  (reads_u64 hlen).cons (.many h)

theorem flags_bits (a : Attribute) : decide (flags a &&& 1 ≠ 0) = a.isComponent ∧
    decide (flags a &&& 2 ≠ 0) = a.indexed ∧ decide (flags a &&& 4 ≠ 0) = a.noHistory := by
  unfold flags
  generalize a.isComponent = c, a.indexed = i, a.noHistory = n
  revert c i n
  decide

theorem reads_attr (a : Attribute) : Reads Reader.attr (Writer.attr a) a := by
  refine (reads_entity a.id).cons ?_
  refine (reads_tagged (a := a.valueType) (by cases a.valueType <;> rfl)).cons ?_
  refine (reads_tagged (a := a.cardinality) (by cases a.cardinality <;> rfl)).cons ?_
  refine (reads_tagged (a := a.unique) (by rcases a.unique with _ | _ | _ <;> rfl)).cons ?_
  refine (reads_byte (flags a)).then_pure ?_
  obtain ⟨hcomponent, hindexed, hhistory⟩ := flags_bits a
  rw [hcomponent, hindexed, hhistory]
  exact .pure a

theorem reads_ident {x : Keyword × EntityId} (h : (utf8 x.1.text).length < 2 ^ 64) :
    Reads Reader.ident (Writer.ident x) (.parse x.1.text, x.2) :=
  (reads_keyword _ h).bind ((reads_entity x.2).then_pure (.pure _))

theorem reads_u32 (n : UInt32) : Reads Reader.u32 [Writer.u64 n.toNat] n := by
  have hn := n.toNat_lt
  refine (reads_u64 (by omega)).then_pure ?_
  rw [if_pos hn, UInt32.ofNat_toNat]
  exact .pure n

theorem reads_padding (p : Option UInt32) :
    Reads Reader.padding [Writer.u64 (p.getD 0).toNat] (if p = some 0 then none else p) := by
  have hp := (p.getD 0).toNat_lt
  refine (reads_u64 (by omega)).then_pure ?_
  cases p with
  | none => exact .pure none
  | some n =>
    rw [Option.getD_some] at hp ⊢
    by_cases h0 : n = 0
    · subst h0
      exact .pure none
    · rw [if_neg (show n.toNat ≠ 0 from fun h => h0 (UInt32.toNat_inj.mp h)), if_pos hp, UInt32.ofNat_toNat, if_neg (by simpa using h0)]
      exact .pure (some n)

theorem reads_protectionClass {c : ProtectionClass} (h : (utf8 c.keyId).length < 2 ^ 64) :
    Reads Reader.protectionClass (Writer.protectionClass c) (returnedClass c) := by
  refine (reads_entity c.id).cons ?_
  refine (reads_str _ h).bind ?_
  refine (reads_tagged (a := c.algorithm) (by cases c.algorithm; rfl)).cons ?_
  refine (reads_tagged (a := c.scope) (by cases c.scope <;> rfl)).cons ?_
  refine (reads_padding c.padding).cons ?_
  refine (reads_tagged (a := c.onMissingKey) (by cases c.onMissingKey <;> rfl)).cons ?_
  refine (reads_tagged (a := c.legacyPlaintext) (by cases c.legacyPlaintext <;> rfl)).cons ?_
  exact (reads_u32 c.currentEpoch).then_pure (.pure _)

theorem reads_timelineEntry {x : Nat × Option EntityId} (h : x.1 < 2 ^ 64) :
    Reads Reader.timelineEntry (Writer.timelineEntry x) (returnedEntry x) := by
  refine (reads_u64 h).cons ((reads_entity _).then_pure ?_)
  obtain ⟨t, _ | cls⟩ := x
  · exact .pure _
  · by_cases h0 : cls = ⟨0⟩
    · subst h0
      exact .pure _
    · simp only [returnedEntry, Option.getD_some, Option.some.injEq, if_neg h0]
      exact .pure _

theorem reads_timeline {x : AttrId × ProtectionTimeline} (hlen : x.2.entries.length < 2 ^ 64)
    (h : ∀ entry ∈ x.2.entries, entry.1 < 2 ^ 64) :
    Reads Reader.timeline (Writer.timeline x) (x.1, returnedTimeline x.2) :=
  (reads_entity x.1).cons ((reads_counted hlen fun entry he => reads_timelineEntry (h entry he)).then_pure (.pure _))

theorem length_le_counted {α : Type} {l : List α} {w : α → List Write} (hw : ∀ x ∈ l, w x ≠ []) :
    l.length < (Writer.counted l w).length := by
  suffices hle : l.length ≤ (l.flatMap w).length from Nat.lt_succ_of_le hle
  induction l with
  | nil => exact Nat.le_refl 0
  | cons x l ih =>
    have hx := List.length_pos_iff.mpr (hw x mem_cons_self)
    have hl := ih fun y hy => hw y (mem_cons_of_mem _ hy)
    rw [flatMap_cons, length_append, length_cons]
    omega

theorem length_le_counted_of_mem {α : Type} {l : List α} {w : α → List Write} {x : α} (hx : x ∈ l) :
    (w x).length < (Writer.counted l w).length := by
  have hsub : (w x).Sublist (l.flatMap w) := by
    rw [flatMap_def]
    exact sublist_flatten_of_mem (mem_map_of_mem hx)
  exact Nat.lt_succ_of_le hsub.length_le

theorem schema_items (schema : Schema) (idents : Idents) : Writer.schema schema idents =
    [Writer.u64 schemaFormatMarker, Writer.u64 schemaFormat, Writer.u64 schema.attrs.toList.length] ++
      (schema.attrs.toList.flatMap (fun x => Writer.attr x.2) ++ (Writer.counted idents.byKeyword.toList Writer.ident ++
        (Writer.counted schema.classes.toList (fun x => Writer.protectionClass x.2) ++
          Writer.counted schema.protection.toList Writer.timeline))) := by
  simp [Writer.schema, Writer.counted]

theorem reads_schemaHeader {n : Nat} (hn : n < 2 ^ 64) : Reads Reader.schemaHeader
    [Writer.u64 schemaFormatMarker, Writer.u64 schemaFormat, Writer.u64 n] (schemaFormat, n) := by
  refine (reads_u64 (by decide)).cons ?_
  rw [if_pos rfl]
  refine (reads_u64 (by decide)).cons ?_
  rw [if_neg (by decide)]
  exact (reads_u64 hn).then_pure (.pure _)

variable {schema : Schema} {idents : Idents}

theorem reads_protection (h : Representable schema idents) (s : Schema) :
    Reads (Reader.protection s) (Writer.counted schema.classes.toList (fun x => Writer.protectionClass x.2) ++
        Writer.counted schema.protection.toList Writer.timeline)
      (schema.protection.toList.foldl (fun s x => s.setProtection x.1 (returnedTimeline x.2))
        (schema.classes.toList.foldl (fun s x => s.insertClass (returnedClass x.2)) s)) := by
  have hitems := h.items
  rw [schema_items] at hitems
  simp only [length_append] at hitems
  have hclasses := @length_le_counted _ schema.classes.toList (fun x => Writer.protectionClass x.2) fun _ _ => nofun
  have htimelines := @length_le_counted _ schema.protection.toList Writer.timeline fun _ _ => nofun
  refine (reads_counted (by omega) fun x hx => reads_protectionClass (h.keys x hx)).bind ?_
  have htable : ∀ x ∈ schema.protection.toList, Reads Reader.timeline (Writer.timeline x) (x.1, returnedTimeline x.2) := by
    intro x hx
    have hentries := @length_le_counted _ x.2.entries Writer.timelineEntry fun _ _ => nofun
    have hone := @length_le_counted_of_mem _ _ Writer.timeline _ hx
    simp only [Writer.timeline, length_cons] at hone
    exact reads_timeline (by omega) (h.basis x hx)
  refine (reads_counted (by omega) htable).then_pure ?_
  rw [foldl_map, foldl_map]
  exact .pure _

theorem reads_schema (h : Representable schema idents) :
    Reads Reader.schema (Writer.schema schema idents) (returnedSchema schema, returnedIdents idents) := by
  have hitems := h.items
  rw [schema_items] at hitems ⊢
  simp only [length_append] at hitems
  have hattrs := @length_le_counted _ schema.attrs.toList (fun x => Writer.attr x.2) fun _ _ => nofun
  have hnames := @length_le_counted _ idents.byKeyword.toList Writer.ident fun _ _ => nofun
  simp only [Writer.counted, length_cons] at hattrs
  refine (reads_schemaHeader (by omega)).bind ?_
  refine (Reads.many fun x _ => reads_attr x.2).bind ?_
  refine (reads_counted (by omega) fun x hx => reads_ident (h.names x hx)).bind ?_
  rw [if_pos (by decide), foldl_map, foldl_map]
  exact (reads_protection h _).then_pure (.pure _)

/-- What a schema payload decodes to. -/
theorem decode_encode_schema (h : Representable schema idents) :
    decodeSchema (encodeSchema schema idents) = .ok (returnedSchema schema, returnedIdents idents) :=
  decode_message (reads_schema h) h.items

theorem decode_encode_naming {interner : KeywordInterner} (h : RepresentableNames interner) :
    ∃ names, decodeNaming (encodeNaming interner) = .ok names := by
  have hitems := h.items
  have hnames := @length_le_counted _ interner.names Writer.keyword fun _ _ => nofun
  have hreads := reads_counted (Nat.lt_trans hnames hitems) fun k hk => reads_keyword "interner keyword" (h.names k hk)
  exact ⟨_, decode_message (hreads.then_pure (.pure _)) hitems⟩

end Corium.Protocol
