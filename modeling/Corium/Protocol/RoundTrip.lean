/-
  Corium.Protocol.RoundTrip — which schemas and ident registries survive their
  encoding.

  The reader builds each table by inserting what it reads, so a table survives when
  every record lies under its own id and holds no value the format gives another
  meaning (an empty timeline, class zero, a padding of zero). Documentation and
  retirement are lost. Keywords survive when their text parses back to them, and an
  entity keeps its ident when that is the last, in keyword order, of the keywords
  that name it: an entity that was renamed and a keyword that another entity took
  over do not, in general. `schema_survives_iff` is the exact condition.
-/

import Corium.Protocol.Codec
import Corium.Transactor.SchemaLog

namespace Corium.Protocol

open Corium.Core Corium.Lib Bootstrap List Std

/-- Both maps of the registry answer alike. -/
def SameAnswers (i j : Idents) : Prop := (∀ k, i.entid k = j.entid k) ∧ ∀ e, i.ident e = j.ident e

/-- `k` is the last keyword, in keyword order, that names `e`. -/
def LastName (idents : Idents) (e : EntityId) (k : Keyword) : Prop :=
  idents.entid k = some e ∧ ∀ k', idents.entid k' = some e → (compare k' k).isLE = true

structure PortableSchema (schema : Schema) : Prop where
  attrs : SchemaDatoms.Keyed schema
  classes : ∀ {e c}, schema.cls e = some c → c.id = e ∧ c.padding ≠ some 0
  timelines : ∀ {a : AttrId} {p}, schema.protection[a]? = some p → p.entries ≠ [] ∧ ∀ x ∈ p.entries, x.2 ≠ some ⟨0⟩
  docs : schema.docs = ∅
  retired : schema.retired = ∅

structure PortableIdents (idents : Idents) : Prop where
  names : ∀ {k e}, idents.entid k = some e → .parse k.text = k
  idents : ∀ {e k}, idents.ident e = some k ↔ LastName idents e k

/-! ## The tables read back -/

section Schema

variable {schema : Schema}
variable {α : Type} {p : ProtectionTimeline}

theorem foldl_insert_eq (f : α → Attribute) (l : List α) (s : Schema) : l.foldl (fun s x => s.insert (f x)) s =
    { s with attrs := l.foldl (fun m x => m.insert (f x).id (f x)) s.attrs } := by
  induction l generalizing s with
  | nil => rfl
  | cons x l ih => exact ih _

theorem foldl_insertClass_eq (f : α → ProtectionClass) (l : List α) (s : Schema) :
    l.foldl (fun s x => s.insertClass (f x)) s =
      { s with classes := l.foldl (fun m x => m.insert (f x).id (f x)) s.classes } := by
  induction l generalizing s with
  | nil => rfl
  | cons x l ih => exact ih _

/-- An empty timeline is not kept. -/
def putTimeline (m : ExtTreeMap AttrId ProtectionTimeline) (x : AttrId × ProtectionTimeline) :
    ExtTreeMap AttrId ProtectionTimeline :=
  if (returnedTimeline x.2).isEmpty then m.erase x.1 else m.insert x.1 (returnedTimeline x.2)

theorem foldl_setProtection_eq (l : List (AttrId × ProtectionTimeline)) (s : Schema) :
    l.foldl (fun s x => s.setProtection x.1 (returnedTimeline x.2)) s =
      { s with protection := l.foldl putTimeline s.protection } := by
  induction l generalizing s with
  | nil => rfl
  | cons x l ih =>
    rw [foldl_cons, ih, foldl_cons]
    unfold Schema.setProtection putTimeline
    split <;> rfl

theorem returnedSchema_eq (schema : Schema) : returnedSchema schema =
    { attrs := schema.attrs.toList.foldl (fun m x => m.insert x.2.id x.2) ∅
      classes := schema.classes.toList.foldl (fun m x => m.insert (returnedClass x.2).id (returnedClass x.2)) ∅
      protection := schema.protection.toList.foldl putTimeline ∅, docs := ∅, retired := ∅ } := by
  unfold returnedSchema
  rw [foldl_insert_eq, foldl_insertClass_eq, foldl_setProtection_eq]
  rfl

theorem returnedEntry_ne (x : Nat × Option EntityId) : (returnedEntry x).2 ≠ some ⟨0⟩ := by
  unfold returnedEntry
  dsimp only
  split
  · exact nofun
  · assumption

theorem returnedEntry_eq_self {x : Nat × Option EntityId} (h : x.2 ≠ some ⟨0⟩) : returnedEntry x = x := by
  unfold returnedEntry
  rw [if_neg h]

theorem returnedTimeline_eq_self (h : ∀ x ∈ p.entries, x.2 ≠ some ⟨0⟩) : returnedTimeline p = p := by
  have hmap : p.entries.map returnedEntry = p.entries.map id :=
    map_congr_left fun x hx => returnedEntry_eq_self (h x hx)
  unfold returnedTimeline
  rw [hmap, map_id]

theorem putTimeline_portable {l : List (AttrId × ProtectionTimeline)} {a : AttrId}
    (h : (l.foldl putTimeline ∅)[a]? = some p) : p.entries ≠ [] ∧ ∀ x ∈ p.entries, x.2 ≠ some ⟨0⟩ := by
  revert h
  apply List.foldlRecOn (motive := fun m : ExtTreeMap AttrId ProtectionTimeline compare => m[a]? = some p →
    p.entries ≠ [] ∧ ∀ x ∈ p.entries, x.2 ≠ some ⟨0⟩)
  · simp
  · intro m hm x _ h
    unfold putTimeline at h
    split at h
    · rw [ExtTreeMap.getElem?_erase] at h
      split at h
      · cases h
      · exact hm h
    · rename_i hne
      rw [ExtTreeMap.getElem?_insert] at h
      split at h
      · cases h
        refine ⟨fun hnil => hne (by simp [ProtectionTimeline.isEmpty, hnil]), fun y hy => ?_⟩
        obtain ⟨z, -, rfl⟩ := List.mem_map.mp hy
        exact returnedEntry_ne z
      · exact hm h

theorem portable_of_returned (h : returnedSchema schema = schema) : PortableSchema schema := by
  rw [returnedSchema_eq] at h
  refine ⟨fun {e r} hr => ?_, fun {e c} hc => ?_, fun {a p} hp => ?_, ?_, ?_⟩
  · rw [← h] at hr
    obtain ⟨x, -, hx, rfl⟩ := exists_of_getElem?_foldl_insert hr
    exact hx
  · rw [← h] at hc
    obtain ⟨x, -, hx, rfl⟩ := exists_of_getElem?_foldl_insert hc
    refine ⟨hx, ?_⟩
    unfold returnedClass
    dsimp only
    split
    · exact nofun
    · assumption
  · rw [← h] at hp
    exact putTimeline_portable hp
  · exact (congrArg Schema.docs h).symm
  · exact (congrArg Schema.retired h).symm

theorem returned_of_portable (h : PortableSchema schema) : returnedSchema schema = schema := by
  have hattrs : schema.attrs.toList.foldl (fun m x => m.insert x.2.id x.2) ∅ = schema.attrs := by
    refine ExtTreeMap.ext_getElem? fun k => ?_
    rw [getElem?_foldl_insert_toList schema.attrs (·.2.id) (fun x => x.2) (fun x hx => h.attrs (getElem?_of_mem_toList hx)), Option.map_id']
  have hpadding : ∀ {e : EntityId} {c}, schema.classes[e]? = some c → returnedClass c = c := by
    intro e c hc
    unfold returnedClass
    rw [if_neg (h.classes hc).2]
  have hclasses : schema.classes.toList.foldl (fun m x => m.insert (returnedClass x.2).id (returnedClass x.2)) ∅ =
      schema.classes := by
    refine ExtTreeMap.ext_getElem? fun k => ?_
    rw [getElem?_foldl_insert_toList schema.classes (fun x => (returnedClass x.2).id) (fun x => returnedClass x.2)
      (fun x hx => (h.classes (getElem?_of_mem_toList hx)).1)]
    cases hc : schema.classes[k]? with
    | none => rfl
    | some c => rw [Option.map_some, hpadding hc]
  have hput : schema.protection.toList.foldl putTimeline ∅ =
      schema.protection.toList.foldl (fun m x => m.insert x.1 x.2) ∅ := by
    refine foldl_ext _ _ _ fun m x hx => ?_
    obtain ⟨hne, hzero⟩ := h.timelines (getElem?_of_mem_toList hx)
    unfold putTimeline
    rw [returnedTimeline_eq_self hzero, if_neg (by simpa [ProtectionTimeline.isEmpty] using hne)]
  have hprotection : schema.protection.toList.foldl putTimeline ∅ = schema.protection := by
    rw [hput]
    refine ExtTreeMap.ext_getElem? fun k => ?_
    rw [getElem?_foldl_insert_toList schema.protection Prod.fst (fun x => x.2) (fun x _ => rfl), Option.map_id']
  rw [returnedSchema_eq, hattrs, hclasses, hprotection, ← h.docs, ← h.retired]

theorem returnedSchema_iff : returnedSchema schema = schema ↔ PortableSchema schema :=
  ⟨portable_of_returned, returned_of_portable⟩

end Schema

/-! ## The registry read back -/

section Idents

variable {idents : Idents}

theorem foldl_ident_insert_eq {α : Type} (f : α → Keyword) (g : α → EntityId) (l : List α) (i : Idents) :
    l.foldl (fun i x => i.insert (f x) (g x)) i =
      ⟨l.foldl (fun m x => m.insert (f x) (g x)) i.byKeyword, l.foldl (fun m x => m.insert (g x) (f x)) i.byId⟩ := by
  induction l generalizing i with
  | nil => rfl
  | cons x l ih => exact ih _

theorem returned_entid (h : ∀ {k e}, idents.entid k = some e → .parse k.text = k) (k : Keyword) :
    (returnedIdents idents).entid k = idents.entid k := by
  unfold returnedIdents
  rw [foldl_ident_insert_eq]
  have hfold := getElem?_foldl_insert_toList idents.byKeyword (fun x => Keyword.parse x.1.text) (fun x => x.2)
    (fun x hx => h (getElem?_of_mem_toList hx)) k
  rwa [Option.map_id'] at hfold

/-- Keywords are registered in their order, so the last of an entity's keywords is its ident. -/
theorem returned_ident_iff (h : ∀ {k e}, idents.entid k = some e → .parse k.text = k) {e : EntityId} {k : Keyword} :
    (returnedIdents idents).ident e = some k ↔ LastName idents e k := by
  have hident : (returnedIdents idents).ident e =
      ((idents.byKeyword.toList.filter fun x => x.2 = e).getLast?.map fun x => Keyword.parse x.1.text) := by
    unfold returnedIdents
    rw [foldl_ident_insert_eq]
    have hfold := getElem?_foldl_insert (fun x : Keyword × EntityId => x.2) (fun x => Keyword.parse x.1.text)
      idents.byKeyword.toList ∅ e
    rwa [ExtTreeMap.getElem?_empty, Option.or_none] at hfold
  have hmem : ∀ {x : Keyword × EntityId}, (x ∈ idents.byKeyword.toList.filter fun x => x.2 = e) ↔
      idents.entid x.1 = some x.2 ∧ x.2 = e := by
    intro x
    rw [mem_filter, decide_eq_true_iff]
    exact and_congr_left fun _ => ⟨getElem?_of_mem_toList, ExtTreeMap.mem_toList_iff_getElem?_eq_some.mpr⟩
  have hlast := fun x => @getLast?_eq_some_iff_of_ascending _ _ _ _ _ Prod.fst
    (idents.byKeyword.toList.filter fun x => x.2 = e)
    (List.Pairwise.filter _ ExtTreeMap.ordered_keys_toList) x
  rw [hident, Option.map_eq_some_iff]
  constructor
  · rintro ⟨x, hx, rfl⟩
    obtain ⟨hx, hmax⟩ := (hlast x).mp hx
    obtain ⟨hname, rfl⟩ := hmem.mp hx
    rw [h hname]
    exact ⟨hname, fun k' hk' => hmax (k', x.2) (hmem.mpr ⟨hk', rfl⟩)⟩
  · rintro ⟨hname, hmax⟩
    refine ⟨(k, e), (hlast _).mpr ⟨hmem.mpr ⟨hname, rfl⟩, fun y hy => ?_⟩, h hname⟩
    obtain ⟨hy', hye⟩ := hmem.mp hy
    exact hmax y.1 (hye ▸ hy')

theorem returnedIdents_iff : SameAnswers (returnedIdents idents) idents ↔ PortableIdents idents := by
  constructor
  · rintro ⟨hentid, hident⟩
    have hnames : ∀ {k e}, idents.entid k = some e → Keyword.parse k.text = k := by
      intro k e hk
      rw [← hentid k] at hk
      unfold returnedIdents at hk
      rw [foldl_ident_insert_eq] at hk
      obtain ⟨x, -, rfl, -⟩ := exists_of_getElem?_foldl_insert hk
      rw [Keyword.text_parse]
    exact ⟨hnames, fun {e k} => by rw [← hident e, returned_ident_iff hnames]⟩
  · rintro ⟨hnames, hidents⟩
    refine ⟨returned_entid hnames, fun e => ?_⟩
    ext k
    rw [returned_ident_iff hnames, hidents]

end Idents

/-! ## The metadata record -/

theorem takeBlock_prefixed {n : Nat} (bytes rest : Bytes) (hn : n < 2 ^ 32) (hlen : bytes.length = n) :
    takeBlock (beBytes 4 n ++ bytes ++ rest) = .ok (bytes, rest) := by
  have hfour : (beBytes 4 n).length = 4 := beBytes_length 4 n
  have htake : (beBytes 4 n ++ bytes ++ rest).take 4 = beBytes 4 n := by
    rw [append_assoc, take_append_of_le_length (by omega), take_of_length_le (by omega)]
  have hdrop : (beBytes 4 n ++ bytes ++ rest).drop 4 = bytes ++ rest := by
    rw [append_assoc, drop_append_of_le_length (by omega), drop_of_length_le (by omega), nil_append]
  have hvalue : beValue (beBytes 4 n) = n := beValue_beBytes (by omega)
  unfold takeBlock
  rw [if_neg (by simp only [length_append]; omega)]
  dsimp only
  rw [htake, hvalue, if_neg (by simp only [length_append]; omega), ← drop_drop, hdrop, ← hlen,
    take_left', drop_left'] <;> rfl

/-- A block whose length fits is taken off whole; a longer one reads as empty. -/
theorem takeBlock_lengthPrefix (bytes rest : Bytes) : takeBlock (lengthPrefix bytes.length ++ bytes ++ rest) =
    if bytes.length < 2 ^ 32 then .ok (bytes, rest) else .ok ([], bytes ++ rest) := by
  unfold lengthPrefix
  split
  · exact takeBlock_prefixed bytes rest ‹_› rfl
  · have h := takeBlock_prefixed [] (bytes ++ rest) (by decide : 0 < 2 ^ 32) rfl
    rwa [append_nil, ← append_assoc] at h

variable {interner : KeywordInterner}

theorem decodeMetadata_ok_iff {schema s : Schema} {idents i : Idents} (hn : RepresentableNames interner) :
    (∃ names, decodeMetadata (encodeMetadata schema idents interner) = .ok (s, i, names)) ↔
      decodeSchema (encodeSchema schema idents) = .ok (s, i) ∧
        (encodeSchema schema idents).length < 2 ^ 32 ∧ (encodeNaming interner).length < 2 ^ 32 := by
  have hsecond := takeBlock_lengthPrefix (encodeNaming interner) []
  rw [append_nil] at hsecond
  unfold decodeMetadata encodeMetadata
  dsimp only
  rw [takeBlock_lengthPrefix]
  constructor
  · rintro ⟨names, h⟩
    simp only [bind_eq_ok, pure_eq_ok, require_eq_ok, Prod.exists, Prod.mk.injEq] at h
    obtain ⟨sb, rest, hfirst, nb, rest', hblock, _, hend, s', i', hschema, names', -, rfl, rfl, rfl⟩ := h
    split at hfirst
    · cases hfirst
      rw [hsecond] at hblock
      split at hblock
      · exact ⟨hschema, ‹_›, ‹_›⟩
      · rename_i hlong
        cases hblock
        rw [append_nil] at hend
        rw [hend] at hlong
        exact absurd (by decide : 0 < 2 ^ 32) hlong
    · cases hfirst
      cases hschema
  · rintro ⟨hschema, hshort, hshort'⟩
    obtain ⟨names, hnames⟩ := decode_encode_naming hn
    refine ⟨names, ?_⟩
    rw [if_pos hshort] at *
    simp only [bind_eq_ok, pure_eq_ok, require_eq_ok, Prod.exists, Prod.mk.injEq]
    rw [if_pos hshort'] at hsecond
    exact ⟨_, _, rfl, _, _, hsecond, (), rfl, _, _, hschema, _, hnames, rfl, rfl, rfl⟩

/-- A schema and its registry come back as they were exactly when they are portable;
    the metadata record also needs both of its blocks to be shorter than 4 GiB. -/
theorem schema_survives_iff {schema : Schema} {idents : Idents} {interner : KeywordInterner}
    (h : Representable schema idents) (hn : RepresentableNames interner) :
    ((∃ i, decodeSchema (encodeSchema schema idents) = .ok (schema, i) ∧ SameAnswers i idents) ↔
      PortableSchema schema ∧ PortableIdents idents) ∧
    ((∃ i names, decodeMetadata (encodeMetadata schema idents interner) = .ok (schema, i, names) ∧ SameAnswers i idents) ↔
      (PortableSchema schema ∧ PortableIdents idents) ∧
        (encodeSchema schema idents).length < 2 ^ 32 ∧ (encodeNaming interner).length < 2 ^ 32) := by
  have hschema : (∃ i, decodeSchema (encodeSchema schema idents) = .ok (schema, i) ∧ SameAnswers i idents) ↔
      PortableSchema schema ∧ PortableIdents idents := by
    rw [decode_encode_schema h, ← returnedSchema_iff, ← returnedIdents_iff]
    constructor
    · rintro ⟨i, hi, hsame⟩
      rw [Except.ok.injEq, Prod.mk.injEq] at hi
      exact ⟨hi.1, hi.2 ▸ hsame⟩
    · rintro ⟨hs, hsame⟩
      exact ⟨_, by rw [hs], hsame⟩
  refine ⟨hschema, ?_⟩
  rw [← hschema]
  constructor
  · rintro ⟨i, names, hdecode, hsame⟩
    obtain ⟨hdecode, hsizes⟩ := (decodeMetadata_ok_iff hn).mp ⟨names, hdecode⟩
    exact ⟨⟨i, hdecode, hsame⟩, hsizes⟩
  · rintro ⟨⟨i, hdecode, hsame⟩, hsizes⟩
    obtain ⟨names, hdecode⟩ := (decodeMetadata_ok_iff hn).mpr ⟨hdecode, hsizes⟩
    exact ⟨i, names, hdecode, hsame⟩

namespace DocumentedExample

open Corium.Forms Corium.Transactor

def email : Attribute :=
  { id := dbAttr 100, valueType := .str, cardinality := .one, unique := none, isComponent := false
    indexed := false, noHistory := false }

def emailIdent : Keyword := ⟨some "person", "email"⟩

def ada : Keyword := ⟨some "user", "ada"⟩

def abe : Keyword := ⟨some "user", "abe"⟩

def names : KeywordInterner := ⟨[ada, abe], by decide⟩

def base : Db := creation (Schema.empty.insert email) (Idents.empty.insert emailIdent email.id) names

theorem covered_of_no_unique : (none : Option Unique).isSome = true → false = true := id

/-- The schema file documents `:person/email`. -/
def declared : DesiredSchema :=
  DesiredSchema.empty.insert
    { ident := emailIdent, valueType := .str, cardinality := .one, unique := none, indexed := false
      isComponent := false, noHistory := false, doc := some "Work address", protection := none, covered := covered_of_no_unique }

def documentation : Datom :=
  { e := email.id, a := Bootstrap.doc, v := .str "Work address", tx := txId 1, added := true }

def documenting : TxRecord := { t := 1, txInstant := 5, datoms := [documentation, txInstantDatom 1 5] }

def step : PlanStep :=
  { ident := ":person/email", kind := .property .doc, cls := .additive, acks := [], blocked := none }

theorem update : SchemaUpdate base names [documentation] names :=
  ⟨declared, false, [step], [documentation], [], by decide +kernel, by decide, by decide +kernel, nofun, rfl⟩

theorem altered : Altered base.interner base.schema documenting :=
  ⟨⟨by decide, by decide⟩, base, _, _, _, [txInstantDatom 1 5], rfl, update,
    KeywordInterner.Extends.refl _, by decide, rfl⟩

def person : EntityId := EntityId.new Partition.user.id 1000

/-- Names the person by the keyword of id `k`. -/
def naming (t : Nat) (k : KwId) : TxRecord :=
  { t, txInstant := 6, datoms := [{ e := person, a := Bootstrap.ident, v := .keyword k, tx := txId t, added := true },
      txInstantDatom t 6] }

def log : List TxRecord := [documenting, naming 2 0, naming 3 1]

def reached : Db := replayLog base log

theorem representable_reached : Representable reached.schema reached.idents :=
  ⟨by decide +kernel, by decide, by decide +kernel, by decide +kernel⟩

/-- The attribute's documentation is gone, and the person goes by the old name. -/
theorem documentation_and_renaming_are_lost : AcceptedLog base log ∧
    reached.schema.docs[email.id]? = some "Work address" ∧ reached.idents.ident person = some abe ∧
    ∃ s i, decodeSchema (encodeSchema reached.schema reached.idents) = .ok (s, i) ∧
      s.docs[email.id]? = none ∧ i.ident person = some ada := by
  have hsound : ∀ t k, t = 2 ∧ k = 0 ∨ t = 3 ∧ k = 1 → SoundRecord (naming t k) := by
    rintro t k (⟨rfl, rfl⟩ | ⟨rfl, rfl⟩) <;> exact ⟨⟨by decide, by decide⟩, by decide⟩
  refine ⟨.altered altered (.ordinary (hsound 2 0 (by decide)) (.ordinary (hsound 3 1 (by decide)) .nil)),
    by decide +kernel, by decide, _, _, decode_encode_schema representable_reached, ?_, by decide⟩
  rw [returnedSchema_eq]
  exact ExtTreeMap.getElem?_empty

def declaredSchema : Schema := Schema.empty.insert email

def declaredIdents : Idents := Idents.empty.insert emailIdent email.id

theorem portable_declaredSchema : PortableSchema declaredSchema := by
  refine ⟨fun {e r} hr => ?_, fun h => ?_, fun h => ?_, rfl, rfl⟩
  · rw [declaredSchema, Schema.get_insert] at hr
    split at hr
    · cases hr
      assumption
    · simp [Schema.get, Schema.empty] at hr
  · simp [Schema.cls, declaredSchema, Schema.insert, Schema.empty] at h
  · simp [declaredSchema, Schema.insert, Schema.empty] at h

theorem portable_declaredIdents : PortableIdents declaredIdents := by
  have hentid : ∀ {k e}, declaredIdents.entid k = some e ↔ emailIdent = k ∧ email.id = e := by
    intro k e
    simp [declaredIdents, Idents.entid, Idents.insert, Idents.empty, ExtTreeMap.getElem?_insert]
  have hident : ∀ {e k}, declaredIdents.ident e = some k ↔ email.id = e ∧ emailIdent = k := by
    intro e k
    simp [declaredIdents, Idents.ident, Idents.insert, Idents.empty, ExtTreeMap.getElem?_insert]
  refine ⟨fun h => ?_, fun {e k} => ?_⟩
  · rw [← (hentid.mp h).1]
    decide
  · rw [hident, LastName, hentid]
    constructor
    · rintro ⟨rfl, rfl⟩
      refine ⟨⟨rfl, rfl⟩, fun k' hk' => ?_⟩
      rw [← (hentid.mp hk').1, compare_same]
      rfl
    · rintro ⟨⟨rfl, rfl⟩, -⟩
      exact ⟨rfl, rfl⟩

/-- One attribute under one name, undocumented: the metadata record keeps it. -/
theorem schema_survives_declared : ∃ i interner,
    decodeMetadata (encodeMetadata declaredSchema declaredIdents names) = .ok (declaredSchema, i, interner) ∧
      SameAnswers i declaredIdents :=
  (schema_survives_iff ⟨by decide, by decide, by decide, by decide⟩
    ⟨by decide, by decide⟩).2.mpr
      ⟨⟨portable_declaredSchema, portable_declaredIdents⟩, by decide, by decide⟩

end DocumentedExample

end Corium.Protocol
