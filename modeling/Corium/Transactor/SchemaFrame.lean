/-
  Corium.Transactor.SchemaFrame — what an ordinary transaction leaves of the
  schema.

  `prepare` refuses the schema vocabulary, save a `:db/ident` on an entity outside
  the db partition, so the derived schema is the same. The names are one table:
  such an ident may be a keyword that already names an attribute, and then names
  the other entity (`an_ident_takes_an_attributes_name`). Where no operation
  asserts a name in use for a schema entity, every such name stands
  (`ordinary_transaction_keeps_schema`).
-/

import Corium.Transactor.IdentRegistry
import Corium.Forms.SchemaPlan

namespace Corium.Transactor

open Corium.Core Corium.Lib Corium.Tx Corium.Forms Bootstrap SchemaDatoms

theorem insert_entid (idents : Idents) (k k' : Keyword) (e : EntityId) :
    (idents.insert k e).entid k' = if k = k' then some e else idents.entid k' := by
  unfold Idents.insert Idents.entid
  rw [Std.ExtTreeMap.getElem?_insert]
  simp only [Std.LawfulEqCmp.compare_eq_iff_eq]

/-- A name no datom asserts keeps its entity. -/
theorem deriveIdents_entid {i : KeywordInterner} {datoms : List Datom} {k : Keyword}
    (h : ∀ d ∈ datoms, d.a = ident → d.added = true → keywordOf i d.v ≠ some k) (idents : Idents) :
    (deriveIdents idents i datoms).entid k = idents.entid k := by
  refine List.foldlRecOn (motive := fun x : Idents => x.entid k = idents.entid k) _ _ rfl fun x hx entry hentry => ?_
  unfold deriveIdent
  split
  · rename_i hident
    split
    · rename_i name hname
      obtain ⟨v, hv, hkeyword⟩ := Option.bind_eq_some_iff.mp hname
      obtain ⟨d, hd, rfl, ha, hadded, -⟩ := mem_toList_finalValues hentry hv
      rw [insert_entid, if_neg, hx]
      rintro rfl
      exact h d hd (ha.trans hident) hadded hkeyword
    · exact hx
  · exact hx

/-- An attribute, a protection class or an entity of the engine. -/
def SchemaEntity (db : Db) (e : EntityId) : Prop :=
  (db.schema.get e).isSome = true ∨ (db.schema.cls e).isSome = true ∨ isEngineAttribute e = true

theorem withTransaction_idents (db : Db) (t : Nat) (datoms : List Datom) :
    (db.withTransaction t datoms).idents = deriveIdents db.idents db.interner datoms := by
  obtain ⟨_, heq⟩ := db.withTransaction_eq t datoms
  rw [heq]
  exact applyTransaction_idents db t datoms

/-- The schema never changes; the names of schema entities stand if no operation asserts
    one of them as an ident. -/
theorem ordinary_transaction_keeps_schema {db : Db} {items : List TxItem} {tx : TxId} {n : Nat} {r : PreparedTx}
    (h : prepare db items tx n = .ok r) (t : Nat) :
    (db.withTransaction t r.datoms).schema = db.schema ∧
    ((∀ op ∈ expandItems items, ∀ v k e, op.Asserts ident v → keywordOf db.interner v = some k →
        db.idents.entid k = some e → ¬ SchemaEntity db e) →
      ∀ k e, db.idents.entid k = some e → SchemaEntity db e → (db.withTransaction t r.datoms).idents.entid k = some e) := by
  refine ⟨?_, fun hnames k e hk he => ?_⟩
  · exact db.withTransaction_schema_of_only_idents t fun d hd => ident_of_writable (prepare_writes h d hd).1
  · rw [withTransaction_idents, deriveIdents_entid ?_ db.idents, hk]
    intro d hd ha hadded hkeyword
    obtain ⟨op, hop, hasserts⟩ := (prepare_writes h d hd).2 hadded
    exact hnames op hop d.v k e (ha ▸ hasserts) hkeyword hk he

namespace TakenNameExample

def name : Attribute :=
  { id := dbAttr 100, valueType := .str, cardinality := .one, unique := none, isComponent := false
    indexed := false, noHistory := false }

def personName : Keyword := ⟨some "person", "name"⟩

def ada : Keyword := ⟨some "user", "ada"⟩

def interner : KeywordInterner := ((KeywordInterner.empty.intern personName).2.intern ada).2

def base : Db := creation (Schema.empty.insert name) (Idents.empty.insert personName name.id) interner

def user : EntityId := EntityId.new Partition.user.id 1000

/-- `[:db/add user :db/ident k]`, `k` the keyword of the id. -/
def naming (k : Nat) : List TxItem := [.op (.add (.id user) ident (.keyword k.toUInt64))]

def named (k : Nat) : PreparedTx := ⟨[assertion (txId 1) user ident (.keyword k.toUInt64)], ∅⟩

/-- A user entity is named `:person/name`; the attribute of that name is lost to it. -/
theorem an_ident_takes_an_attributes_name :
    prepare base (naming 0) (txId 1) 1000 = .ok (named 0) ∧ SchemaEntity base name.id ∧
    base.idents.entid personName = some name.id ∧
    (base.withTransaction 1 (named 0).datoms).idents.entid personName = some user := by
  refine ⟨by decide +kernel, .inl (by decide +kernel), by decide, by decide⟩

/-- Another name leaves the attribute's. -/
theorem ordinary_transaction_keeps_schema_ada :
    (base.withTransaction 1 (named 1).datoms).schema = base.schema ∧
      (base.withTransaction 1 (named 1).datoms).idents.entid personName = some name.id := by
  have hprepare : prepare base (naming 1) (txId 1) 1000 = .ok (named 1) := by decide +kernel
  have hada : base.idents.entid ada = none := by decide
  refine ⟨(ordinary_transaction_keeps_schema hprepare 1).1,
    (ordinary_transaction_keeps_schema hprepare 1).2 ?_ personName name.id (by decide) (.inl (by decide +kernel))⟩
  intro op hop v k e hasserts hk he
  obtain rfl : op = .add (.id user) ident (.keyword 1) := List.mem_singleton.mp hop
  obtain ⟨-, rfl⟩ := hasserts
  obtain rfl : ada = k := Option.some.inj ((show keywordOf base.interner _ = some ada by decide).symm.trans hk)
  rw [hada] at he
  cases he

end TakenNameExample

end Corium.Transactor
