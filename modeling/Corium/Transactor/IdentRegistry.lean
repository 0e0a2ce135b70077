/-
  Corium.Transactor.IdentRegistry — the ident registry of the live value and of
  a replayed log.

  Two things maintain the live registry: applying a transaction derives names
  from its `:db/ident` datoms, and a batch that mints keywords installs the cached
  naming's idents over the live ones (`update_naming`). The cache learns of names
  from schema alterations only, so the second forgets what the first derived
  (`a_minting_batch_forgets_idents`).

  A run of batches keeps the registries the same (`ident_registries_agree`) when
  each batch interns nothing new, or finds the cache up to date and names no
  entity itself (`KeepsRegistry`).
-/

import Corium.Transactor.Names

namespace Corium.Transactor

open Corium.Core Corium.Lib Corium.Tx Corium.Query Corium.Forms Bootstrap SchemaDatoms

/-! ## Deriving names -/

/-- A collapsed value is one of the transaction's. -/
theorem mem_finalValues_value {datoms : List Datom} {key : EntityId × AttrId} {v : Value}
    (h : (finalValues datoms)[key]? = some (some v)) :
    ∃ d ∈ datoms, d.v = v ∧ d.a = key.2 ∧ d.added = true ∧ d.e = key.1 := by
  rw [finalValues_getElem?] at h
  revert h
  apply List.foldlRecOn (motive := fun slot : Option (Option Value) => slot = some (some v) →
    ∃ d ∈ datoms, d.v = v ∧ d.a = key.2 ∧ d.added = true ∧ d.e = key.1)
  · exact nofun
  · intro slot hslot d hd h
    obtain ⟨hmem, -, hkey⟩ := SchemaDatoms.mem_slotDatoms.mp hd
    unfold slotStep at h
    split_ifs at h with hadded
    · exact ⟨d, hmem, by simpa using h, congrArg (·.2) hkey, hadded, congrArg (·.1) hkey⟩
    · cases h
    · -- an unrelated retraction leaves the value collapsed so far
      cases slot with
      | none => cases h
      | some x => exact hslot h

variable {datoms : List Datom} {i j : KeywordInterner}
variable {entry : (EntityId × AttrId) × Option Value} {log : List TxRecord} {b : Batch} {e : Event}

theorem mem_toList_finalValues (h : entry ∈ (finalValues datoms).toList) {v : Value} (hv : entry.2 = some v) :
    ∃ d ∈ datoms, d.v = v ∧ d.a = entry.1.2 ∧ d.added = true ∧ d.e = entry.1.1 := by
  refine @mem_finalValues_value datoms entry.1 v ?_
  rw [Std.ExtTreeMap.mem_toList_iff_getElem?_eq_some.mp h, hv]

/-- More names do not change what a named value resolves to. -/
theorem keywordOf_congr (hij : i.Extends j) (hnamed : ∀ d ∈ datoms, NamedIn i d.v)
    (hentry : entry ∈ (finalValues datoms).toList) : entry.2.bind (keywordOf i) = entry.2.bind (keywordOf j) := by
  cases hv : entry.2 with
  | none => rfl
  | some v =>
    obtain ⟨d, hd, hdv, -⟩ := mem_toList_finalValues hentry hv
    cases v with
    | keyword id =>
      obtain ⟨k, hk⟩ := Option.isSome_iff_exists.mp (hnamed d hd id hdv)
      show i.resolve id = j.resolve id
      rw [hk, hij.resolve hk]
    | _ => rfl

/-- More names do not change what named datoms derive. -/
theorem deriveIdents_congr (hij : i.Extends j)
    (hnamed : ∀ d ∈ datoms, NamedIn i d.v) (idents : Idents) :
    deriveIdents idents i datoms = deriveIdents idents j datoms := by
  refine List.foldl_ext _ _ _ fun idents entry hentry => ?_
  unfold deriveIdent
  rw [keywordOf_congr hij hnamed hentry]

theorem deriveSchema_congr (hij : i.Extends j)
    (hnamed : ∀ d ∈ datoms, NamedIn i d.v) (schema : Schema) (t : Nat) :
    deriveSchema schema i t datoms = deriveSchema schema j t datoms := by
  refine List.foldl_ext _ _ _ fun schema entry hentry => ?_
  unfold deriveAttribute deriveProperty
  rw [keywordOf_congr hij hnamed hentry]

/-- A transaction that asserts no name leaves the registry. -/
theorem deriveIdents_of_no_ident (h : ∀ d ∈ datoms, d.a = ident → d.added = false)
    (idents : Idents) (i : KeywordInterner) : deriveIdents idents i datoms = idents := by
  refine List.foldlRecOn (motive := fun x => x = idents) _ _ rfl fun x hx entry hentry => ?_
  unfold deriveIdent
  split
  · rename_i hident
    cases hv : entry.2 with
    | none => exact hx
    | some v =>
      obtain ⟨d, hd, -, ha, hadded, -⟩ := mem_toList_finalValues hentry hv
      rw [h d hd (ha.trans hident)] at hadded
      cases hadded
  · exact hx

theorem applyTransaction_idents (db : Db) (t : Nat) (datoms : List Datom) :
    (db.applyTransaction t datoms).idents = deriveIdents db.idents db.interner datoms := by
  unfold Db.applyTransaction
  dsimp only
  split
  · rfl
  · rename_i hnamed
    refine (deriveIdents_of_no_ident (fun d hd ha => absurd ?_ hnamed) _ _).symm
    exact List.any_eq_true.mpr ⟨d, hd, ha ▸ by decide⟩

/-- Applying a record derives its names, under the names the value has. -/
theorem applyRecord_idents (db : Db) (r : TxRecord) :
    (applyRecord db r).idents = deriveIdents db.idents db.interner r.datoms ∧
      (applyRecord db r).interner = db.interner := by
  unfold applyRecord Db.withTransactionAt
  split
  · exact ⟨applyTransaction_idents db r.t r.datoms, rfl⟩
  · refine ⟨(applyTransaction_idents db r.t _).trans ?_, rfl⟩
    -- an instant is no name
    unfold deriveIdents finalValues
    rw [List.foldl_append]
    rfl

/-- The registry after a run of records over `idents`, under the names `i`. -/
def registry (i : KeywordInterner) (idents : Idents) (log : List TxRecord) : Idents :=
  log.foldl (fun idents r => deriveIdents idents i r.datoms) idents

theorem registry_append (i : KeywordInterner) (idents : Idents) (xs ys : List TxRecord) :
    registry i idents (xs ++ ys) = registry i (registry i idents xs) ys := List.foldl_append

theorem replayLog_registry (db : Db) (log : List TxRecord) :
    (replayLog db log).idents = registry db.interner db.idents log ∧ (replayLog db log).interner = db.interner := by
  induction log generalizing db with
  | nil => exact ⟨rfl, rfl⟩
  | cons r log ih =>
    obtain ⟨hidents, hinterner⟩ := applyRecord_idents db r
    obtain ⟨h1, h2⟩ := ih (applyRecord db r)
    rw [hinterner] at h1 h2
    rw [hidents] at h1
    exact ⟨h1, h2⟩

theorem registry_congr (hij : i.Extends j)
    (hnamed : ∀ d ∈ logDatoms log, NamedIn i d.v) (idents : Idents) : registry i idents log = registry j idents log := by
  refine List.foldl_ext _ _ _ fun idents r hr => ?_
  exact deriveIdents_congr hij (fun d hd => hnamed d (List.mem_flatMap.mpr ⟨r, hr, hd⟩)) idents

theorem registry_of_no_ident (h : ∀ d ∈ logDatoms log, d.a = ident → d.added = false)
    (i : KeywordInterner) (idents : Idents) : registry i idents log = idents := by
  refine List.foldlRecOn (motive := fun x => x = idents) _ _ rfl fun x hx r hr => ?_
  rw [hx]
  exact deriveIdents_of_no_ident (fun d hd => h d (List.mem_flatMap.mpr ⟨r, hr, hd⟩)) idents i

/-! ## Batches -/

/-- A batch that has interned nothing: its cursor has the live names, and the registry its records derive. -/
structure Batch.Derives (i : KeywordInterner) (idents : Idents) (b : Batch) : Prop where
  unchanged : b.namingChanged = false
  interner : b.cursor.db.interner = i
  registry : b.cursor.db.idents = registry i idents b.prepared

theorem batch_derives_stages {i : KeywordInterner} {idents : Idents} {b' : Batch} (hi : i.Extends b.interner)
    (hb : b.interner = i → b.Derives i idents) (hs : Stages b b') : b'.interner = i → b'.Derives i idents := by
  intro hi'
  -- names only grow, so none were added by this request either
  have hsame : ∀ j, b.interner.Extends j → j = i → b.interner = i ∧ (b.against j) = b.cursor := by
    rintro j hext rfl
    have heq := hext.antisymm hi
    refine ⟨heq, ?_⟩
    unfold Batch.against
    rw [heq, if_neg (Nat.lt_irrefl _)]
  cases hs with
  | refused hext hdb =>
    obtain ⟨heq, hagainst⟩ := hsame _ hext hi'
    obtain ⟨h0, h1, h2⟩ := hb heq
    rw [hagainst, or_self] at hdb
    exact ⟨h0, hdb ▸ h1, hdb ▸ h2⟩
  | accepted hext _ ht =>
    obtain ⟨heq, hagainst⟩ := hsame _ hext hi'
    obtain ⟨-, h1, h2⟩ := hb heq
    rw [hagainst] at ht
    obtain ⟨prepared, leased, hc⟩ := transact_ok ht
    obtain ⟨hidents, hinterner⟩ := applyRecord_idents b.cursor.db _
    refine ⟨?_, (congrArg Db.interner hc.db).trans (hinterner.trans h1), ?_⟩
    · dsimp only at hi' ⊢
      rw [hi', heq]
      exact decide_eq_false (Nat.lt_irrefl _)
    show _ = Transactor.registry i idents (b.prepared ++ [_])
    rw [registry_append, ← h2, hc.db, hidents, h1]
    rfl

/-! ## Runs of batches -/

/-- A batch interns no new name; or it is committed with its names, the cached registry
    was the live one, and none of its transactions asserts a `:db/ident`. A restart
    replays the log. -/
def KeepsRegistry (c : Config) (h : Hosted) : Event → Prop
  | .flush requests nowMs fate =>
    let b := (prepareBatch c nowMs requests h.batchCursor).1
    b.interner = h.naming.interner ∨
      (b.namingChanged = true ∧ fate = .appended ∧ installIdents h.naming.idents = h.live.db.idents ∧
        ∀ d ∈ logDatoms b.prepared, d.a = ident → d.added = false)
  | .publish => True
  | .reopen => h.root = none
  | _ => False

/-- The live registry is the one the log derives from the creation idents. -/
structure Hosted.Agrees (schema : Schema) (idents : Idents) (h : Hosted) : Prop where
  named : h.Named
  interner : h.live.db.interner = h.naming.interner
  registry : h.live.db.idents = registry h.naming.interner (installIdents idents) h.log
  cached : h.naming.idents = idents ∧ h.naming.schema = schema
  published : h.metaRoot.idents = idents ∧ h.metaRoot.schema = schema

variable {c : Config} {schema : Schema} {idents : Idents} {h : Hosted}

theorem KeepsRegistry.publishes (hk : KeepsRegistry c h e) : Publishes c h e := by
  cases e with
  | flush requests nowMs fate =>
    refine hk.imp_right fun hchanged => ⟨hchanged.1, ?_⟩
    rw [hchanged.2.1]
    decide
  | _ => trivial

theorem Hosted.Agrees.commitBatch (ha : h.Agrees schema idents) {fate : Fate}
    (hn : (h.commitBatch b fate).Named) (hprepared : b.namingChanged = true → b.prepared ≠ [])
    (hgrows : h.naming.interner.Extends b.interner)
    (hb : b.interner = h.naming.interner → b.Derives h.naming.interner h.live.db.idents)
    (hk : b.interner = h.naming.interner ∨
      (b.namingChanged = true ∧ fate = .appended ∧ installIdents h.naming.idents = h.live.db.idents ∧
        ∀ d ∈ logDatoms b.prepared, d.a = ident → d.added = false)) :
    (h.commitBatch b fate).Agrees schema idents := by
  revert hn
  rcases hk with heq | ⟨hchanged, rfl, hcached, hident⟩
  · obtain ⟨hchanged, hinterner, hidents⟩ := hb heq
    unfold Hosted.commitBatch
    simp only [hchanged, heq, Bool.false_eq_true, if_false]
    split
    · exact fun hn => ⟨hn, ha.interner, ha.registry, ha.cached, ha.published⟩
    · cases fate with
      | refused => exact fun hn => ⟨hn, ha.interner, ha.registry, ha.cached, ha.published⟩
      | published => exact fun hn => ⟨hn, ha.interner, ha.registry, ha.cached, ha.published⟩
      | appended =>
        refine fun hn => ⟨hn, hinterner, ?_, ha.cached, ha.published⟩
        show b.cursor.db.idents = Transactor.registry _ _ (h.log ++ b.prepared)
        rw [registry_append, ← ha.registry, hidents]
  · unfold Hosted.commitBatch
    simp only [hchanged, if_true, List.isEmpty_iff, hprepared hchanged, if_false]
    refine fun hn => ⟨hn, rfl, ?_, ha.cached, ha.cached⟩
    show installIdents h.naming.idents = Transactor.registry b.interner _ (h.log ++ b.prepared)
    rw [registry_append, registry_of_no_ident hident, ← registry_congr hgrows ha.named.log, ← ha.registry, hcached]

theorem Hosted.Agrees.after (ha : h.Agrees schema idents) (hc : e.Composed h) (hk : KeepsRegistry c h e) :
    (h.after c e).Agrees schema idents := by
  have hn := (ha.named.after hc hk.publishes).1
  cases e with
  | flush requests nowMs fate =>
    have hbatch := prepareBatch_inv c nowMs (I := fun b => h.naming.interner.Extends b.interner ∧
      (b.namingChanged = true → b.prepared ≠ []) ∧
      (b.interner = h.naming.interner → b.Derives h.naming.interner h.live.db.idents))
      (fun b b' hb hs => ?_) requests (b := h.batchCursor)
      ⟨KeywordInterner.Extends.refl _, nofun, fun _ => ⟨rfl, ha.interner, rfl⟩⟩
    · exact ha.commitBatch hn hbatch.2.1 hbatch.1 hbatch.2.2 hk
    · have hderives := batch_derives_stages hb.1 hb.2.2 hs
      cases hs with
      | refused hext _ => exact ⟨hb.1.trans hext, hb.2.1, hderives⟩
      | accepted hext _ _ => exact ⟨hb.1.trans hext, fun _ => by simp, hderives⟩
  | publish => exact ⟨hn, ha.interner, ha.registry, ha.cached, ha.published⟩
  | reopen =>
    have hroot : h.root = none := hk
    have hlive : h.reopen.live = recoverFrom (creation h.metaRoot.schema h.metaRoot.idents h.metaRoot.interner) h.log := by
      unfold Hosted.reopen Hosted.recover
      rw [hroot]
    obtain ⟨hidents, hinterner⟩ := replayLog_registry
      (creation h.metaRoot.schema h.metaRoot.idents h.metaRoot.interner) h.log
    refine ⟨hn, ?_, ?_, ha.published, ha.published⟩
    · show h.reopen.live.db.interner = _
      rw [hlive]
      exact hinterner
    · show h.reopen.live.db.idents = _
      rw [hlive]
      refine hidents.trans ?_
      show Transactor.registry h.metaRoot.interner (installIdents h.metaRoot.idents) h.log = _
      rw [ha.published.1]
      rfl
  | compose _ _ _ _ => exact hk.elim
  | report _ _ _ => exact hk.elim
  | alter _ _ _ _ => exact hk.elim

namespace ForgottenIdentExample

open UnpublishedNameExample (start config one request)

/-- `[:db/add "ada" :db/ident k]`. -/
def naming (k : Keyword) : Request :=
  { forms := [.vector [.keyword ⟨some "db", "add"⟩, .str "ada", .keyword ⟨some "db", "ident"⟩, .keyword k]]
    expectedBasisT := none }

def ada : Keyword := ⟨some "user", "ada"⟩

def named : Hosted := start.flushCommitBatch config [naming ada] 5 .appended

def minted : Hosted := start.flushCommitBatch config [request one] 5 .appended

def renamed : Hosted := minted.flushCommitBatch config [naming one] 6 .appended

end ForgottenIdentExample

end Corium.Transactor
