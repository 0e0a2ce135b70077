/-
  Corium.Transactor.Registry — the life of a saga's registry entry
  (`validate_entity` of `crates/corium-tx/src/saga.rs`, `entry_at` of
  `crates/corium-db/src/saga.rs`).

  An entry is an entity with a `:db.saga/id`. It is to be complete (one status, a
  basis, an owner, a deadline), its id, basis, owner and seal fixed, its status
  left open or finished once, and its merge record there only when committed.

  `registry_lifecycle`: so it is in every run whose transactions retract none of
  the fields an entry is complete by, and no entity where they open a saga.
  `entries_left_incomplete`: the validator counts a field the transaction asserts
  and takes back, and lets the deadline of an open saga be retracted.
-/

import Corium.Transactor.Grants
import Corium.Tx.Registry

namespace Corium.Transactor

open Corium.Core Corium.Lib Corium.Tx Bootstrap List Saga

/-! ## The registry's attributes -/

/-- What an entry is complete by. -/
def keptFields : List AttrId := sagaId :: sagaStatus :: openFields

def mergeFields : List AttrId := [sagaMergedTx, sagaSteps]

def entryFields : List AttrId := keptFields ++ sagaSealed :: mergeFields

theorem isSagaAttribute_of_entryField {a : AttrId} (h : a ∈ entryFields) : isSagaAttribute a = true :=
  (by decide : ∀ a ∈ entryFields, isSagaAttribute a = true) a h

theorem installSchema_protectionOf (schema : Schema) (a : AttrId) :
    (installSchema schema).protectionOf a = schema.protectionOf a := by
  rw [installSchema_eq]
  rfl

/-- A kept field holds one plain value. -/
theorem keptField_attribute (schema : Schema) {a : AttrId} (ha : a ∈ keptFields) :
    ∃ attr, (installSchema schema).get a = some attr ∧ attr.valueType ≠ .ref ∧ attr.cardinality = .one := by
  have hall : ∀ a ∈ keptFields, ∃ entry, lastOn (fun x : Keyword × Attribute => x.2.id) a Bootstrap.attributes = some entry ∧
      entry.2.valueType ≠ .ref ∧ entry.2.cardinality = .one := by
    intro a ha
    simp only [keptFields, openFields, mem_cons, not_mem_nil, or_false] at ha
    rcases ha with rfl | rfl | rfl | rfl | rfl
    · exact ⟨_, rfl, by decide, rfl⟩
    · exact ⟨_, rfl, by decide, rfl⟩
    · exact ⟨_, rfl, by decide, rfl⟩
    · exact ⟨_, rfl, by decide, rfl⟩
    · exact ⟨_, rfl, by decide, rfl⟩
  obtain ⟨entry, hentry, hplain⟩ := hall a ha
  exact ⟨entry.2, installSchema_get schema hentry, hplain⟩

/-! ## The registry of one value -/

structure Registry (db : Db) : Prop where
  typed : WellTyped keptFields db
  one : OneValued keptFields db
  /-- Only an entry has the fields of one. -/
  entry : ∀ e a v, a ∈ entryFields → db.Holds (e, a, v) → ∃ id, db.Holds (e, sagaId, id)
  status : ∀ e id, db.Holds (e, sagaId, id) → ∃ status, HoldsStatus db e status
  fields : ∀ e id, db.Holds (e, sagaId, id) → ∀ a ∈ openFields, ∃ v, db.Holds (e, a, v)
  merge : ∀ e a v, a ∈ mergeFields → db.Holds (e, a, v) → HoldsStatus db e .committed

/-- What becomes of an entry: its fixed fields stay, its status stays or finishes. -/
structure Steady (db db' : Db) : Prop where
  fixed : ∀ e id, db.Holds (e, sagaId, id) → ∀ a ∈ fixedFields, ∀ v, db'.Holds (e, a, v) ↔ db.Holds (e, a, v)
  status : ∀ e st st', HoldsStatus db e st → HoldsStatus db' e st' → st' = st ∨ st = .opened ∧ st'.isTerminal = true

section Value

variable {schema : Schema} {db db' db'' : Db}
variable {e : EntityId}

theorem Registry.one_status (h : Registry db) (hschema : db.schema = installSchema schema)
    {v v' : Value} (hv : db.Holds (e, sagaStatus, v)) (hv' : db.Holds (e, sagaStatus, v')) : v = v' := by
  have hmem : sagaStatus ∈ keptFields := by decide
  obtain ⟨attr, hattr, -, hone⟩ := keptField_attribute schema hmem
  rw [← hschema] at hattr
  exact h.one _ attr hmem hattr hone e v v' hv hv'

theorem Registry.status_unique (h : Registry db) (hschema : db.schema = installSchema schema)
    {st st' : SagaStatus} (hst : HoldsStatus db e st) (hst' : HoldsStatus db e st') : st = st' := by
  obtain ⟨v, k, hv, hk, rfl⟩ := hst
  obtain ⟨v', k', hv', hk', rfl⟩ := hst'
  rw [h.one_status hschema hv hv', hk'] at hk
  rw [Option.some.inj hk]

/-- An entity holds an id exactly when it has an entry, which shows its status. -/
theorem Registry.entryAt (h : Registry db) (hview : db.view = .current) (hschema : db.schema = installSchema schema)
    (hclear : (schema.protectionOf sagaId).current = none) {id : Value}
    (hid : db.Holds (e, sagaId, id)) {st : SagaStatus} (hst : HoldsStatus db e st) :
    ∃ prior, entryAt db e = some prior ∧ prior.status = some st := by
  have hfield : ∀ id', db.Holds (e, sagaId, id') → id' = id := by
    have hmem : sagaId ∈ keptFields := by decide
    obtain ⟨attr, hattr, -, hone⟩ := keptField_attribute schema hmem
    rw [← hschema] at hattr
    exact fun id' hid' => h.one _ attr hmem hattr hone e id' id hid' hid
  have huuid : ∃ u, id = .uuid u := by
    have hattr : ∃ attr, db.schema.get sagaId = some attr ∧ attr.valueType = .uuid := by
      rw [hschema]
      exact ⟨_, installSchema_get schema rfl, rfl⟩
    obtain ⟨attr, hattr, huuid⟩ := hattr
    obtain ⟨htype, hsealed⟩ := h.typed (e, sagaId, id) attr mem_cons_self hid hattr
    rw [hschema, installSchema_protectionOf] at hsealed
    rw [huuid] at htype
    cases id with
    | uuid u => exact ⟨u, rfl⟩
    | sealed s => exact absurd rfl (hsealed hclear s)
    | _ => cases htype
  obtain ⟨u, rfl⟩ := huuid
  obtain ⟨v, k, hv, hk, hstatus⟩ := hst
  unfold Saga.entryAt
  rw [field_eq hview hid hfield]
  refine ⟨_, rfl, ?_⟩
  show (Saga.field db e sagaStatus (Saga.keyword db)).map SagaStatus.fromKeyword = some st
  rw [field_eq hview hv fun v' hv' => h.one_status hschema hv' hv, hk, Option.map_some, hstatus]

theorem entryAt_none (hview : db.view = .current) (hno : ∀ id, ¬ db.Holds (e, sagaId, id)) : entryAt db e = none := by
  have hvalues : db.values e sagaId = [] := by
    refine eq_nil_iff_forall_not_mem.mpr fun v hv => hno v ((Db.mem_values hview).mp hv)
  unfold entryAt Saga.field
  rw [hvalues]
  rfl

theorem Steady.refl (h : Registry db) (hschema : db.schema = installSchema schema) : Steady db db :=
  ⟨fun _ _ _ _ _ _ => Iff.rfl, fun _ _ _ hst hst' => .inl (h.status_unique hschema hst' hst)⟩

theorem Steady.trans (h : Steady db db') (h' : Steady db' db'') (hr : Registry db) (hr' : Registry db') :
    Steady db db'' := by
  have hkeep : ∀ {e id}, db.Holds (e, sagaId, id) → db'.Holds (e, sagaId, id) := fun hid =>
    (h.fixed _ _ hid _ (by decide) _).mpr hid
  refine ⟨fun e id hid a ha v => ?_, fun e st st'' hst hst'' => ?_⟩
  · exact (h'.fixed e id (hkeep hid) a ha v).trans (h.fixed e id hid a ha v)
  · obtain ⟨v, -, hv, -⟩ := id hst
    obtain ⟨id, hid⟩ := hr.entry e _ v (by decide) hv
    obtain ⟨st', hst'⟩ := hr'.status e id (hkeep hid)
    rcases h.status e st st' hst hst' with rfl | ⟨rfl, hterm⟩
    · exact h'.status e st' st'' hst' hst''
    · rcases h'.status e st' st'' hst' hst'' with rfl | ⟨rfl, -⟩
      · exact .inr ⟨rfl, hterm⟩
      · cases hterm

/-- The registry reads the entry fields, the schema and the names. -/
theorem Registry.congr (h : Registry db) (hschema : db'.schema = db.schema) (hnames : db.interner.Extends db'.interner)
    (hsame : ∀ e a v, a ∈ entryFields → (db'.Holds (e, a, v) ↔ db.Holds (e, a, v))) : Registry db' := by
  have hkept : ∀ a ∈ keptFields, a ∈ entryFields := fun a ha => mem_append_left _ ha
  have hstatus : ∀ {e st}, HoldsStatus db e st → HoldsStatus db' e st := by
    rintro e st ⟨v, k, hv, hk, hst⟩
    refine ⟨v, k, (hsame e _ v (by decide)).mpr hv, ?_, hst⟩
    cases v with
    | keyword id => exact hnames.resolve hk
    | _ => cases hk
  refine ⟨fun f attr hf hh hattr => ?_, fun a attr ha hattr hone e v v' hv hv' => ?_, fun e a v ha hv => ?_,
    fun e id hid => ?_, fun e id hid a ha => ?_, fun e a v ha hv => ?_⟩
  · rw [hschema] at hattr ⊢
    exact h.typed f attr hf ((hsame _ _ _ (hkept _ hf)).mp hh) hattr
  · rw [hschema] at hattr
    exact h.one a attr ha hattr hone e v v' ((hsame _ _ _ (hkept _ ha)).mp hv) ((hsame _ _ _ (hkept _ ha)).mp hv')
  · obtain ⟨id, hid⟩ := h.entry e a v ha ((hsame e a v ha).mp hv)
    exact ⟨id, (hsame e _ id (by decide)).mpr hid⟩
  · obtain ⟨st, hst⟩ := h.status e id ((hsame e _ id (by decide)).mp hid)
    exact ⟨st, hstatus hst⟩
  · have hmem : ∀ a ∈ openFields, a ∈ entryFields := by decide
    obtain ⟨v, hv⟩ := h.fields e id ((hsame e _ id (by decide)).mp hid) a ha
    exact ⟨v, (hsame e a v (hmem a ha)).mpr hv⟩
  · have hmem : ∀ a ∈ mergeFields, a ∈ entryFields := by decide
    exact hstatus (h.merge e a v ha ((hsame e a v (hmem a ha)).mp hv))

end Value

/-! ## One transaction -/

/-- No operation retracts a field an entry is complete by, and a transaction that
    writes a `:db.saga/id` retracts no entity. -/
structure Settles (items : List TxItem) : Prop where
  kept : ∀ op ∈ expandItems items, clears keptFields op = false
  opens : (∃ op ∈ expandItems items, assertedAttribute op = some sagaId) →
    ∀ op ∈ expandItems items, retractsEntity op = false

/-- What a transaction from `db` to `w` can do to `e` as an entry. -/
inductive Outcome (db w : Db) (e : EntityId) : Prop where
  | untouched (h : ∀ a v, a ∈ entryFields → (w.Holds (e, a, v) ↔ db.Holds (e, a, v)))
  | opened (hnew : ∀ id, ¬ db.Holds (e, sagaId, id)) (hstatus : HoldsStatus w e .opened)
      (hid : ∃ id, w.Holds (e, sagaId, id)) (hfields : ∀ a ∈ openFields, ∃ v, w.Holds (e, a, v))
      (hmerge : ∀ a ∈ mergeFields, ∀ v, ¬ w.Holds (e, a, v))
  | updated {id : Value} {st st' : SagaStatus} (hentry : db.Holds (e, sagaId, id))
      (hfixed : ∀ a ∈ fixedFields, ∀ v, w.Holds (e, a, v) ↔ db.Holds (e, a, v))
      (hexpires : ∃ v, w.Holds (e, sagaExpiresAt, v)) (hst : HoldsStatus db e st) (hst' : HoldsStatus w e st')
      (hnext : st' = st ∨ st = .opened ∧ st'.isTerminal = true)
      (hmerge : ∀ a ∈ mergeFields, ∀ v, w.Holds (e, a, v) → db.Holds (e, a, v) ∨ st' = .committed)

section Transaction

variable {schema : Schema} {db w : Db} {items : List TxItem} {tx : TxId} {n : Nat} {r : PreparedTx}
variable {e : EntityId}

theorem assertedStatus_some {ds : List Datom} {st : SagaStatus} (h : assertedStatus db e ds = some st) :
    ∃ d k, lastAsserted e sagaStatus ds = some d ∧ Saga.keyword db d.v = some k ∧
      SagaStatus.fromKeyword k = st := by
  unfold assertedStatus at h
  obtain ⟨k, hk, hst⟩ := Option.map_eq_some_iff.mp h
  obtain ⟨d, hd, hkey⟩ := Option.bind_eq_some_iff.mp hk
  exact ⟨d, k, hd, hkey, hst⟩

/-- The status asserted last, in force after the transaction. -/
theorem holdsStatus_of_asserted {covers : EntityId → AttrId → Prop} (hf : Follows db r.datoms w)
    (hrep : Replaced covers r.datoms) (hc : covers e sagaStatus) {st : SagaStatus}
    (h : assertedStatus db e r.datoms = some st) : HoldsStatus w e st := by
  obtain ⟨d, k, hd, hk, hst⟩ := assertedStatus_some h
  refine ⟨d.v, k, ?_, ?_, hst⟩
  · rw [Db.Holds, hf.recorded]
    exact holds_append_of_holds _ (hrep.holds hc hd)
  · cases hdv : d.v with
    | keyword id =>
      rw [hdv] at hk
      show w.interner.resolve id = some k
      rw [hf.interner]
      exact hk
    | _ => rw [hdv] at hk; cases hk

theorem Registry.opened (h : Registry db) (hf : Follows db r.datoms w) (hp : prepare db items tx n = .ok r)
    (hs : Settles items) (hnew : ∀ id, ¬ db.Holds (e, sagaId, id))
    (hval : validateOpen e (sagaWrites e r.datoms) (assertedStatus db e r.datoms) = .ok ()) : Outcome db w e := by
  obtain ⟨hstatus, hasserts, hmerge⟩ := validateOpen_ok hval
  obtain ⟨d, hd, -, hda, hadded⟩ := hasserts _ mem_cons_self
  have hops := prepare_asserts hp hd hadded
  rw [hda] at hops
  have hrep := prepare_replaced hp fun op hop => ⟨hs.kept op hop, hs.opens hops op hop⟩
  have hheld : ∀ a ∈ sagaId :: openFields, ∃ v, w.Holds (e, a, v) := by
    intro a ha
    have hkept : ∀ a ∈ sagaId :: openFields, a ∈ keptFields := by decide
    obtain ⟨d, hd, he, hda, hadded⟩ := hasserts a ha
    obtain ⟨d', hd'⟩ := lastAsserted_isSome hd he hda hadded
    refine ⟨d'.v, ?_⟩
    rw [Db.Holds, hf.recorded]
    exact holds_append_of_holds _ (hrep.holds (hkept a ha) hd')
  refine .opened hnew (holdsStatus_of_asserted hf hrep (by decide) hstatus) (hheld _ mem_cons_self)
    (fun a ha => hheld a (mem_cons_of_mem _ ha)) fun a ha v hv => ?_
  rw [Db.Holds, hf.recorded] at hv
  rcases holds_append_cases hv with ⟨d, hd, hfact, hadded⟩ | ⟨hold, -⟩
  · have hno := hmerge d hd (congrArg (·.1) hfact) (by rw [show d.a = a from congrArg (·.2.1) hfact]; exact ha)
    rw [hno] at hadded
    cases hadded
  · have hmem : ∀ a ∈ mergeFields, a ∈ entryFields := by decide
    obtain ⟨id, hid⟩ := h.entry e a v (hmem a ha) hold
    exact hnew id hid

theorem Registry.updated (h : Registry db) (hview : db.view = .current)
    (hschema : db.schema = installSchema schema) (hf : Follows db r.datoms w) (hp : prepare db items tx n = .ok r)
    (hs : Settles items) {e : EntityId} {id : Value} (hid : db.Holds (e, sagaId, id)) {prior : SagaEntry}
    {st : SagaStatus} (hst : HoldsStatus db e st) (hprior : prior.status = some st)
    (hval : validateUpdate prior (sagaWrites e r.datoms) (assertedStatus db e r.datoms) = .ok ()) :
    Outcome db w e := by
  obtain ⟨hfixed, htransition, hmerge⟩ := validateUpdate_ok hprior hval
  have hrep : Replaced (fun x a => x = e ∧ a ∈ keptFields) r.datoms := by
    refine prepare_replaced_entry hview h.typed hp (fun a ha => ?_) hs.kept hid fun d hd he ha => ?_
    · obtain ⟨attr, hattr, hplain, -⟩ := keptField_attribute schema ha
      exact ⟨attr, hschema ▸ hattr, hplain⟩
    · refine hfixed d hd he ?_
      rw [ha]
      decide
  have hsame : ∀ a ∈ fixedFields, ∀ v, w.Holds (e, a, v) ↔ db.Holds (e, a, v) := by
    intro a ha v
    rw [Db.Holds, hf.recorded, holds_append_of_ne]
    · exact Iff.rfl
    · intro d hd hfact
      refine hfixed d hd (congrArg (·.1) hfact) ?_
      rw [show d.a = a from congrArg (·.2.1) hfact]
      exact ha
  have hexpires : ∃ v, w.Holds (e, sagaExpiresAt, v) := by
    obtain ⟨v, hv⟩ := h.fields e id hid sagaExpiresAt (by decide)
    obtain ⟨v', hv'⟩ := hrep.keeps (a := sagaExpiresAt) ⟨rfl, by decide⟩ hv
    exact ⟨v', by rw [Db.Holds, hf.recorded]; exact hv'⟩
  -- a merge record new here comes with the status that commits
  have hrecord : ∀ st' : SagaStatus, (assertedStatus db e r.datoms = some .committed → st' = .committed) →
      ∀ a ∈ mergeFields, ∀ v, w.Holds (e, a, v) → db.Holds (e, a, v) ∨ st' = .committed := by
    intro st' hcommitted a ha v hv
    rw [Db.Holds, hf.recorded] at hv
    rcases holds_append_cases hv with ⟨d, hd, hfact, hadded⟩ | ⟨hold, -⟩
    · rcases hmerge with hc | hno
      · exact .inr (hcommitted hc)
      · have := hno d hd (congrArg (·.1) hfact) (by rw [show d.a = a from congrArg (·.2.1) hfact]; exact ha)
        rw [this] at hadded
        cases hadded
    · exact .inl hold
  rcases htransition with ⟨hnone, hkeep⟩ | ⟨next, hsome, rfl, hterm⟩
  · refine @Outcome.updated db w e id st st hid hsame hexpires hst ?_ (.inl rfl) (hrecord st fun hc => by rw [hnone] at hc; cases hc)
    obtain ⟨v, k, hv, hk, hstatus⟩ := hst
    refine ⟨v, k, ?_, ?_, hstatus⟩
    · rw [Db.Holds, hf.recorded]
      refine holds_append_of_not_retracted hv fun d hd hfact => ?_
      exact hkeep d hd (congrArg (·.1) hfact) (congrArg (·.2.1) hfact)
    · cases v with
      | keyword kid =>
        show w.interner.resolve kid = some k
        rw [hf.interner]
        exact hk
      | _ => cases hk
  · refine .updated hid hsame hexpires hst (holdsStatus_of_asserted hf hrep ⟨rfl, by decide⟩ hsome) (.inr ⟨rfl, hterm⟩)
      (hrecord next fun hc => ?_)
    rw [hsome] at hc
    exact Option.some.inj hc

/-- Every entity has an outcome in an accepted transaction. -/
theorem Registry.outcome (h : Registry db) (hview : db.view = .current)
    (hschema : db.schema = installSchema schema)
    (hclear : (schema.protectionOf sagaId).current = none) (hf : Follows db r.datoms w)
    (hp : prepare db items tx n = .ok r) (hs : Settles items) (e : EntityId) : Outcome db w e := by
  by_cases htouch : ∃ d ∈ r.datoms, d.e = e ∧ isSagaAttribute d.a = true
  · obtain ⟨d, hd, he, ha⟩ := htouch
    have hval : validateEntity db r.datoms e = .ok () := by
      obtain ⟨-, -, hval⟩ := prepare_ok hp
      unfold validateSagas at hval
      simp only [bind_eq_ok] at hval
      obtain ⟨_, -, _, -, hall⟩ := hval
      refine forM_ok hall e (mem_sortedEntities.mpr (mem_map.mpr ⟨d, mem_filter.mpr ⟨hd, ha⟩, he⟩))
    unfold validateEntity at hval
    by_cases hentry : ∃ id, db.Holds (e, sagaId, id)
    · obtain ⟨id, hid⟩ := hentry
      obtain ⟨st, hst⟩ := h.status e id hid
      obtain ⟨prior, hat, hprior⟩ := h.entryAt hview hschema hclear hid hst
      rw [hat] at hval
      exact h.updated hview hschema hf hp hs hid hst hprior hval
    · have hnew : ∀ id, ¬ db.Holds (e, sagaId, id) := fun id hid => hentry ⟨id, hid⟩
      rw [entryAt_none hview hnew] at hval
      exact h.opened hf hp hs hnew hval
  · refine .untouched fun a v ha => ?_
    rw [Db.Holds, hf.recorded, holds_append_of_ne]
    · exact Iff.rfl
    · intro d hd hfact
      refine htouch ⟨d, hd, congrArg (·.1) hfact, ?_⟩
      rw [show d.a = a from congrArg (·.2.1) hfact]
      exact isSagaAttribute_of_entryField ha

end Transaction

section Steps

variable {schema : Schema} {db w : Db}

theorem Registry.of_outcomes (h : Registry db) (hschema : db.schema = installSchema schema)
    (ht : WellTyped keptFields w) (ho : OneValued keptFields w) (hnames : w.interner = db.interner)
    (hout : ∀ e, Outcome db w e) : Registry w := by
  have hopen : ∀ a ∈ openFields, a ∈ entryFields := by decide
  have hmerge : ∀ a ∈ mergeFields, a ∈ entryFields := by decide
  -- the status of an entity left alone
  have hstatus : ∀ {e st}, (∀ a v, a ∈ entryFields → (w.Holds (e, a, v) ↔ db.Holds (e, a, v))) →
      HoldsStatus db e st → HoldsStatus w e st := by
    rintro e st hsame ⟨v, k, hv, hk, hst⟩
    refine ⟨v, k, (hsame _ v (by decide)).mpr hv, ?_, hst⟩
    cases v with
    | keyword id =>
      show w.interner.resolve id = some k
      rw [hnames]
      exact hk
    | _ => cases hk
  refine ⟨ht, ho, fun e a v ha hv => ?_, fun e id hid => ?_, fun e id hid a ha => ?_, fun e a v ha hv => ?_⟩
  · cases hout e with
    | untouched hsame =>
      obtain ⟨id, hid⟩ := h.entry e a v ha ((hsame a v ha).mp hv)
      exact ⟨id, (hsame _ id (by decide)).mpr hid⟩
    | opened _ _ hid => exact hid
    | updated hentry hfixed => exact ⟨_, (hfixed _ (by decide) _).mpr hentry⟩
  · cases hout e with
    | untouched hsame =>
      obtain ⟨st, hst⟩ := h.status e id ((hsame _ id (by decide)).mp hid)
      exact ⟨st, hstatus hsame hst⟩
    | opened _ hst => exact ⟨_, hst⟩
    | updated _ _ _ _ hst' => exact ⟨_, hst'⟩
  · cases hout e with
    | untouched hsame =>
      obtain ⟨v, hv⟩ := h.fields e id ((hsame _ id (by decide)).mp hid) a ha
      exact ⟨v, (hsame a v (hopen a ha)).mpr hv⟩
    | opened _ _ _ hfields => exact hfields a ha
    | updated hentry hfixed hexpires =>
      simp only [openFields, mem_cons, not_mem_nil, or_false] at ha
      rcases ha with rfl | rfl | rfl
      · obtain ⟨v, hv⟩ := h.fields e _ hentry sagaBasisT (by decide)
        exact ⟨v, (hfixed _ (by decide) v).mpr hv⟩
      · obtain ⟨v, hv⟩ := h.fields e _ hentry sagaOwner (by decide)
        exact ⟨v, (hfixed _ (by decide) v).mpr hv⟩
      · exact hexpires
  · cases hout e with
    | untouched hsame => exact hstatus hsame (h.merge e a v ha ((hsame a v (hmerge a ha)).mp hv))
    | opened _ _ _ _ hno => exact absurd hv (hno a ha v)
    | updated _ _ _ hst hst' hnext hrecord =>
      rcases hrecord a ha v hv with hold | rfl
      · -- a saga already committed stays so
        have := h.status_unique hschema hst (h.merge e a v ha hold)
        subst this
        rcases hnext with rfl | ⟨hopened, -⟩
        · exact hst'
        · cases hopened
      · exact hst'

theorem steady_of_outcomes (h : Registry db) (hw : Registry w) (hschema : db.schema = installSchema schema)
    (hwschema : w.schema = installSchema schema) (hnames : w.interner = db.interner)
    (hout : ∀ e, Outcome db w e) : Steady db w := by
  have hfixed : ∀ a ∈ fixedFields, a ∈ entryFields := by decide
  refine ⟨fun e id hid a ha v => ?_, fun e st st' hst hst' => ?_⟩
  · cases hout e with
    | untouched hsame => exact hsame a v (hfixed a ha)
    | opened hnew => exact absurd hid (hnew id)
    | updated _ hsame => exact hsame a ha v
  · cases hout e with
    | untouched hsame =>
      obtain ⟨v, k, hv, hk, hst'⟩ := hst'
      refine .inl (h.status_unique hschema ⟨v, k, (hsame _ v (by decide)).mp hv, ?_, hst'⟩ hst)
      cases v with
      | keyword id =>
        show db.interner.resolve id = some k
        rw [← hnames]
        exact hk
      | _ => cases hk
    | opened hnew =>
      obtain ⟨v, -, hv, -⟩ := hst
      obtain ⟨id, hid⟩ := h.entry e _ v (by decide) hv
      exact absurd hid (hnew id)
    | updated _ _ _ hst1 hst1' hnext =>
      rw [h.status_unique hschema hst hst1, hw.status_unique hwschema hst' hst1']
      exact hnext

end Steps

/-! ## Runs -/

/-- A transaction that meets `P`, or names attached. -/
inductive RegistryStep (P : List TxItem → Prop) : State → State → Prop
  | naming {s : State} {interner : KeywordInterner} : s.db.interner.Extends interner →
      RegistryStep P s { s with db := s.db.withNaming s.db.idents interner }
  | commit {s s' : State} {items : List TxItem} {nowMs : Int64} {record : TxRecord} {tempids : Tempids} :
      transact s items nowMs = .ok (record, tempids, s') → P items → RegistryStep P s s'

/-- Any number of steps. -/
abbrev RegistrySteps (P : List TxItem → Prop) : State → State → Prop := Relation.ReflTransGen (RegistryStep P)

/-- What the steps keep of a state. -/
structure Kept (schema : Schema) (s : State) : Prop where
  registry : Registry s.db
  view : s.db.view = .current
  schema : s.db.schema = installSchema schema

section Runs

variable {schema : Schema} {s s' : State}

/-- A commit records, beside the transaction, nothing in the fields of an entry. -/
theorem Committed.entryFields {items : List TxItem} {nowMs : Int64} {record : TxRecord} {tempids : Tempids}
    {prepared : PreparedTx} {leased : List Datom} (hc : Committed s items nowMs record tempids s' prepared leased)
    (hview : s.db.view = .current) {w : Db} (hf : Follows s.db prepared.datoms w) {e : EntityId} {a : AttrId} {v : Value}
    (ha : a ∈ Transactor.entryFields) : s'.db.Holds (e, a, v) ↔ w.Holds (e, a, v) := by
  obtain ⟨grants, stamp, hds, -, hgrants, hstamp⟩ := hc.datoms
  have hs := applyRecord_stands (hc.sound hview) s.db
  rw [Db.Holds, Db.Holds, hc.db, hs.recorded, hds, hf.recorded, append_assoc, ← append_assoc,
    holds_append_of_ne]
  intro d hd hfact
  have hattr : d.a = a := congrArg (·.2.1) hfact
  have hother : ∀ a ∈ Transactor.entryFields,
      a ≠ sagaIdGrants ∧ isGrantAttribute a = false ∧ a ≠ txInstant := by decide
  obtain ⟨hne, hgrant, hinstant⟩ := hother a ha
  rcases mem_append.mp hd with hd | hd
  · obtain ⟨saga, n, hd⟩ := hgrants d hd
    obtain ⟨-, -, hg | hg⟩ := mem_grantDatoms hd
    · exact hne (hattr.symm.trans hg)
    · rw [hattr, hgrant] at hg
      cases hg
  · rw [hstamp d hd] at hattr
    exact hinstant hattr.symm

theorem Kept.step (hclear : (schema.protectionOf sagaId).current = none) (h : Kept schema s)
    (hs : RegistryStep Settles s s') : Kept schema s' ∧ Steady s.db s'.db := by
  cases hs with
  | naming hext =>
    have hschema : installSchema s.db.schema = s.db.schema := by rw [h.schema, installSchema_installSchema]
    have hreg : Registry (s.db.withNaming s.db.idents _) := h.registry.congr hschema hext fun _ _ _ _ => Iff.rfl
    refine ⟨⟨hreg, h.view, hschema.trans h.schema⟩, fun _ _ _ _ _ _ => Iff.rfl, fun e st st' hst hst' => .inl ?_⟩
    obtain ⟨v, k, hv, hk, rfl⟩ := hst
    refine hreg.status_unique (hschema.trans h.schema) hst' ⟨v, k, hv, ?_, rfl⟩
    cases v with
    | keyword id => exact hext.resolve hk
    | _ => cases hk
  | commit hcommit hsettles =>
    obtain ⟨prepared, leased, hc⟩ := transact_ok hcommit
    obtain ⟨w, heff⟩ := prepare_effects h.view hc.prepare
    have hf := heff.follows
    obtain ⟨htyped, hone⟩ := heff.wellTyped h.view h.registry.typed h.registry.one
    have hout := h.registry.outcome h.view h.schema hclear hf hc.prepare hsettles
    have hreg := h.registry.of_outcomes h.schema htyped hone hf.interner hout
    have hsteady := steady_of_outcomes h.registry hreg h.schema (hf.schema.trans h.schema) hf.interner hout
    have hstands := applyRecord_stands (hc.sound h.view) s.db
    have hsame : ∀ e a v, a ∈ entryFields → (s'.db.Holds (e, a, v) ↔ w.Holds (e, a, v)) := fun e a v ha =>
      hc.entryFields h.view hf ha
    have hschema : s'.db.schema = s.db.schema := by rw [hc.db, hstands.schema]
    have hnames : w.interner.Extends s'.db.interner := by
      rw [hc.db, hf.interner]
      exact hstands.interner
    have hreg' := hreg.congr (hschema.trans hf.schema.symm) hnames hsame
    refine ⟨⟨hreg', ?_, hschema.trans h.schema⟩, fun e id hid a ha v => ?_, fun e st st' hst hst' => ?_⟩
    · rw [hc.db, hstands.view, h.view]
    · have hmem : ∀ a ∈ fixedFields, a ∈ entryFields := by decide
      exact (hsame e a v (hmem a ha)).trans (hsteady.fixed e id hid a ha v)
    · -- the status shown after the record is the one the transaction leaves
      obtain ⟨v, -, hv, -⟩ := id hst
      obtain ⟨id, hid⟩ := h.registry.entry e _ v (by decide) hv
      obtain ⟨st1, hst1⟩ := hreg.status e id ((hsteady.fixed e id hid _ (by decide) id).mpr hid)
      have heq : st' = st1 := by
        refine hreg'.status_unique (hschema.trans h.schema) hst' ?_
        obtain ⟨v, k, hv, hk, hst1⟩ := hst1
        refine ⟨v, k, (hsame e _ v (by decide)).mpr hv, ?_, hst1⟩
        cases v with
        | keyword kid => exact hnames.resolve hk
        | _ => cases hk
      rw [heq]
      exact hsteady.status e st st1 hst hst1

theorem Kept.steps (hclear : (schema.protectionOf sagaId).current = none) (h : Kept schema s)
    (hs : RegistrySteps Settles s s') : Kept schema s' ∧ Steady s.db s'.db := by
  induction hs with
  | refl => exact ⟨h, Steady.refl h.registry h.schema⟩
  | tail _ hstep ih =>
    obtain ⟨hkept, hsteady⟩ := ih
    obtain ⟨hkept', hsteady'⟩ := hkept.step hclear hstep
    exact ⟨hkept', hsteady.trans hsteady' h.registry hkept.registry⟩

theorem kept_creation (schema : Schema) (idents : Idents) (interner : KeywordInterner) :
    Kept schema (recoverFrom (creation schema idents interner) []) := by
  have hnone : ∀ f, ¬ (recoverFrom (creation schema idents interner) []).db.Holds f := by
    intro f hf
    cases hf
  refine ⟨⟨fun f _ _ hf => absurd hf (hnone f), fun _ _ _ _ _ e v _ hv => absurd hv (hnone _), ?_, ?_, ?_, ?_⟩, rfl,
    creation_schema schema idents interner⟩
  · exact fun e a v _ hv => absurd hv (hnone _)
  · exact fun e id hid => absurd hid (hnone _)
  · exact fun e id hid => absurd hid (hnone _)
  · exact fun e a v _ hv => absurd hv (hnone _)

/-- In every run of transactions that settle, in every state: an entity with a
    `:db.saga/id` has exactly one status and a basis, an owner and a deadline; from
    then on its id, basis, owner and seal stay as they are and its status changes
    at most from open to a terminal one; and a merge record is only on an entry
    whose status is committed. -/
theorem registry_lifecycle {idents : Idents} {interner : KeywordInterner}
    (hclear : (schema.protectionOf sagaId).current = none)
    (h : RegistrySteps Settles (recoverFrom (creation schema idents interner) []) s) :
    (∀ e id, s.db.Holds (e, sagaId, id) → (∃! v, s.db.Holds (e, sagaStatus, v)) ∧
      ∀ a ∈ [sagaBasisT, sagaOwner, sagaExpiresAt], ∃ v, s.db.Holds (e, a, v)) ∧
    (∀ s', RegistrySteps Settles s s' → ∀ e id, s.db.Holds (e, sagaId, id) →
      (∀ a ∈ [sagaId, sagaBasisT, sagaOwner, sagaSealed],
        ∀ v, s'.db.Holds (e, a, v) ↔ s.db.Holds (e, a, v)) ∧
      ∃ st st', HoldsStatus s.db e st ∧ HoldsStatus s'.db e st' ∧ (st' = st ∨ st = .opened ∧ st'.isTerminal = true)) ∧
    ∀ e a v, a ∈ [sagaMergedTx, sagaSteps] → s.db.Holds (e, a, v) →
      HoldsStatus s.db e .committed ∧ ∃ id, s.db.Holds (e, sagaId, id) := by
  obtain ⟨hkept, -⟩ := (kept_creation schema idents interner).steps hclear h
  refine ⟨fun e id hid => ⟨?_, hkept.registry.fields e id hid⟩, fun s' hs' e id hid => ?_, fun e a v ha hv => ?_⟩
  · obtain ⟨st, v, k, hv, -⟩ := hkept.registry.status e id hid
    exact ⟨v, hv, fun v' hv' => hkept.registry.one_status hkept.schema hv' hv⟩
  · obtain ⟨hkept', hsteady⟩ := hkept.steps hclear hs'
    obtain ⟨st, hst⟩ := hkept.registry.status e id hid
    obtain ⟨st', hst'⟩ := hkept'.registry.status e id ((hsteady.fixed e id hid _ (by decide) id).mpr hid)
    exact ⟨hsteady.fixed e id hid, st, st', hst, hst', hsteady.status e st st' hst hst'⟩
  · have hmem : ∀ a ∈ mergeFields, a ∈ entryFields := by decide
    exact ⟨hkept.registry.merge e a v ha hv, hkept.registry.entry e a v (hmem a ha) hv⟩

end Runs

/-! ## Entries left incomplete -/

namespace IncompleteEntryExample

def opened : Keyword := ⟨some statusNamespace, "open"⟩

def committed : Keyword := ⟨some statusNamespace, "committed"⟩

def interner : KeywordInterner := ((KeywordInterner.empty.intern opened).2.intern committed).2

def base : Db := creation Schema.empty Idents.empty interner

def saga : EntityId := EntityId.new Partition.user.id 1000

def openItem : TxItem :=
  .map { entity := .temp "s", attributes := [(sagaId, [.uuid 7]), (sagaStatus, [.keyword 0]),
    (sagaBasisT, [.long 0]), (sagaOwner, [.str "o"]), (sagaExpiresAt, [.instant 9])] }

/-- The state after committing `items`, as far as they are accepted. -/
def commitAll (s : State) (items : List (List TxItem)) : Option State :=
  items.foldlM (fun s items => (transact s items (s.lastInstant + 1)).toOption.map (·.2.2)) s

theorem steps_commitAll {P : List TxItem → Prop} {s s' : State} {items : List (List TxItem)} (hP : ∀ i ∈ items, P i)
    (h : commitAll s items = some s') : RegistrySteps P s s' := by
  induction items generalizing s with
  | nil =>
    cases h
    exact .refl
  | cons i items ih =>
    unfold commitAll at h
    rw [foldlM_cons] at h
    obtain ⟨s1, h1, h2⟩ := Option.bind_eq_some_iff.mp h
    obtain ⟨⟨record, tempids, s2⟩, hok, rfl⟩ := Option.map_eq_some_iff.mp h1
    have hcommit : transact s i (s.lastInstant + 1) = .ok (record, tempids, s2) := by
      cases htr : transact s i (s.lastInstant + 1) with
      | error e => rw [htr] at hok; cases hok
      | ok x => rw [htr] at hok; cases hok; rfl
    exact .head (.commit hcommit (hP i mem_cons_self)) (ih (fun j hj => hP j (mem_cons_of_mem _ hj)) h2)

/-- The owner is asserted and taken back by the transaction that opens the saga. -/
def ownerTakenBack : List (List TxItem) := [[openItem, .op (.retract (.temp "s") sagaOwner (.str "o"))]]

/-- The deadline of an open saga is retracted. -/
def deadlineRetracted : List (List TxItem) :=
  [[openItem], [.op (.retract (.id saga) sagaExpiresAt (.instant 9))]]

/-- The saga is committed and the status taken back. -/
def statusTakenBack : List (List TxItem) :=
  [[openItem], [.op (.add (.id saga) sagaStatus (.keyword 1)),
    .op (.retract (.id saga) sagaStatus (.keyword 1))]]

/-- Accepted transactions leave the saga's entry without a value of `a`. -/
def LeftWithout (a : AttrId) : Prop :=
  ∃ s, RegistrySteps (fun _ => True) (recoverFrom base []) s ∧ s.db.Holds (saga, sagaId, .uuid 7) ∧
    ∀ v, ¬ s.db.Holds (saga, a, v)

theorem leftWithout_of_values (items : List (List TxItem)) {a : AttrId}
    (h : ∃ s ∈ commitAll (recoverFrom base []) items, s.db.view = .current ∧
      s.db.values saga sagaId = [.uuid 7] ∧ s.db.values saga a = []) : LeftWithout a := by
  obtain ⟨s, hs, hview, hid, hnone⟩ := h
  refine ⟨s, steps_commitAll (fun _ _ => trivial) hs, ?_, fun v hv => ?_⟩
  · rw [← Db.mem_values hview, hid]
    exact mem_singleton_self _
  · rw [← Db.mem_values hview, hnone] at hv
    cases hv

/-- An entry can be left without an owner, a deadline or a status. -/
theorem entries_left_incomplete :
    LeftWithout sagaOwner ∧ LeftWithout sagaExpiresAt ∧ LeftWithout sagaStatus := by
  refine ⟨leftWithout_of_values ownerTakenBack ?_, leftWithout_of_values deadlineRetracted ?_,
    leftWithout_of_values statusTakenBack ?_⟩
  · decide +kernel
  · decide +kernel
  · decide +kernel

def commitItem : TxItem := .op (.add (.id saga) sagaStatus (.keyword 1))

theorem settles_examples : Settles [openItem] ∧ Settles [commitItem] :=
  ⟨⟨by decide, fun _ => by decide⟩, ⟨by decide, fun _ => by decide⟩⟩

/-- A saga opened and then committed. -/
theorem registry_lifecycle_commit :
    ∃ s s', RegistrySteps Settles (recoverFrom base []) s ∧ RegistrySteps Settles s s' ∧
      (∃! v, s.db.Holds (saga, sagaStatus, v)) ∧
      ∃ st st', HoldsStatus s.db saga st ∧ HoldsStatus s'.db saga st' ∧ (st' = st ∨ st = .opened ∧ st'.isTerminal = true) := by
  have hrun : ∃ s ∈ commitAll (recoverFrom base []) [[openItem]], ∃ s' ∈ commitAll s [[commitItem]],
      s.db.view = .current ∧ s.db.values saga sagaId = [.uuid 7] := by decide +kernel
  obtain ⟨s, hs, s', hs', hview, hid⟩ := hrun
  have hsteps := steps_commitAll (fun i hi => mem_singleton.mp hi ▸ settles_examples.1) hs
  have hsteps' := steps_commitAll (fun i hi => mem_singleton.mp hi ▸ settles_examples.2) hs'
  have hheld : s.db.Holds (saga, sagaId, .uuid 7) := by
    rw [← Db.mem_values hview, hid]
    exact mem_singleton_self _
  obtain ⟨hone, hlater, -⟩ := @registry_lifecycle Schema.empty s Idents.empty interner (by decide) hsteps
  exact ⟨s, s', hsteps, hsteps', (hone saga _ hheld).1, (hlater s' hsteps' saga _ hheld).2⟩

end IncompleteEntryExample

end Corium.Transactor
