/-
  Corium.Transactor.SagaEnds — a saga ends once.

  The registry validator lets an open entry finish and a finished one never change
  (`Owned.transact`), and both calls that end a saga read its entry again under the
  lock. So a saga is merged or compensated at most once, with the transition that ends
  it (`a_saga_ends_once`) — as long as the saga's id stays with one entity. A
  `:db/cas` can give the id to a second one, and the saga then ends twice
  (`a_saga_is_merged_twice`).
-/

import Corium.Transactor.SagaNode

namespace Corium.Tx

open Corium.Core Corium.Lib List Bootstrap

/-! ## One transaction -/

theorem lastAsserted_append (e : EntityId) (a : AttrId) (xs ys : List Datom) :
    lastAsserted e a (xs ++ ys) = (lastAsserted e a ys).or (lastAsserted e a xs) := by
  unfold lastAsserted
  rw [reverse_append, List.find?_append]

variable {a : AttrId} {e : EntityId} {tx : TxId}
variable {ds : List Datom} {d : Datom} {w w' : Db} {p p' : Progress} {v : Value}

theorem mem_of_lastAsserted (h : lastAsserted e a ds = some d) : d ∈ ds ∧ d.e = e ∧ d.a = a ∧ d.added = true := by
  have hp := List.find?_some h
  simp only [decide_eq_true_eq] at hp
  exact ⟨mem_reverse.mp (mem_of_find?_eq_some h), hp⟩

/-- What an operation asserts is in force after it. -/
theorem OpEffect.holds (h : OpEffect tx w ds) (hf : Follows w ds w')
    (hd : d ∈ ds) (hadded : d.added = true) : w'.Holds d.fact := by
  have hreplace : ∀ {e a old v}, ds = replaceDatoms tx e a old v → w'.Holds d.fact := by
    rintro e a old v rfl
    rw [Db.Holds, hf.recorded, holds_replaceDatoms]
    rcases mem_append.mp hd with hd | hd
    · obtain ⟨x, -, rfl⟩ := mem_map.mp hd
      cases hadded
    · rw [mem_singleton.mp hd]
      exact .inl rfl
  cases h with
  | nothing => cases hd
  | add g => exact hreplace (addDatoms_eq _ _ _ _ _ _)
  | retract =>
    rw [mem_singleton.mp hd] at hadded
    cases hadded
  | cas g => exact hreplace rfl
  | retractEntity =>
    obtain ⟨f, -, rfl⟩ := mem_map.mp hd
    cases hadded

/-- Of a cardinality-one pair only the value asserted last can be left. -/
theorem Effects.held_last (h : Effects tx w ds w') (hv : w.view = .current)
    {attr : Attribute} (hattr : w.schema.get a = some attr) (hone : attr.cardinality = .one)
    (hw : OneAt w e a) : OneAt w' e a ∧
      ∀ d v, lastAsserted e a ds = some d → w'.Holds (e, a, v) → v = d.v := by
  induction h with
  | refl => exact ⟨hw, nofun⟩
  | step hchain heff hnext ih =>
    have hf := heff.follows hnext
    have hone' := ih.1.effect (hchain.follows.view.trans hv) heff hf
    refine ⟨hone', fun d v hlast hheld => ?_⟩
    rw [lastAsserted_append] at hlast
    rcases Option.or_eq_some_iff.mp hlast with hlast | ⟨hnone, hlast⟩
    · obtain ⟨hd, rfl, rfl, hadded⟩ := mem_of_lastAsserted hlast
      refine hone' attr ?_ hone v d.v hheld (heff.holds hf hd hadded)
      rw [hf.schema, hchain.follows.schema, hattr]
    · refine ih.2 d v hlast ?_
      rw [Db.Holds, hf.recorded] at hheld
      rcases holds_append_cases hheld with ⟨d', hd', hfact, hadded⟩ | ⟨hold, -⟩
      · obtain ⟨x, hx⟩ := lastAsserted_isSome hd' (congrArg (·.1) hfact) (congrArg (·.2.1) hfact) hadded
        rw [hnone] at hx
        cases hx
      · exact hold

/-! ## The last word on a pair -/

/-- The operation leaves the pairs of `a` alone. -/
def sparesAttribute (a : AttrId) : TxOp → Bool
  | .add _ b _ | .addRef _ b _ | .retract _ b _ | .cas _ b _ _ => b ≠ a
  | .retractEntity _ => false

theorem applyAdd_attribute (h : applyAdd tx p e a v = .ok p') : ∃ ds, Advances p p' ds ∧ ∀ d ∈ ds, d.a = a := by
  rcases applyAdd_ok h with ⟨-, rfl⟩ | ⟨attr, -, rfl⟩
  · exact ⟨[], ⟨by simp [Progress.noteInstant], .inr ⟨rfl, rfl⟩⟩, by simp⟩
  · refine ⟨_, ⟨rfl, .inl rfl⟩, fun d hd => ?_⟩
    rw [addDatoms_eq] at hd
    rcases mem_append.mp hd with hd | hd
    · obtain ⟨x, -, rfl⟩ := mem_map.mp hd
      rfl
    · rw [mem_singleton.mp hd]
      rfl

theorem applyOp_spares {db : Db} {tempids : Tempids} {op : TxOp}
    (h : applyOp db tempids tx p op = .ok p') (hop : sparesAttribute a op = true) :
    ∃ ds, Advances p p' ds ∧ ∀ d ∈ ds, d.a ≠ a := by
  cases op with
  | add entity b v =>
    simp only [applyOp, bind_eq_ok] at h
    obtain ⟨e, -, h⟩ := h
    obtain ⟨ds, hadv, hds⟩ := applyAdd_attribute h
    exact ⟨ds, hadv, fun d hd => by rw [hds d hd]; simpa [sparesAttribute] using hop⟩
  | addRef entity b target =>
    simp only [applyOp, bind_eq_ok] at h
    obtain ⟨target, -, e, -, h⟩ := h
    obtain ⟨ds, hadv, hds⟩ := applyAdd_attribute h
    exact ⟨ds, hadv, fun d hd => by rw [hds d hd]; simpa [sparesAttribute] using hop⟩
  | retract entity b v =>
    simp only [applyOp, bind_eq_ok] at h
    obtain ⟨_, -, e, -, h⟩ := h
    obtain ⟨-, rfl⟩ := applyRetract_ok h
    refine ⟨_, advances_advance p _, fun d hd => ?_⟩
    have hne : b ≠ a := of_decide_eq_true hop
    split at hd
    · rw [mem_singleton.mp hd]
      exact hne
    · cases hd
  | cas entity b old new =>
    simp only [applyOp, bind_eq_ok, require_eq_ok] at h
    obtain ⟨_, ha, e, -, h⟩ := h
    obtain ⟨attr, -, rfl⟩ := applyCas_ok ha h
    refine ⟨_, advances_advance p _, fun d hd => ?_⟩
    have hne : b ≠ a := of_decide_eq_true hop
    rcases mem_append.mp hd with hd | hd
    · obtain ⟨x, -, rfl⟩ := mem_map.mp hd
      exact hne
    · rw [mem_singleton.mp hd]
      exact hne
  | retractEntity entity => cases hop

/-- What an addition says holds after the transaction, if nothing later is about its attribute. -/
theorem prepare_holds_add {db : Db} {items : List TxItem} {n : Nat} {r : PreparedTx} (hv : db.view = .current)
    (h : prepare db items tx n = .ok r) {pre post : List TxOp}
    (hops : expandItems items = pre ++ .add (.id e) a v :: post) (hpost : ∀ op ∈ post, sparesAttribute a op = true) :
    holds (db.recorded ++ r.datoms) (e, a, v) = true := by
  obtain ⟨-, ⟨p, hp, hds⟩, -⟩ := prepare_ok h
  rw [hops, foldlM_append, bind_eq_ok] at hp
  obtain ⟨p1, h1, hp⟩ := hp
  rw [foldlM_cons, bind_eq_ok] at hp
  obtain ⟨p2, h2, hp⟩ := hp
  obtain ⟨ds, heff, hp1⟩ := effects_of_foldlM (p := Progress.start db) hv h1
  have hrec : p1.working.recorded = db.recorded ++ p1.datoms := by
    rw [heff.follows.recorded, hp1]
    rfl
  have hadded : holds (db.recorded ++ p2.datoms) (e, a, v) = true := by
    simp only [applyOp, bind_eq_ok] at h2
    obtain ⟨e', hresolve, h2⟩ := h2
    cases hresolve
    rcases applyAdd_ok h2 with ⟨hpresent, rfl⟩ | ⟨attr, -, rfl⟩
    · have hheld := (Db.mem_values (heff.follows.view.trans hv)).mp hpresent
      rwa [Db.Holds, hrec] at hheld
    · show holds (db.recorded ++ (p1.datoms ++ addDatoms tx p1.working attr e a v)) (e, a, v) = true
      rw [addDatoms_eq, ← append_assoc, holds_replaceDatoms]
      exact .inl rfl
  rw [hds]
  refine foldlM_inv (P := fun p => holds (db.recorded ++ p.datoms) (e, a, v) = true) ?_ hadded hp
  intro op hop p p' hheld hstep
  obtain ⟨ds, hadv, hspared⟩ := applyOp_spares hstep (hpost op hop)
  rw [hadv.datoms, ← append_assoc, holds_append_of_ne]
  · exact hheld
  · exact fun d hd hfact => hspared d hd (congrArg (·.2.1) hfact)

end Corium.Tx

namespace Corium.Transactor

open Corium.Core Corium.Lib Corium.Tx Bootstrap List

/-! ## The entry of one saga -/

/-- The id is the saga's, and no other entity's. -/
structure Owned (schema : Schema) (id : BitVec 128) (saga : EntityId) (db : Db) : Prop where
  view : db.view = .current
  schema : db.schema = installSchema schema
  typed : WellTyped keptFields db
  one : OneValued keptFields db
  held : db.Holds (saga, sagaId, .uuid id)
  only : ∀ e, db.Holds (e, sagaId, .uuid id) → e = saga
  /-- Its status has a name. -/
  named : ∀ v, db.Holds (saga, sagaStatus, v) → (Saga.keyword db v).isSome = true

section Owned

variable {schema : Schema} {id : BitVec 128} {saga : EntityId} {db : Db}

theorem Owned.one_of_kept (h : Owned schema id saga db) {a : AttrId} (ha : a ∈ keptFields) {e : EntityId} {v v' : Value}
    (hv : db.Holds (e, a, v)) (hv' : db.Holds (e, a, v')) : v = v' := by
  obtain ⟨attr, hattr, -, hone⟩ := keptField_attribute schema ha
  rw [← h.schema] at hattr
  exact h.one a attr ha hattr hone e v v' hv hv'

theorem Owned.status_unique (h : Owned schema id saga db) {st st' : Saga.SagaStatus} (hst : HoldsStatus db saga st)
    (hst' : HoldsStatus db saga st') : st = st' := by
  obtain ⟨v, k, hv, hk, rfl⟩ := hst
  obtain ⟨v', k', hv', hk', rfl⟩ := hst'
  rw [h.one_of_kept (by decide) hv hv', hk'] at hk
  rw [Option.some.inj hk]

/-- The entry found by the id is the saga's, and shows its status. -/
theorem Owned.entry (h : Owned schema id saga db) :
    ∃ entry, Saga.entry db id = some entry ∧ Saga.entryAt db saga = some entry ∧ entry.entity = saga ∧ entry.id = id ∧
      ∀ st, entry.status = some st ↔ HoldsStatus db saga st := by
  have hlook : db.lookup sagaId (.uuid id) = some saga := by
    cases hl : db.lookup sagaId (.uuid id) with
    | none => exact absurd h.held (Db.lookup_none h.view hl saga)
    | some e => rw [h.only e (Db.lookup_some h.view hl)]
  have hfield : Saga.field db saga sagaId Saga.uuid = some id :=
    field_eq h.view h.held (fun v' hv' => h.one_of_kept (by decide) hv' h.held) Saga.uuid
  have hat : ∃ entry, Saga.entryAt db saga = some entry ∧ entry.entity = saga ∧ entry.id = id ∧
      entry.status = (Saga.field db saga sagaStatus (Saga.keyword db)).map Saga.SagaStatus.fromKeyword := by
    rw [Saga.entryAt, hfield]
    exact ⟨_, rfl, rfl, rfl, rfl⟩
  obtain ⟨entry, hentry, hsaga, hid, hstatus⟩ := hat
  refine ⟨entry, ?_, hentry, hsaga, hid, fun st => ?_⟩
  · unfold Saga.entry
    rw [hlook, Option.bind_some, hentry]
  · rw [hstatus]
    constructor
    · intro hst
      obtain ⟨k, hk, rfl⟩ := Option.map_eq_some_iff.mp hst
      obtain ⟨v, hhead, hv⟩ := Option.bind_eq_some_iff.mp hk
      exact ⟨v, k, (Db.mem_values h.view).mp (mem_of_mem_head? hhead), hv, rfl⟩
    · rintro ⟨v, k, hv, hk, rfl⟩
      rw [field_eq h.view hv fun v' hv' => h.one_of_kept (by decide) hv' hv, hk]
      rfl

/-- The saga as values of the same facts show it. -/
theorem Owned.congr (h : Owned schema id saga db) {db' : Db} (hview : db'.view = .current) (hschema : db'.schema = db.schema)
    (hnames : db.interner.Extends db'.interner)
    (hsame : ∀ e a v, a ∈ entryFields → (db'.Holds (e, a, v) ↔ db.Holds (e, a, v))) :
    Owned schema id saga db' ∧ ∀ st, HoldsStatus db' saga st ↔ HoldsStatus db saga st := by
  have hkept : ∀ a ∈ keptFields, a ∈ entryFields := fun a ha => mem_append_left _ ha
  have hkeyword : ∀ v, db.Holds (saga, sagaStatus, v) → Saga.keyword db' v = Saga.keyword db v := by
    intro v hv
    obtain ⟨k, hk⟩ := Option.isSome_iff_exists.mp (h.named v hv)
    rw [hk]
    cases v with
    | keyword kid => exact hnames.resolve hk
    | _ => cases hk
  refine ⟨⟨hview, hschema.trans h.schema, fun f attr hf hh hattr => ?_, fun a attr ha hattr hone e v v' hv hv' => ?_,
    (hsame _ _ _ (by decide)).mpr h.held, fun e he => h.only e ((hsame _ _ _ (by decide)).mp he), fun v hv => ?_⟩, fun st => ?_⟩
  · rw [hschema] at hattr ⊢
    exact h.typed f attr hf ((hsame _ _ _ (hkept _ hf)).mp hh) hattr
  · rw [hschema] at hattr
    exact h.one a attr ha hattr hone e v v' ((hsame _ _ _ (hkept _ ha)).mp hv) ((hsame _ _ _ (hkept _ ha)).mp hv')
  · have hold := (hsame _ _ _ (by decide)).mp hv
    rw [hkeyword v hold]
    exact h.named v hold
  · constructor
    · rintro ⟨v, k, hv, hk, rfl⟩
      have hold := (hsame _ _ _ (by decide)).mp hv
      exact ⟨v, k, hold, hkeyword v hold ▸ hk, rfl⟩
    · rintro ⟨v, k, hv, hk, rfl⟩
      exact ⟨v, k, (hsame _ _ _ (by decide)).mpr hv, (hkeyword v hv).trans hk, rfl⟩

theorem Owned.names (h : Owned schema id saga db) {names : KeywordInterner} (hext : db.interner.Extends names) :
    Owned schema id saga (db.withNaming db.idents names) ∧
      ∀ st, HoldsStatus (db.withNaming db.idents names) saga st ↔ HoldsStatus db saga st := by
  refine h.congr h.view ?_ hext fun _ _ _ _ => Iff.rfl
  show installSchema db.schema = db.schema
  rw [h.schema, installSchema_installSchema]

/-- What a transaction makes of the saga's status: nothing, or it finishes an open saga. -/
def Finishes (saga : EntityId) (db db' : Db) : Prop :=
  (∀ st, HoldsStatus db' saga st ↔ HoldsStatus db saga st) ∨
    HoldsStatus db saga .opened ∧ ∃ next : Saga.SagaStatus, next.isTerminal = true ∧ ∀ st, HoldsStatus db' saga st → st = next

/-- No entity is given the saga's id. -/
def KeepsId (id : BitVec 128) (ds : List Datom) : Prop :=
  ∀ d ∈ ds, d.a = sagaId → d.added = true → d.v ≠ .uuid id

variable {items : List TxItem}
variable {r : PreparedTx} {n : Nat} {record : TxRecord} {tempids : Tempids} {nowMs : Int64}

/-- An accepted transaction leaves the entry's id alone and, of its status, what the
    validator accepts. -/
theorem Owned.update (h : Owned schema id saga db) {tx : TxId} (hp : prepare db items tx n = .ok r) :
    (∀ d ∈ r.datoms, d.e = saga → d.a ∉ fixedFields) ∧
      ((∀ d ∈ r.datoms, d.e = saga → d.a = sagaStatus → d.added = true ∧ ∃ v, db.Holds (saga, sagaStatus, v)) ∨
        HoldsStatus db saga .opened ∧ ∃ next, Saga.assertedStatus db saga r.datoms = some next ∧ next.isTerminal = true) := by
  by_cases htouch : ∃ d ∈ r.datoms, d.e = saga ∧ Saga.isSagaAttribute d.a = true
  · obtain ⟨d, hd, rfl, ha⟩ := htouch
    have hval := validateSagas_entity (prepare_ok hp).2.2 hd ha
    obtain ⟨entry, -, hat, -, -, hstatus⟩ := h.entry
    unfold validateEntity at hval
    simp only [hat] at hval
    cases hst : entry.status with
    | none =>
      unfold validateUpdate validateTransition at hval
      simp only [bind_eq_ok, hst] at hval
      obtain ⟨_, -, _, herror, -⟩ := hval
      cases herror
    | some st =>
      have hheld := (hstatus st).mp hst
      obtain ⟨hfixed, htransition, -⟩ := validateUpdate_ok hst hval
      refine ⟨hfixed, ?_⟩
      rcases htransition with ⟨-, hkeep⟩ | ⟨next, hnext, rfl, hterm⟩
      · obtain ⟨v, -, hv, -⟩ := hheld
        exact .inl fun x hx he ha => ⟨hkeep x hx he ha, v, hv⟩
      · exact .inr ⟨hheld, next, hnext, hterm⟩
  · have hno : ∀ d ∈ r.datoms, d.e = saga → Saga.isSagaAttribute d.a = false := fun d hd he =>
      Bool.eq_false_iff.mpr fun ha => htouch ⟨d, hd, he, ha⟩
    refine ⟨fun d hd he ha => ?_, .inl fun d hd he ha => ?_⟩
    · have hall : ∀ a ∈ fixedFields, Saga.isSagaAttribute a = true := by decide
      exact absurd ((hno d hd he).symm.trans (hall d.a ha)) (by decide)
    · have := hno d hd he
      rw [ha] at this
      exact absurd this (by decide)

/-- A transaction that gives nobody the saga's id. -/
theorem Owned.effects (h : Owned schema id saga db) {tx : TxId}
    (hp : prepare db items tx n = .ok r) (hid : KeepsId id r.datoms) {w : Db} (heff : Effects tx db r.datoms w) :
    Owned schema id saga w ∧ Finishes saga db w := by
  have hf := heff.follows
  obtain ⟨hfixed, hupdate⟩ := h.update hp
  obtain ⟨htyped, hone⟩ := heff.wellTyped h.view h.typed h.one
  have hschema : w.schema = installSchema schema := hf.schema.trans h.schema
  have hkeyword : ∀ v, Saga.keyword w v = Saga.keyword db v := by
    intro v
    cases v with
    | keyword kid => exact congrArg (·.resolve kid) hf.interner
    | _ => rfl
  have hheld : w.Holds (saga, sagaId, .uuid id) := by
    rw [Db.Holds, hf.recorded, holds_append_of_ne]
    · exact h.held
    · refine fun d hd hfact => hfixed d hd (congrArg (·.1) hfact) ?_
      rw [show d.a = sagaId from congrArg (·.2.1) hfact]
      decide
  have honly : ∀ e, w.Holds (e, sagaId, .uuid id) → e = saga := by
    intro e he
    rw [Db.Holds, hf.recorded] at he
    rcases holds_append_cases he with ⟨d, hd, hfact, hadded⟩ | ⟨hold, -⟩
    · exact absurd (congrArg (·.2.2) hfact) (hid d hd (congrArg (·.2.1) hfact) hadded)
    · exact h.only e hold
  have hattr := keptField_attribute schema (show sagaStatus ∈ keptFields by decide)
  obtain ⟨attr, hattr, -, hcard⟩ := hattr
  have hunique : ∀ v v', w.Holds (saga, sagaStatus, v) → w.Holds (saga, sagaStatus, v') → v = v' :=
    hone _ attr (by decide) (hschema ▸ hattr) hcard saga
  rcases hupdate with hkeep | ⟨hopen, next, hnext, hterm⟩
  · -- no value is retracted, so the one value there was is the one there is
    have hsame : ∀ v, w.Holds (saga, sagaStatus, v) ↔ db.Holds (saga, sagaStatus, v) := by
      have hstay : ∀ v, db.Holds (saga, sagaStatus, v) → w.Holds (saga, sagaStatus, v) := by
        intro v hv
        rw [Db.Holds, hf.recorded]
        exact holds_append_of_not_retracted hv fun d hd hfact => (hkeep d hd (congrArg (·.1) hfact) (congrArg (·.2.1) hfact)).1
      refine fun v => ⟨fun hv => ?_, hstay v⟩
      have hsome : ∃ v0, db.Holds (saga, sagaStatus, v0) := by
        have hw := hv
        rw [Db.Holds, hf.recorded] at hw
        rcases holds_append_cases hw with ⟨d, hd, hfact, -⟩ | ⟨hold, -⟩
        · exact (hkeep d hd (congrArg (·.1) hfact) (congrArg (·.2.1) hfact)).2
        · exact ⟨v, hold⟩
      obtain ⟨v0, hv0⟩ := hsome
      rw [hunique v v0 hv (hstay v0 hv0)]
      exact hv0
    refine ⟨⟨hf.view.trans h.view, hschema, htyped, hone, hheld, honly, fun v hv => ?_⟩, .inl fun st => ?_⟩
    · rw [hkeyword]
      exact h.named v ((hsame v).mp hv)
    · simp only [HoldsStatus, hsame, hkeyword]
  · obtain ⟨d, k, hlast, hk, rfl⟩ := assertedStatus_some hnext
    have hleft : ∀ v, w.Holds (saga, sagaStatus, v) → v = d.v := fun v hv =>
      (heff.held_last h.view (h.schema ▸ hattr) hcard fun attr' hattr' hone' =>
        h.one _ attr' (by decide) hattr' hone' saga).2 d v hlast hv
    refine ⟨⟨hf.view.trans h.view, hschema, htyped, hone, hheld, honly, fun v hv => ?_⟩, .inr ⟨hopen, _, hterm, fun st hst => ?_⟩⟩
    · rw [hkeyword, hleft v hv, hk]
      rfl
    · obtain ⟨v, k', hv, hk', rfl⟩ := hst
      rw [hkeyword, hleft v hv, hk] at hk'
      rw [Option.some.inj hk']

/-- The same of a commit. -/
theorem Owned.transact {s s' : State} (h : Owned schema id saga s.db) {items : List TxItem} {nowMs : Int64} {record : TxRecord}
    {tempids : Tempids} (ht : transact s items nowMs = .ok (record, tempids, s')) (hid : KeepsId id record.datoms) :
    Owned schema id saga s'.db ∧ Finishes saga s.db s'.db := by
  obtain ⟨prepared, leased, hc⟩ := transact_ok ht
  obtain ⟨w, heff⟩ := prepare_effects h.view hc.prepare
  obtain ⟨grants, stamp, hds, -⟩ := hc.datoms
  have hkeeps : KeepsId id prepared.datoms := fun d hd => hid d (by rw [hds]; simp [hd])
  obtain ⟨howned, hfinish⟩ := h.effects hc.prepare hkeeps heff
  have hf := heff.follows
  have hstands := applyRecord_stands (hc.sound h.view) s.db
  obtain ⟨howned', hsame⟩ := howned.congr (show s'.db.view = .current by rw [hc.db, hstands.view, h.view])
    (by rw [hc.db, hstands.schema, hf.schema]) (by rw [hc.db, hf.interner]; exact hstands.interner)
    fun e a v ha => hc.entryFields h.view hf ha
  refine ⟨howned', ?_⟩
  rcases hfinish with hkeep | ⟨hopen, next, hterm, hnext⟩
  · exact .inl fun st => (hsame st).trans (hkeep st)
  · exact .inr ⟨hopen, next, hterm, fun st hst => hnext st ((hsame st).mp hst)⟩

/-- A commit leaves the fixed fields of the entry alone. -/
theorem Owned.transact_fixed {s s' : State} (h : Owned schema id saga s.db)
    (ht : Corium.Transactor.transact s items nowMs = .ok (record, tempids, s'))
    {a : AttrId} (ha : a ∈ fixedFields) (v : Value) : s'.db.Holds (saga, a, v) ↔ s.db.Holds (saga, a, v) := by
  obtain ⟨prepared, leased, hc⟩ := transact_ok ht
  obtain ⟨w, heff⟩ := prepare_effects h.view hc.prepare
  have hmem : ∀ a ∈ fixedFields, a ∈ entryFields := by decide
  rw [hc.entryFields h.view heff.follows (hmem a ha), Db.Holds, heff.follows.recorded, holds_append_of_ne]
  · exact Iff.rfl
  · refine fun d hd hfact => (h.update hc.prepare).1 d hd (congrArg (·.1) hfact) ?_
    rw [show d.a = a from congrArg (·.2.1) hfact]
    exact ha

/-- A transaction whose last word on the saga's status is `v`. -/
theorem Owned.transact_status {s s' : State} (h : Owned schema id saga s.db)
    (ht : Corium.Transactor.transact s items nowMs = .ok (record, tempids, s'))
    {pre post : List TxOp} {flipped : KwId} {k : Keyword}
    (hops : expandItems items = pre ++ .add (.id saga) sagaStatus (.keyword flipped) :: post)
    (hpost : ∀ op ∈ post, sparesAttribute sagaStatus op = true) (hk : s.db.interner.resolve flipped = some k) :
    HoldsStatus s'.db saga (.fromKeyword k) := by
  obtain ⟨prepared, leased, hc⟩ := transact_ok ht
  obtain ⟨w, heff⟩ := prepare_effects h.view hc.prepare
  have hstands := applyRecord_stands (hc.sound h.view) s.db
  have hheld : w.Holds (saga, sagaStatus, .keyword flipped) := by
    rw [Db.Holds, heff.follows.recorded]
    exact prepare_holds_add h.view hc.prepare hops hpost
  refine ⟨.keyword flipped, k, (hc.entryFields h.view heff.follows (by decide)).mpr hheld, ?_, rfl⟩
  show s'.db.interner.resolve flipped = some k
  rw [hc.db]
  exact hstands.interner.resolve hk

end Owned

/-! ## Calls that end the saga -/

section Calls

variable {Form : Type} {rt : Runtime Form} {schema : Schema} {id : BitVec 128} {saga : EntityId} {s s' : State}

theorem transact_names (hv : s.db.view = .current) {items : List TxItem} {nowMs : Int64} {record : TxRecord} {tempids : Tempids}
    (h : transact s items nowMs = .ok (record, tempids, s')) :
    s'.db.view = .current ∧ s.db.interner.Extends s'.db.interner := by
  obtain ⟨prepared, leased, hc⟩ := transact_ok h
  have hstands := applyRecord_stands (hc.sound hv) s.db
  rw [hc.db]
  exact ⟨hstands.view.trans hv, hstands.interner⟩

theorem fromKeyword_committed : Saga.SagaStatus.fromKeyword committedKeyword = .committed := by decide

theorem fromKeyword_keyword {status : Saga.SagaStatus} (h : status = .aborted ∨ status = .expired) :
    Saga.SagaStatus.fromKeyword status.keyword = status := by
  rcases h with rfl | rfl <;> decide

theorem spares_endOps {entry : Saga.SagaEntry} {flipped : KwId} {onAbortError : Option String} {compensated : Bool} :
    ∃ post, expandItems (endOps entry flipped onAbortError compensated) =
        .add (.id entry.entity) sagaStatus (.keyword flipped) :: post ∧
      ∀ op ∈ post, sparesAttribute sagaStatus op = true := by
  refine ⟨(onAbortError.toList.map fun reason => .add (.id entry.entity) sagaOnAbortError (.str reason)) ++
    (if compensated then [.add (.temp txTempid) sagaTxId (.uuid entry.id)] else []), ?_, fun op hop => ?_⟩
  · cases onAbortError <;> cases compensated <;> rfl
  · rcases mem_append.mp hop with hop | hop
    · obtain ⟨reason, -, rfl⟩ := mem_map.mp hop
      exact decide_eq_true (by decide : sagaOnAbortError ≠ sagaStatus)
    · split at hop
      · rw [mem_singleton.mp hop]
        exact decide_eq_true (by decide : sagaTxId ≠ sagaStatus)
      · cases hop

theorem expandItems_append (xs ys : List TxItem) : expandItems (xs ++ ys) = expandItems xs ++ expandItems ys :=
  flatMap_append

/-- Ending a saga leaves its entry with the status asked for. -/
theorem Owned.finish (h : Owned schema id saga s.db) {branch : Option Db} {status : Saga.SagaStatus} {intent : Intent Form}
    {nowMs : Int64} {record : TxRecord} {compensated : Bool} (hstatus : status = .aborted ∨ status = .expired)
    (hf : finish rt s branch id status intent nowMs = .ok (record, s', compensated)) (hid : KeepsId id record.datoms)
    (hlen : s'.db.interner.len ≤ 2 ^ 64) :
    Owned schema id saga s'.db ∧ HoldsStatus s.db saga .opened ∧ HoldsStatus s'.db saga status ∧
      (∀ reason, intent = .skip reason → compensated = false) := by
  obtain ⟨entry, forms, onAbortError, hentry, hopen, hattempt, hskip⟩ := finish_ok hf
  obtain ⟨items, names, tempids, hitems, hcomp, htransact⟩ := finishAttempt_ok hattempt
  obtain ⟨entry', hentry', -, hsaga, -, hst⟩ := h.entry
  cases hentry.symm.trans hentry'
  have hext : s.db.interner.Extends (names.intern status.keyword).2 :=
    (rt.items_extends _ _ _ _ hitems).trans (names.intern_extends _)
  obtain ⟨hnamed, -⟩ := h.names hext
  obtain ⟨howned, -⟩ := Owned.transact (s := s.withNames _) hnamed htransact hid
  refine ⟨howned, (hst _).mp hopen, ?_, fun reason hr => ?_⟩
  · obtain ⟨post, hpost, hspares⟩ := @spares_endOps entry (names.intern status.keyword).1 onAbortError compensated
    rw [hsaga] at hpost
    have hgrow := (transact_names (s := s.withNames _) hnamed.view htransact).2
    have hheld := Owned.transact_status (s := s.withNames _) hnamed htransact
      (by rw [expandItems_append, hpost]) hspares (KeywordInterner.resolve_intern _ ((len_mono hgrow).trans hlen))
    rwa [fromKeyword_keyword hstatus] at hheld
  · rw [hskip reason hr, rt.items_nil] at hitems
    cases hitems
    exact hcomp

/-- A merge leaves the entry committed. -/
theorem Owned.merge (h : Owned schema id saga s.db) {branch : Db} {requested : List String} {nowMs : Int64} {m : Merge}
    {entry : Saga.SagaEntry} {basisT : Nat} (hm : Merged rt s s' branch id requested nowMs m entry basisT)
    (hid : KeepsId id m.record.datoms) (hlen : s'.db.interner.len ≤ 2 ^ 64) :
    Owned schema id saga s'.db ∧ HoldsStatus s.db saga .opened ∧ HoldsStatus s'.db saga .committed := by
  obtain ⟨entry', hentry', -, hsaga, -, hst⟩ := h.entry
  cases hm.found.symm.trans hentry'
  obtain ⟨tempids, htransact⟩ := hm.record
  have hext : s.db.interner.Extends (m.names.intern committedKeyword).2 :=
    (translate_extends hm.novelty).trans (m.names.intern_extends _)
  obtain ⟨hnamed, -⟩ := h.names hext
  obtain ⟨howned, -⟩ := Owned.transact (s := s.withNames _) hnamed htransact hid
  refine ⟨howned, (hst _).mp hm.opened, ?_⟩
  have hgrow := (transact_names (s := s.withNames _) hnamed.view htransact).2
  have hops : expandItems (commitItems entry (m.names.intern committedKeyword).1 m.applied) =
      noveltyOps m.applied ++ .add (.id saga) sagaStatus (.keyword (m.names.intern committedKeyword).1) ::
        (flipOps entry (m.names.intern committedKeyword).1 m.applied.steps).tail := by
    rw [expandItems_commitItems, ← hsaga]
    rfl
  have hheld := Owned.transact_status (s := s.withNames _) hnamed htransact hops (fun op hop => ?_)
    (KeywordInterner.resolve_intern _ ((len_mono hgrow).trans hlen))
  · rwa [fromKeyword_committed] at hheld
  · simp only [flipOps, cons_append, nil_append, tail_cons, mem_cons, mem_map] at hop
    rcases hop with rfl | rfl | rfl | ⟨stale, -, rfl⟩ <;> rfl

end Calls

/-! ## Runs -/

/-- No transaction gives another entity the saga's id, and an abort replaces a
    compensation only where the branch is. -/
def singly {Form : Type} (id : BitVec 128) : Admits Form where
  record := fun r => KeepsId id r.datoms
  ask := fun s intent => ∀ forms, intent = .replace forms → s.branch.isSome = true

/-- What every step keeps of the node. -/
structure EndsOnce {Form : Type} (schema : Schema) (id : BitVec 128) (saga : EntityId) (s : SagaNode Form) : Prop where
  owned : Owned schema id saga s.parent.db
  merged : s.merges = [] ∨
    (∃ m, s.merges = [m] ∧ HoldsStatus m.before.db saga .opened) ∧ HoldsStatus s.parent.db saga .committed
  compensated : s.compensations = [] ∨ (∃ c, s.compensations = [c] ∧ c.held = true) ∧
    (HoldsStatus s.parent.db saga .aborted ∨ HoldsStatus s.parent.db saga .expired)
  /-- A call that could compensate saw the branch, which stays while the saga is open. -/
  endings : ∀ x ∈ s.endings, (x.1 = .aborted ∨ x.1 = .expired) ∧
    ((∃ reason, x.2 = .skip reason) ∨ s.branch.isSome = true ∨ ¬ HoldsStatus s.parent.db saga .opened)
  released : s.released = true → ¬ HoldsStatus s.parent.db saga .opened

section Runs

variable {Form : Type} {rt : Runtime Form} {schema : Schema} {id : BitVec 128} {saga : EntityId} {s s' : SagaNode Form}
variable {db' : Db} {ok : Admits Form}

/-- A status other than open stays. -/
theorem Finishes.stays {db : Db} (h : Finishes saga db db') (ho : Owned schema id saga db) {st : Saga.SagaStatus}
    (hst : HoldsStatus db saga st) (hne : st ≠ .opened) : ∀ st', HoldsStatus db' saga st' ↔ HoldsStatus db saga st' := by
  rcases h with hsame | ⟨hopen, -⟩
  · exact hsame
  · exact absurd (ho.status_unique hst hopen) hne

/-- A saga that is not open does not become so. -/
theorem Finishes.not_opened {db : Db} (h : Finishes saga db db') (hno : ¬ HoldsStatus db saga .opened) :
    ¬ HoldsStatus db' saga .opened := by
  rcases h with hsame | ⟨hopen, -⟩
  · rwa [hsame]
  · exact absurd hopen hno

/-- The parent moves on by a transaction that is no call of the node's. -/
theorem EndsOnce.advance (h : EndsOnce schema id saga s) {parent : State} (log : List TxRecord)
    (ho : Owned schema id saga parent.db) (hf : Finishes saga s.parent.db parent.db) :
    EndsOnce schema id saga { s with parent, log } := by
  have hkeep : ∀ {st}, HoldsStatus s.parent.db saga st → st ≠ .opened → HoldsStatus parent.db saga st := fun hst hne =>
    (hf.stays h.owned hst hne _).mpr hst
  refine ⟨ho, h.merged.imp_right fun hm => ⟨hm.1, hkeep hm.2 (by decide)⟩, h.compensated.imp_right fun hc => ⟨hc.1, ?_⟩,
    fun x hx => ⟨(h.endings x hx).1, (h.endings x hx).2.imp_right (Or.imp_right hf.not_opened)⟩,
    fun hr => hf.not_opened (h.released hr)⟩
  exact hc.2.imp (fun ha => hkeep ha (by decide)) fun he => hkeep he (by decide)

/-- An open saga has been neither merged nor compensated. -/
theorem EndsOnce.nothing_of_opened (h : EndsOnce schema id saga s) (hopen : HoldsStatus s.parent.db saga .opened) :
    s.merges = [] ∧ s.compensations = [] := by
  refine ⟨h.merged.resolve_right fun hm => ?_, h.compensated.resolve_right fun hc => ?_⟩
  · exact absurd (h.owned.status_unique hm.2 hopen) (by decide)
  · rcases hc.2 with ha | he
    · exact absurd (h.owned.status_unique ha hopen) (by decide)
    · exact absurd (h.owned.status_unique he hopen) (by decide)

theorem EndsOnce.step (h : EndsOnce schema id saga s) (hs : NodeStep rt id (singly id) s s')
    (hlen : s'.parent.db.interner.len ≤ 2 ^ 64) :
    EndsOnce schema id saga s' ∧ Finishes saga s.parent.db s'.parent.db := by
  have hsame : Finishes saga s.parent.db s.parent.db := .inl fun _ => Iff.rfl
  cases hs with
  | transact ht hid =>
    obtain ⟨ho, hf⟩ := h.owned.transact ht hid
    exact ⟨h.advance _ ho hf, hf⟩
  | naming hext =>
    obtain ⟨ho, hst⟩ := h.owned.names hext
    exact ⟨h.advance s.log ho (.inl hst), .inl hst⟩
  | branchNaming hb _ =>
    refine ⟨⟨h.owned, h.merged, h.compensated, fun x hx => ⟨(h.endings x hx).1, ?_⟩, h.released⟩, hsame⟩
    exact (h.endings x hx).2.imp_right fun _ => .inl rfl
  | batch => exact ⟨⟨h.owned, h.merged, h.compensated, h.endings, h.released⟩, hsame⟩
  | step _ hb _ _ =>
    refine ⟨⟨h.owned, h.merged, h.compensated, fun x hx => ⟨(h.endings x hx).1, ?_⟩, h.released⟩, hsame⟩
    exact (h.endings x hx).2.imp_right fun _ => .inl rfl
  | unlock => exact ⟨⟨h.owned, h.merged, h.compensated, h.endings, h.released⟩, hsame⟩
  | refuse _ _ hc hid =>
    obtain ⟨items, tempids, ht⟩ := sagaCommit_refused hc
    obtain ⟨ho, hf⟩ := h.owned.transact ht hid
    exact ⟨h.advance _ ho hf, hf⟩
  | @merge branch parent requested resolutions nowMs m _ _ hc hid =>
    obtain ⟨entry, basisT, hm⟩ := sagaCommit_merged hc
    obtain ⟨ho, hopen, hcommitted⟩ := h.owned.merge hm hid hlen
    obtain ⟨hmerges, hcomps⟩ := h.nothing_of_opened hopen
    have hnot : ¬ HoldsStatus parent.db saga .opened := fun ho' =>
      absurd (ho.status_unique hcommitted ho') (by decide)
    refine ⟨⟨ho, .inr ⟨⟨m, by rw [hmerges]; rfl, by rw [hm.before]; exact hopen⟩, hcommitted⟩, .inl hcomps,
      fun x hx => ⟨(h.endings x hx).1, .inr (.inr hnot)⟩, fun _ => hnot⟩, .inr ⟨hopen, .committed, rfl, fun st hst => ?_⟩⟩
    exact ho.status_unique hst hcommitted
  | @ask status intent hstatus hask =>
    refine ⟨⟨h.owned, h.merged, h.compensated, fun x hx => ?_, h.released⟩, hsame⟩
    rcases mem_append.mp hx with hx | hx
    · exact h.endings x hx
    · rw [mem_singleton.mp hx]
      refine ⟨hstatus, ?_⟩
      cases intent with
      | registered =>
        by_cases hb : s.branch.isSome = true
        · exact .inr (.inl hb)
        · exact .inl ⟨branchless, if_neg hb⟩
      | replace forms => exact .inr (.inl (hask forms rfl))
      | skip reason => exact .inl ⟨reason, rfl⟩
  | @finish status intent nowMs record parent compensated hmem hfinish hid =>
    obtain ⟨hstatus, hbranch⟩ := h.endings _ hmem
    obtain ⟨ho, hopen, hended, hskip⟩ := h.owned.finish hstatus hfinish hid hlen
    obtain ⟨hmerges, hcomps⟩ := h.nothing_of_opened hopen
    have hterm : status.isTerminal = true ∧ status ≠ .opened := by rcases hstatus with rfl | rfl <;> decide
    have hnot : ¬ HoldsStatus parent.db saga .opened := fun ho' => hterm.2 (ho.status_unique hended ho')
    refine ⟨⟨ho, .inl hmerges, ?_, fun x hx => ⟨(h.endings x hx).1, .inr (.inr hnot)⟩, fun _ => hnot⟩,
      .inr ⟨hopen, status, hterm.1, fun st hst => ho.status_unique hst hended⟩⟩
    cases compensated with
    | false => exact .inl (by simp [hcomps])
    | true =>
      have hheld : s.branch.isSome = true := by
        rcases hbranch with ⟨reason, hr⟩ | hb | hno
        · exact absurd (hskip reason hr) (by decide)
        · exact hb
        · exact absurd hopen hno
      refine .inr ⟨⟨⟨intent.isRegistered, s.branch.isSome⟩, by simp [hcomps], hheld⟩, ?_⟩
      rcases hstatus with rfl | rfl
      · exact .inl hended
      · exact .inr hended
  | @release entry status hentry hst hterm =>
    refine ⟨⟨h.owned, h.merged, h.compensated, h.endings, fun _ hopen => ?_⟩, hsame⟩
    obtain ⟨entry', hentry', -, -, -, hstatus⟩ := h.owned.entry
    cases hentry.symm.trans hentry'
    rw [h.owned.status_unique ((hstatus status).mp hst) hopen] at hterm
    cases hterm
  | discard hr =>
    refine ⟨⟨h.owned, h.merged, h.compensated, fun x hx => ⟨(h.endings x hx).1, .inr (.inr (h.released hr))⟩,
      h.released⟩, hsame⟩

/-- Names are only added, and the node keeps reading current facts. -/
theorem NodeStep.names (hs : NodeStep rt id ok s s') (hv : s.parent.db.view = .current) :
    s'.parent.db.view = .current ∧ s.parent.db.interner.Extends s'.parent.db.interner := by
  cases hs with
  | transact ht _ => exact transact_names hv ht
  | naming hext => exact ⟨hv, hext⟩
  | refuse _ _ hc _ =>
    obtain ⟨items, tempids, ht⟩ := sagaCommit_refused hc
    exact transact_names hv ht
  | @merge branch parent requested resolutions nowMs m _ _ hc _ =>
    obtain ⟨entry, basisT, hm⟩ := sagaCommit_merged hc
    obtain ⟨tempids, ht⟩ := hm.record
    obtain ⟨hview, hext⟩ := transact_names (s := s.parent.withNames _) hv ht
    exact ⟨hview, ((translate_extends hm.novelty).trans (m.names.intern_extends _)).trans hext⟩
  | finish _ hfinish _ =>
    obtain ⟨entry, forms, onAbortError, -, -, hattempt, -⟩ := finish_ok hfinish
    obtain ⟨items, names, tempids, hitems, -, ht⟩ := finishAttempt_ok hattempt
    obtain ⟨hview, hext⟩ := transact_names (s := s.parent.withNames _) hv ht
    exact ⟨hview, ((rt.items_extends _ _ _ _ hitems).trans (names.intern_extends _)).trans hext⟩
  | _ => exact ⟨hv, .refl _⟩

theorem NodeSteps.names (hs : NodeSteps rt id ok s s') (hv : s.parent.db.view = .current) :
    s'.parent.db.view = .current ∧ s.parent.db.interner.Extends s'.parent.db.interner := by
  induction hs with
  | refl => exact ⟨hv, .refl _⟩
  | tail _ hstep ih =>
    obtain ⟨hview, hext⟩ := hstep.names ih.1
    exact ⟨hview, ih.2.trans hext⟩

/-- The invariant over a run, and a finished saga's status with it. -/
theorem EndsOnce.steps (h : EndsOnce schema id saga s) (hs : NodeSteps rt id (singly id) s s')
    (hlen : s'.parent.db.interner.len ≤ 2 ^ 64) : EndsOnce schema id saga s' ∧
      ∀ st, HoldsStatus s.parent.db saga st → st ≠ .opened → HoldsStatus s'.parent.db saga st := by
  induction hs with
  | refl => exact ⟨h, fun _ hst _ => hst⟩
  | @tail s1 s2 hrest hstep ih =>
    have hview := (NodeSteps.names hrest h.owned.view).1
    obtain ⟨h1, hstays⟩ := ih ((len_mono (hstep.names hview).2).trans hlen)
    obtain ⟨h2, hf⟩ := h1.step hstep hlen
    refine ⟨h2, fun st hst hne => ?_⟩
    have hst1 := hstays st hst hne
    exact (hf.stays h1.owned hst1 hne st).mpr hst1

/-- A saga as it was opened here, or came with a registry from elsewhere: nothing was done to it yet. -/
structure Fresh (schema : Schema) (id : BitVec 128) (saga : EntityId) (s : SagaNode Form) : Prop where
  owned : Owned schema id saga s.parent.db
  merges : s.merges = []
  compensations : s.compensations = []
  endings : s.endings = []
  released : s.released = false

/-- In every run in which no entity is given the saga's id, and replaced compensations
    are for sagas whose branch is here: a finished saga keeps its status; it was merged
    at most once, when it became committed, and compensated at most once, when it became
    aborted or expired and its branch was here. -/
theorem a_saga_ends_once {start : SagaNode Form} (hstart : Fresh schema id saga start)
    (hrun : NodeSteps rt id (singly id) start s) (hlater : NodeSteps rt id (singly id) s s')
    (hlen : s'.parent.db.interner.len ≤ 2 ^ 64) :
    (∀ st : Saga.SagaStatus, st.isTerminal = true → HoldsStatus s.parent.db saga st →
      ∀ st', HoldsStatus s'.parent.db saga st' ↔ st' = st) ∧
    s.merges.length ≤ 1 ∧
    (∀ m ∈ s.merges, HoldsStatus m.before.db saga .opened ∧ HoldsStatus s.parent.db saga .committed) ∧
    s.compensations.length ≤ 1 ∧
    ∀ c ∈ s.compensations, c.held = true ∧
      (HoldsStatus s.parent.db saga .aborted ∨ HoldsStatus s.parent.db saga .expired) := by
  have h0 : EndsOnce schema id saga start :=
    ⟨hstart.owned, .inl hstart.merges, .inl hstart.compensations, by rw [hstart.endings]; exact forall_mem_nil _,
      fun hr => by rw [hstart.released] at hr; cases hr⟩
  have hview := (NodeSteps.names hrun hstart.owned.view).1
  obtain ⟨h, -⟩ := h0.steps hrun ((len_mono (NodeSteps.names hlater hview).2).trans hlen)
  obtain ⟨h', hstays⟩ := h.steps hlater hlen
  refine ⟨fun st hterm hst st' => ?_, ?_, ?_, ?_, ?_⟩
  · have hst' := hstays st hst (by rintro rfl; cases hterm)
    exact ⟨fun hother => h'.owned.status_unique hother hst', fun heq => heq ▸ hst'⟩
  · rcases h.merged with hm | ⟨⟨m, hm, -⟩, -⟩ <;> simp [hm]
  · intro m hm
    rcases h.merged with hno | ⟨⟨m', hm', hopen⟩, hcommitted⟩
    · rw [hno] at hm
      cases hm
    · rw [hm'] at hm
      rw [mem_singleton.mp hm]
      exact ⟨hopen, hcommitted⟩
  · rcases h.compensated with hc | ⟨⟨c, hc, -⟩, -⟩ <;> simp [hc]
  · intro c hc
    rcases h.compensated with hno | ⟨⟨c', hc', hheld⟩, hended⟩
    · rw [hno] at hc
      cases hc
    · rw [hc'] at hc
      rw [mem_singleton.mp hc]
      exact ⟨hheld, hended⟩

end Runs

/-! ## A saga that ends twice -/

namespace EndedTwiceExample

open Life.SharedBlockExample (base schema openSaga)
open Life.MissedIdExample (user nameAttr)

/-- Compensations are given as transaction items. -/
def runtime : Runtime TxItem where
  read := fun _ => .ok []
  invoke := fun _ _ _ => .ok []
  items := fun _ names forms => .ok (forms, names)
  items_extends := fun _ names _ r h => by
    cases h
    exact .refl names
  items_nil := fun _ _ => rfl
  evaluate := fun _ _ => true
  report := fun _ _ _ _ _ => ""
  explain := fun _ => ""

/-- The saga 7 was opened on the entity 1000; its branch is there or not. -/
def start (held : Bool) : Option (SagaNode TxItem) :=
  (transact (recoverFrom base []) openSaga 5).toOption.map fun x =>
    { parent := x.2.2
      log := [x.1]
      branch := if held then some { recoverFrom base [] with nextUser := 1002 } else none
      steps := []
      batch := none
      endings := []
      released := false
      merges := []
      compensations := [] }

def transactNow (items : List TxItem) (s : SagaNode TxItem) : Option (SagaNode TxItem) :=
  (transact s.parent items 9).toOption.map fun x => { s with parent := x.2.2, log := s.log ++ [x.1] }

def mergeNow (rt : Runtime TxItem) (s : SagaNode TxItem) : Option (SagaNode TxItem) :=
  match s.batch, s.branch with
  | none, some branch =>
    match sagaCommit rt s.parent s.log branch.db 7 [] [] 9 with
    | .ok (.merged m parent) => some { s with parent, log := s.log ++ [m.record], merges := s.merges ++ [m] }
    | _ => none
  | _, _ => none

/-- An abort with a compensation of the caller's. -/
def abortNow (items : List TxItem) (s : SagaNode TxItem) : Option (SagaNode TxItem) :=
  (finish runtime s.parent none 7 .aborted (.replace items) 9).toOption.map fun x =>
    { s with
      parent := x.2.1
      log := s.log ++ [x.1]
      endings := s.endings ++ [(.aborted, .replace items)]
      compensations := s.compensations ++ if x.2.2 then [⟨false, s.branch.isSome⟩] else [] }

theorem toOption_eq_some {ε α : Type} {x : Except ε α} {a : α} (h : x.toOption = some a) : x = .ok a := by
  cases x with
  | ok b => exact congrArg _ (Option.some.inj h)
  | error e => cases h

variable {ok : Admits TxItem}

theorem step_transactNow {rt : Runtime TxItem} {items : List TxItem} {s s' : SagaNode TxItem}
    (h : transactNow items s = some s') (hok : ∀ r, s'.log = s.log ++ [r] → ok.record r) : NodeStep rt 7 ok s s' := by
  obtain ⟨⟨record, tempids, parent⟩, hx, rfl⟩ := Option.map_eq_some_iff.mp h
  exact .transact (toOption_eq_some hx) (hok record rfl)

theorem step_mergeNow {rt : Runtime TxItem} {s s' : SagaNode TxItem} (h : mergeNow rt s = some s')
    (hok : ∀ r, s'.log = s.log ++ [r] → ok.record r) : NodeStep rt 7 ok s s' := by
  unfold mergeNow at h
  split at h
  · rename_i branch hbatch hbranch
    split at h
    · rename_i m parent hm
      cases h
      exact .merge hbatch hbranch hm (hok m.record rfl)
    · cases h
  · cases h

theorem steps_abortNow {items : List TxItem} {s s' : SagaNode TxItem} (h : abortNow items s = some s')
    (hok : ∀ r, s'.log = s.log ++ [r] → ok.record r) (hask : ok.ask s (.replace items)) : NodeSteps runtime 7 ok s s' := by
  obtain ⟨⟨record, parent, compensated⟩, hx, rfl⟩ := Option.map_eq_some_iff.mp h
  have hask' : NodeStep runtime 7 ok s { s with endings := s.endings ++ [(.aborted, .replace items)] } :=
    .ask (.inl rfl) hask
  exact (Relation.ReflTransGen.single hask').tail (NodeStep.finish (s := { s with endings := _ })
    (mem_append_right _ (mem_singleton_self _)) (toOption_eq_some hx) (hok record rfl))

theorem fresh_start {held : Bool} {s : SagaNode TxItem} (h : start held = some s) : Fresh schema 7 (user 1000) s := by
  obtain ⟨⟨record, tempids, parent⟩, hx, rfl⟩ := Option.map_eq_some_iff.mp h
  have ht := toOption_eq_some hx
  have hsettles : Settles openSaga := ⟨by decide, fun _ => by decide⟩
  obtain ⟨hkept, -⟩ := (kept_creation schema Idents.empty Life.SharedBlockExample.interner).step (by decide)
    (.commit ht hsettles)
  -- what the registry holds is what the opening recorded
  have hdb : ∃ x ∈ (transact (recoverFrom base []) openSaga 5).toOption,
      x.2.2.db.values (user 1000) sagaId = [.uuid 7] ∧
      (∀ d ∈ x.2.2.db.recorded, d.a = sagaId → d.e = user 1000) ∧
      ∀ d ∈ x.2.2.db.recorded, d.e = user 1000 → d.a = sagaStatus → (Saga.keyword x.2.2.db d.v).isSome = true := by
    decide +kernel
  obtain ⟨x, hmem, hid, honly, hnamed⟩ := hdb
  cases Option.some.inj (hx.symm.trans hmem)
  have hsaid : ∀ {f}, parent.db.Holds f → ∃ d ∈ parent.db.recorded, d.fact = f := by
    intro f hf
    rw [Db.Holds, ← nil_append parent.db.recorded] at hf
    rcases holds_append_cases hf with ⟨d, hd, hfact, -⟩ | ⟨hno, -⟩
    · exact ⟨d, hd, hfact⟩
    · cases hno
  refine ⟨⟨hkept.view, hkept.schema, hkept.registry.typed, hkept.registry.one, ?_, fun e he => ?_, fun v hv => ?_⟩, rfl, rfl,
    rfl, rfl⟩
  · rw [← Db.mem_values hkept.view, hid]
    exact mem_singleton_self _
  · obtain ⟨d, hd, hfact⟩ := hsaid he
    exact (congrArg (·.1) hfact).symm.trans (honly d hd (congrArg (·.2.1) hfact))
  · obtain ⟨d, hd, hfact⟩ := hsaid hv
    have := hnamed d hd (congrArg (·.1) hfact) (congrArg (·.2.1) hfact)
    rwa [show d.v = v from congrArg (·.2.2) hfact] at this

/-- The entity 950 swaps the saga's id in, and opens under it. -/
def reopen : List TxItem :=
  [.op (.cas (.id (user 950)) sagaId none (.uuid 7)),
    .map { entity := .id (user 950), attributes := [(sagaStatus, [.keyword 0]), (sagaBasisT, [.long 0]),
      (sagaOwner, [.str "o"]), (sagaExpiresAt, [.instant 9])] }]

/-- A saga whose id a second entity swaps in is merged again; and an abort compensates
    a saga whose branch is not here, if the compensation is the caller's. -/
theorem a_saga_is_merged_twice :
    (∃ first s, Fresh schema 7 (user 1000) first ∧ NodeSteps runtime 7 {} first s ∧ s.merges.length = 2) ∧
      ∃ first s, Fresh schema 7 (user 1000) first ∧ first.branch.isSome = false ∧ NodeSteps runtime 7 {} first s ∧
        ∃ c ∈ s.compensations, c.held = false := by
  constructor
  · have hrun : ∃ s ∈ start true, ∃ s1 ∈ mergeNow runtime s, ∃ s2 ∈ transactNow reopen s1, ∃ s3 ∈ mergeNow runtime s2,
        s3.merges.length = 2 := by decide +kernel
    obtain ⟨s, hs, s1, h1, s2, h2, s3, h3, hlen⟩ := hrun
    exact ⟨s, s3, fresh_start hs, ((Relation.ReflTransGen.single (step_mergeNow h1 fun _ _ => trivial)).tail
      (step_transactNow h2 fun _ _ => trivial)).tail (step_mergeNow h3 fun _ _ => trivial), hlen⟩
  · have hrun : ∃ s ∈ start false, ∃ s1 ∈ abortNow [.op (.add (.id (user 900)) nameAttr (.str "undone"))] s,
        s.branch.isSome = false ∧ s1.compensations.any (!·.held) = true := by decide +kernel
    obtain ⟨s, hs, s1, h1, hbranch, hheld⟩ := hrun
    obtain ⟨c, hc, hno⟩ := any_eq_true.mp hheld
    exact ⟨s, s1, fresh_start hs, hbranch, steps_abortNow h1 (fun _ _ => trivial) trivial, c, hc, by simpa using hno⟩

/-- A saga that is merged, and stays committed. -/
theorem a_saga_ends_once_merged :
    ∃ first s, NodeSteps runtime 7 (singly 7) first s ∧ s.merges.length = 1 ∧
      ∀ st', HoldsStatus s.parent.db (user 1000) st' ↔ st' = .committed := by
  have hrun : ∃ s ∈ start true, ∃ s1 ∈ mergeNow runtime s, s1.merges.length = 1 ∧
      (∀ r ∈ s1.log.drop s.log.length, ∀ d ∈ r.datoms, d.a = sagaId → d.added = true → d.v ≠ .uuid 7) ∧
      s1.parent.db.interner.len ≤ 2 ^ 64 := by decide +kernel
  obtain ⟨s, hs, s1, h1, hlen, hkeeps, hnames⟩ := hrun
  have hstep : NodeStep runtime 7 (singly 7) s s1 := by
    refine step_mergeNow h1 fun r hr => hkeeps r ?_
    rw [hr, drop_left]
    exact mem_singleton_self r
  obtain ⟨hstays, -, hmerges, -⟩ := a_saga_ends_once (fresh_start hs) (.single hstep) .refl hnames
  obtain ⟨m, hm⟩ := exists_mem_of_length_pos (hlen ▸ Nat.one_pos : 0 < s1.merges.length)
  exact ⟨s, s1, .single hstep, hlen, hstays .committed rfl (hmerges m hm).2⟩

end EndedTwiceExample

end Corium.Transactor
