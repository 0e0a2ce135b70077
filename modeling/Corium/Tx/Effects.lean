/-
  Corium.Tx.Effects — what an accepted transaction can record, said once.

  `OpEffect tx w ds`: one operation, accepted against the working value `w`,
  records `ds`; each case carries the guards the code checks there.
  `applyOp_effect` shows every accepted operation has one, and `prepare_effects`
  that an accepted transaction is a chain of them (`Effects`). What holds of every
  effect then holds of every accepted transaction: a fact is asserted only while
  absent, retracted only while live, and no accepted transaction changes the
  schema.
-/

import Corium.Tx.Prepare

namespace Corium.Tx

open Corium.Core Corium.Lib Bootstrap

/-- What an addition that records something has passed. -/
structure AddGuards (tx : TxId) (w : Db) (attr : Attribute) (e : EntityId) (a : AttrId) (v : Value) : Prop where
  installed : w.schema.get a = some attr
  write : writableByTransaction e a = true
  instant : a = txInstant → e = tx
  type : v.hasType attr.valueType = true
  form : validateAssertionForm w a v = .ok ()
  notRetired : w.schema.isRetired a = false
  owner : attr.unique.isSome = true → (w.lookup a v).all (· = e) = true
  absent : v ∉ w.values e a

/-- What a compare-and-swap has passed: nothing looks for another owner of `new`. -/
structure CasGuards (w : Db) (attr : Attribute) (e : EntityId) (a : AttrId) (old : Option Value) (new : Value) :
    Prop where
  installed : w.schema.get a = some attr
  write : writableByTransaction e a = true
  instant : a ≠ txInstant
  type : new.hasType attr.valueType = true
  form : validateAssertionForm w a new = .ok ()
  notRetired : w.schema.isRetired a = false
  one : attr.cardinality = .one
  current : (w.values e a).head? = old

def casDatoms (tx : TxId) (e : EntityId) (a : AttrId) (old : Option Value) (new : Value) : List Datom :=
  old.toList.map (retraction tx e a) ++ [assertion tx e a new]

inductive OpEffect (tx : TxId) (w : Db) : List Datom → Prop where
  /-- A fact already present was asserted, or an absent one retracted. -/
  | nothing : OpEffect tx w []
  | add {e : EntityId} {a : AttrId} {v : Value} {attr : Attribute} (g : AddGuards tx w attr e a v) :
      OpEffect tx w (addDatoms tx w attr e a v)
  | retract {e : EntityId} {a : AttrId} {v : Value} (hwrite : writableByTransaction e a = true)
      (hinstant : a ≠ txInstant) (hlive : v ∈ w.values e a) : OpEffect tx w [retraction tx e a v]
  | cas {e : EntityId} {a : AttrId} {old : Option Value} {new : Value} {attr : Attribute}
      (g : CasGuards w attr e a old new) : OpEffect tx w (casDatoms tx e a old new)
  | retractEntity {facts : List Fact} (hwrite : ∀ f ∈ facts, writableByTransaction f.1 f.2.1 = true)
      (hinstant : ∀ f ∈ facts, f.2.1 ≠ txInstant) (hlive : ∀ f ∈ facts, f.2.2 ∈ w.values f.1 f.2.1)
      (hnodup : facts.Nodup) : OpEffect tx w (facts.map fun f => retraction tx f.1 f.2.1 f.2.2)

/-! ## Checks -/

variable {e : EntityId} {a : AttrId} {v : Value} {w : Db} {tx : TxId} {p p' : Progress} {tempids : Tempids} {db : Db}
  {ds : List Datom} {items : List TxItem} {r : PreparedTx} {n : Nat}

theorem validate_ok (h : validate w e a v = .ok ()) :
    writableByTransaction e a = true ∧ ∃ attr, w.schema.get a = some attr ∧ v.hasType attr.valueType = true := by
  unfold validate at h
  split at h
  · cases h
  · rename_i hw
    refine ⟨by simpa using hw, ?_⟩
    split at h
    · cases h
    · rename_i attr hattr
      split at h
      · exact ⟨attr, hattr, ‹_›⟩
      · cases h

theorem validateNotRetired_ok (h : validateNotRetired w a = .ok ()) :
    w.schema.isRetired a = false := by
  unfold validateNotRetired at h
  split at h
  · cases h
  · exact Bool.eq_false_iff.mpr ‹_›

/-- What an ordinary transaction may write is no schema, apart from names. -/
theorem ident_of_writable (h : writableByTransaction e a = true)
    (hs : isSchemaAttribute a = true) : a = ident := by
  unfold writableByTransaction at h
  rw [hs] at h
  split at h
  · cases h
  · simp only [Bool.not_true, Bool.false_eq_true, if_false, Bool.and_eq_true, decide_eq_true_eq] at h
    exact h.1

/-! ## Retracting an entity retracts live facts -/

theorem collectEntityRetractions_live (w : Db) (fuel : Nat) (e : EntityId)
    (acc : Collected) (h : ∀ f ∈ acc.1, ∃ d ∈ w.datomsAt .eavt, d.fact = f) :
    ∀ f ∈ (collectEntityRetractions w fuel e acc).1, ∃ d ∈ w.datomsAt .eavt, d.fact = f := by
  induction fuel generalizing e acc with
  | zero => exact h
  | succ fuel ih =>
    obtain ⟨facts, seen⟩ := acc
    unfold collectEntityRetractions
    split
    · exact h
    · -- every datom of the scan adds its own fact, or what a child's scan collects
      apply List.foldlRecOn (motive := fun acc : Collected =>
        ∀ f ∈ acc.1, ∃ d ∈ w.datomsAt .eavt, d.fact = f)
      · exact h
      intro acc hacc d hd
      have hins : ∀ acc : Collected, (∀ f ∈ acc.1, ∃ d ∈ w.datomsAt .eavt, d.fact = f) →
          ∀ f ∈ acc.1.insert d.fact, ∃ d ∈ w.datomsAt .eavt, d.fact = f := by
        intro acc hacc f hf
        rcases Std.ExtTreeSet.mem_insert.mp hf with hf | hf
        · exact ⟨d, hd, eq_of_compare_eq hf⟩
        · exact hacc f hf
      split
      · apply hins
        split
        · split
          · exact ih _ _ hacc
          · exact hacc
        · exact hacc
      · split
        · exact hins acc hacc
        · exact hacc

theorem entityRetractions_live (hv : w.view = .current) {f : Fact}
    (hf : f ∈ entityRetractions w e) : f.2.2 ∈ w.values f.1 f.2.1 := by
  have hmem : f ∈ (collectEntityRetractions w ((w.datomsAt .eavt).length + 2) e (∅, ∅)).1 :=
    Std.ExtTreeSet.mem_toList.mp hf
  obtain ⟨d, hd, rfl⟩ := collectEntityRetractions_live w _ e (∅, ∅) (fun f hf => absurd hf Std.ExtTreeSet.not_mem_empty)
    f hmem
  rw [Db.mem_values hv]
  obtain ⟨k, hk⟩ := mem_indexValues.mp hd
  obtain ⟨-, -, hl⟩ := (Db.index_some (Db.showsLive_of_current hv) .eavt).mp hk
  exact holds_iff.mpr ⟨d, (Db.mem_live_iff hv).mp hl⟩

theorem entityRetractions_nodup (w : Db) (e : EntityId) : (entityRetractions w e).Nodup := by
  refine List.Pairwise.imp ?_ Std.ExtTreeSet.distinct_toList
  rintro a b h rfl
  exact h (compare_same a)

/-! ## Every accepted operation has an effect -/

/-- `p'` follows `p` by recording `ds`; an operation that records nothing may leave the value as it is. -/
structure Advances (p p' : Progress) (ds : List Datom) : Prop where
  datoms : p'.datoms = p.datoms ++ ds
  working : p'.working = p.working.withTransaction (p.working.basisT + 1) ds ∨ (ds = [] ∧ p'.working = p.working)

theorem advances_advance (p : Progress) (ds : List Datom) : Advances p (p.advance ds) ds := ⟨rfl, Or.inl rfl⟩

theorem applyAdd_ok
    (h : applyAdd tx p e a v = .ok p') :
    (v ∈ p.working.values e a ∧ p' = p.noteInstant a) ∨ ∃ attr, AddGuards tx p.working attr e a v ∧
      p' = (p.noteInstant a).advance (addDatoms tx p.working attr e a v) := by
  unfold applyAdd at h
  simp only [bind_eq_ok, require_eq_ok] at h
  obtain ⟨_, hinstant, _, hvalid, _, hretired, _, hform, h⟩ := h
  obtain ⟨hwrite, attr, hattr, htype⟩ := validate_ok hvalid
  rw [hattr] at h
  simp only [bind_eq_ok, require_eq_ok] at h
  obtain ⟨_, howner, h⟩ := h
  split at h
  · rename_i hpresent
    cases h
    exact Or.inl ⟨hpresent, rfl⟩
  · rename_i habsent
    cases h
    exact Or.inr ⟨attr, ⟨hattr, hwrite, fun ha => (hinstant ha).1, htype, hform, validateNotRetired_ok hretired,
      howner, habsent⟩, rfl⟩

theorem applyAdd_effect
    (h : applyAdd tx p e a v = .ok p') : ∃ ds, OpEffect tx p.working ds ∧ Advances p p' ds := by
  rcases applyAdd_ok h with ⟨-, rfl⟩ | ⟨attr, g, rfl⟩
  · exact ⟨[], .nothing, ⟨by simp [Progress.noteInstant], Or.inr ⟨rfl, rfl⟩⟩⟩
  · exact ⟨_, .add g, ⟨rfl, Or.inl rfl⟩⟩

theorem applyRetract_ok
    (h : applyRetract tx p e a v = .ok p') :
    writableByTransaction e a = true ∧
      p' = p.advance (if v ∈ p.working.values e a then [retraction tx e a v] else []) := by
  unfold applyRetract at h
  simp only [bind_eq_ok, pure_eq_ok] at h
  obtain ⟨_, hvalid, _, -, rfl⟩ := h
  exact ⟨(validate_ok hvalid).1, rfl⟩

theorem applyRetract_effect
    (ha : a ≠ txInstant) (h : applyRetract tx p e a v = .ok p') :
    ∃ ds, OpEffect tx p.working ds ∧ Advances p p' ds := by
  obtain ⟨hwrite, rfl⟩ := applyRetract_ok h
  by_cases hlive : v ∈ p.working.values e a
  · rw [if_pos hlive]
    exact ⟨_, .retract hwrite ha hlive, advances_advance p _⟩
  · rw [if_neg hlive]
    exact ⟨_, .nothing, advances_advance p _⟩

theorem applyCas_ok {old : Option Value} {new : Value}
    (ha : a ≠ txInstant) (h : applyCas tx p e a old new = .ok p') :
    ∃ attr, CasGuards p.working attr e a old new ∧ p' = p.advance (casDatoms tx e a old new) := by
  unfold applyCas at h
  simp only [bind_eq_ok, require_eq_ok, pure_eq_ok] at h
  obtain ⟨_, hvalid, _, hretired, _, hform, _, -, _, hcard, _, hcurrent, rfl⟩ := h
  obtain ⟨hwrite, attr, hattr, htype⟩ := validate_ok hvalid
  have hone : attr.cardinality = .one := by simpa [hattr] using hcard
  rw [hcurrent]
  exact ⟨attr, ⟨hattr, hwrite, ha, htype, hform, validateNotRetired_ok hretired, hone, hcurrent⟩, rfl⟩

theorem applyRetractEntity_ok
    (h : applyRetractEntity tx p e = .ok p') :
    (∀ f ∈ entityRetractions p.working e, writableByTransaction f.1 f.2.1 = true) ∧
      (∀ f ∈ entityRetractions p.working e, f.2.1 ≠ txInstant) ∧
      p' = p.advance ((entityRetractions p.working e).map fun f => retraction tx f.1 f.2.1 f.2.2) := by
  unfold applyRetractEntity at h
  simp only [bind_eq_ok, require_eq_ok] at h
  obtain ⟨_, hinstant, h⟩ := h
  split at h
  · cases h
  · rename_i hfind
    cases h
    refine ⟨fun f hf => ?_, hinstant, rfl⟩
    simpa using List.find?_eq_none.mp hfind f hf

variable {op : TxOp} {d : Datom} {w' : Db}

theorem applyOp_effect (hv : p.working.view = .current) (h : applyOp db tempids tx p op = .ok p') :
    ∃ ds, OpEffect tx p.working ds ∧ Advances p p' ds := by
  cases op with
  | add entity a v =>
    simp only [applyOp, bind_eq_ok] at h
    obtain ⟨e, -, h⟩ := h
    exact applyAdd_effect h
  | addRef entity a target =>
    simp only [applyOp, bind_eq_ok] at h
    obtain ⟨target, -, e, -, h⟩ := h
    exact applyAdd_effect h
  | retract entity a v =>
    simp only [applyOp, bind_eq_ok, require_eq_ok] at h
    obtain ⟨_, ha, e, -, h⟩ := h
    exact applyRetract_effect ha h
  | cas entity a old new =>
    simp only [applyOp, bind_eq_ok, require_eq_ok] at h
    obtain ⟨_, ha, e, -, h⟩ := h
    obtain ⟨attr, g, rfl⟩ := applyCas_ok ha h
    exact ⟨_, .cas g, advances_advance p _⟩
  | retractEntity entity =>
    simp only [applyOp, bind_eq_ok] at h
    obtain ⟨e, -, h⟩ := h
    obtain ⟨hwrite, hinstant, rfl⟩ := applyRetractEntity_ok h
    exact ⟨_, .retractEntity hwrite hinstant (fun f hf => entityRetractions_live hv hf)
      (entityRetractions_nodup p.working e), advances_advance p _⟩

/-! ## Chains of effects -/

/-- From `w` through `ds` to `w'`, one effect after another. -/
inductive Effects (tx : TxId) (w : Db) : List Datom → Db → Prop where
  | refl : Effects tx w [] w
  | step {ds ds' : List Datom} {w' w'' : Db} : Effects tx w ds w' → OpEffect tx w' ds' →
      w'' = w'.withTransaction (w'.basisT + 1) ds' ∨ (ds' = [] ∧ w'' = w') → Effects tx w (ds ++ ds') w''

/-- What every datom of an effect is: this transaction's, and a write an ordinary transaction may make. -/
theorem OpEffect.mem (h : OpEffect tx w ds) (hd : d ∈ ds) : d.tx = tx ∧ writableByTransaction d.e d.a = true := by
  cases h with
  | nothing => cases hd
  | add g =>
    unfold addDatoms at hd
    rcases List.mem_append.mp hd with hd | hd
    · split at hd
      · obtain ⟨v, -, rfl⟩ := List.mem_map.mp hd
        exact ⟨rfl, g.write⟩
      · cases hd
    · rw [List.mem_singleton.mp hd]
      exact ⟨rfl, g.write⟩
  | retract hwrite =>
    rw [List.mem_singleton.mp hd]
    exact ⟨rfl, hwrite⟩
  | cas g =>
    rcases List.mem_append.mp hd with hd | hd
    · obtain ⟨v, -, rfl⟩ := List.mem_map.mp hd
      exact ⟨rfl, g.write⟩
    · rw [List.mem_singleton.mp hd]
      exact ⟨rfl, g.write⟩
  | retractEntity hwrite =>
    obtain ⟨f, hf, rfl⟩ := List.mem_map.mp hd
    exact ⟨rfl, hwrite f hf⟩

/-- What a chain leaves: its datoms recorded, the schema and everything else a check reads unchanged. -/
structure Follows (w : Db) (ds : List Datom) (w' : Db) : Prop where
  recorded : w'.recorded = w.recorded ++ ds
  schema : w'.schema = w.schema
  view : w'.view = w.view
  interner : w'.interner = w.interner

theorem Follows.trans {w w'' : Db} {ds ds' : List Datom} (h : Follows w ds w') (h' : Follows w' ds' w'') :
    Follows w (ds ++ ds') w'' :=
  ⟨by rw [h'.recorded, h.recorded, List.append_assoc], h'.schema.trans h.schema, h'.view.trans h.view,
    h'.interner.trans h.interner⟩

theorem OpEffect.follows {w : Db} (h : OpEffect tx w ds)
    (hw : w' = w.withTransaction (w.basisT + 1) ds ∨ (ds = [] ∧ w' = w)) : Follows w ds w' := by
  rcases hw with rfl | ⟨rfl, rfl⟩
  · exact ⟨by simp, w.withTransaction_schema_of_only_idents _ fun d hd hs => ident_of_writable (h.mem hd).2 hs,
      by simp, by simp⟩
  · exact ⟨by simp, rfl, rfl, rfl⟩

theorem Effects.follows {w : Db} (h : Effects tx w ds w') : Follows w ds w' := by
  induction h with
  | refl => exact ⟨by simp, rfl, rfl, rfl⟩
  | step _ heff hw ih => exact ih.trans (heff.follows hw)

theorem Effects.mem {w : Db} (h : Effects tx w ds w') (hd : d ∈ ds) :
    d.tx = tx ∧ writableByTransaction d.e d.a = true := by
  induction h with
  | refl => cases hd
  | step _ heff _ ih =>
    rcases List.mem_append.mp hd with hd | hd
    · exact ih hd
    · exact heff.mem hd

/-- A successful run of operations is a chain of effects. -/
theorem effects_of_foldlM {ops : List TxOp}
    (hv : p.working.view = .current) (h : ops.foldlM (applyOp db tempids tx) p = .ok p') :
    ∃ ds, Effects tx p.working ds p'.working ∧ p'.datoms = p.datoms ++ ds := by
  refine foldlM_ok (R := fun p p' => p.working.view = .current →
    ∃ ds, Effects tx p.working ds p'.working ∧ p'.datoms = p.datoms ++ ds) ?_ ?_ h hv
  · exact fun s _ => ⟨[], .refl, by simp⟩
  · intro r s s' op hr hstep hv
    obtain ⟨ds, heff, hds⟩ := hr hv
    obtain ⟨ds', heff', hadv⟩ := applyOp_effect (heff.follows.view.trans hv) hstep
    exact ⟨ds ++ ds', heff.step heff' hadv.working, by rw [hadv.datoms, hds, List.append_assoc]⟩

/-- The state before the first operation. -/
def Progress.start (db : Db) : Progress := { datoms := [], working := db, txInstantAsserted := false }

theorem prepare_ok
    (h : prepare db items tx n = .ok r) :
    r.tempids = (allocate db tx n (expandItems items)).tempids ∧
      (∃ p, (expandItems items).foldlM (applyOp db r.tempids tx) (Progress.start db) = .ok p ∧ r.datoms = p.datoms) ∧
      validateSagas db r.datoms = .ok () := by
  unfold prepare at h
  simp only [bind_eq_ok, pure_eq_ok] at h
  obtain ⟨p, hp, _, hs, rfl⟩ := h
  refine ⟨rfl, ⟨p, hp, rfl⟩, ?_⟩
  cases hval : validateSagas db p.datoms with
  | ok u => rfl
  | error e => rw [hval] at hs; cases hs

theorem prepare_effects
    (hv : db.view = .current) (h : prepare db items tx n = .ok r) : ∃ w, Effects tx db r.datoms w := by
  obtain ⟨-, ⟨p, hp, hds⟩, -⟩ := prepare_ok h
  obtain ⟨ds, heff, hp'⟩ := effects_of_foldlM (p := Progress.start db) hv hp
  rw [hds, hp']
  exact ⟨_, heff⟩

/-! ## Where recorded values come from -/

/-- The values an operation writes or compares. -/
def opValues : TxOp → List Value
  | .add _ _ v | .retract _ _ v => [v]
  | .cas _ _ old new => old.toList ++ [new]
  | .addRef .. | .retractEntity _ => []

theorem applyAdd_values
    (h : applyAdd tx p e a v = .ok p') :
    ∃ ds, Advances p p' ds ∧ ∀ d ∈ ds, d.v = v ∨ d.v ∈ p.working.values d.e d.a := by
  rcases applyAdd_ok h with ⟨-, rfl⟩ | ⟨attr, -, rfl⟩
  · exact ⟨[], ⟨by simp [Progress.noteInstant], .inr ⟨rfl, rfl⟩⟩, nofun⟩
  · refine ⟨_, ⟨rfl, .inl rfl⟩, fun d hd => ?_⟩
    unfold addDatoms at hd
    rcases List.mem_append.mp hd with hd | hd
    · split at hd
      · obtain ⟨x, hx, rfl⟩ := List.mem_map.mp hd
        exact .inr hx
      · cases hd
    · rw [List.mem_singleton.mp hd]
      exact .inl rfl

/-- An operation records its own values, references, and values it finds in force. -/
theorem applyOp_values (hv : p.working.view = .current) (h : applyOp db tempids tx p op = .ok p') :
    ∃ ds, Advances p p' ds ∧
      ∀ d ∈ ds, d.v ∈ opValues op ∨ Value.isRef d.v = true ∨ d.v ∈ p.working.values d.e d.a := by
  cases op with
  | add entity a v =>
    simp only [applyOp, bind_eq_ok] at h
    obtain ⟨e, -, h⟩ := h
    obtain ⟨ds, hadv, hds⟩ := applyAdd_values h
    exact ⟨ds, hadv, fun d hd => (hds d hd).imp List.mem_singleton.mpr .inr⟩
  | addRef entity a target =>
    simp only [applyOp, bind_eq_ok] at h
    obtain ⟨target, -, e, -, h⟩ := h
    obtain ⟨ds, hadv, hds⟩ := applyAdd_values h
    refine ⟨ds, hadv, fun d hd => .inr ((hds d hd).imp_left fun hvalue => ?_)⟩
    rw [hvalue]
    rfl
  | retract entity a v =>
    simp only [applyOp, bind_eq_ok] at h
    obtain ⟨_, -, e, -, h⟩ := h
    obtain ⟨-, rfl⟩ := applyRetract_ok h
    refine ⟨_, advances_advance p _, fun d hd => .inl ?_⟩
    split at hd
    · rw [List.mem_singleton.mp hd]
      exact List.mem_cons_self
    · cases hd
  | cas entity a old new =>
    simp only [applyOp, bind_eq_ok, require_eq_ok] at h
    obtain ⟨_, ha, e, -, h⟩ := h
    obtain ⟨attr, -, rfl⟩ := applyCas_ok ha h
    refine ⟨_, advances_advance p _, fun d hd => .inl ?_⟩
    rcases List.mem_append.mp hd with hd | hd
    · obtain ⟨x, hx, rfl⟩ := List.mem_map.mp hd
      exact List.mem_append_left _ hx
    · rw [List.mem_singleton.mp hd]
      exact List.mem_append_right _ List.mem_cons_self
  | retractEntity entity =>
    simp only [applyOp, bind_eq_ok] at h
    obtain ⟨e, -, h⟩ := h
    obtain ⟨-, -, rfl⟩ := applyRetractEntity_ok h
    refine ⟨_, advances_advance p _, fun d hd => .inr (.inr ?_)⟩
    obtain ⟨f, hf, rfl⟩ := List.mem_map.mp hd
    exact entityRetractions_live hv hf

/-- The operation asserts `v` of attribute `a`. -/
def TxOp.Asserts (op : TxOp) (a : AttrId) (v : Value) : Prop :=
  match op with
  | .add _ a' v' | .cas _ a' _ v' => a' = a ∧ v' = v
  | .addRef _ a' _ => a' = a ∧ Value.isRef v = true
  | .retract .. | .retractEntity _ => False

theorem applyAdd_writes
    (h : applyAdd tx p e a v = .ok p') : ∃ ds, Advances p p' ds ∧
      ∀ d ∈ ds, writableByTransaction d.e d.a = true ∧ (d.added = true → d.a = a ∧ d.v = v) := by
  rcases applyAdd_ok h with ⟨-, rfl⟩ | ⟨attr, hguards, rfl⟩
  · exact ⟨[], ⟨by simp [Progress.noteInstant], .inr ⟨rfl, rfl⟩⟩, nofun⟩
  · refine ⟨_, ⟨rfl, .inl rfl⟩, fun d hd => ?_⟩
    unfold addDatoms at hd
    rcases List.mem_append.mp hd with hd | hd
    · split at hd
      · obtain ⟨x, hx, rfl⟩ := List.mem_map.mp hd
        exact ⟨hguards.write, nofun⟩
      · cases hd
    · rw [List.mem_singleton.mp hd]
      exact ⟨hguards.write, fun _ => ⟨rfl, rfl⟩⟩

/-- What an operation records is open to transactions, and what it asserts is its own. -/
theorem applyOp_writes (h : applyOp db tempids tx p op = .ok p') : ∃ ds, Advances p p' ds ∧
      ∀ d ∈ ds, writableByTransaction d.e d.a = true ∧ (d.added = true → op.Asserts d.a d.v) := by
  cases op with
  | add entity a v =>
    simp only [applyOp, bind_eq_ok] at h
    obtain ⟨e, -, h⟩ := h
    obtain ⟨ds, hadv, hds⟩ := applyAdd_writes h
    exact ⟨ds, hadv, fun d hd => (hds d hd).imp_right fun hw ha => ⟨(hw ha).1.symm, (hw ha).2.symm⟩⟩
  | addRef entity a target =>
    simp only [applyOp, bind_eq_ok] at h
    obtain ⟨target, -, e, -, h⟩ := h
    obtain ⟨ds, hadv, hds⟩ := applyAdd_writes h
    refine ⟨ds, hadv, fun d hd => (hds d hd).imp_right fun hw ha => ⟨(hw ha).1.symm, ?_⟩⟩
    rw [(hw ha).2]
    rfl
  | retract entity a v =>
    simp only [applyOp, bind_eq_ok] at h
    obtain ⟨_, -, e, -, h⟩ := h
    obtain ⟨hw, rfl⟩ := applyRetract_ok h
    refine ⟨_, advances_advance p _, fun d hd => ?_⟩
    split at hd
    · rw [List.mem_singleton.mp hd]
      exact ⟨hw, fun h => absurd h Bool.false_ne_true⟩
    · cases hd
  | cas entity a old new =>
    simp only [applyOp, bind_eq_ok, require_eq_ok] at h
    obtain ⟨_, ha, e, -, h⟩ := h
    obtain ⟨attr, hguards, rfl⟩ := applyCas_ok ha h
    refine ⟨_, advances_advance p _, fun d hd => ?_⟩
    rcases List.mem_append.mp hd with hd | hd
    · obtain ⟨x, -, rfl⟩ := List.mem_map.mp hd
      exact ⟨hguards.write, fun h => absurd h Bool.false_ne_true⟩
    · rw [List.mem_singleton.mp hd]
      exact ⟨hguards.write, fun _ => ⟨rfl, rfl⟩⟩
  | retractEntity entity =>
    simp only [applyOp, bind_eq_ok] at h
    obtain ⟨e, -, h⟩ := h
    obtain ⟨hw, -, rfl⟩ := applyRetractEntity_ok h
    refine ⟨_, advances_advance p _, fun d hd => ?_⟩
    obtain ⟨f, hf, rfl⟩ := List.mem_map.mp hd
    exact ⟨hw f hf, fun h => absurd h Bool.false_ne_true⟩

theorem prepare_writes
    (h : prepare db items tx n = .ok r) : ∀ d ∈ r.datoms, writableByTransaction d.e d.a = true ∧
      (d.added = true → ∃ op ∈ expandItems items, op.Asserts d.a d.v) := by
  obtain ⟨-, ⟨p, hp, hds⟩, -⟩ := prepare_ok h
  rw [hds]
  refine foldlM_inv (P := fun p => ∀ d ∈ p.datoms, writableByTransaction d.e d.a = true ∧
    (d.added = true → ∃ op ∈ expandItems items, op.Asserts d.a d.v)) ?_ nofun hp
  intro op hop p p' hinv hstep d hd
  obtain ⟨ds, hadv, hds⟩ := applyOp_writes hstep
  rw [hadv.datoms] at hd
  rcases List.mem_append.mp hd with hd | hd
  · exact hinv d hd
  · exact (hds d hd).imp_right fun hw ha => ⟨op, hop, hw ha⟩

theorem exists_recorded_of_mem_values (hv : w.view = .current)
    (h : v ∈ w.values e a) : ∃ d ∈ w.recorded, d.v = v := by
  obtain ⟨d, hd⟩ := holds_iff.mp ((Db.mem_values hv).mp h)
  obtain ⟨hfact, -, hmem⟩ := liveDatom_some hd
  exact ⟨d, hmem, congrArg (·.2.2) hfact⟩

/-- What the recorded values and the operations' values all satisfy, and every reference
    does, an accepted transaction's values satisfy. -/
theorem prepare_values {K : Value → Prop}
    (hv : db.view = .current) (href : ∀ v, Value.isRef v = true → K v) (hdb : ∀ d ∈ db.recorded, K d.v)
    (hops : ∀ op ∈ expandItems items, ∀ v ∈ opValues op, K v) (h : prepare db items tx n = .ok r) :
    ∀ d ∈ r.datoms, K d.v := by
  obtain ⟨-, ⟨p, hp, hds⟩, -⟩ := prepare_ok h
  rw [hds]
  suffices hinv : p.working.view = .current ∧ (∀ d ∈ p.working.recorded, K d.v) ∧ ∀ d ∈ p.datoms, K d.v from hinv.2.2
  refine foldlM_inv (P := fun p => p.working.view = .current ∧ (∀ d ∈ p.working.recorded, K d.v) ∧
    ∀ d ∈ p.datoms, K d.v) ?_ ⟨hv, hdb, nofun⟩ hp
  intro op hop p p' hinv hstep
  obtain ⟨hview, hrec, hdatoms⟩ := hinv
  obtain ⟨ds, hadv, hvals⟩ := applyOp_values hview hstep
  obtain ⟨ds', heff, hadv'⟩ := applyOp_effect hview hstep
  obtain rfl : ds = ds' := List.append_cancel_left (hadv.datoms.symm.trans hadv'.datoms)
  have hfollows := heff.follows hadv.working
  have hnew : ∀ d ∈ ds, K d.v := by
    intro d hd
    rcases hvals d hd with hv | hv | hv
    · exact hops op hop _ hv
    · exact href _ hv
    · obtain ⟨d', hd', heq⟩ := exists_recorded_of_mem_values hview hv
      exact heq ▸ hrec d' hd'
  refine ⟨hfollows.view.trans hview, fun d hd => ?_, fun d hd => ?_⟩
  · rw [hfollows.recorded] at hd
    exact (List.mem_append.mp hd).elim (hrec d) (hnew d)
  · rw [hadv.datoms] at hd
    exact (List.mem_append.mp hd).elim (hdatoms d) (hnew d)

end Corium.Tx
