/-
  Corium.Transactor.MergeRuns — runs of accepted transactions, and their net
  effects.

  `squash` reads no database: it relies on a transaction recording an assertion
  only of an absent fact and a retraction only of a live one. `Tells` is that
  reliance for one fact, `Runs.tells` shows every run meets it, and so a run's
  novelty is the difference between the value it starts from and the one it leaves
  (`Runs.mem_asserts`, `Runs.mem_retracts`).
-/

import Corium.Db.Cached
import Corium.Transactor.Log
import Corium.Tx.Merge

namespace Corium.Transactor

open Corium.Core Corium.Lib Corium.Tx Bootstrap

/-! ## Runs -/

/-- The blocks leased along with a transaction: pairs that held nothing, each given one value. -/
structure LeasedWith (before : List Datom) (ds : List Datom) : Prop where
  added : ∀ d ∈ ds, d.added = true
  attr : ∀ d ∈ ds, d.a = sagaIdGrants ∨ Saga.isGrantAttribute d.a = true
  fresh : ∀ d ∈ ds, ∀ v, holds before (d.e, d.a, v) = false
  once : (ds.map fun d => (d.e, d.a)).Nodup

/-- From `db` through accepted transactions to `w`, recording `ds`; names may be interned on the way. -/
inductive Runs (db : Db) : List Datom → Db → Prop where
  | refl : Runs db [] db
  | named {ds : List Datom} {w : Db} {interner : KeywordInterner} : Runs db ds w → w.interner.Extends interner →
      Runs db ds { w with interner }
  | step {ds leased : List Datom} {w : Db} {items : List TxItem} {t n : Nat} {instant : Int64} {r : PreparedTx} :
      Runs db ds w → prepare w items (txId t) n = .ok r → LeasedWith (w.recorded ++ r.datoms) leased →
      Runs db (ds ++ recordedAt t instant (r.datoms ++ leased)) (w.withTransactionAt t instant (r.datoms ++ leased))

/-- What a run adds to the record, apart from the instant on a transaction entity. -/
theorem recordedAt_cases (t : Nat) (instant : Int64) (datoms : List Datom) :
    ∃ stamp, recordedAt t instant datoms = datoms ++ stamp ∧ ∀ d ∈ stamp, d = txInstantDatom t instant := by
  unfold recordedAt
  split
  · exact ⟨[], by simp, by simp⟩
  · exact ⟨_, rfl, by simp⟩

variable {d : Datom}
variable {before leased : List Datom} {t : Nat} {w' : Db} {tx : TxId}

theorem names_of_leasedWith {ds : List Datom} (h : LeasedWith before ds) (hd : d ∈ ds)
    (hs : isSchemaAttribute d.a = true) : d.a = ident := by
  rcases h.attr d hd with ha | ha
  · rw [ha] at hs
    exact absurd hs (by decide)
  · simp only [Saga.isGrantAttribute, List.mem_cons, List.not_mem_nil, or_false, decide_eq_true_eq] at ha
    rcases ha with ha | ha | ha <;> (rw [ha] at hs; exact absurd hs (by decide))

theorem withTransactionAt_stands (db : Db) (t : Nat) (instant : Int64) {ds : List Datom}
    (h : ∀ d ∈ ds, isSchemaAttribute d.a = true → d.a = ident) :
    StandsFor db (recordedAt t instant ds) (db.withTransactionAt t instant ds) := by
  unfold recordedAt Db.withTransactionAt
  cases assertedInstant t ds with
  | some _ => exact ⟨rfl, db.applyTransaction_schema_of_only_idents t h, rfl, KeywordInterner.Extends.refl _⟩
  | none =>
    refine ⟨rfl, db.applyTransaction_schema_of_only_idents t fun d hd hs => ?_, rfl, KeywordInterner.Extends.refl _⟩
    rcases List.mem_append.mp hd with hd | hd
    · exact h d hd hs
    · rw [List.mem_singleton.mp hd] at hs
      exact absurd hs (by decide : ¬ isSchemaAttribute txInstant = true)

variable {items : List TxItem} {r : PreparedTx} {n : Nat}

/-- An accepted transaction's step, as the value stands for it. -/
theorem step_stands {w : Db} (hv : w.view = .current) (h : prepare w items (txId t) n = .ok r)
    (hl : LeasedWith (w.recorded ++ r.datoms) leased) (instant : Int64) :
    StandsFor w (recordedAt t instant (r.datoms ++ leased)) (w.withTransactionAt t instant (r.datoms ++ leased)) := by
  refine withTransactionAt_stands w t instant fun d hd hs => ?_
  rcases List.mem_append.mp hd with hd | hd
  · obtain ⟨w', heff⟩ := prepare_effects hv h
    exact ident_of_writable (heff.mem hd).2 hs
  · exact names_of_leasedWith hl hd hs

theorem Runs.stands {db w : Db} {ds : List Datom} (hv : db.view = .current) (h : Runs db ds w) : StandsFor db ds w := by
  induction h with
  | refl => exact .refl db
  | named _ hext ih => exact ⟨ih.recorded, ih.schema, ih.view, ih.interner.trans hext⟩
  | step _ hprep hl ih => exact ih.trans (step_stands (ih.view.trans hv) hprep hl _)

/-! ## Values transactions leave -/

/-- What a retraction checks of a fact, apart from who may write it. -/
def Retractable (schema : Schema) (f : Fact) : Prop :=
  (∃ attr, schema.get f.2.1 = some attr ∧ f.2.2.hasType attr.valueType = true) ∧
    ∀ s, f.2.2 = .sealed s → s.cls ∈ (schema.protectionOf f.2.1).classes

/-- Ordinary facts of a value transactions leave: typed, in a form their attribute has
    had, one per pair where the attribute says so. -/
structure Ordered (db : Db) : Prop where
  view : db.view = .current
  one : ∀ e a, e.inPartition .tx = false → OneAt db e a
  retractable : ∀ f, db.Holds f → f.1.inPartition .tx = false → Saga.isRegistryAttribute f.2.1 = false →
    Retractable db.schema f

/-- What an assertion checks of a fact, apart from who holds it. -/
structure Assertable (db : Db) (f : Fact) : Prop where
  write : writableByTransaction f.1 f.2.1 = true
  installed : ∃ attr, db.schema.get f.2.1 = some attr ∧ f.2.2.hasType attr.valueType = true
  form : validateAssertionForm db f.2.1 f.2.2 = .ok ()
  notRetired : db.schema.isRetired f.2.1 = false

theorem validateAssertionForm_congr {w : Db} (h : w.schema = w'.schema) (a : AttrId) (v : Value) :
    validateAssertionForm w a v = validateAssertionForm w' a v := by
  unfold validateAssertionForm
  rw [h]

theorem Assertable.congr {w : Db} {f : Fact} (hs : w.schema = w'.schema) (h : Assertable w f) : Assertable w' f :=
  ⟨h.write, hs ▸ h.installed, (validateAssertionForm_congr hs _ _).symm.trans h.form, hs ▸ h.notRetired⟩

theorem mem_classes_of_current {p : ProtectionTimeline} {cls : EntityId} (h : p.current = some cls) : cls ∈ p.classes := by
  obtain ⟨entry, hlast, hcls⟩ := Option.bind_eq_some_iff.mp h
  exact List.mem_filterMap.mpr ⟨entry, List.mem_of_getLast? hlast, hcls⟩

theorem Assertable.retractable {db : Db} {f : Fact} (h : Assertable db f) : Retractable db.schema f := by
  refine ⟨h.installed, fun s hs => ?_⟩
  have hform := h.form
  rw [hs] at hform
  unfold validateAssertionForm at hform
  cases hcurrent : (db.schema.protectionOf f.2.1).current with
  | none =>
    rw [hcurrent] at hform
    cases hform
  | some cls =>
    simp only [hcurrent] at hform
    have hcls : s.cls = cls := by
      by_contra hne
      rw [if_neg fun hand => hne hand.1] at hform
      cases hform
    exact hcls ▸ mem_classes_of_current hcurrent

/-- What an operation asserts has passed the checks of an assertion. -/
theorem OpEffect.assertable {w : Db} {ds : List Datom} (h : OpEffect tx w ds) (hd : d ∈ ds)
    (hadded : d.added = true) : Assertable w d.fact := by
  have hreplace : ∀ {e a old v}, Assertable w (e, a, v) → d ∈ replaceDatoms tx e a old v → Assertable w d.fact := by
    intro e a old v hok hd
    rcases List.mem_append.mp hd with hd | hd
    · obtain ⟨v', -, rfl⟩ := List.mem_map.mp hd
      cases hadded
    · rw [List.mem_singleton.mp hd]
      exact hok
  cases h with
  | nothing => cases hd
  | add g =>
    rw [addDatoms_eq] at hd
    exact hreplace ⟨g.write, ⟨_, g.installed, g.type⟩, g.form, g.notRetired⟩ hd
  | retract =>
    rw [List.mem_singleton.mp hd] at hadded
    cases hadded
  | cas g => exact hreplace ⟨g.write, ⟨_, g.installed, g.type⟩, g.form, g.notRetired⟩ hd
  | retractEntity =>
    obtain ⟨f, -, rfl⟩ := List.mem_map.mp hd
    cases hadded

theorem Effects.assertable {w : Db} {ds : List Datom} (h : Effects tx w ds w') (hd : d ∈ ds)
    (hadded : d.added = true) : Assertable w d.fact := by
  induction h with
  | refl => cases hd
  | step hchain heff _ ih =>
    rcases List.mem_append.mp hd with hd | hd
    · exact ih hd
    · exact (OpEffect.assertable heff hd hadded).congr hchain.follows.schema

/-- Away from its own entity a transaction writes no instant. -/
theorem Effects.not_instant {w : Db} {ds : List Datom} (h : Effects tx w ds w') (hd : d ∈ ds)
    (he : d.e ≠ tx) : d.a ≠ txInstant := by
  induction h with
  | refl => cases hd
  | step _ heff _ ih =>
    rcases List.mem_append.mp hd with hd | hd
    · exact ih hd
    have hreplace : ∀ {e a old v}, (a = txInstant → e = tx) → d ∈ replaceDatoms tx e a old v →
        d.a ≠ txInstant := by
      intro e a old v hinstant hd ha
      rcases List.mem_append.mp hd with hd | hd
      · obtain ⟨v', -, rfl⟩ := List.mem_map.mp hd
        exact he (hinstant ha)
      · rw [List.mem_singleton.mp hd] at ha he
        exact he (hinstant ha)
    cases heff with
    | nothing => cases hd
    | add g =>
      rw [addDatoms_eq] at hd
      exact hreplace g.instant hd
    | retract _ hinstant =>
      rw [List.mem_singleton.mp hd]
      exact hinstant
    | cas g => exact hreplace (fun ha => absurd ha g.instant) hd
    | retractEntity _ hinstant =>
      obtain ⟨f, hf, rfl⟩ := List.mem_map.mp hd
      exact hinstant f hf

/-! ## What a run records -/

/-- An ordinary datom: not on a transaction entity, not of the registry. -/
def Ordinary (d : Datom) : Prop := d.e.inPartition .tx = false ∧ Saga.isRegistryAttribute d.a = false

theorem inPartition_txId (t : Nat) : (txId t).inPartition .tx = true := by
  simp [txId, EntityId.inPartition, EntityId.new_partition t Partition.tx.id_lt]

theorem not_ordinary_of_leasedWith {ds : List Datom} (h : LeasedWith before ds) (hd : d ∈ ds) : ¬ Ordinary d := by
  rintro ⟨-, hreg⟩
  rcases h.attr d hd with ha | ha
  · rw [ha] at hreg
    exact absurd hreg (by decide)
  · simp [Saga.isRegistryAttribute, ha] at hreg

/-- An ordinary datom of a step is one its transaction prepared. -/
theorem mem_prepared_of_ordinary {instant : Int64} {prepared : List Datom}
    (hl : LeasedWith before leased) (hd : d ∈ recordedAt t instant (prepared ++ leased)) (ho : Ordinary d) :
    d ∈ prepared := by
  obtain ⟨stamp, hrec, hstamp⟩ := recordedAt_cases t instant (prepared ++ leased)
  rw [hrec] at hd
  rcases List.mem_append.mp hd with hd | hd
  · rcases List.mem_append.mp hd with hd | hd
    · exact hd
    · exact absurd ho (not_ordinary_of_leasedWith hl hd)
  · have htx := ho.1
    rw [hstamp d hd] at htx
    rw [show (txInstantDatom t instant).e = txId t from rfl, inPartition_txId] at htx
    cases htx

namespace Runs

variable {db w : Db} {ds : List Datom}

/-- What a run asserts of ordinary facts has passed the checks of an assertion. -/
theorem assertable (hv : db.view = .current) (h : Runs db ds w) {d : Datom} (hd : d ∈ ds) (ho : Ordinary d)
    (hadded : d.added = true) : Assertable db d.fact := by
  induction h with
  | refl => cases hd
  | named _ _ ih => exact ih hd
  | step hrun hprep hl ih =>
    rcases List.mem_append.mp hd with hd | hd
    · exact ih hd
    · have hs := hrun.stands hv
      obtain ⟨w', heff⟩ := prepare_effects (hs.view.trans hv) hprep
      exact (Effects.assertable heff (mem_prepared_of_ordinary hl hd ho) hadded).congr hs.schema

/-- What a run writes of ordinary facts an ordinary transaction may write, and it is no instant. -/
theorem writes (hv : db.view = .current) (h : Runs db ds w) {d : Datom} (hd : d ∈ ds) (ho : Ordinary d) :
    writableByTransaction d.e d.a = true ∧ d.a ≠ txInstant := by
  induction h with
  | refl => cases hd
  | named _ _ ih => exact ih hd
  | @step _ _ _ _ t _ _ _ hrun hprep hl ih =>
    rcases List.mem_append.mp hd with hd | hd
    · exact ih hd
    · obtain ⟨w', heff⟩ := prepare_effects ((hrun.stands hv).view.trans hv) hprep
      have hmem := mem_prepared_of_ordinary hl hd ho
      refine ⟨(heff.mem hmem).2, Effects.not_instant heff hmem fun he => ?_⟩
      have htx := ho.1
      rw [he, inPartition_txId] at htx
      cases htx

end Runs

/-! ### Leases and instants -/

theorem LeasedWith.tells {ds : List Datom} (h : LeasedWith before ds) (f : Fact) : Tells before ds f := by
  intro b hb
  obtain ⟨d, hd, rfl⟩ := Option.map_eq_some_iff.mp hb
  have hmem := List.mem_of_find?_eq_some hd
  obtain rfl : d.fact = f := by simpa using List.find?_some hd
  rw [h.added d hmem, show d.fact = (d.e, d.a, d.v) from rfl, h.fresh d hmem d.v]
  rfl

/-- A leased pair held nothing and gets one value. -/
theorem LeasedWith.one {ds : List Datom} (h : LeasedWith before ds) {e : EntityId} {a : AttrId}
    (hone : ∀ v v', holds before (e, a, v) = true → holds before (e, a, v') = true → v = v') {v v' : Value}
    (hv : holds (before ++ ds) (e, a, v) = true) (hv' : holds (before ++ ds) (e, a, v') = true) : v = v' := by
  have hfresh : ∀ d ∈ ds, ∀ {x y}, d.fact = (e, a, x) → holds before (e, a, y) = true → False := by
    intro d hd x y hd' hy
    have := h.fresh d hd y
    rw [show d.e = e from congrArg (·.1) hd', show d.a = a from congrArg (·.2.1) hd', hy] at this
    cases this
  rcases holds_append_cases hv with ⟨d, hd, hdf, -⟩ | ⟨hold, -⟩ <;>
    rcases holds_append_cases hv' with ⟨d', hd', hdf', -⟩ | ⟨hold', -⟩
  · have hpair : (d.e, d.a) = (d'.e, d'.a) := by
      rw [show d.e = e from congrArg (·.1) hdf, show d.a = a from congrArg (·.2.1) hdf,
        show d'.e = e from congrArg (·.1) hdf', show d'.a = a from congrArg (·.2.1) hdf']
    have heq : d = d' := List.inj_on_of_nodup_map h.once hd hd' hpair
    subst heq
    exact congrArg (·.2.2) (hdf.symm.trans hdf')
  · exact (hfresh d hd hdf hold').elim
  · exact (hfresh d' hd' hdf' hold).elim
  · exact hone v v' hold hold'

/-- One step of a run tells the truth of a fact and keeps its pair to its cardinality. -/
theorem step_tells {w : Db} (hv : w.view = .current) (h : prepare w items (txId t) n = .ok r)
    (hl : LeasedWith (w.recorded ++ r.datoms) leased) (instant : Int64) {f : Fact} (hf : f.1.inPartition .tx = false)
    (hone : OneAt w f.1 f.2.1) : Tells w.recorded (recordedAt t instant (r.datoms ++ leased)) f ∧
      OneAt (w.withTransactionAt t instant (r.datoms ++ leased)) f.1 f.2.1 := by
  obtain ⟨w', heff⟩ := prepare_effects hv h
  obtain ⟨htells, hone'⟩ := heff.tells hv hone
  have hstands := step_stands hv h hl instant
  obtain ⟨stamp, hrec, hstamp⟩ := recordedAt_cases t instant (r.datoms ++ leased)
  -- the stamp is on a transaction entity
  have hne : ∀ e a v, e.inPartition .tx = false → ∀ d ∈ stamp, d.fact ≠ (e, a, v) := by
    intro e a v he d hd hfact
    have hde : d.e = e := congrArg (·.1) hfact
    rw [hstamp d hd] at hde
    rw [← hde, show (txInstantDatom t instant).e = txId t from rfl, inPartition_txId] at he
    cases he
  constructor
  · rw [hrec]
    exact (htells.append (hl.tells f)).append (tells_of_ne (hne f.1 f.2.1 f.2.2 hf))
  · intro attr hattr hcard v v' hvv hvv'
    rw [hstands.schema] at hattr
    rw [Db.Holds, hstands.recorded, hrec, ← List.append_assoc, holds_append_of_ne (hne _ _ _ hf), ← List.append_assoc]
      at hvv hvv'
    refine hl.one (fun x x' hx hx' => ?_) hvv hvv'
    rw [← heff.follows.recorded] at hx hx'
    exact hone' attr (heff.follows.schema ▸ hattr) hcard x x' hx hx'

namespace Runs

variable {db w : Db} {ds : List Datom}
variable {f : Fact}

theorem tells (ho : Ordered db) (h : Runs db ds w) (hf : f.1.inPartition .tx = false) :
    Tells db.recorded ds f ∧ OneAt w f.1 f.2.1 := by
  induction h with
  | refl => exact ⟨tells_of_ne nofun, ho.one _ _ hf⟩
  | named _ _ ih => exact ih
  | step hrun hprep hl ih =>
    have hstands := hrun.stands ho.view
    obtain ⟨htells, hone⟩ := step_tells (hstands.view.trans ho.view) hprep hl _ hf ih.2
    rw [hstands.recorded] at htells
    exact ⟨ih.1.append htells, hone⟩

/-- A run's novelty is what it changed. -/
theorem mem_asserts (ho : Ordered db) (h : Runs db ds w) :
    f ∈ (squash ds).asserts ↔ f.1.inPartition .tx = false ∧ ¬ db.Holds f ∧ w.Holds f := by
  rw [mem_squash.1]
  constructor
  · intro hnet
    obtain ⟨hf, hbefore, hafter⟩ := ((h.tells ho hnet.1).1.netWord_iff true).mp hnet
    rw [← (h.stands ho.view).recorded] at hafter
    exact ⟨hf, Bool.eq_false_iff.mp hbefore, hafter⟩
  · rintro ⟨hf, hbefore, hafter⟩
    rw [Db.Holds, (h.stands ho.view).recorded] at hafter
    exact ((h.tells ho hf).1.netWord_iff true).mpr ⟨hf, Bool.eq_false_iff.mpr hbefore, hafter⟩

theorem mem_retracts (ho : Ordered db) (h : Runs db ds w) :
    f ∈ (squash ds).retracts ↔ f.1.inPartition .tx = false ∧ db.Holds f ∧ ¬ w.Holds f := by
  rw [mem_squash.2]
  constructor
  · intro hnet
    obtain ⟨hf, hbefore, hafter⟩ := ((h.tells ho hnet.1).1.netWord_iff false).mp hnet
    rw [← (h.stands ho.view).recorded] at hafter
    exact ⟨hf, hbefore, Bool.eq_false_iff.mp hafter⟩
  · rintro ⟨hf, hbefore, hafter⟩
    rw [Db.Holds, (h.stands ho.view).recorded] at hafter
    exact ((h.tells ho hf).1.netWord_iff false).mpr ⟨hf, hbefore, Bool.eq_false_iff.mpr hafter⟩

/-- A net fact was recorded. -/
theorem exists_of_netWord {b : Bool} (h : NetWord ds f b) : ∃ d ∈ ds, d.fact = f ∧ d.added = b := by
  obtain ⟨d, hd, hb⟩ := Option.map_eq_some_iff.mp h.2.2
  exact ⟨d, mem_of_lastOn hd, key_of_lastOn hd, hb⟩

/-- A run leaves the ordinary facts of a value in order. -/
theorem ordered (ho : Ordered db) (h : Runs db ds w) : Ordered w := by
  have hstands := h.stands ho.view
  refine ⟨hstands.view.trans ho.view, fun e a he => (h.tells ho (f := (e, a, .bool true)) he).2, fun f hf htx hreg => ?_⟩
  rw [hstands.schema]
  rw [Db.Holds, hstands.recorded] at hf
  rcases holds_append_cases hf with ⟨d, hd, rfl, hadded⟩ | ⟨hold, -⟩
  · exact (h.assertable ho.view hd ⟨htx, hreg⟩ hadded).retractable
  · exact ho.retractable f hold htx hreg

end Runs

end Corium.Transactor
