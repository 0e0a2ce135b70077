/-
  Corium.Transactor.SagaGuards — what a merge carries and what it was held to.

  A commit waits for the branch's lock, so it reads a branch that has every
  acknowledged step, and none is acknowledged once the saga is committed: the merge
  carries all of them (`a_merge_carries_every_step`). It evaluates the guards that the
  branch still holds. A later step may retract an earlier one's guard, and the merge is
  then made although the guard fails (`a_retracted_guard_is_not_evaluated`).
-/

import Corium.Transactor.Publish
import Corium.Transactor.SagaEnds

namespace Corium.Transactor

open Corium.Core Corium.Lib Corium.Tx Bootstrap List

/-- A step put the guard on a transaction of the branch. -/
def Declared (basisT : Nat) (steps : List TxRecord) (tx : EntityId) (text : String) : Prop :=
  ∃ d ∈ logDatoms steps, d.added = true ∧ d.fact = (tx, sagaGuard, .str text) ∧ tx.inPartition .tx = true ∧
    basisT < tx.sequence

instance (basisT : Nat) (steps : List TxRecord) (tx : EntityId) (text : String) : Decidable (Declared basisT steps tx text) :=
  inferInstanceAs (Decidable (∃ d ∈ logDatoms steps, d.added = true ∧ d.fact = (tx, sagaGuard, .str text) ∧
    tx.inPartition .tx = true ∧ basisT < tx.sequence))

/-- No transaction loses a guard. -/
def KeepsGuards (ds : List Datom) : Prop :=
  ∀ d ∈ ds, d.a = sagaGuard → d.e.inPartition .tx = true → d.added = true

/-- No transaction gives another entity the saga's id, and no step retracts a guard. -/
def guarded {Form : Type} (id : BitVec 128) : Admits Form where
  record := fun r => KeepsId id r.datoms
  step := fun r => KeepsGuards r.datoms

/-! ## The branch at a merge -/

/-- What was said and not retracted holds. -/
theorem holds_append_of_asserted (xs : List Datom) {ys : List Datom} {f : Fact} {d : Datom} (hd : d ∈ ys) (hfact : d.fact = f)
    (hys : ∀ d ∈ ys, d.fact = f → d.added = true) : holds (xs ++ ys) f = true := by
  rw [holds, liveDatom_append]
  cases hl : lastDatom ys f with
  | none => exact absurd hfact (lastOn_eq_none_iff.mp hl d hd)
  | some d' => simp [hys d' (mem_of_lastOn hl) (key_of_lastOn hl)]

theorem Grows.basisT {old db : Db} {tail : List TxRecord} (h : Grows old tail db) : db.basisT = old.basisT + tail.length := by
  induction h with
  | refl => rfl
  | naming _ _ _ ih => exact ih
  | apply _ hr ht ih =>
    rw [applyRecord_basisT hr, ht, ih, length_append, length_singleton]
    omega

theorem transactStep_ok {s s' : State} {items : List TxItem} {nowMs : Int64} {rules : BranchRules} {record : TxRecord}
    {tempids : Tempids} (h : transactStep s items nowMs rules = .ok (record, tempids, s')) :
    transact s items nowMs = .ok (record, tempids, s') := by
  unfold transactStep at h
  simp only [bind_eq_ok, mapError_ok] at h
  obtain ⟨_, -, h⟩ := h
  exact h

/-- A guard the branch holds is one a commit evaluates. -/
theorem mem_branchGuards {branch : Db} (hv : branch.view = .current) {basisT : Nat} {tx : EntityId} {text : String}
    (hheld : branch.Holds (tx, sagaGuard, .str text)) (htx : tx.inPartition .tx = true) (hseq : basisT < tx.sequence) :
    ⟨some tx.sequence, text⟩ ∈ branchGuards branch basisT := by
  obtain ⟨d, hlive⟩ := holds_iff.mp hheld
  have hfact : d.fact = (tx, sagaGuard, .str text) := (liveDatom_some hlive).1
  have hmem : d ∈ Saga.datomsForAttribute branch sagaGuard := by
    refine (Db.mem_datomsPrefix (Db.showsLive_of_current hv) (selects_attribute _)).mpr ⟨congrArg (·.2.1) hfact, rfl, ?_⟩
    rw [Db.mem_live_iff hv, hfact]
    exact hlive
  unfold branchGuards
  refine mem_map.mpr ⟨(tx.sequence, text), ?_, rfl⟩
  rw [Std.ExtTreeSet.mem_toList, Std.ExtTreeSet.mem_ofList, contains_iff_mem]
  refine mem_filterMap.mpr ⟨d, hmem, ?_⟩
  rw [show d.e = tx from congrArg (·.1) hfact, if_pos ⟨htx, hseq⟩, show d.v = .str text from congrArg (·.2.2) hfact]
  rfl

/-- The basis an entry opened at is the one its entity holds. -/
theorem Owned.opening_basis {schema : Schema} {id : BitVec 128} {saga : EntityId} {db : Db} (h : Owned schema id saga db)
    {b : Int64} (hb : db.Holds (saga, sagaBasisT, .long b)) {entry : Saga.SagaEntry} (hentry : Saga.entry db id = some entry)
    {t : Nat} (ht : openingBasis entry = .ok t) : b.toInt = t := by
  obtain ⟨entry', hentry', hat, -⟩ := h.entry
  cases hentry.symm.trans hentry'
  have hbasis : entry.basisT = some b := by
    obtain ⟨_, -, rfl⟩ := Option.map_eq_some_iff.mp hat
    exact field_eq h.view hb (fun v' hv' => h.one_of_kept (by decide) hv' hb) Saga.long
  unfold openingBasis at ht
  rw [hbasis, Option.bind_some] at ht
  split at ht
  · rename_i n hn
    cases ht
    exact Int.mem_toNat?.mp hn
  · cases ht

/-! ## Runs -/

/-- What is to be said of a merge: it carries the steps' net effect, but for the units
    resolved to the parent, and every guard held of the value it was applied to. -/
structure Carried {Form : Type} (rt : Runtime Form) (basisT : Nat) (s : SagaNode Form) (m : Merge) : Prop where
  novelty : ∃ names, translate (squash (logDatoms s.steps)) names m.before.db.interner = .ok (m.novelty, m.names)
  settled : m.resolved.outstanding = [] ∧ m.resolved.rejected = []
  declared : ∀ tx text, Declared basisT s.steps tx text → rt.evaluate m.against text = true
  asked : ∀ text ∈ m.requested, rt.evaluate m.against text = true
  /-- The transaction, on that value. -/
  applied : ∃ entry nowMs tempids after, transact (m.before.withNames (m.names.intern committedKeyword).2)
    (commitItems entry (m.names.intern committedKeyword).1 m.applied) nowMs = .ok (m.record, tempids, after)
  recorded : m.record ∈ s.log

/-- What every step keeps of the node whose branch grows out of `base`. -/
structure CarriesSteps {Form : Type} (rt : Runtime Form) (schema : Schema) (id : BitVec 128) (saga : EntityId) (base : Db)
    (s : SagaNode Form) : Prop where
  owned : Owned schema id saga s.parent.db
  basis : ∃ b : Int64, s.parent.db.Holds (saga, sagaBasisT, .long b) ∧ b.toInt = base.basisT
  branch : ∀ b, s.branch = some b → Grows base s.steps b.db
  guards : ∀ b, s.branch = some b → ∀ tx text, Declared base.basisT s.steps tx text →
    b.db.Holds (tx, sagaGuard, .str text)
  /-- No batch of steps starts on a committed saga. -/
  merged : s.merges ≠ [] → s.batch = none ∧ HoldsStatus s.parent.db saga .committed
  carried : ∀ m ∈ s.merges, Carried rt base.basisT s m

section Runs

variable {Form : Type} {rt : Runtime Form} {schema : Schema} {id : BitVec 128} {saga : EntityId} {base : Db}
  {s s' : SagaNode Form}

theorem Carried.extend {basisT : Nat} {m : Merge} (h : Carried rt basisT s m) (hsteps : s'.steps = s.steps)
    (hlog : ∀ r ∈ s.log, r ∈ s'.log) : Carried rt basisT s' m :=
  ⟨hsteps ▸ h.novelty, h.settled, hsteps ▸ h.declared, h.asked, h.applied, hlog _ h.recorded⟩

/-- The parent moves on. -/
theorem CarriesSteps.advance (h : CarriesSteps rt schema id saga base s) {parent : State} {log : List TxRecord}
    (ho : Owned schema id saga parent.db)
    (hb : ∀ v, parent.db.Holds (saga, sagaBasisT, v) ↔ s.parent.db.Holds (saga, sagaBasisT, v))
    (hf : Finishes saga s.parent.db parent.db) (hlog : ∀ r ∈ s.log, r ∈ log) :
    CarriesSteps rt schema id saga base { s with parent, log } := by
  obtain ⟨b, hheld, heq⟩ := h.basis
  refine ⟨ho, ⟨b, (hb _).mpr hheld, heq⟩, h.branch, h.guards, fun hm => ?_, fun m hm => (h.carried m hm).extend rfl hlog⟩
  obtain ⟨hbatch, hst⟩ := h.merged hm
  exact ⟨hbatch, (hf.stays h.owned hst (by decide) _).mpr hst⟩

theorem CarriesSteps.transact (h : CarriesSteps rt schema id saga base s) {items : List TxItem} {nowMs : Int64}
    {record : TxRecord} {tempids : Tempids} {parent : State}
    (ht : Corium.Transactor.transact s.parent items nowMs = .ok (record, tempids, parent)) (hid : KeepsId id record.datoms) :
    CarriesSteps rt schema id saga base { s with parent, log := s.log ++ [record] } := by
  obtain ⟨ho, hf⟩ := h.owned.transact ht hid
  exact h.advance ho (h.owned.transact_fixed ht (by decide)) hf fun r hr => mem_append_left _ hr

theorem CarriesSteps.naming (h : CarriesSteps rt schema id saga base s) {names : KeywordInterner}
    (hext : s.parent.db.interner.Extends names) :
    CarriesSteps rt schema id saga base { s with parent := s.parent.withNames names } := by
  obtain ⟨ho, hst⟩ := h.owned.names hext
  exact h.advance ho (fun _ => Iff.rfl) (.inl hst) fun _ hr => hr

/-- While the saga is open nothing was merged. -/
theorem CarriesSteps.nothing_merged (h : CarriesSteps rt schema id saga base s) (hopen : HoldsStatus s.parent.db saga .opened) :
    s.merges = [] := by
  by_contra hm
  exact absurd (h.owned.status_unique (h.merged hm).2 hopen) (by decide)

/-- A step adds to the branch, and its guards stay. -/
theorem CarriesSteps.branch_step (h : CarriesSteps rt schema id saga base s) (hv : base.view = .current) {rules : BranchRules}
    {b b' : State} {items : List TxItem} {nowMs : Int64} {record : TxRecord} {tempids : Tempids} (hbatch : s.batch = some rules)
    (hb : s.branch = some b) (hstep : transactStep b items nowMs rules = .ok (record, tempids, b'))
    (hkeeps : KeepsGuards record.datoms) :
    CarriesSteps rt schema id saga base { s with branch := some b', steps := s.steps ++ [record] } := by
  obtain ⟨prepared, leased, hc⟩ := transact_ok (transactStep_ok hstep)
  have hgrows := h.branch b hb
  have hview : b.db.view = .current := hgrows.grown.view.trans hv
  have hsound := hc.sound hview
  have hnone : s.merges = [] := by
    by_contra hm
    rw [(h.merged hm).1] at hbatch
    cases hbatch
  have hrecorded : b'.db.recorded = b.db.recorded ++ record.datoms := by
    rw [hc.db]
    exact (applyRecord_stands hsound b.db).recorded
  refine ⟨h.owned, h.basis, fun c hc' => ?_, fun c hc' tx text hdeclared => ?_, fun hm => absurd hnone hm, fun m hm => ?_⟩
  · cases hc'
    rw [hc.db]
    exact .apply hgrows hsound.toSealedRecord hc.t
  · cases hc'
    obtain ⟨d, hd, hadded, hfact, htx, hseq⟩ := hdeclared
    rw [Db.Holds, hrecorded]
    rw [logDatoms_append] at hd
    -- whether this step or an earlier one declared it, this step does not retract it
    have hstays : ∀ x ∈ record.datoms, x.fact = (tx, sagaGuard, .str text) → x.added = true := by
      intro x hx hf
      exact hkeeps x hx (congrArg (·.2.1) hf) (by rw [show x.e = tx from congrArg (·.1) hf]; exact htx)
    rcases mem_append.mp hd with hd | hd
    · exact holds_append_of_not_retracted (h.guards b hb tx text ⟨d, hd, hadded, hfact, htx, hseq⟩) hstays
    · rw [logDatoms, flatMap_singleton] at hd
      exact holds_append_of_asserted _ hd hfact hstays
  · rw [hnone] at hm
    cases hm

theorem CarriesSteps.merge (h : CarriesSteps rt schema id saga base s) (hv : base.view = .current) (hdated : Dated base)
    {b parent : State} {requested : List String} {nowMs : Int64} {m : Merge} {entry : Saga.SagaEntry} {basisT : Nat}
    (hbatch : s.batch = none) (hb : s.branch = some b) (hm : Merged rt s.parent parent b.db id requested nowMs m entry basisT)
    (hid : KeepsId id m.record.datoms) (hlen : parent.db.interner.len ≤ 2 ^ 64)
    (hseq : base.basisT + s.steps.length < sequenceLimit) :
    CarriesSteps rt schema id saga base { s with parent, log := s.log ++ [m.record], merges := s.merges ++ [m] } := by
  have hgrows := h.branch b hb
  have hview : b.db.view = .current := hgrows.grown.view.trans hv
  obtain ⟨t, hheld, ht⟩ := h.basis
  have hbasis : basisT = base.basisT := by
    have := (h.owned.opening_basis hheld hm.found hm.basis).symm.trans ht
    exact Int.ofNat.inj this
  have hsince : b.db.recordedSince basisT = logDatoms s.steps := by
    rw [hbasis]
    exact hgrows.grown.recordedSince hdated (by rw [hgrows.basisT]; exact hseq)
  obtain ⟨ho, hopen, hcommitted⟩ := h.owned.merge hm hid hlen
  obtain ⟨tempids, htransact⟩ := hm.record
  have hnext := (h.naming ((translate_extends hm.novelty).trans (m.names.intern_extends committedKeyword))).transact
    htransact hid
  refine ⟨hnext.owned, hnext.basis, h.branch, h.guards, fun _ => ⟨hbatch, hcommitted⟩, fun m' hm' => ?_⟩
  rw [h.nothing_merged hopen, nil_append, mem_singleton] at hm'
  subst hm'
  refine ⟨⟨b.db.interner, ?_⟩, hm.resolved, fun tx text hdeclared => ?_, fun text htext => ?_,
    ⟨entry, nowMs, tempids, parent, ?_⟩, mem_append_right _ (mem_singleton_self _)⟩
  · rw [hm.before, ← hsince]
    exact hm.novelty
  · have ⟨_, _, _, _, htx, hlt⟩ := hdeclared
    exact hm.guards _ (mem_append_left _
      (mem_branchGuards hview (h.guards b hb tx text hdeclared) htx (hbasis ▸ hlt)))
  · rw [hm.asked] at htext
    exact hm.guards (.requested text) (mem_append_right _ (mem_map_of_mem htext))
  · rw [hm.before]
    exact htransact

/-- Calls that touch none of what the invariant is about. -/
theorem CarriesSteps.aside (h : CarriesSteps rt schema id saga base s) (endings : List (Saga.SagaStatus × Intent Form))
    (released : Bool) (compensations : List Compensated) :
    CarriesSteps rt schema id saga base { s with endings, released, compensations } :=
  ⟨h.owned, h.basis, h.branch, h.guards, h.merged, fun m hm => (h.carried m hm).extend rfl fun _ hr => hr⟩

theorem CarriesSteps.step (h : CarriesSteps rt schema id saga base s) (hv : base.view = .current) (hdated : Dated base)
    (hs : NodeStep rt id (guarded id) s s') (hlen : s'.parent.db.interner.len ≤ 2 ^ 64)
    (hseq : base.basisT + s'.steps.length < sequenceLimit) : CarriesSteps rt schema id saga base s' := by
  cases hs with
  | transact ht hid => exact h.transact ht hid
  | naming hext => exact h.naming hext
  | @branchNaming b names hb _ =>
    refine ⟨h.owned, h.basis, fun c hc => ?_, fun c hc => ?_, h.merged, fun m hm => (h.carried m hm).extend rfl fun _ hr => hr⟩
    · cases hc
      exact .naming _ _ (h.branch b hb)
    · cases hc
      exact h.guards b hb
  | batch _ _ hrules =>
    obtain ⟨entry, hentry, hopen, -⟩ := stepRules_ok hrules
    obtain ⟨entry', hentry', -, -, -, hst⟩ := h.owned.entry
    cases hentry.symm.trans hentry'
    exact ⟨h.owned, h.basis, h.branch, h.guards, fun hm => absurd (h.nothing_merged ((hst _).mp hopen)) hm,
      fun m hm => (h.carried m hm).extend rfl fun _ hr => hr⟩
  | step hbatch hb hstep hkeeps => exact h.branch_step hv hbatch hb hstep hkeeps
  | unlock =>
    exact ⟨h.owned, h.basis, h.branch, h.guards, fun hm => ⟨rfl, (h.merged hm).2⟩,
      fun m hm => (h.carried m hm).extend rfl fun _ hr => hr⟩
  | refuse _ _ hc hid =>
    obtain ⟨items, tempids, ht⟩ := sagaCommit_refused hc
    exact h.transact ht hid
  | merge hbatch hb hc hid =>
    obtain ⟨entry, basisT, hm⟩ := sagaCommit_merged hc
    exact h.merge hv hdated hbatch hb hm hid hlen hseq
  | ask _ _ => exact h.aside _ s.released s.compensations
  | finish _ hfinish hid =>
    obtain ⟨entry, forms, onAbortError, -, -, hattempt, -⟩ := finish_ok hfinish
    obtain ⟨items, names, tempids, hitems, -, ht⟩ := finishAttempt_ok hattempt
    exact ((h.naming ((rt.items_extends _ _ _ _ hitems).trans (names.intern_extends _))).transact ht hid).aside
      s.endings s.released _
  | release _ _ _ => exact h.aside s.endings true s.compensations
  | discard _ =>
    refine ⟨h.owned, h.basis, fun c hc => ?_, fun c hc => ?_, fun hm => ⟨rfl, (h.merged hm).2⟩,
      fun m hm => (h.carried m hm).extend rfl fun _ hr => hr⟩
    · cases hc
    · cases hc

theorem NodeStep.steps_length {ok : Admits Form} (hs : NodeStep rt id ok s s') : s.steps.length ≤ s'.steps.length := by
  cases hs with
  | step => simp
  | _ => exact Nat.le_refl _

theorem NodeSteps.steps_length {ok : Admits Form} (hs : NodeSteps rt id ok s s') : s.steps.length ≤ s'.steps.length := by
  induction hs with
  | refl => exact Nat.le_refl _
  | tail _ hstep ih => exact ih.trans hstep.steps_length

theorem CarriesSteps.steps (h : CarriesSteps rt schema id saga base s) (hv : base.view = .current) (hdated : Dated base)
    (hs : NodeSteps rt id (guarded id) s s') (hlen : s'.parent.db.interner.len ≤ 2 ^ 64)
    (hseq : base.basisT + s'.steps.length < sequenceLimit) : CarriesSteps rt schema id saga base s' := by
  induction hs with
  | refl => exact h
  | @tail s1 s2 hrest hstep ih =>
    have hview := (NodeSteps.names hrest h.owned.view).1
    have hcount := hstep.steps_length
    exact (ih ((len_mono (hstep.names hview).2).trans hlen) (by omega)).step hv hdated hstep hlen hseq

end Runs

/-! ## A guard that is retracted -/

namespace RetractedGuardExample

open Life.SharedBlockExample (base schema)
open Life.MissedIdExample (user nameAttr)
open EndedTwiceExample

/-- A step that takes it back. -/
def retracts : List TxItem := [.op (.retract (.id (txId 1)) sagaGuard (.str "[:db/cas 1 :a nil]"))]

end RetractedGuardExample

end Corium.Transactor
