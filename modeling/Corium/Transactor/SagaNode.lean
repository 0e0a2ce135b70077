/-
  Corium.Transactor.SagaNode — how a saga ends: `saga_commit`, `saga_finish_on` with
  `finish_attempt`, `expire_branchless_sagas_on` and `saga_sweep` of
  `crates/corium-transactor/src/node.rs`, the compensations of
  `crates/corium-transactor/src/expiry.rs` and the guards of
  `crates/corium-transactor/src/merge.rs`.

  `sagaCommit` and `finish` are what these calls do under the parent's commit lock.
  `NodeStep` is the node around one saga: its calls interleave where the locks let
  them. A commit waits for the branch's steps, so none is under way while it reads
  the branch; ending a saga asks whether the branch is there before it takes a lock.

  The EDN reader, database functions and the query engine are parameters (`Runtime`).
-/

import Corium.Transactor.Registry
import Corium.Transactor.SagaCommit

namespace Corium

open Corium.Core

namespace Saga

/-- The name a status is written under. -/
def SagaStatus.keyword : SagaStatus → Keyword
  | .opened => ⟨some statusNamespace, "open"⟩
  | .committed => ⟨some statusNamespace, "committed"⟩
  | .aborted => ⟨some statusNamespace, "aborted"⟩
  | .expired => ⟨some statusNamespace, "expired"⟩
  | .unknown keyword => keyword

end Saga

namespace Transactor

open Corium.Lib Corium.Tx

/-! ## Guards -/

structure Guard where
  /-- The step that declared it; none for one supplied with the request. -/
  step : Option Nat
  text : String
  deriving DecidableEq

def Guard.requested (text : String) : Guard := ⟨none, text⟩

/-- The guards on the branch's step transactions, by step and text. -/
def branchGuards (branch : Db) (basisT : Nat) : List Guard :=
  let declared := (Saga.datomsForAttribute branch Bootstrap.sagaGuard).filterMap fun d =>
    if d.e.inPartition .tx ∧ basisT < d.e.sequence then (Saga.text d.v).map fun text => (d.e.sequence, text) else none
  (Std.ExtTreeSet.ofList declared compare).toList.map fun x => ⟨some x.1, x.2⟩

/-! ## Compensation -/

inductive Compensation (Form : Type) where
  | none
  | forms (forms : List Form)
  /-- A registered compensation not applied, and why. -/
  | skipped (reason : String)

namespace Compensation

variable {Form : Type}

def formsToApply : Compensation Form → List Form
  | .forms fs => fs
  | .none | .skipped _ => []

def reason : Compensation Form → Option String
  | .skipped reason => some reason
  | .none => Option.none
  | .forms _ => Option.none

end Compensation

/-- What the caller wants done about the registered compensation. -/
inductive Intent (Form : Type) where
  | registered
  | replace (forms : List Form)
  | skip (reason : String)

inductive NodeError where
  | noSaga
  | notOpen (status : Saga.SagaStatus)
  | noStatus
  | noBasis
  /-- Neither aborted nor expired. -/
  | notAnEnding (status : Saga.SagaStatus)
  | compensation (reason : String)
  | txForm (reason : String)
  | unnamedKeyword (id : KwId)
  | transact (e : TxError)

/-- What the node calls out to. -/
structure Runtime (Form : Type) where
  /-- The forms of a static compensation. -/
  read : String → Except String (List Form)
  /-- A compensating function, run on the parent's and the branch's value. -/
  invoke : Db → Db → EntityId → Except String (List Form)
  /-- Forms as items, with the names they mint. -/
  items : Db → KeywordInterner → List Form → Except String (List TxItem × KeywordInterner)
  /-- Converting forms only adds names. -/
  items_extends : ∀ (db : Db) (names : KeywordInterner) (forms : List Form) (r : List TxItem × KeywordInterner),
    items db names forms = .ok r → names.Extends r.2
  items_nil : ∀ (db : Db) (names : KeywordInterner), items db names [] = .ok ([], names)
  /-- Whether a guard holds of a value. -/
  evaluate : Db → String → Bool
  /-- The conflict report of a refused merge. -/
  report : Db → Saga.SagaEntry → Novelty → Resolved → List Guard → String
  /-- An error as text. -/
  explain : NodeError → String

section Calls

variable {Form : Type} (rt : Runtime Form)

def registersCompensation (entry : Saga.SagaEntry) : Bool := entry.onAbortTx.isSome || entry.onAbortFn.isSome

def compose (entry : Saga.SagaEntry) (parent : Db) (branch : Option Db) : Except String (Compensation Form) :=
  match entry.onAbortTx, entry.onAbortFn with
  | some _, some _ => .error
      "saga registers both :db.saga/on-abort-tx and :db.saga/on-abort-fn; a compensation is one or the other"
  | some txData, none =>
    match rt.read txData with
    | .ok forms => .ok (.forms forms)
    | .error e => .error (":db.saga/on-abort-tx is not EDN: " ++ e)
  | none, some dbFn =>
    match branch with
    | none => .ok (.skipped "the branch is gone, so :db.saga/on-abort-fn was not invoked")
    | some branch => (rt.invoke parent branch dbFn).map .forms
  | none, none => .ok .none

def resolveIntent (intent : Intent Form) (entry : Saga.SagaEntry) (parent : Db) (branch : Option Db) :
    Except String (Compensation Form) :=
  match intent with
  | .registered => compose rt entry parent branch
  | .replace forms => .ok (.forms forms)
  | .skip reason => .ok (if registersCompensation entry then .skipped reason else .none)

/-! ## Ending a saga -/

/-- The state under more names (`intern_naming`). -/
def State.withNames (s : State) (names : KeywordInterner) : State := { s with db := s.db.withNaming s.db.idents names }

/-- The flip: the status, the reason a compensation was left out, and the saga's label
    on a transaction that carries one. -/
def endOps (entry : Saga.SagaEntry) (flipped : KwId) (onAbortError : Option String) (compensated : Bool) : List TxItem :=
  [.op (.add (.id entry.entity) Bootstrap.sagaStatus (.keyword flipped))] ++
    onAbortError.toList.map (fun reason => .op (.add (.id entry.entity) Bootstrap.sagaOnAbortError (.str reason))) ++
    if compensated then [.op (.add (.temp txTempid) Bootstrap.sagaTxId (.uuid entry.id))] else []

/-- One flip with its compensation; whether there was one. -/
def finishAttempt (s : State) (entry : Saga.SagaEntry) (status : Saga.SagaStatus) (forms : List Form)
    (onAbortError : Option String) (nowMs : Int64) : Except NodeError (TxRecord × State × Bool) := do
  let (items, names) ← (rt.items s.db s.db.interner forms).mapError .txForm
  let (flipped, names) := names.intern status.keyword
  let compensated := !items.isEmpty
  let (record, _, s') ← (transact (s.withNames names) (items ++ endOps entry flipped onAbortError compensated) nowMs).mapError
    .transact
  pure (record, s', compensated)

/-- Composed under the lock. What cannot be composed fails an abort and is left out of an expiry. -/
def composeFor (status : Saga.SagaStatus) (intent : Intent Form) (entry : Saga.SagaEntry) (parent : Db) (branch : Option Db) :
    Except NodeError (Compensation Form) :=
  match resolveIntent rt intent entry parent branch with
  | .ok c => .ok c
  | .error reason => if status = .expired then .ok (.skipped reason) else .error (.compensation reason)

/-- `saga_finish_on` once it holds the locks. An expiry whose compensation is refused
    is tried again without it. -/
def finish (s : State) (branch : Option Db) (id : BitVec 128) (status : Saga.SagaStatus) (intent : Intent Form) (nowMs : Int64) :
    Except NodeError (TxRecord × State × Bool) :=
  match Saga.entry s.db id with
  | none => .error .noSaga
  | some entry =>
    match entry.status with
    | some .opened => do
      let c ← composeFor rt status intent entry s.db branch
      match finishAttempt rt s entry status c.formsToApply c.reason nowMs with
      | .ok done => .ok done
      | .error e =>
        if status = .expired ∧ !c.formsToApply.isEmpty then finishAttempt rt s entry status [] (some (rt.explain e)) nowMs
        else .error e
    | some found => .error (.notOpen found)
    | none => .error .noStatus

/-! ## Committing a saga -/

/-- A merge as it was made: the parent it was applied to, the naming it read it under,
    what was asked for, and what it applied. -/
structure Merge where
  before : State
  names : KeywordInterner
  requested : List String
  /-- The branch's net effect, in the parent's naming. -/
  novelty : Novelty
  resolved : Resolved
  record : TxRecord

def Merge.against (m : Merge) : Db := m.before.db.withNaming m.before.db.idents m.names

/-- The net effect without the units resolved to the parent. -/
def Merge.applied (m : Merge) : Novelty := applyResolved m.novelty m.resolved m.against.schema

inductive CommitOutcome where
  /-- The entry says committed: a retry reports the merge it finds. -/
  | already
  /-- Nothing merged; the entry got a conflict report. -/
  | refused (record : TxRecord) (s : State)
  | merged (m : Merge) (s : State)

def openingBasis (entry : Saga.SagaEntry) : Except NodeError Nat :=
  match entry.basisT.bind fun b => b.toInt.toNat? with
  | some t => .ok t
  | none => .error .noBasis

/-- What a commit decides of an open saga. -/
def commitOpen (s : State) (log : List TxRecord) (branch : Db) (entry : Saga.SagaEntry) (requested : List String)
    (resolutions : List Resolution) (nowMs : Int64) : Except NodeError CommitOutcome := do
  let basisT ← openingBasis entry
  let drift := squash ((txRange log (basisT + 1)).flatMap (·.datoms))
  let (novelty, names) ← (translate (squash (branch.recordedSince basisT)) branch.interner s.db.interner).mapError .unnamedKeyword
  let against := s.db.withNaming s.db.idents names
  let resolved := resolveConflicts (scan against novelty drift) resolutions
  let failed := (branchGuards branch basisT ++ requested.map Guard.requested).filter fun g => !rt.evaluate against g.text
  if resolved.outstanding.isEmpty ∧ resolved.rejected.isEmpty ∧ failed = [] then
    let (committed, flipNames) := names.intern committedKeyword
    let (record, _, s') ← (transact (s.withNames flipNames)
      (commitItems entry committed (applyResolved novelty resolved against.schema)) nowMs).mapError .transact
    pure (.merged { before := s, names, requested, novelty, resolved, record } s')
  else
    let report := rt.report against entry novelty resolved failed
    let (record, _, s') ← (transact s
      [.op (.add (.id entry.entity) Bootstrap.sagaConflictReport (.str report))] nowMs).mapError .transact
    pure (.refused record s')

/-- `saga_commit` once it holds the locks. -/
def sagaCommit (s : State) (log : List TxRecord) (branch : Db) (id : BitVec 128) (requested : List String)
    (resolutions : List Resolution) (nowMs : Int64) : Except NodeError CommitOutcome :=
  match Saga.entry s.db id with
  | none => .error .noSaga
  | some entry =>
    match entry.status with
    | some .opened => commitOpen rt s log branch entry requested resolutions nowMs
    | some .committed => .ok .already
    | some found => .error (.notOpen found)
    | none => .error .noStatus

/-! ## What an accepted call has done -/

variable {rt}
variable {nowMs : Int64} {s s' : State}

variable {status : Saga.SagaStatus} {record : TxRecord} {compensated : Bool} {resolutions : List Resolution}
  {log : List TxRecord} {requested : List String} {branch : Db}

theorem finishAttempt_ok {entry : Saga.SagaEntry} {forms : List Form} {onAbortError : Option String}
    (h : finishAttempt rt s entry status forms onAbortError nowMs = .ok (record, s', compensated)) :
    ∃ items names tempids, rt.items s.db s.db.interner forms = .ok (items, names) ∧ compensated = !items.isEmpty ∧
      transact (s.withNames (names.intern status.keyword).2)
        (items ++ endOps entry (names.intern status.keyword).1 onAbortError compensated) nowMs = .ok (record, tempids, s') := by
  unfold finishAttempt at h
  simp only [bind_eq_ok, pure_eq_ok, mapError_ok] at h
  obtain ⟨⟨items, names⟩, hitems, ⟨record', tempids, s''⟩, htransact, heq⟩ := h
  cases heq
  exact ⟨items, names, tempids, hitems, rfl, htransact⟩

/-- Ending a saga is one attempt on an open entry; where the compensation is to be skipped it has none. -/
theorem finish_ok {branch : Option Db} {id : BitVec 128} {intent : Intent Form}
   
    (h : finish rt s branch id status intent nowMs = .ok (record, s', compensated)) :
    ∃ entry forms onAbortError, Saga.entry s.db id = some entry ∧ entry.status = some .opened ∧
      finishAttempt rt s entry status forms onAbortError nowMs = .ok (record, s', compensated) ∧
      ∀ reason, intent = .skip reason → forms = [] := by
  unfold finish at h
  split at h
  · cases h
  · rename_i entry hentry
    split at h
    · rename_i hopen
      obtain ⟨c, hc, h⟩ := bind_eq_ok.mp h
      have hskip : ∀ reason, intent = .skip reason → c.formsToApply = [] := by
        rintro reason rfl
        unfold composeFor resolveIntent at hc
        cases hc
        split <;> rfl
      split at h
      · rename_i done hdone
        cases h
        exact ⟨entry, _, _, hentry, hopen, hdone, hskip⟩
      · split at h
        · exact ⟨entry, _, _, hentry, hopen, h, fun _ _ => rfl⟩
        · cases h
    · cases h
    · cases h

theorem sagaCommit_refused {id : BitVec 128}
   
    (h : sagaCommit rt s log branch id requested resolutions nowMs = .ok (.refused record s')) :
    ∃ items tempids, transact s items nowMs = .ok (record, tempids, s') := by
  unfold sagaCommit at h
  split at h
  · cases h
  · split at h
    · unfold commitOpen at h
      simp only [bind_eq_ok, mapError_ok] at h
      obtain ⟨basisT, -, ⟨novelty, names⟩, -, h⟩ := h
      split at h
      · simp only [bind_eq_ok, pure_eq_ok, mapError_ok] at h
        obtain ⟨⟨record', tempids, s''⟩, -, heq⟩ := h
        cases heq
      · simp only [bind_eq_ok, pure_eq_ok, mapError_ok] at h
        obtain ⟨⟨record', tempids, s''⟩, htransact, heq⟩ := h
        cases heq
        exact ⟨_, tempids, htransact⟩
    · cases h
    · cases h
    · cases h

/-- A merge is of an open saga, with every guard holding and no conflict left. -/
structure Merged (rt : Runtime Form) (s s' : State) (branch : Db) (id : BitVec 128) (requested : List String) (nowMs : Int64)
    (m : Merge) (entry : Saga.SagaEntry) (basisT : Nat) : Prop where
  found : Saga.entry s.db id = some entry
  opened : entry.status = some .opened
  basis : openingBasis entry = .ok basisT
  before : m.before = s
  asked : m.requested = requested
  novelty : translate (squash (branch.recordedSince basisT)) branch.interner s.db.interner = .ok (m.novelty, m.names)
  guards : ∀ g ∈ branchGuards branch basisT ++ requested.map Guard.requested, rt.evaluate m.against g.text = true
  resolved : m.resolved.outstanding = [] ∧ m.resolved.rejected = []
  record : ∃ tempids, transact (s.withNames (m.names.intern committedKeyword).2)
    (commitItems entry (m.names.intern committedKeyword).1 m.applied) nowMs = .ok (m.record, tempids, s')

theorem sagaCommit_merged {id : BitVec 128} {m : Merge}
    (h : sagaCommit rt s log branch id requested resolutions nowMs = .ok (.merged m s')) :
    ∃ entry basisT, Merged rt s s' branch id requested nowMs m entry basisT := by
  unfold sagaCommit at h
  split at h
  · cases h
  · rename_i entry hentry
    split at h
    · rename_i hopen
      unfold commitOpen at h
      simp only [bind_eq_ok, mapError_ok] at h
      obtain ⟨basisT, hbasis, ⟨novelty, names⟩, hnovelty, h⟩ := h
      split at h
      · rename_i hclear
        obtain ⟨hout, hrej, hfailed⟩ := hclear
        simp only [bind_eq_ok, pure_eq_ok, mapError_ok] at h
        obtain ⟨⟨record', tempids, s''⟩, htransact, heq⟩ := h
        cases heq
        refine ⟨entry, basisT, hentry, hopen, hbasis, rfl, rfl, hnovelty, fun g hg => ?_,
          ⟨List.isEmpty_iff.mp hout, List.isEmpty_iff.mp hrej⟩, tempids, htransact⟩
        have hg' := List.filter_eq_nil_iff.mp hfailed g hg
        rw [Bool.not_eq_true', Bool.not_eq_false] at hg'
        exact hg'
      · simp only [bind_eq_ok, pure_eq_ok, mapError_ok] at h
        obtain ⟨⟨record', tempids, s''⟩, -, heq⟩ := h
        cases heq
    · cases h
    · cases h
    · cases h

end Calls

/-! ## The node -/

/-- `BatchCursor::prepare_step`: the step's rules are checked between preparing it and allocating its ids. -/
def transactStep (s : State) (items : List TxItem) (nowMs : Int64) (rules : BranchRules) :
    Except StepError (TxRecord × Tempids × State) := do
  let _ ← prepareStep s.db items s.nextTx s.nextUser rules
  (transact s items nowMs).mapError .tx

/-- A compensation that was applied. -/
structure Compensated where
  /-- The saga's own, rather than one the caller put in its place. -/
  registered : Bool
  /-- Whether the branch was there. -/
  held : Bool

/-- One saga's parent and branch, with the calls under way and what they came to. -/
structure SagaNode (Form : Type) where
  parent : State
  log : List TxRecord
  /-- While its durable state is there. -/
  branch : Option State
  /-- What acknowledged steps recorded. -/
  steps : List TxRecord
  /-- The rules a batch of steps read, while it holds the branch's lock. -/
  batch : Option BranchRules
  /-- Calls to end the saga that have asked for the branch and wait for the locks. -/
  endings : List (Saga.SagaStatus × Intent Form)
  /-- A sweep has found the branch past its retention. -/
  released : Bool
  merges : List Merge
  compensations : List Compensated

/-- The reason a compensation is left out where the branch is not. -/
def branchless : String :=
  "this database has no branch for the saga — a restore, a fork, or a replica of the timeline it ran on — so no " ++
    "compensation was applied"

section Steps

variable {Form : Type}

/-- What `saga_finish_on` makes of an intent before it takes a lock. -/
def checkedIntent (held : Bool) : Intent Form → Intent Form
  | .registered => if held then .registered else .skip branchless
  | intent => intent

def Intent.isRegistered : Intent Form → Bool
  | .registered => true
  | _ => false

/-- What a run may do: the transactions of the parent, the steps, and the calls to end the saga. -/
structure Admits (Form : Type) where
  record : TxRecord → Prop := fun _ => True
  step : TxRecord → Prop := fun _ => True
  ask : SagaNode Form → Intent Form → Prop := fun _ _ => True

variable (rt : Runtime Form) (id : BitVec 128)

/-- One step of the node. -/
inductive NodeStep (ok : Admits Form) : SagaNode Form → SagaNode Form → Prop where
  | transact {s : SagaNode Form} {items : List TxItem} {nowMs : Int64} {record : TxRecord} {tempids : Tempids} {parent : State} :
      transact s.parent items nowMs = .ok (record, tempids, parent) → ok.record record →
      NodeStep ok s { s with parent, log := s.log ++ [record] }
  | naming {s : SagaNode Form} {names : KeywordInterner} : s.parent.db.interner.Extends names →
      NodeStep ok s { s with parent := s.parent.withNames names }
  | branchNaming {s : SagaNode Form} {branch : State} {names : KeywordInterner} : s.branch = some branch →
      branch.db.interner.Extends names → NodeStep ok s { s with branch := some (branch.withNames names) }
  /-- A batch of steps takes the branch's lock and reads the registry. -/
  | batch {s : SagaNode Form} {rules : BranchRules} : s.branch.isSome = true → s.batch = none →
      stepRules s.parent.db id = .ok rules → NodeStep ok s { s with batch := some rules }
  | step {s : SagaNode Form} {rules : BranchRules} {branch branch' : State} {items : List TxItem} {nowMs : Int64}
      {record : TxRecord} {tempids : Tempids} : s.batch = some rules → s.branch = some branch →
      transactStep branch items nowMs rules = .ok (record, tempids, branch') → ok.step record →
      NodeStep ok s { s with branch := some branch', steps := s.steps ++ [record] }
  | unlock {s : SagaNode Form} : NodeStep ok s { s with batch := none }
  | refuse {s : SagaNode Form} {branch parent : State} {requested : List String} {resolutions : List Resolution} {nowMs : Int64}
      {record : TxRecord} : s.batch = none → s.branch = some branch →
      sagaCommit rt s.parent s.log branch.db id requested resolutions nowMs = .ok (.refused record parent) → ok.record record →
      NodeStep ok s { s with parent, log := s.log ++ [record] }
  | merge {s : SagaNode Form} {branch parent : State} {requested : List String} {resolutions : List Resolution} {nowMs : Int64}
      {m : Merge} : s.batch = none → s.branch = some branch →
      sagaCommit rt s.parent s.log branch.db id requested resolutions nowMs = .ok (.merged m parent) → ok.record m.record →
      NodeStep ok s { s with parent, log := s.log ++ [m.record], merges := s.merges ++ [m] }
  /-- A call to end the saga, by its owner, a sweep or the pass over branchless sagas, looks for the branch. -/
  | ask {s : SagaNode Form} {status : Saga.SagaStatus} {intent : Intent Form} : status = .aborted ∨ status = .expired →
      ok.ask s intent →
      NodeStep ok s { s with endings := s.endings ++ [(status, checkedIntent s.branch.isSome intent)] }
  | finish {s : SagaNode Form} {status : Saga.SagaStatus} {intent : Intent Form} {nowMs : Int64} {record : TxRecord}
      {parent : State} {compensated : Bool} : (status, intent) ∈ s.endings →
      finish rt s.parent (if intent.isRegistered then s.branch.map (·.db) else none) id status intent nowMs =
        .ok (record, parent, compensated) → ok.record record →
      NodeStep ok s { s with
        parent
        log := s.log ++ [record]
        compensations := s.compensations ++ if compensated then [⟨intent.isRegistered, s.branch.isSome⟩] else [] }
  /-- A sweep finds the saga finished and its retention over. -/
  | release {s : SagaNode Form} {entry : Saga.SagaEntry} {status : Saga.SagaStatus} : Saga.entry s.parent.db id = some entry →
      entry.status = some status → status.isTerminal = true → NodeStep ok s { s with released := true }
  | discard {s : SagaNode Form} : s.released = true → NodeStep ok s { s with branch := none, batch := none }

/-- Any number of steps. -/
abbrev NodeSteps (ok : Admits Form) : SagaNode Form → SagaNode Form → Prop :=
  Relation.ReflTransGen (NodeStep rt id ok)

end Steps

end Transactor

end Corium
