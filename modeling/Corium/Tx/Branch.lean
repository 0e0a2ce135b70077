/-
  Corium.Tx.Branch — what a saga branch's own pipeline refuses
  (`crates/corium-tx/src/branch.rs`, `step_rules` of
  `crates/corium-transactor/src/branch.rs`).

  A step is an ordinary transaction on the branch whose datoms are also checked
  against the saga's entry in the parent as it is at that moment: ids come from the
  leased blocks, and a saga with reservations touches nothing else that is there
  already. An empty reservation set binds nothing.
-/

import Corium.Tx.Prepare

namespace Corium.Saga

open Corium.Core Corium.Bootstrap

/-- The registry entry for a saga id: on the entity `lookup` finds. -/
def entry (db : Db) (id : BitVec 128) : Option SagaEntry := (db.lookup sagaId (.uuid id)).bind (entryAt db)

end Corium.Saga

namespace Corium.Tx

open Corium.Core Corium.Lib

structure BranchRules where
  grants : List Saga.IdGrant
  /-- Entities there already, and attributes as a whole. -/
  reserves : List EntityId
  deriving DecidableEq

namespace BranchRules

def of (entry : Saga.SagaEntry) : BranchRules := ⟨entry.grants, entry.reserves⟩

/-- The lowest sequence a leased block covers. -/
def grantFloor (rules : BranchRules) : Nat :=
  ((rules.grants.filterMap (·.start)).filterMap fun s => s.toInt.toNat?).min?.getD (2 ^ 64 - 1)

def isBranchEntity (rules : BranchRules) (e : EntityId) : Bool := rules.grants.any (·.holds e)

/-- A user entity below the leased blocks, whether or not a datom uses it. -/
def isPreExisting (rules : BranchRules) (e : EntityId) : Bool :=
  e.inPartition .user && decide (e.sequence < rules.grantFloor) && !rules.isBranchEntity e

/-- Whether the reservations cover `a` on `e`. -/
def covers (rules : BranchRules) (e : EntityId) (a : AttrId) : Bool := e ∈ rules.reserves || a ∈ rules.reserves

end BranchRules

inductive StepViolation where
  | noGrant
  | ungrantedId (e : EntityId)
  | unreserved (entity : EntityId) (attr : AttrId)
  | unreservedRef (entity : EntityId) (attr : AttrId) (target : EntityId)
  | registryWrite (a : AttrId)
  | schemaEntity (e : EntityId)
  deriving DecidableEq

/-- A user entity is the branch's own or was there already. -/
def checkGranted (rules : BranchRules) (e : EntityId) : Except StepViolation Unit :=
  require (e.inPartition .user → rules.isBranchEntity e ∨ rules.isPreExisting e) (.ungrantedId e)

def checkDatom (rules : BranchRules) (d : Datom) : Except StepViolation Unit := do
  require (Saga.isRegistryAttribute d.a = false) (.registryWrite d.a)
  require (d.e.inPartition .db = false) (.schemaEntity d.e)
  checkGranted rules d.e
  (Saga.reference d.v).forM (checkGranted rules)
  if rules.reserves.isEmpty then pure ()
  else do
    require (rules.isPreExisting d.e → rules.covers d.e d.a) (.unreserved d.e d.a)
    (Saga.reference d.v).forM fun target =>
      require (rules.isPreExisting target → rules.covers target d.a) (.unreservedRef d.e d.a target)

/-- The first violation of a step's datoms, in their order. -/
def validateStep (datoms : List Datom) (rules : BranchRules) : Except StepViolation Unit := do
  require (rules.grants ≠ []) .noGrant
  datoms.forM (checkDatom rules)

inductive StepRefusal where
  | notInRegistry
  | noStatus
  | finished (status : Saga.SagaStatus)
  deriving DecidableEq

/-- The rules of a step now, from the parent's registry: the saga must be open. -/
def stepRules (parent : Db) (saga : BitVec 128) : Except StepRefusal BranchRules :=
  match Saga.entry parent saga with
  | none => .error .notInRegistry
  | some entry =>
    match entry.status with
    | some .opened => .ok (.of entry)
    | some status => .error (.finished status)
    | none => .error .noStatus

inductive StepError where
  | tx (e : TxError)
  | step (v : StepViolation)
  deriving DecidableEq

/-- `prepare_step`, before the allocation counter and the instant. -/
def prepareStep (branch : Db) (items : List TxItem) (tx : TxId) (nextUserSequence : Nat) (rules : BranchRules) :
    Except StepError PreparedTx := do
  let prepared ← (prepare branch items tx nextUserSequence).mapError .tx
  (validateStep prepared.datoms rules).mapError .step
  pure prepared

/-! ## What a step may say -/

variable {rules : BranchRules} {α ε : Type}

theorem stepRules_ok {parent : Db} {saga : BitVec 128} (h : stepRules parent saga = .ok rules) :
    ∃ entry, Saga.entry parent saga = some entry ∧ entry.status = some .opened ∧ rules = .of entry := by
  unfold stepRules at h
  split at h
  · cases h
  · rename_i entry hentry
    split at h
    · rename_i hopen
      cases h
      exact ⟨entry, hentry, hopen, rfl⟩
    · cases h
    · cases h

theorem mapError_ok {ε' : Type} {x : Except ε α} {f : ε → ε'} {a : α} : x.mapError f = .ok a ↔ x = .ok a := by
  cases x <;> simp [Except.mapError]

theorem prepareStep_ok {branch : Db} {items : List TxItem} {tx : TxId} {n : Nat} {r : PreparedTx}
    (h : prepareStep branch items tx n rules = .ok r) :
    prepare branch items tx n = .ok r ∧ validateStep r.datoms rules = .ok () := by
  unfold prepareStep at h
  simp only [bind_eq_ok, pure_eq_ok, mapError_ok] at h
  obtain ⟨prepared, hp, _, hv, rfl⟩ := h
  exact ⟨hp, hv⟩

theorem option_forM_ok {f : α → Except ε Unit} {o : Option α} (h : o.forM f = .ok ()) {a : α} (ha : o = some a) :
    f a = .ok () := by
  subst ha
  exact h

/-- What a datom of an accepted step is. -/
structure StepDatom (rules : BranchRules) (d : Datom) : Prop where
  plain : Saga.isRegistryAttribute d.a = false
  entity : d.e.inPartition .user = true → rules.isBranchEntity d.e = true ∨ rules.isPreExisting d.e = true
  target : ∀ x, d.v = .ref x → x.inPartition .user = true → rules.isBranchEntity x = true ∨ rules.isPreExisting x = true
  reserved : rules.reserves ≠ [] → rules.isPreExisting d.e = true → rules.covers d.e d.a = true
  reservedRef : rules.reserves ≠ [] → ∀ x, d.v = .ref x → rules.isPreExisting x = true → rules.covers x d.a = true

theorem checkDatom_ok {d : Datom} (h : checkDatom rules d = .ok ()) : StepDatom rules d := by
  unfold checkDatom at h
  simp only [bind_eq_ok, require_eq_ok] at h
  obtain ⟨_, hplain, _, -, _, hentity, _, htarget, h⟩ := h
  have href : ∀ {x}, d.v = .ref x → Saga.reference d.v = some x := fun hx => by rw [hx]; rfl
  refine ⟨hplain, require_eq_ok.mp hentity, fun x hx => require_eq_ok.mp (option_forM_ok htarget (href hx)), fun hne => ?_,
    fun hne x hx => ?_⟩
  all_goals
    rw [if_neg (by simpa using hne)] at h
    simp only [bind_eq_ok, require_eq_ok] at h
    obtain ⟨_, hreserved, hrefs⟩ := h
  · exact hreserved
  · exact require_eq_ok.mp (option_forM_ok hrefs (href hx))

theorem validateStep_ok {datoms : List Datom} (h : validateStep datoms rules = .ok ()) :
    rules.grants ≠ [] ∧ ∀ d ∈ datoms, StepDatom rules d := by
  unfold validateStep at h
  simp only [bind_eq_ok, require_eq_ok] at h
  obtain ⟨_, hgrants, hall⟩ := h
  exact ⟨hgrants, fun d hd => checkDatom_ok (forM_ok hall d hd)⟩

end Corium.Tx
