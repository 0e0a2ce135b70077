/-
  Corium.Tx.Merge — what a saga branch merges into its parent, and what stops it
  (`crates/corium-tx/src/merge.rs`; `novelty_items` of
  `crates/corium-transactor/src/merge.rs`).

  `squash` folds a run of transactions into the facts it leaves asserted and
  retracted: a fact counts when the first and the last thing the run says of it
  agree. `scan` compares the branch's novelty with the parent's drift and value,
  `resolve` answers conflicts with an owner's resolutions, `apply` drops the units
  resolved to the parent and `noveltyItems` is the transaction that is left.

  A transaction records an assertion only of an absent fact and a retraction only of
  a live one (`Tells`), so a run's novelty is the difference between the values
  before and after it (`Tells.netWord_iff`).
-/

import Corium.Lib.Insertion
import Corium.Tx.Registry

namespace Corium.Tx

open Corium.Core Corium.Lib List Std

/-! ## Net effects -/

structure Novelty where
  asserts : FactSet
  retracts : FactSet
  /-- How many transactions the run covered. -/
  steps : Nat

/-- Every net fact with its direction, retractions first. -/
def Novelty.facts (n : Novelty) : List (Fact × Bool) :=
  n.retracts.toList.map (·, false) ++ n.asserts.toList.map (·, true)

/-- What the datoms that merge say first, and last, of each fact; those of transaction entities never merge. -/
def firstWords (datoms : List Datom) : ExtTreeMap Fact Bool :=
  (datoms.filter fun d => !d.e.inPartition .tx).foldl (fun m d => m.insertIfNew d.fact d.added) ∅

def lastWords (datoms : List Datom) : ExtTreeMap Fact Bool :=
  (datoms.filter fun d => !d.e.inPartition .tx).foldl (fun m d => m.insert d.fact d.added) ∅

/-- The facts whose first and last words agree. -/
def net (datoms : List Datom) : List (Fact × Bool) :=
  (lastWords datoms).toList.filter fun x => (firstWords datoms)[x.1]? = some x.2

/-- The net effect of a run's datoms. -/
def squash (datoms : List Datom) : Novelty :=
  { asserts := .ofList (((net datoms).filter (·.2)).map (·.1)) compare
    retracts := .ofList (((net datoms).filter (!·.2)).map (·.1)) compare
    steps := (ExtTreeSet.ofList (datoms.map (·.tx.sequence)) compare).size }

/-- The first and the last thing the datoms say of `f`. -/
def firstWord (ds : List Datom) (f : Fact) : Option Bool := (ds.find? fun d => d.fact = f).map (·.added)

def lastWord (ds : List Datom) (f : Fact) : Option Bool := (lastDatom ds f).map (·.added)

theorem holds_append (xs ds : List Datom) (f : Fact) : holds (xs ++ ds) f = (lastWord ds f).getD (holds xs f) := by
  unfold lastWord
  rw [holds, liveDatom_append]
  cases lastDatom ds f with
  | none => rfl
  | some d => cases h : d.added <;> simp [h]

variable {f : Fact} {ds : List Datom} {branch names names' : KeywordInterner}

theorem firstWord_eq_none : firstWord ds f = none ↔ ∀ d ∈ ds, d.fact ≠ f := by
  simp [firstWord]

theorem lastWord_eq_none : lastWord ds f = none ↔ ∀ d ∈ ds, d.fact ≠ f := by
  rw [lastWord, Option.map_eq_none_iff]
  exact lastOn_eq_none_iff

theorem firstWord_append (xs ds : List Datom) (f : Fact) :
    firstWord (xs ++ ds) f = (firstWord xs f).or (firstWord ds f) := by
  unfold firstWord
  rw [List.find?_append]
  cases xs.find? fun d => d.fact = f <;> rfl

/-- The net effect on `f` has direction `b`. -/
def NetWord (ds : List Datom) (f : Fact) (b : Bool) : Prop :=
  f.1.inPartition .tx = false ∧ firstWord ds f = some b ∧ lastWord ds f = some b

/-- The datoms that merge say of a fact what the run says, or nothing if its entity is a transaction's. -/
theorem firstWord_merging (ds : List Datom) (f : Fact) :
    firstWord (ds.filter fun d => !d.e.inPartition .tx) f = if f.1.inPartition .tx then none else firstWord ds f := by
  cases hf : f.1.inPartition .tx with
  | true =>
    refine firstWord_eq_none.mpr fun d hd hfact => ?_
    have hp := (mem_filter.mp hd).2
    rw [show d.e = f.1 from congrArg (·.1) hfact, hf] at hp
    cases hp
  | false =>
    unfold firstWord
    rw [List.find?_filter]
    congr 2
    funext d
    by_cases hfact : d.fact = f
    · rw [show d.e = f.1 from congrArg (·.1) hfact, hf]
      simp
    · simp [hfact]

theorem lastWord_merging (ds : List Datom) (f : Fact) :
    lastWord (ds.filter fun d => !d.e.inPartition .tx) f = if f.1.inPartition .tx then none else lastWord ds f := by
  have hkey : ∀ d ∈ ds, d.fact = f → (!d.e.inPartition .tx) = !f.1.inPartition .tx := by
    rintro d - rfl
    rfl
  unfold lastWord lastDatom
  rw [lastOn_filter_key (fun d : Datom => !d.e.inPartition .tx) _ hkey]
  cases f.1.inPartition .tx <;> rfl

theorem mem_net {b : Bool} : (f, b) ∈ net ds ↔ NetWord ds f b := by
  have hlast : (lastWords ds)[f]? = if f.1.inPartition .tx then none else lastWord ds f := by
    rw [← lastWord_merging, lastWords, lastWord, lastDatom]
    refine (getElem?_replay_empty Datom.fact (fun d => some d.added) _ f).trans ?_
    cases lastOn Datom.fact f _ <;> rfl
  have hfirst : (firstWords ds)[f]? = if f.1.inPartition .tx then none else firstWord ds f := by
    rw [← firstWord_merging, firstWords, getElem?_foldl_insertIfNew]
    simp [firstWord]
  rw [net, mem_filter, ExtTreeMap.mem_toList_iff_getElem?_eq_some, decide_eq_true_eq, hlast, hfirst, NetWord]
  cases f.1.inPartition .tx <;> simp [and_comm]

theorem mem_squash :
    (f ∈ (squash ds).asserts ↔ NetWord ds f true) ∧ (f ∈ (squash ds).retracts ↔ NetWord ds f false) := by
  rw [← mem_net, ← mem_net]
  constructor <;> simp [squash]

/-! ## What transactions tell -/

/-- The first thing `ds` says of `f`, said after `xs`, is true: `f` is asserted while
    absent or retracted while live. -/
def Tells (xs ds : List Datom) (f : Fact) : Prop := ∀ b, firstWord ds f = some b → b = !holds xs f

variable {xs : List Datom} {tx : TxId} {w : Db} {x y : List Fact × KeywordInterner} {facts facts' : FactSet}

theorem Tells.append {ds ds' : List Datom} (h : Tells xs ds f) (h' : Tells (xs ++ ds) ds' f) :
    Tells xs (ds ++ ds') f := by
  intro b hb
  rw [firstWord_append] at hb
  cases hfirst : firstWord ds f with
  | some c =>
    rw [hfirst, Option.some_or, Option.some.injEq] at hb
    exact hb ▸ h c hfirst
  | none =>
    rw [hfirst, Option.none_or] at hb
    rw [h' b hb, holds_append_of_ne (firstWord_eq_none.mp hfirst)]

theorem tells_of_ne {ds : List Datom} (h : ∀ d ∈ ds, d.fact ≠ f) : Tells xs ds f := by
  intro b hb
  rw [firstWord_eq_none.mpr h] at hb
  cases hb

/-- A run that tells the truth of `f` has as its novelty what it changed. -/
theorem Tells.netWord_iff {ds : List Datom} (h : Tells xs ds f) (b : Bool) :
    NetWord ds f b ↔ f.1.inPartition .tx = false ∧ holds xs f = !b ∧ holds (xs ++ ds) f = b := by
  rw [NetWord, holds_append]
  refine and_congr_right fun _ => ?_
  constructor
  · rintro ⟨hfirst, hlast⟩
    rw [hlast, h b hfirst]
    simp
  · rintro ⟨hbefore, hafter⟩
    cases hlast : lastWord ds f with
    | none =>
      rw [hlast, Option.getD_none, hbefore] at hafter
      cases b <;> cases hafter
    | some c =>
      rw [hlast, Option.getD_some] at hafter
      cases hfirst : firstWord ds f with
      | none =>
        rw [lastWord_eq_none.mpr (firstWord_eq_none.mp hfirst)] at hlast
        cases hlast
      | some d =>
        rw [h d hfirst, hbefore, hafter]
        simp

theorem firstWord_retractions (tx : TxId) (facts : List Fact) (f : Fact) :
    firstWord (facts.map fun g => retraction tx g.1 g.2.1 g.2.2) f = if f ∈ facts then some false else none := by
  split
  · rename_i hf
    cases h : firstWord (facts.map fun g => retraction tx g.1 g.2.1 g.2.2) f with
    | none => exact absurd rfl (firstWord_eq_none.mp h _ (mem_map_of_mem hf))
    | some b =>
      obtain ⟨d, hd, rfl⟩ := Option.map_eq_some_iff.mp h
      obtain ⟨g, -, rfl⟩ := mem_map.mp (mem_of_find?_eq_some hd)
      rfl
  · rename_i hf
    refine firstWord_eq_none.mpr fun d hd hfact => hf ?_
    obtain ⟨g, hg, rfl⟩ := mem_map.mp hd
    exact hfact ▸ hg

theorem tells_retractions {xs : List Datom} (tx : TxId) {facts : List Fact} (h : ∀ g ∈ facts, holds xs g = true) (f : Fact) :
    Tells xs (facts.map fun g => retraction tx g.1 g.2.1 g.2.2) f := by
  intro b hb
  rw [firstWord_retractions] at hb
  split at hb
  · rename_i hf
    cases hb
    rw [h f hf]
    rfl
  · cases hb

/-- Live values replaced by one that is absent, or is among them. -/
theorem tells_replaceDatoms {xs : List Datom} (tx : TxId) {e : EntityId} {a : AttrId} {vs : List Value} {v : Value}
    (hlive : ∀ x ∈ vs, holds xs (e, a, x) = true) {f : Fact}
    (habsent : f = (e, a, v) → v ∉ vs → holds xs (e, a, v) = false) : Tells xs (replaceDatoms tx e a vs v) f := by
  intro b hb
  have hmap : vs.map (retraction tx e a) =
      (vs.map fun x => ((e, a, x) : Fact)).map fun g => retraction tx g.1 g.2.1 g.2.2 := by
    rw [map_map]
    rfl
  rw [replaceDatoms, firstWord_append, hmap, firstWord_retractions] at hb
  split at hb
  · rename_i hf
    cases hb
    obtain ⟨x, hx, rfl⟩ := mem_map.mp hf
    rw [hlive x hx]
    rfl
  · rename_i hf
    rw [Option.none_or] at hb
    by_cases hfact : f = (e, a, v)
    · have hv : v ∉ vs := fun hv => hf (hfact ▸ mem_map_of_mem hv)
      rw [hfact, habsent hfact hv]
      subst hfact
      simpa [firstWord, assertion, Datom.fact] using hb.symm
    · rw [firstWord_eq_none.mpr (fun d hd h => hfact (by rw [← h, mem_singleton.mp hd]; rfl))] at hb
      cases hb

theorem OpEffect.tells (h : OpEffect tx w ds) (hv : w.view = .current)
    (hone : OneAt w f.1 f.2.1) : Tells w.recorded ds f := by
  cases h with
  | nothing => exact tells_of_ne nofun
  | @add e a v attr g =>
    have habsent : holds w.recorded (e, a, v) = false :=
      Bool.eq_false_iff.mpr fun hh => g.absent ((Db.mem_values hv).mpr hh)
    rw [addDatoms_eq]
    refine tells_replaceDatoms tx (fun x hx => ?_) fun _ _ => habsent
    split at hx
    · exact (Db.mem_values hv).mp hx
    · cases hx
  | @retract e a v _ _ hlive =>
    refine @tells_retractions w.recorded tx [(e, a, v)] (fun g hg => ?_) f
    rw [mem_singleton.mp hg]
    exact (Db.mem_values hv).mp hlive
  | @cas e a old new attr g =>
    refine @tells_replaceDatoms w.recorded tx e a old.toList new (fun x hx => ?_) f fun hf hnew => ?_
    · rw [← g.current] at hx
      exact (Db.mem_values hv).mp (mem_of_mem_head? (Option.mem_toList.mp hx))
    · -- the value compared is the only one there is, and it is not the new one
      subst hf
      refine Bool.eq_false_iff.mpr fun hheld => hnew ?_
      rw [← g.current]
      cases hvs : w.values e a with
      | nil =>
        have := (Db.mem_values hv).mpr hheld
        rw [hvs] at this
        cases this
      | cons y rest =>
        have hy : w.Holds (e, a, y) := (Db.mem_values hv).mp (by rw [hvs]; exact mem_cons_self)
        rw [hone attr g.installed g.one new y hheld hy]
        exact mem_singleton_self y
  | retractEntity _ _ hlive _ => exact tells_retractions tx (fun g hg => (Db.mem_values hv).mp (hlive g hg)) f

/-- An accepted transaction tells the truth of every pair that keeps to its cardinality. -/
theorem Effects.tells {w' : Db} (h : Effects tx w ds w') (hv : w.view = .current)
    (hone : OneAt w f.1 f.2.1) : Tells w.recorded ds f ∧ OneAt w' f.1 f.2.1 := by
  induction h with
  | refl => exact ⟨tells_of_ne nofun, hone⟩
  | step hchain heff hw ih =>
    have hview := hchain.follows.view.trans hv
    refine ⟨ih.1.append ?_, ih.2.effect hview heff (heff.follows hw)⟩
    rw [← hchain.follows.recorded]
    exact heff.tells hview ih.2

/-! ## Conflicts -/

/-- What a conflict is about: a cardinality-one pair as a whole, or one member of a set. -/
inductive Scope where
  | pair
  | fact (v : Value)
  deriving DecidableEq

inductive ConflictKind where
  /-- Both sides wrote the unit and disagree. -/
  | writeWrite
  /-- The branch asserts a unique value another entity holds in the parent. -/
  | uniqueness (holder : EntityId)
  /-- The branch writes on, or points at, an entity the parent retracted whole. -/
  | danglingRef (target : EntityId)
  /-- The branch retracts a value that is no longer the parent's. -/
  | retractionMiss
  deriving DecidableEq

def ConflictKind.name : ConflictKind → String
  | writeWrite => "write-write"
  | uniqueness _ => "uniqueness"
  | danglingRef _ => "dangling-ref"
  | retractionMiss => "retraction-miss"

structure Conflict where
  kind : ConflictKind
  entity : EntityId
  attr : AttrId
  scope : Scope
  branch : Option Value
  parent : Option Value
  overridable : Bool
  deriving DecidableEq

abbrev MergeUnit := EntityId × AttrId × Scope

def Conflict.unit (c : Conflict) : MergeUnit := (c.entity, c.attr, c.scope)

def Scope.order : Scope → Scope → Ordering
  | .pair, .pair => .eq
  | .pair, .fact _ => .lt
  | .fact _, .pair => .gt
  | .fact v, .fact w => compare v w

def Conflict.order (c d : Conflict) : Ordering :=
  (compare c.entity d.entity).then <| (compare c.attr d.attr).then <| (c.scope.order d.scope).then
    (compare c.kind.name d.kind.name)

def many (schema : Schema) (a : AttrId) : Bool := (schema.get a).any (·.cardinality = .many)

/-- The unit a fact belongs to. -/
def unitOf (schema : Schema) (f : Fact) : MergeUnit :=
  (f.1, f.2.1, if many schema f.2.1 then .fact f.2.2 else .pair)

abbrev Pairs := ExtTreeMap (EntityId × AttrId) (Option Value)

def notePair (schema : Schema) (m : Pairs) (x : Fact × Bool) : Pairs :=
  if many schema x.1.2.1 then m
  else if x.2 then m.insert (x.1.1, x.1.2.1) (some x.1.2.2)
  else m.insertIfNew (x.1.1, x.1.2.1) none

/-- What the branch means each cardinality-one pair to hold: what it asserts last,
    or nothing. -/
def branchPairs (schema : Schema) (branch : Novelty) : Pairs := branch.facts.foldl (notePair schema) ∅

/-- Whether the drift says anything of the pair. -/
def drifted (drift : Novelty) (e : EntityId) (a : AttrId) : Bool :=
  drift.facts.any fun x => x.1.1 = e ∧ x.1.2.1 = a

/-- Whether the parent retracted the entity whole since. -/
def emptied (parent : Db) (drift : Novelty) (e : EntityId) : Bool :=
  drift.retracts.toList.any (·.1 = e) && (parent.datomsPrefix .eavt (keyPrefix .eavt (some e) none none)).isEmpty

/-- Both sides wrote the pair and it does not hold what the branch means it to. -/
def pairConflict (parent : Db) (drift : Novelty) (e : EntityId) (a : AttrId) (branch : Option Value) :
    Option Conflict :=
  let held := (parent.values e a).head?
  if !drifted drift e a || held = branch then none
  else
    let kind := if branch.isSome then ConflictKind.writeWrite else .retractionMiss
    some { kind, entity := e, attr := a, scope := .pair, branch, parent := held, overridable := kind = .writeWrite }

def uniqueConflict (parent : Db) (f : Fact) : Option Conflict :=
  if (parent.schema.get f.2.1).any (·.unique.isSome) then
    match parent.lookup f.2.1 f.2.2 with
    | some holder =>
      if holder = f.1 then none
      else some { kind := .uniqueness holder, entity := f.1, attr := f.2.1, scope := (unitOf parent.schema f).2.2,
                  branch := some f.2.2, parent := (parent.values f.1 f.2.1).head?, overridable := false }
    | none => none
  else none

/-- The retracted entity an assertion points at, or is about. -/
def danglingTarget (parent : Db) (drift : Novelty) (f : Fact) : Option EntityId :=
  match f.2.2 with
  | .ref target =>
    if emptied parent drift target then some target else if emptied parent drift f.1 then some f.1 else none
  | _ => if emptied parent drift f.1 then some f.1 else none

def danglingConflict (parent : Db) (drift : Novelty) (f : Fact) : Option Conflict :=
  (danglingTarget parent drift f).map fun target =>
    { kind := .danglingRef target, entity := f.1, attr := f.2.1, scope := (unitOf parent.schema f).2.2,
      branch := some f.2.2, parent := none, overridable := false }

/-- Every unit the merge cannot simply apply. -/
def scan (parent : Db) (branch drift : Novelty) : List Conflict :=
  let pairs := (branchPairs parent.schema branch).toList.filterMap fun x => pairConflict parent drift x.1.1 x.1.2 x.2
  let facts := branch.asserts.toList.flatMap fun f =>
    (uniqueConflict parent f).toList ++ (danglingConflict parent drift f).toList
  (pairs ++ facts).mergeSort fun c d => (c.order d).isLE

/-! ## Resolutions -/

inductive Take where
  /-- Drop the branch's write. -/
  | parent
  /-- The branch's value wins. -/
  | branch
  deriving DecidableEq

structure Resolution where
  entity : EntityId
  attr : AttrId
  scope : Scope
  /-- The parent's value the report showed. -/
  parent : Option Value
  take : Take
  deriving DecidableEq

def Resolution.answers (r : Resolution) (c : Conflict) : Bool :=
  r.entity = c.entity ∧ r.attr = c.attr ∧ r.scope = c.scope ∧ r.parent = c.parent

inductive ResolutionError where
  | unmatched (r : Resolution)
  | notOverridable (r : Resolution)
  deriving DecidableEq

structure Resolved where
  outstanding : List Conflict := []
  accepted : List MergeUnit := []
  overridden : List MergeUnit := []
  rejected : List ResolutionError := []

/-- One conflict answered by the first resolution that names it. -/
def resolveStep (resolutions : List Resolution) (r : Resolved) (c : Conflict) : Resolved :=
  match resolutions.find? (·.answers c) with
  | none => { r with outstanding := r.outstanding ++ [c] }
  | some resolution =>
    match resolution.take with
    | .parent => { r with accepted := r.accepted ++ [c.unit] }
    | .branch =>
      if c.overridable then { r with overridden := r.overridden ++ [c.unit] }
      else { r with rejected := r.rejected ++ [.notOverridable resolution], outstanding := r.outstanding ++ [c] }

/-- The positions of the resolutions that answered a conflict. -/
def usedResolutions (conflicts : List Conflict) (resolutions : List Resolution) : List Nat :=
  conflicts.filterMap fun c => resolutions.findIdx? (·.answers c)

def resolveConflicts (conflicts : List Conflict) (resolutions : List Resolution) : Resolved :=
  let r := conflicts.foldl (resolveStep resolutions) {}
  let unused := (resolutions.zipIdx.filter fun x => x.2 ∉ usedResolutions conflicts resolutions).map (·.1)
  { r with
    overridden := r.overridden.filter (· ∉ r.accepted)
    rejected := r.rejected ++ unused.map .unmatched }

/-- The novelty without the units resolved to the parent; of an overridden unit only
    the assertion stays. -/
def applyResolved (novelty : Novelty) (resolved : Resolved) (schema : Schema) : Novelty :=
  { novelty with
    asserts := novelty.asserts.filter fun f => unitOf schema f ∉ resolved.accepted
    retracts := novelty.retracts.filter fun f =>
      unitOf schema f ∉ resolved.accepted ∧ unitOf schema f ∉ resolved.overridden }

/-! ## The transaction -/

/-- The net effect as transaction items, retractions first. -/
def noveltyItems (novelty : Novelty) : List TxItem :=
  novelty.retracts.toList.map (fun f => .op (.retract (.id f.1) f.2.1 f.2.2)) ++
    novelty.asserts.toList.map fun f => .op (.add (.id f.1) f.2.1 f.2.2)

/-! ## Names -/

/-- The same fact under the parent's naming: a keyword value is resolved by the
    branch's names and interned into the parent's. -/
def translateFact (branch : KeywordInterner) (x : List Fact × KeywordInterner) (f : Fact) :
    Except KwId (List Fact × KeywordInterner) :=
  match f.2.2 with
  | .keyword id =>
    match branch.resolve id with
    | some k =>
      let (id, names) := x.2.intern k
      .ok (x.1 ++ [(f.1, f.2.1, .keyword id)], names)
    | none => .error id
  | _ => .ok (x.1 ++ [f], x.2)

def translateFacts (branch names : KeywordInterner) (facts : FactSet) : Except KwId (FactSet × KeywordInterner) := do
  let (facts, names) ← facts.toList.foldlM (translateFact branch) ([], names)
  pure (ExtTreeSet.ofList facts compare, names)

/-- The novelty in the parent's naming, and that naming with what it mints. -/
def translate (novelty : Novelty) (branch names : KeywordInterner) : Except KwId (Novelty × KeywordInterner) := do
  let (asserts, names) ← translateFacts branch names novelty.asserts
  let (retracts, names) ← translateFacts branch names novelty.retracts
  pure ({ novelty with asserts, retracts }, names)

theorem translateFact_extends {branch : KeywordInterner}
    (h : translateFact branch x f = .ok y) : x.2.Extends y.2 := by
  unfold translateFact at h
  split at h
  · split at h
    · rename_i k _
      cases h
      exact x.2.intern_extends k
    · cases h
  · cases h
    exact .refl _

theorem translateFacts_extends
    (h : translateFacts branch names facts = .ok (facts', names')) : names.Extends names' := by
  unfold translateFacts at h
  simp only [bind_eq_ok, pure_eq_ok] at h
  obtain ⟨⟨translated, names'⟩, hfold, heq⟩ := h
  cases heq
  exact foldlM_ok (R := fun x y : List Fact × KeywordInterner => x.2.Extends y.2) (fun x => .refl x.2)
    (fun hr hstep => hr.trans (translateFact_extends hstep)) hfold

theorem len_mono {i j : KeywordInterner} (h : i.Extends j) : i.len ≤ j.len := List.IsPrefix.length_le h

/-- `g` says in one naming what `f` says in the other: the keyword of the same name, or the very fact. -/
structure Means (branch names : KeywordInterner) (f g : Fact) : Prop where
  keyword : ∀ id, f.2.2 = .keyword id →
    ∃ k id', branch.resolve id = some k ∧ names.resolve id' = some k ∧ g = (f.1, f.2.1, .keyword id')
  other : (∀ id, f.2.2 ≠ .keyword id) → g = f

theorem Means.mono {f g : Fact} (h : Means branch names f g)
    (hext : names.Extends names') : Means branch names' f g := by
  refine ⟨fun id hv => ?_, h.other⟩
  obtain ⟨k, id', hk, hk', hg⟩ := h.keyword id hv
  exact ⟨k, id', hk, hext.resolve hk', hg⟩

theorem translateFact_means {branch : KeywordInterner}
    (h : translateFact branch x f = .ok y) (hlen : y.2.len ≤ 2 ^ 64) : ∃ g, y.1 = x.1 ++ [g] ∧ Means branch y.2 f g := by
  unfold translateFact at h
  split at h
  · rename_i id hv
    split at h
    · rename_i k hk
      cases h
      refine ⟨_, rfl, fun id' hid => ?_, fun hne => absurd hv (hne id)⟩
      cases hv.symm.trans hid
      exact ⟨k, _, hk, KeywordInterner.resolve_intern k hlen, rfl⟩
    · cases h
  · rename_i hne
    cases h
    exact ⟨f, rfl, fun id hid => (hne id hid).elim, fun _ => rfl⟩

/-- The facts done, each beside its translation. -/
theorem foldlM_translateFact_means {branch : KeywordInterner} {facts : List Fact}
    (h : facts.foldlM (translateFact branch) x = .ok y) (hlen : y.2.len ≤ 2 ^ 64) :
    ∃ gs, y.1 = x.1 ++ gs ∧ (∀ f ∈ facts, ∃ g ∈ gs, Means branch y.2 f g) ∧ ∀ g ∈ gs, ∃ f ∈ facts, Means branch y.2 f g := by
  induction facts generalizing x with
  | nil =>
    rw [foldlM_nil, pure_eq_ok] at h
    subst h
    exact ⟨[], by simp, forall_mem_nil _, forall_mem_nil _⟩
  | cons f facts ih =>
    rw [foldlM_cons, bind_eq_ok] at h
    obtain ⟨z, hz, hrest⟩ := h
    have hext : z.2.Extends y.2 := foldlM_ok (R := fun x y : List Fact × KeywordInterner => x.2.Extends y.2)
      (fun x => .refl x.2) (fun hr hstep => hr.trans (translateFact_extends hstep)) hrest
    obtain ⟨g, hg, hmeans⟩ := translateFact_means hz ((len_mono hext).trans hlen)
    obtain ⟨gs, hgs, hinto, honto⟩ := ih hrest
    refine ⟨g :: gs, by rw [hgs, hg]; simp, forall_mem_cons.mpr ⟨⟨g, mem_cons_self, hmeans.mono hext⟩, fun f' hf' => ?_⟩,
      forall_mem_cons.mpr ⟨⟨f, mem_cons_self, hmeans.mono hext⟩, fun g' hg' => ?_⟩⟩
    · obtain ⟨g', hg', hmeans'⟩ := hinto f' hf'
      exact ⟨g', mem_cons_of_mem _ hg', hmeans'⟩
    · obtain ⟨f', hf', hmeans'⟩ := honto g' hg'
      exact ⟨f', mem_cons_of_mem _ hf', hmeans'⟩

/-- The translation of a set of facts: the same facts, in the parent's naming. -/
theorem translateFacts_means
    (h : translateFacts branch names facts = .ok (facts', names')) (hlen : names'.len ≤ 2 ^ 64) :
    (∀ f ∈ facts, ∃ g ∈ facts', Means branch names' f g) ∧ ∀ g ∈ facts', ∃ f ∈ facts, Means branch names' f g := by
  unfold translateFacts at h
  simp only [bind_eq_ok, pure_eq_ok] at h
  obtain ⟨⟨translated, names1⟩, hfold, heq⟩ := h
  cases heq
  obtain ⟨gs, hgs, hinto, honto⟩ := foldlM_translateFact_means hfold hlen
  simp only [nil_append] at hgs
  subst hgs
  constructor
  · intro f hf
    obtain ⟨g, hg, hmeans⟩ := hinto f (ExtTreeSet.mem_toList.mpr hf)
    exact ⟨g, ExtTreeSet.mem_ofList.mpr (by simpa using hg), hmeans⟩
  · intro g hg
    obtain ⟨f, hf, hmeans⟩ := honto g (by simpa using ExtTreeSet.mem_ofList.mp hg)
    exact ⟨f, ExtTreeSet.mem_toList.mp hf, hmeans⟩

/-- Translating only adds names to the parent's. -/
theorem translate_extends {novelty novelty' : Novelty}
    (h : translate novelty branch names = .ok (novelty', names')) : names.Extends names' := by
  unfold translate at h
  simp only [bind_eq_ok, pure_eq_ok] at h
  obtain ⟨⟨asserts, names1⟩, hasserts, ⟨retracts, names2⟩, hretracts, heq⟩ := h
  cases heq
  exact (translateFacts_extends hasserts).trans (translateFacts_extends hretracts)

end Corium.Tx
