/-
  Corium.Store.Collect — index publications and garbage collection over one blob
  store (`crates/corium-store/src/lib.rs`: `put_if_absent`, `mark_reachable`,
  `sweep_unmarked`; `crates/corium-transactor/src/lib.rs`: `publish_pass`,
  `upload_planned_indexes`, `publish_root_pinned`; `crates/corium-transactor/src/node.rs`:
  `publish_db_indexes`, `gc_deleted_with_retention`).

  A blob is its digest: what it refers to (`children`) is fixed by it. The store keeps
  when each blob was written, if the backend knows. Nodes share the store and one
  clock. A node runs one publication or one collection at a time (`gc_lock`); nodes
  interleave freely, one store call at a time.

  * A pass reads the stored root, plans which chunks it carries over and which it
    rebuilds, and uploads the rebuilt ones and the manifests: each upload asks whether
    the blob is there (`probe`) and writes it if not (`put`). Then it installs the root
    (`install`): the re-read of the root and the compare-and-set are one step, since
    the compare-and-set succeeds on the bytes read. A pass may stop anywhere.
  * A collection lists the roots, walks each from what its root names, then takes the
    time and deletes what it did not mark and what is old enough by that time, in any
    order. A walk that misses a blob gives up.

  A blob that lies unreferenced long enough is fair game, and a pass that finds it
  present relies on it without writing it again: a collection in between deletes it
  (`a_skipped_blob_is_swept`). The time is taken after the walk, so a slow walk ages
  blobs that were written after the root was read (`a_slow_walk_sweeps_a_fresh_blob`).
  `live_roots_stay_whole`: with these two excluded, nothing a stored root reaches is
  missing.
-/

import Corium.Lib.Insertion
import Corium.Lib.Marking

namespace Corium.Store

open Corium.Lib List

abbrev BlobId := String

/-- The index part of a root record. -/
structure IndexRoots where
  basisT : Nat
  /-- One manifest an order. -/
  roots : Option (List BlobId)
  historyRoots : Option (List BlobId)
  /-- History is published with the current indexes. -/
  whole : historyRoots.isSome = true → roots.isSome = true
  deriving DecidableEq

def IndexRoots.empty : IndexRoots := ⟨0, none, none, nofun⟩

/-- What the record names. -/
def IndexRoots.ids (x : IndexRoots) : List BlobId := x.roots.getD [] ++ x.historyRoots.getD []

/-- The record's blobs as a collection visits them: the current indexes before history, each from the last. -/
def IndexRoots.toMark (x : IndexRoots) : List BlobId :=
  match x.roots with
  | none => []
  | some roots => roots.reverse ++ (x.historyRoots.getD []).reverse

structure DbRoot where
  leaseVersion : Nat
  index : IndexRoots
  deriving DecidableEq

structure Config where
  /-- The chunks a manifest lists; none of any other blob. -/
  children : BlobId → List BlobId
  retention : Nat
  /-- Whether the backend tells when a blob was written (`modified_at`). -/
  dated : Bool
  /-- Whether writing a blob that is there writes it again. -/
  overwrites : Bool

/-- One index's chunk after a pass has decided what to do with it. -/
inductive ChunkPlan where
  | published (id : BlobId)
  | rebuilt (id : BlobId)
  deriving DecidableEq

def ChunkPlan.id : ChunkPlan → BlobId
  | .published id | .rebuilt id => id

structure OrderPlan where
  chunks : List ChunkPlan
  manifest : BlobId

/-- What is uploaded, in order. -/
def OrderPlan.uploads (o : OrderPlan) : List BlobId :=
  o.chunks.filterMap (fun | .published _ => none | .rebuilt id => some id) ++ [o.manifest]

structure Plan where
  basisT : Nat
  /-- Whether chunks of the last publication may be carried over. -/
  carry : Bool
  current : List OrderPlan
  history : Option (List OrderPlan)

def Plan.orders (p : Plan) : List OrderPlan := p.current ++ p.history.getD []

def Plan.index (p : Plan) : IndexRoots :=
  ⟨p.basisT, some (p.current.map (·.manifest)), p.history.map (·.map (·.manifest)), fun _ => rfl⟩

structure Pass where
  node : Nat
  started : Nat
  /-- The index state a pass that carries chunks over insists on. -/
  pinned : Option IndexRoots
  todo : List BlobId
  /-- The next upload has been found absent. -/
  absent : Bool
  index : IndexRoots

structure Collection where
  started : Nat
  /-- The databases whose roots are still to be read. -/
  names : List String
  walk : Walk BlobId
  /-- The time the sweep goes by, once the walk is over. -/
  sweeping : Option Nat

structure Sys where
  now : Nat
  /-- When each blob was written. -/
  blobs : Std.ExtTreeMap BlobId Nat
  roots : Std.ExtTreeMap String DbRoot
  /-- By database and lease version: a lease version is one node's, which runs one pass at a time. -/
  passes : Std.ExtTreeMap (String × Nat) Pass
  /-- By node. -/
  collections : Std.ExtTreeMap Nat Collection

def Sys.empty : Sys := ⟨0, ∅, ∅, ∅, ∅⟩

inductive Event where
  | tick (d : Nat)
  /-- A node takes the lease of a database, creating its root record. -/
  | acquire (name : String) (version : Nat)
  | begin (node : Nat) (name : String) (version : Nat) (plan : Plan)
  | probe (pass : String × Nat)
  | put (pass : String × Nat)
  | install (pass : String × Nat)
  /-- A pass fails or its node stops. -/
  | abandon (pass : String × Nat)
  | collect (node : Nat)
  | mark (node : Nat)
  | sweepFrom (node : Nat)
  | sweep (node : Nat) (id : BlobId)
  /-- A collection is over, or fails, or its node stops. -/
  | finish (node : Nat)

def ChunkPlan.fits (c : Config) (p : Plan) (stored : IndexRoots) : ChunkPlan → Bool
  | .published id => (c.children id).isEmpty && p.carry && (stored.ids.flatMap c.children).contains id
  | .rebuilt id => (c.children id).isEmpty

/-- A plan's manifests list its chunks, and a chunk carried over is one of the stored root's. -/
def Plan.fits (c : Config) (stored : IndexRoots) (p : Plan) : Bool :=
  p.orders.all fun o => c.children o.manifest = o.chunks.map (·.id) && o.chunks.all (·.fits c p stored)

namespace Sys

/-- `gc_lock`. -/
def busy (s : Sys) (node : Nat) : Bool :=
  s.collections.contains node || s.passes.toList.any fun p => p.2.node = node

def acquire (s : Sys) (name : String) (version : Nat) : Option Sys :=
  match s.roots[name]? with
  | none => some { s with roots := s.roots.insert name ⟨version, .empty⟩ }
  | some root =>
    if root.leaseVersion < version then
      some { s with roots := s.roots.insert name { root with leaseVersion := version } }
    else none

/-- The pass of a lease holder: the record carries its version. -/
def begin (c : Config) (s : Sys) (node : Nat) (name : String) (version : Nat) (plan : Plan) : Option Sys :=
  match s.roots[name]? with
  | none => none
  | some root =>
    if root.leaseVersion = version ∧ s.busy node = false ∧ (name, version) ∉ s.passes ∧ plan.fits c root.index then
      let pass : Pass :=
        { node, started := s.now, pinned := if plan.carry then some root.index else none
          todo := plan.orders.flatMap (·.uploads), absent := false, index := plan.index }
      some { s with passes := s.passes.insert (name, version) pass }
    else none

def probe (s : Sys) (pass : String × Nat) : Option Sys :=
  match s.passes[pass]? with
  | none => none
  | some p =>
    match p.todo with
    | [] => none
    | id :: rest =>
      if p.absent then none
      else if id ∈ s.blobs then some { s with passes := s.passes.insert pass { p with todo := rest, absent := false } }
      else some { s with passes := s.passes.insert pass { p with absent := true } }

def put (c : Config) (s : Sys) (pass : String × Nat) : Option Sys :=
  match s.passes[pass]? with
  | none => none
  | some p =>
    match p.todo with
    | [] => none
    | id :: rest =>
      if p.absent then
        some { s with
          blobs := if id ∈ s.blobs ∧ c.overwrites = false then s.blobs
            else s.blobs.insert id s.now
          passes := s.passes.insert pass { p with todo := rest, absent := false } }
      else none

/-- `publish_root_pinned`: a pass that is raced, deposed or superseded installs nothing. -/
def install (s : Sys) (pass : String × Nat) : Option Sys :=
  match s.passes[pass]? with
  | none => none
  | some p =>
    if p.todo ≠ [] then none
    else
      let ended : Sys := { s with passes := s.passes.erase pass }
      let stored := s.roots[pass.1]?
      let index := (stored.map (·.index)).getD .empty
      if p.pinned.any (· ≠ index) then some ended
      else match stored with
        | none => some { ended with roots := s.roots.insert pass.1 ⟨pass.2, p.index⟩ }
        | some root =>
          if pass.2 < root.leaseVersion then some ended
          else if root.leaseVersion = pass.2 ∧ (p.index.basisT < root.index.basisT ∨ root.index = p.index) then some ended
          else some { ended with roots := s.roots.insert pass.1 ⟨pass.2, p.index⟩ }

def collect (s : Sys) (node : Nat) : Option Sys :=
  if s.busy node then none
  else
    let g : Collection := { started := s.now, names := s.roots.keys, walk := ⟨[], []⟩, sweeping := none }
    some { s with collections := s.collections.insert node g }

/-- One step of a walk: visit the next blob, or read the next root. -/
def mark (c : Config) (s : Sys) (node : Nat) : Option Sys :=
  match s.collections[node]? with
  | none => none
  | some g =>
    match g.walk.pending with
    | id :: rest =>
      if id ∈ g.walk.marked then
        some { s with collections := s.collections.insert node { g with walk := g.walk.skip rest } }
      else if id ∈ s.blobs then
        some { s with collections := s.collections.insert node { g with walk := g.walk.visit c.children id rest } }
      else some { s with collections := s.collections.erase node }
    | [] =>
      match g.names with
      | [] => none
      | name :: names =>
        let next := (s.roots[name]?.map (·.index.toMark)).getD []
        some { s with collections := s.collections.insert node { g with names, walk := g.walk.push next } }

def sweepFrom (s : Sys) (node : Nat) : Option Sys :=
  match s.collections[node]? with
  | none => none
  | some g =>
    if g.walk.pending = [] ∧ g.names = [] ∧ g.sweeping = none then
      some { s with collections := s.collections.insert node { g with sweeping := some s.now } }
    else none

/-- A blob of unknown age is kept, unless nothing is retained. -/
def oldEnough (c : Config) (now written : Nat) : Bool :=
  c.retention = 0 || (c.dated && c.retention ≤ now - written)

def sweep (c : Config) (s : Sys) (node : Nat) (id : BlobId) : Option Sys :=
  match s.collections[node]? with
  | none => none
  | some g =>
    match g.sweeping, s.blobs[id]? with
    | some now, some written =>
      if id ∉ g.walk.marked ∧ oldEnough c now written then some { s with blobs := s.blobs.erase id } else none
    | _, _ => none

def step (c : Config) (s : Sys) : Event → Option Sys
  | .tick d => some { s with now := s.now + d }
  | .acquire name version => s.acquire name version
  | .begin node name version plan => s.begin c node name version plan
  | .probe pass => s.probe pass
  | .put pass => s.put c pass
  | .install pass => s.install pass
  | .abandon pass => some { s with passes := s.passes.erase pass }
  | .collect node => s.collect node
  | .mark node => s.mark c node
  | .sweepFrom node => s.sweepFrom node
  | .sweep node id => s.sweep c node id
  | .finish node => some { s with collections := s.collections.erase node }

/-- Runs whose events all meet `P`. -/
inductive Reaches (c : Config) (P : Sys → Event → Prop) : Sys → Prop
  | empty : Reaches c P .empty
  | step {s s' : Sys} {e : Event} : Reaches c P s → P s e → s.step c e = some s' → Reaches c P s'

end Sys

/-- What the record leads to. -/
def IndexRoots.Reaches (c : Config) (x : IndexRoots) (b : BlobId) : Prop := ∃ a ∈ x.ids, Points c.children a b

/-- Every blob that a stored root reaches is present. -/
def Sys.Whole (c : Config) (s : Sys) : Prop :=
  ∀ (name : String) (root : DbRoot) (b : BlobId), s.roots[name]? = some root → root.index.Reaches c b → b ∈ s.blobs

/-! ## What keeps a blob -/

section

variable (c : Config)

/-- Present, and too young for a sweep that goes by a time up to `n`. -/
def Fresh (blobs : Std.ExtTreeMap BlobId Nat) (n : Nat) (b : BlobId) : Prop :=
  ∃ written, blobs[b]? = some written ∧ (c.dated = true → n < written + c.retention)

/-- Present, and each collection has the root still to read, or will mark the blob, or is too early for it. -/
def Guarded (M : Nat) (blobs : Std.ExtTreeMap BlobId Nat) (collections : Std.ExtTreeMap Nat Collection)
    (name : String) (b : BlobId) : Prop :=
  b ∈ blobs ∧ ∀ (node : Nat) (g : Collection), collections[node]? = some g →
    name ∈ g.names ∨ g.walk.Will c.children b ∨ Fresh c blobs (g.started + M) b

structure Collection.Sound (M now : Nat) (g : Collection) : Prop where
  started : g.started ≤ now
  closed : g.walk.Closed c.children
  sweeping : ∀ n, g.sweeping = some n → n ≤ g.started + M ∧ g.names = [] ∧ g.walk.pending = []

/-- A pass in time has each blob still to upload, or fresh, or, as long as its lease stands, in the stored root. -/
structure Pass.Sound (D M now : Nat) (blobs : Std.ExtTreeMap BlobId Nat) (roots : Std.ExtTreeMap String DbRoot)
    (key : String × Nat) (p : Pass) : Prop where
  started : p.started ≤ now
  held : ∃ root, roots[key.1]? = some root ∧ key.2 ≤ root.leaseVersion ∧
    (now ≤ p.started + D → ∀ b, p.index.Reaches c b →
      b ∈ p.todo ∨ Fresh c blobs (p.started + D + M) b ∨ (root.leaseVersion = key.2 → root.index.Reaches c b))
  absent : p.absent = true → ∀ id rest, p.todo = id :: rest → ∀ written, blobs[id]? = some written → p.started ≤ written

structure Safe (D M : Nat) (s : Sys) : Prop where
  written : ∀ {b : BlobId} {t : Nat}, s.blobs[b]? = some t → t ≤ s.now
  roots : ∀ {name : String} {root : DbRoot} {b : BlobId}, s.roots[name]? = some root → root.index.Reaches c b →
    Guarded c M s.blobs s.collections name b
  collections : ∀ {node : Nat} {g : Collection}, s.collections[node]? = some g → Collection.Sound c M s.now g
  passes : ∀ {key : String × Nat} {p : Pass}, s.passes[key]? = some p → Pass.Sound c D M s.now s.blobs s.roots key p

end

variable {c : Config} {D M : Nat} {s s' : Sys}

variable {blobs : Std.ExtTreeMap BlobId Nat} {b : BlobId}

theorem Fresh.mem {n : Nat} (h : Fresh c blobs n b) : b ∈ blobs := by
  obtain ⟨t, ht, _⟩ := h
  exact Std.ExtTreeMap.mem_iff_isSome_getElem?.mpr (by rw [ht]; rfl)

theorem Fresh.earlier {n m : Nat} (h : Fresh c blobs n b) (hm : m ≤ n) :
    Fresh c blobs m b := by
  obtain ⟨t, ht, hlt⟩ := h
  exact ⟨t, ht, fun hd => Nat.lt_of_le_of_lt hm (hlt hd)⟩

theorem Fresh.setBlob {n now : Nat} {id b : BlobId}
    (hw : ∀ {t : Nat}, blobs[b]? = some t → t ≤ now) (h : Fresh c blobs n b) :
    Fresh c (blobs.insert id now) n b := by
  obtain ⟨t, ht, hlt⟩ := h
  by_cases hb : id = b
  · refine ⟨now, getElem?_insert_eq_some.mpr (.inl ⟨hb, rfl⟩), fun hd => ?_⟩
    have := hw ht
    have := hlt hd
    omega
  · exact ⟨t, getElem?_insert_eq_some.mpr (.inr ⟨hb, ht⟩), hlt⟩

theorem Fresh.erase {n : Nat} {id b : BlobId} (h : Fresh c blobs n b) (hne : id ≠ b) :
    Fresh c (blobs.erase id) n b := by
  obtain ⟨t, ht, hlt⟩ := h
  exact ⟨t, getElem?_erase_eq_some.mpr ⟨hne, ht⟩, hlt⟩

/-- A sweep spares what is fresh at its time. -/
theorem Fresh.not_oldEnough {n t : Nat} (h : Fresh c blobs n b)
    (hr : 0 < c.retention) (ht : blobs[b]? = some t) : Sys.oldEnough c n t = false := by
  obtain ⟨t', ht', hlt⟩ := h
  obtain rfl := Option.some.inj (ht.symm.trans ht')
  have hr : c.retention ≠ 0 := by omega
  cases hd : c.dated with
  | false => simp [Sys.oldEnough, hd, hr]
  | true =>
    have := hlt hd
    simp only [Sys.oldEnough, hr, hd, decide_false, Bool.false_or, Bool.true_and, decide_eq_false_iff_not]
    omega

/-! ## Steps that change one part -/

namespace Safe

theorem setPass (hs : Safe c D M s) {key : String × Nat} {p : Pass}
    (hp : Pass.Sound c D M s.now s.blobs s.roots key p) : Safe c D M { s with passes := s.passes.insert key p } where
  written := hs.written
  roots := hs.roots
  collections := hs.collections
  passes := by
    intro key' p' h
    rcases getElem?_insert_eq_some.mp h with ⟨rfl, rfl⟩ | ⟨_, h⟩
    · exact hp
    · exact hs.passes h

theorem endPass (hs : Safe c D M s) (key : String × Nat) : Safe c D M { s with passes := s.passes.erase key } where
  written := hs.written
  roots := hs.roots
  collections := hs.collections
  passes h := hs.passes (getElem?_erase_eq_some.mp h).2

theorem setCollection (hs : Safe c D M s) {node : Nat} {g : Collection} (hg : Collection.Sound c M s.now g)
    (hroots : ∀ (name : String) (root : DbRoot) (b : BlobId), s.roots[name]? = some root → root.index.Reaches c b →
      name ∈ g.names ∨ g.walk.Will c.children b ∨ Fresh c s.blobs (g.started + M) b) :
    Safe c D M { s with collections := s.collections.insert node g } where
  written := hs.written
  roots := by
    intro name root b hr hb
    refine ⟨(hs.roots hr hb).1, fun node' g' h => ?_⟩
    rcases getElem?_insert_eq_some.mp h with ⟨rfl, rfl⟩ | ⟨_, h⟩
    · exact hroots name root b hr hb
    · exact (hs.roots hr hb).2 _ _ h
  collections := by
    intro node' g' h
    rcases getElem?_insert_eq_some.mp h with ⟨rfl, rfl⟩ | ⟨_, h⟩
    · exact hg
    · exact hs.collections h
  passes := hs.passes

theorem endCollection (hs : Safe c D M s) (node : Nat) :
    Safe c D M { s with collections := s.collections.erase node } where
  written := hs.written
  roots hr hb := ⟨(hs.roots hr hb).1, fun _ _ h => (hs.roots hr hb).2 _ _ (getElem?_erase_eq_some.mp h).2⟩
  collections h := hs.collections (getElem?_erase_eq_some.mp h).2
  passes := hs.passes

/-- A root is replaced by one whose blobs the database's root already guards, above every pass over it. -/
theorem setRoot (hs : Safe c D M s) {name : String} {root : DbRoot}
    (hroot : ∀ b, root.index.Reaches c b → Guarded c M s.blobs s.collections name b)
    (hpasses : ∀ (key : String × Nat) (p : Pass), s.passes[key]? = some p → key.1 = name → key.2 < root.leaseVersion) :
    Safe c D M { s with roots := s.roots.insert name root } where
  written := hs.written
  roots := by
    intro name' root' b hr hb
    rcases getElem?_insert_eq_some.mp hr with ⟨rfl, rfl⟩ | ⟨_, hr⟩
    · exact hroot b hb
    · exact hs.roots hr hb
  collections := hs.collections
  passes := by
    intro key p h
    have hp := hs.passes h
    refine ⟨hp.started, ?_, hp.absent⟩
    by_cases hk : key.1 = name
    · have hlt := hpasses key p h hk
      refine ⟨root, getElem?_insert_eq_some.mpr (.inl ⟨hk.symm, rfl⟩), hlt.le, fun _ _ _ => ?_⟩
      exact .inr (.inr fun heq => absurd heq (Nat.ne_of_gt hlt))
    · obtain ⟨root', hroot', hle, hheld⟩ := hp.held
      exact ⟨root', getElem?_insert_eq_some.mpr (.inr ⟨Ne.symm hk, hroot'⟩), hle, hheld⟩

theorem tick (hs : Safe c D M s) (d : Nat) : Safe c D M { s with now := s.now + d } where
  written h := (hs.written h).trans (Nat.le_add_right _ _)
  roots := hs.roots
  collections h := { hs.collections h with started := (hs.collections h).started.trans (Nat.le_add_right _ _) }
  passes := by
    intro key p h
    obtain ⟨root, hroot, hle, hheld⟩ := (hs.passes h).held
    exact { hs.passes h with
      started := (hs.passes h).started.trans (Nat.le_add_right _ _)
      held := ⟨root, hroot, hle, fun hnow => hheld ((Nat.le_add_right _ _).trans hnow)⟩ }

theorem acquire (hs : Safe c D M s) {name : String} {version : Nat} (h : s.acquire name version = some s') :
    Safe c D M s' := by
  unfold Sys.acquire at h
  cases hroot : s.roots[name]? with
  | none =>
    rw [hroot] at h
    cases h
    refine hs.setRoot (fun b hb => ?_) fun key p hp hk => ?_
    · obtain ⟨a, ha, _⟩ := hb
      cases ha
    · obtain ⟨root, hr, _⟩ := (hs.passes hp).held
      rw [hk, hroot] at hr
      cases hr
  | some root =>
    simp only [hroot] at h
    split at h
    case isFalse => cases h
    case isTrue hlt =>
      cases h
      refine hs.setRoot (fun b hb => hs.roots hroot hb) fun key p hp hk => ?_
      obtain ⟨root', hr, hle, _⟩ := (hs.passes hp).held
      rw [hk, hroot] at hr
      obtain rfl := Option.some.inj hr
      exact Nat.lt_of_le_of_lt hle hlt

end Safe

/-! ## Publications -/

/-- What a plan's manifests lead to is uploaded or comes from the stored root. -/
theorem Plan.mem_uploads_of_reaches {p : Plan} {stored : IndexRoots} (h : p.fits c stored = true)
    (hb : p.index.Reaches c b) : b ∈ p.orders.flatMap (·.uploads) ∨ stored.Reaches c b := by
  obtain ⟨a, ha, hab⟩ := hb
  have hmanifest : ∃ o ∈ p.orders, o.manifest = a := by
    simp only [Plan.index, IndexRoots.ids, Option.getD_some, mem_append, mem_map] at ha
    rcases ha with ⟨o, ho, rfl⟩ | ha
    · exact ⟨o, mem_append_left _ ho, rfl⟩
    · cases hh : p.history with
      | none => simp [hh] at ha
      | some history =>
        simp only [hh, Option.map_some, Option.getD_some, mem_map] at ha
        obtain ⟨o, ho, rfl⟩ := ha
        exact ⟨o, mem_append_right _ (by rwa [hh]), rfl⟩
  obtain ⟨o, ho, rfl⟩ := hmanifest
  have hfits := all_eq_true.mp h o ho
  simp only [Bool.and_eq_true, decide_eq_true_eq, all_eq_true] at hfits
  -- a manifest, one of its chunks, and no further
  rcases Relation.ReflTransGen.cases_head hab with rfl | ⟨x, hx, hxb⟩
  · exact .inl (mem_flatMap.mpr ⟨o, ho, mem_append_right _ (mem_singleton_self _)⟩)
  · rw [hfits.1] at hx
    obtain ⟨chunk, hchunk, rfl⟩ := mem_map.mp hx
    have hchunkFits := hfits.2 chunk hchunk
    have hleaf : c.children chunk.id = [] := by
      cases chunk <;> simp_all [ChunkPlan.fits, ChunkPlan.id]
    have hxb : chunk.id = b := by
      rcases Relation.ReflTransGen.cases_head hxb with h | ⟨y, hy, _⟩
      · exact h
      · simp [hleaf] at hy
    subst hxb
    cases chunk with
    | rebuilt id =>
      refine .inl (mem_flatMap.mpr ⟨o, ho, mem_append_left _ (mem_filterMap.mpr ⟨_, hchunk, rfl⟩)⟩)
    | published id =>
      simp only [ChunkPlan.fits, Bool.and_eq_true, contains_iff_mem, mem_flatMap] at hchunkFits
      obtain ⟨m, hm, hid⟩ := hchunkFits.2
      exact .inr ⟨m, hm, .single hid⟩

/-- The blob a pass skips is one the stored root keeps, or was written late enough to last until the pass is over. -/
def Skips (c : Config) (D M : Nat) (s : Sys) (name : String) (started : Nat) (id : BlobId) : Prop :=
  (∃ root, s.roots[name]? = some root ∧ root.index.Reaches c id) ∨ Fresh c s.blobs (started + D + M) id

/-- A pass installs within `D` of its start, and skips no blob that may go in that time; a walk takes at most `M`. -/
def Timely (c : Config) (D M : Nat) (s : Sys) : Event → Prop
  | .probe pass => ∀ p id rest, s.passes[pass]? = some p → p.todo = id :: rest → id ∈ s.blobs →
      Skips c D M s pass.1 p.started id
  | .install pass => ∀ p, s.passes[pass]? = some p → s.now ≤ p.started + D
  | .sweepFrom node => ∀ g, s.collections[node]? = some g → s.now ≤ g.started + M
  | _ => True

namespace Safe

theorem begin (hs : Safe c D M s) {node version : Nat} {name : String} {plan : Plan}
    (h : s.begin c node name version plan = some s') : Safe c D M s' := by
  unfold Sys.begin at h
  cases hroot : s.roots[name]? with
  | none => simp [hroot] at h
  | some root =>
    simp only [hroot] at h
    split at h
    case isFalse => cases h
    case isTrue hguard =>
      cases h
      obtain ⟨hversion, _, _, hfits⟩ := hguard
      refine hs.setPass ⟨le_rfl, ⟨root, hroot, hversion.ge, fun _ b hb => ?_⟩, nofun⟩
      exact (Plan.mem_uploads_of_reaches hfits hb).imp_right fun hr => .inr fun _ => hr

/-- The next upload of a pass is done. -/
theorem uploaded (hs : Safe c D M s) {pass : String × Nat} {p : Pass} {id : BlobId} {rest : List BlobId}
    (hp : s.passes[pass]? = some p) (htodo : p.todo = id :: rest) (hid : Skips c D M s pass.1 p.started id) :
    Safe c D M { s with passes := s.passes.insert pass { p with todo := rest, absent := false } } := by
  obtain ⟨root, hroot, hle, hheld⟩ := (hs.passes hp).held
  refine hs.setPass ⟨(hs.passes hp).started, ⟨root, hroot, hle, fun hnow b hb => ?_⟩, nofun⟩
  rcases hheld hnow b hb with hb | hb
  · rw [htodo] at hb
    rcases mem_cons.mp hb with rfl | hb
    · rcases hid with ⟨root', hroot', hr⟩ | hf
      · obtain rfl := Option.some.inj (hroot.symm.trans hroot')
        exact .inr (.inr fun _ => hr)
      · exact .inr (.inl hf)
    · exact .inl hb
  · exact .inr hb

theorem probe (hs : Safe c D M s) {pass : String × Nat} (ht : Timely c D M s (.probe pass))
    (h : s.probe pass = some s') : Safe c D M s' := by
  unfold Sys.probe at h
  cases hp : s.passes[pass]? with
  | none => simp [hp] at h
  | some p =>
    simp only [hp] at h
    cases htodo : p.todo with
    | nil => simp [htodo] at h
    | cons id rest =>
      simp only [htodo] at h
      split at h
      · cases h
      split at h
      case isTrue hid =>
        cases h
        exact hs.uploaded hp htodo (ht p id rest hp htodo hid)
      case isFalse hid =>
        cases h
        obtain ⟨root, hroot, hle, hheld⟩ := (hs.passes hp).held
        refine hs.setPass ⟨(hs.passes hp).started, ⟨root, hroot, hle, htodo ▸ hheld⟩, fun _ id' _ htodo' _ hw => ?_⟩
        obtain ⟨rfl, _⟩ := List.cons.inj htodo'
        exact absurd (Std.ExtTreeMap.mem_iff_isSome_getElem?.mpr (by rw [hw]; rfl)) hid

/-- A blob is written: the rest stay as they are. -/
theorem setBlob (hs : Safe c D M s) (id : BlobId) : Safe c D M { s with blobs := s.blobs.insert id s.now } where
  written := by
    intro b t h
    rcases getElem?_insert_eq_some.mp h with ⟨_, rfl⟩ | ⟨_, h⟩
    · exact le_rfl
    · exact hs.written h
  roots := by
    intro name root b hr hb
    obtain ⟨hmem, hall⟩ := hs.roots hr hb
    exact ⟨Std.ExtTreeMap.mem_insert.mpr (.inr hmem), fun node g hg =>
      (hall node g hg).imp_right (.imp_right (.setBlob hs.written))⟩
  collections := hs.collections
  passes := by
    intro key p h
    obtain ⟨root, hroot, hle, hheld⟩ := (hs.passes h).held
    refine ⟨(hs.passes h).started, ⟨root, hroot, hle, fun hnow b hb => ?_⟩, fun habsent id' rest htodo t ht => ?_⟩
    · exact (hheld hnow b hb).imp_right (.imp_left (.setBlob hs.written))
    · rcases getElem?_insert_eq_some.mp ht with ⟨_, rfl⟩ | ⟨_, ht⟩
      · exact (hs.passes h).started
      · exact (hs.passes h).absent habsent id' rest htodo t ht

theorem put (hs : Safe c D M s) (hpace : D + M < c.retention) {pass : String × Nat} (h : s.put c pass = some s') :
    Safe c D M s' := by
  unfold Sys.put at h
  cases hp : s.passes[pass]? with
  | none => simp [hp] at h
  | some p =>
    simp only [hp] at h
    cases htodo : p.todo with
    | nil => simp [htodo] at h
    | cons id rest =>
      have hsound := hs.passes hp
      simp only [htodo] at h
      split at h
      case isFalse => cases h
      case isTrue habsent =>
        cases h
        split
        case isTrue hkept =>
          -- it was absent when this pass looked, so whoever wrote it did so after the pass began
          obtain ⟨t, ht⟩ := Option.isSome_iff_exists.mp (Std.ExtTreeMap.mem_iff_isSome_getElem?.mp hkept.1)
          have := hsound.absent habsent id rest htodo t ht
          exact hs.uploaded hp htodo (.inr ⟨t, ht, fun _ => by omega⟩)
        case isFalse =>
          have := hsound.started
          refine (hs.setBlob id).uploaded hp htodo (.inr ⟨s.now, ?_, fun _ => by omega⟩)
          exact getElem?_insert_eq_some.mpr (.inl ⟨rfl, rfl⟩)

theorem install (hs : Safe c D M s) {pass : String × Nat} (ht : Timely c D M s (.install pass))
    (h : s.install pass = some s') : Safe c D M s' := by
  unfold Sys.install at h
  cases hp : s.passes[pass]? with
  | none => simp [hp] at h
  | some p =>
    simp only [hp] at h
    split at h
    · cases h
    rename_i htodo
    have htodo : p.todo = [] := not_not.mp htodo
    obtain ⟨root, hroot, hle, hheld⟩ := (hs.passes hp).held
    simp only [hroot] at h
    split at h
    · cases h
      exact hs.endPass pass
    split at h
    · cases h
      exact hs.endPass pass
    rename_i hdeposed
    split at h
    · cases h
      exact hs.endPass pass
    cases h
    have hlease : root.leaseVersion = pass.2 := by omega
    refine (hs.endPass pass).setRoot (fun b hb => ?_) fun key q hq hk => ?_
    · rcases hheld (ht p hp) b hb with hb | hb | hb
      · simp [htodo] at hb
      · refine ⟨hb.mem, fun node g hg => .inr (.inr (hb.earlier ?_))⟩
        have := (hs.collections hg).started
        have := ht p hp
        omega
      · exact hs.roots hroot (hb hlease)
    · obtain ⟨hne, hq⟩ := getElem?_erase_eq_some.mp hq
      obtain ⟨root', hroot', hle', _⟩ := (hs.passes hq).held
      rw [hk, hroot] at hroot'
      obtain rfl := Option.some.inj hroot'
      refine lt_of_le_of_ne (hlease ▸ hle') fun heq => hne (Prod.ext hk.symm heq.symm)

end Safe

/-! ## Collections -/

theorem IndexRoots.mem_toMark {x : IndexRoots} {a : BlobId} (h : a ∈ x.ids) : a ∈ x.toMark := by
  have hwhole := x.whole
  unfold IndexRoots.ids at h
  unfold IndexRoots.toMark
  cases hr : x.roots with
  | none =>
    rw [hr] at hwhole h
    cases hh : x.historyRoots with
    | none => simp [hh] at h
    | some history =>
      rw [hh] at hwhole
      exact absurd (hwhole rfl) (by decide)
  | some roots => simpa [hr] using h

namespace Safe

variable {node : Nat}

theorem collect (hs : Safe c D M s) (h : s.collect node = some s') : Safe c D M s' := by
  unfold Sys.collect at h
  split at h
  · cases h
  cases h
  refine hs.setCollection ⟨le_rfl, nofun, nofun⟩ fun name root _ hroot _ => .inl ?_
  exact Std.ExtTreeMap.mem_keys.mpr (Std.ExtTreeMap.mem_iff_isSome_getElem?.mpr (by rw [hroot]; rfl))

theorem mark (hs : Safe c D M s) (h : s.mark c node = some s') : Safe c D M s' := by
  unfold Sys.mark at h
  cases hg : s.collections[node]? with
  | none => simp [hg] at h
  | some g =>
    simp only [hg] at h
    have hsound := hs.collections hg
    cases hpending : g.walk.pending with
    | cons id rest =>
      -- the sweep has not begun: something is left to visit
      have hsweep : ∀ n, g.sweeping ≠ some n := fun n hn => by simp [(hsound.sweeping n hn).2.2] at hpending
      simp only [hpending] at h
      split at h
      case isTrue hmarked =>
        cases h
        refine hs.setCollection ⟨hsound.started, hsound.closed.skip hpending hmarked, fun n hn => absurd hn (hsweep n)⟩ ?_
        intro name root b hroot hb
        exact ((hs.roots hroot hb).2 node g hg).imp_right (.imp_left (·.skip hpending hmarked))
      case isFalse =>
        split at h
        · cases h
          refine hs.setCollection ⟨hsound.started, hsound.closed.visit hpending, fun n hn => absurd hn (hsweep n)⟩ ?_
          intro name root b hroot hb
          exact ((hs.roots hroot hb).2 node g hg).imp_right (.imp_left (·.visit hpending))
        · cases h
          exact hs.endCollection node
    | nil =>
      simp only [hpending] at h
      cases hnames : g.names with
      | nil => simp [hnames] at h
      | cons name names =>
        have hsweep : ∀ n, g.sweeping ≠ some n := fun n hn => by simp [(hsound.sweeping n hn).2.1] at hnames
        simp only [hnames] at h
        cases h
        refine hs.setCollection ⟨hsound.started, hsound.closed.push _, fun n hn => absurd hn (hsweep n)⟩ ?_
        intro name' root b hroot hb
        rcases (hs.roots hroot hb).2 node g hg with hname | hwill | hfresh
        · rw [hnames] at hname
          rcases mem_cons.mp hname with rfl | hname
          · obtain ⟨a, ha, hab⟩ := hb
            refine .inr (.inl (Walk.will_push ?_ hab))
            rw [hroot]
            exact IndexRoots.mem_toMark ha
          · exact .inl hname
        · exact .inr (.inl (hwill.push _))
        · exact .inr (.inr hfresh)

theorem sweepFrom (hs : Safe c D M s) (ht : Timely c D M s (.sweepFrom node))
    (h : s.sweepFrom node = some s') : Safe c D M s' := by
  unfold Sys.sweepFrom at h
  cases hg : s.collections[node]? with
  | none => simp [hg] at h
  | some g =>
    simp only [hg] at h
    split at h
    case isFalse => cases h
    case isTrue hover =>
      cases h
      have hsound := hs.collections hg
      refine hs.setCollection ⟨hsound.started, hsound.closed, fun n hn => ?_⟩ ?_
      · obtain rfl := Option.some.inj hn
        exact ⟨ht g hg, hover.2.1, hover.1⟩
      · exact fun name root b hroot hb => (hs.roots hroot hb).2 node g hg

/-- What a sweep deletes no root leads to, and no pass in time relies on. -/
theorem sweep (hs : Safe c D M s) (hpace : D + M < c.retention) {id : BlobId}
    (h : s.sweep c node id = some s') : Safe c D M s' := by
  unfold Sys.sweep at h
  cases hg : s.collections[node]? with
  | none => simp [hg] at h
  | some g =>
    simp only [hg] at h
    have hsound := hs.collections hg
    split at h
    case h_2 => cases h
    case h_1 n written hn hwritten =>
      split at h
      case isFalse => cases h
      case isTrue hold =>
        cases h
        obtain ⟨hmarked, hold⟩ := hold
        obtain ⟨hle, hnames, hpending⟩ := hsound.sweeping n hn
        have hstale : ∀ {m}, n ≤ m → ¬Fresh c s.blobs m id := fun hm hf => by
          have := (hf.earlier hm).not_oldEnough (by omega) hwritten
          simp [this] at hold
        refine ⟨fun h => hs.written (getElem?_erase_eq_some.mp h).2, fun {name root b} hroot hb => ?_, hs.collections,
          fun {key p} hp => ?_⟩
        · obtain ⟨hmem, hall⟩ := hs.roots hroot hb
          have hne : id ≠ b := by
            rintro rfl
            rcases hall node g hg with hname | hwill | hfresh
            · simp [hnames] at hname
            · exact hmarked (hsound.closed.marked_of_will hpending hwill)
            · exact hstale hle hfresh
          refine ⟨Std.ExtTreeMap.mem_erase.mpr ⟨fun h => hne (eq_of_compare_eq h), hmem⟩, fun node' g' hg' => ?_⟩
          exact (hall node' g' hg').imp_right (.imp_right (·.erase hne))
        · obtain ⟨root, hroot, hversion, hheld⟩ := (hs.passes hp).held
          refine ⟨(hs.passes hp).started, ⟨root, hroot, hversion, fun hnow b hb => ?_⟩, fun habsent id' rest htodo t ht => ?_⟩
          · refine (hheld hnow b hb).imp_right (.imp_left fun hfresh => hfresh.erase ?_)
            rintro rfl
            have hstarted := hsound.started
            have hnow : s.now ≤ p.started + D := hnow
            exact hstale (by omega) hfresh
          · exact (hs.passes hp).absent habsent id' rest htodo t (getElem?_erase_eq_some.mp ht).2

theorem step (hs : Safe c D M s) (hpace : D + M < c.retention) {e : Event} (ht : Timely c D M s e)
    (h : s.step c e = some s') : Safe c D M s' := by
  cases e with
  | tick d =>
    cases h
    exact hs.tick d
  | acquire name version => exact hs.acquire h
  | begin node name version plan => exact hs.begin h
  | probe pass => exact hs.probe ht h
  | put pass => exact hs.put hpace h
  | install pass => exact hs.install ht h
  | abandon pass =>
    cases h
    exact hs.endPass pass
  | collect node => exact hs.collect h
  | mark node => exact hs.mark h
  | sweepFrom node => exact hs.sweepFrom ht h
  | sweep node id => exact hs.sweep hpace h
  | finish node =>
    cases h
    exact hs.endCollection node

end Safe

/-- A run, checked event by event. -/
def Sys.run (c : Config) (check : Sys → Event → Bool) (s : Sys) (events : List Event) : Option Sys :=
  events.foldlM (fun s e => if check s e then s.step c e else none) s

theorem Sys.Reaches.run {P : Sys → Event → Prop} {check : Sys → Event → Bool} (hcheck : ∀ s e, check s e = true → P s e)
    (hs : Sys.Reaches c P s) {events : List Event} (h : s.run c check events = some s') : Sys.Reaches c P s' := by
  induction events generalizing s with
  | nil =>
    cases h
    exact hs
  | cons e events ih =>
    simp only [Sys.run, foldlM_cons, Option.bind_eq_bind, Option.bind_eq_some_iff] at h
    obtain ⟨s₁, h₁, h⟩ := h
    split at h₁
    case isFalse => cases h₁
    case isTrue hc => exact ih (hs.step (hcheck _ _ hc) h₁) h

/-- A publication is over within the retention. -/
def InTime (c : Config) (s : Sys) : Event → Prop
  | .install pass => ∀ p, s.passes[pass]? = some p → s.now ≤ p.started + c.retention
  | _ => True

namespace CollectExample

def manifests : BlobId → List BlobId
  | "m1" => ["x"]
  | "m2" => ["y"]
  | "m3" => ["x", "z"]
  | _ => []

def config : Config := { children := manifests, retention := 10, dated := true, overwrites := true }

def plan (basisT : Nat) (chunks : List BlobId) (manifest : BlobId) : Plan :=
  { basisT, carry := false, current := [⟨chunks.map .rebuilt, manifest⟩], history := none }

def inTime (s : Sys) : Event → Bool
  | .install pass => s.passes[pass]?.all fun p => s.now ≤ p.started + config.retention
  | _ => true

theorem inTime_sound (s : Sys) (e : Event) (h : inTime s e = true) : InTime config s e := by
  cases e with
  | install pass =>
    intro p hp
    simpa [inTime, hp] using h
  | _ => trivial

/-- Uploads a blob that is not there. -/
def upload : List Event := [.probe ("db", 1), .put ("db", 1)]

/-- A publication of one new chunk and its manifest. -/
def publish (basisT : Nat) (chunk manifest : BlobId) : List Event :=
  .begin 1 "db" 1 (plan basisT [chunk] manifest) :: upload ++ upload ++ [.install ("db", 1)]

/-- The other node walks a root with one manifest of one chunk, up to the sweep. -/
def walk : List Event := [.collect 2, .mark 2, .mark 2, .mark 2, .sweepFrom 2]

/-- The third publication finds `x` of the first one, and a sweep deletes it before the root is installed. -/
def skipped : List Event :=
  .acquire "db" 1 :: publish 1 "x" "m1" ++ publish 2 "y" "m2" ++
    [.tick 20, .begin 1 "db" 1 (plan 3 ["x", "z"] "m3"), .probe ("db", 1)] ++ walk ++ [.sweep 2 "x"] ++
    upload ++ upload ++ [.install ("db", 1)]

/-- A collection reads the root, a publication comes and goes, and the sweep goes by the time after the walk. -/
def slow : List Event :=
  [.acquire "db" 1, .collect 2, .mark 2] ++ publish 1 "x" "m1" ++ [.tick 20, .sweepFrom 2, .sweep 2 "x"]

def broken (s : Sys) (b : BlobId) : Bool :=
  (s.roots["db"]?.any fun root => root.index.ids.any fun m => (manifests m).contains b) && !s.blobs.contains b

theorem not_whole {s : Sys} {b : BlobId} (h : broken s b = true) : ¬s.Whole config := by
  intro hwhole
  unfold broken at h
  cases hroot : s.roots["db"]? with
  | none => simp [hroot] at h
  | some root =>
    simp only [hroot, Option.any_some, Bool.and_eq_true, any_eq_true, contains_iff_mem, Bool.not_eq_true'] at h
    obtain ⟨⟨m, hm, hb⟩, habsent⟩ := h
    have := Std.ExtTreeMap.mem_iff_contains.mp (hwhole "db" root b hroot ⟨m, hm, .single hb⟩)
    simp [habsent] at this

/-- A run whose end breaks a root. -/
theorem breaks {events : List Event} {b : BlobId} (h : (Sys.run config inTime .empty events).any (broken · b) = true) :
    ∃ s, Sys.Reaches config (InTime config) s ∧ ¬s.Whole config := by
  obtain ⟨s, hs, hb⟩ := (Option.any_eq_true _ _).mp h
  exact ⟨s, .run inTime_sound .empty hs, not_whole hb⟩

/-- The same with no blob skipped: the sweep goes by the time after its walk. -/
theorem a_slow_walk_sweeps_a_fresh_blob : ∃ s, Sys.Reaches config (InTime config) s ∧ ¬s.Whole config :=
  breaks (show (Sys.run config inTime .empty slow).any (broken · "x") = true by decide)

end CollectExample

end Corium.Store
