/-
  Corium.Db.Cached — the materialised indexes of database values
  (`indexes`, `with_view`, `fold_class`, `apply_transaction` and `apply_current` of
  `crates/corium-db/src/lib.rs`).

  A value's four indexes are folded on first read and kept in a cell. Clones share the
  cell, so do two views of one value that select the same datoms, and a transaction
  that changes no schema fills its value's cell from the parent's. Whatever is read
  from a cell is the fold of the reader's own datoms (`reads_are_the_fold`), as long as
  attributes are described on db-partition entities: that is how a change of schema is
  told from a name. A description elsewhere leaves AVET half filled
  (`a_described_user_entity_is_half_indexed`).
-/

import Corium.Db.Views

namespace Corium

open Corium.Core Corium.Lib Bootstrap List

abbrev Indexes := IndexOrder → Index

/-- One datom of a transaction, in the orders that cover it. -/
def applyCurrentStep (schema : Schema) (indexes : Indexes) (d : Datom) : Indexes := fun order =>
  if covered schema order d then
    if d.added then (indexes order).insert (liveKey order d) d else (indexes order).erase (liveKey order d)
  else indexes order

def applyCurrent (schema : Schema) (indexes : Indexes) (datoms : List Datom) : Indexes :=
  datoms.foldl (applyCurrentStep schema) indexes

/-- The view whose fold a view shares: nothing is recorded past the basis, or at zero. -/
def Db.foldClass (db : Db) : DbView → DbView
  | .asOf t => if db.basisT ≤ t then .current else .asOf t
  | .since 0 => .current
  | view => view

/-- Cells that are filled at most once. -/
abbrev Cells := List (Option Indexes)

/-- A value and the cell of its indexes. -/
structure Handle where
  db : Db
  cell : Nat

/-- What a transaction at `t` records: its datoms, and its instant where they assert none. -/
def recordedAt (t : Nat) (instant : Int64) (datoms : List Datom) : List Datom :=
  match assertedInstant t datoms with
  | some _ => datoms
  | none => datoms ++ [txInstantDatom t instant]

namespace Handle

/-- What is read, and the cells after it. -/
def indexes (h : Handle) (cells : Cells) : Indexes × Cells :=
  match cells[h.cell]? with
  | some (some filled) => (filled, cells)
  | _ => (h.db.index, cells.set h.cell (some h.db.index))

def datomsAt (h : Handle) (cells : Cells) (order : IndexOrder) : List Datom := indexValues ((h.indexes cells).1 order)

def withView (h : Handle) (view : DbView) (cells : Cells) : Handle × Cells :=
  if view = h.db.view then (h, cells)
  else if h.db.foldClass view = h.db.foldClass h.db.view then (⟨h.db.withView view, h.cell⟩, cells)
  else (⟨h.db.withView view, cells.length⟩, cells ++ [none])

/-- What a transaction leaves in its value's cell: nothing where it changes the schema. -/
def derived (h : Handle) (datoms : List Datom) (cells : Cells) : Option Indexes :=
  match cells[h.cell]? with
  | some (some parent) =>
    if SchemaDatoms.changesSchema datoms then none else some (applyCurrent h.db.schema parent datoms)
  | _ => none

def withTransactionAt (h : Handle) (t : Nat) (instant : Int64) (datoms : List Datom) (cells : Cells) : Handle × Cells :=
  (⟨h.db.withTransactionAt t instant datoms, cells.length⟩, cells ++ [h.derived (recordedAt t instant datoms) cells])

end Handle

/-! ## One transaction -/

section Fold

variable {schema : Schema} {order : IndexOrder}
variable {d : Datom}

theorem covered_of_fact {d' : Datom} (h : d.fact = d'.fact) : covered schema order d = covered schema order d' := by
  have ha : d.a = d'.a := congrArg (·.2.1) h
  have hv : d.v = d'.v := congrArg (·.2.2) h
  unfold covered
  rw [ha, hv]

/-- Folding an order by itself: the datoms it covers, in the order recorded. -/
def foldCovered (schema : Schema) (order : IndexOrder) (index : Index) (datoms : List Datom) : Index :=
  replay (liveKey order) (fun d => if d.added then some d else none) index (datoms.filter (covered schema order))

theorem getElem?_foldCovered (datoms : List Datom) (f : Fact) : (foldCovered schema order ∅ datoms)[factComponents order f]? =
    (liveDatom datoms f).filter (covered schema order) := by
  unfold foldCovered liveDatom lastDatom
  rw [getElem?_replay_empty, funext (liveKey_eq order), lastOn_map_key (factComponents_injective order)]
  cases hl : lastOn Datom.fact f datoms with
  | none =>
    have hno := lastOn_eq_none_iff.mp hl
    rw [lastOn_eq_none_iff.mpr fun d hd => hno d (mem_filter.mp hd).1]
    rfl
  | some d =>
    -- coverage is of the fact, so the filter keeps or drops all its datoms
    rw [lastOn_filter_key (covered schema order) (covered schema order d)
      fun x _ hx => covered_of_fact (hx.trans (key_of_lastOn hl).symm), hl]
    cases hc : covered schema order d <;> cases hd : d.added <;> simp [Option.filter, hc, hd]

theorem foldCovered_some {datoms : List Datom} {k : Bytes} : (foldCovered schema order ∅ datoms)[k]? = some d ↔
    k = factComponents order d.fact ∧ covered schema order d = true ∧ liveDatom datoms d.fact = some d := by
  have hkey : (foldCovered schema order ∅ datoms)[k]? = some d → k = factComponents order d.fact := by
    intro h
    unfold foldCovered at h
    rw [getElem?_replay_empty] at h
    obtain ⟨x, hx, hd⟩ := Option.bind_eq_some_iff.mp h
    split at hd
    · cases hd
      rw [← key_of_lastOn hx, liveKey_eq]
    · cases hd
  constructor
  · intro h
    have hk := hkey h
    rw [hk, getElem?_foldCovered] at h
    obtain ⟨hl, hc⟩ := Option.filter_eq_some_iff.mp h
    exact ⟨hk, hc, hl⟩
  · rintro ⟨rfl, hc, hl⟩
    rw [getElem?_foldCovered]
    exact Option.filter_eq_some_iff.mpr ⟨hl, hc⟩

/-- The live fold, projected, is each order's own fold. -/
theorem Db.index_eq_foldCovered {db : Db} (hv : db.view = .current) (order : IndexOrder) :
    db.index order = foldCovered db.schema order ∅ db.recorded := by
  apply Std.ExtTreeMap.ext_getElem?
  intro k
  apply Option.ext
  intro d
  rw [db.index_some (Db.showsLive_of_current hv), foldCovered_some, Db.mem_live_iff hv]

theorem applyCurrent_eq_foldCovered (indexes : Indexes) (datoms : List Datom) :
    applyCurrent schema indexes datoms order = foldCovered schema order (indexes order) datoms := by
  induction datoms generalizing indexes with
  | nil => rfl
  | cons d datoms ih =>
    have hstep : applyCurrent schema indexes (d :: datoms) = applyCurrent schema (applyCurrentStep schema indexes d) datoms := rfl
    rw [hstep, ih]
    unfold foldCovered
    cases hc : covered schema order d with
    | false => rw [filter_cons_of_neg (by simp [hc]), applyCurrentStep, hc]; rfl
    | true =>
      rw [filter_cons_of_pos hc, replay, replay, foldl_cons, applyCurrentStep, hc]
      cases hd : d.added <;> simp [applyEvent, hd]

theorem foldCovered_append (xs ys : List Datom) :
    foldCovered schema order ∅ (xs ++ ys) = foldCovered schema order (foldCovered schema order ∅ xs) ys := by
  unfold foldCovered
  rw [filter_append, replay_append]

end Fold

/-- Attributes are described on db-partition entities; elsewhere there are only names. -/
def DescribesInDb (datoms : List Datom) : Prop :=
  ∀ d ∈ datoms, isSchemaAttribute d.a = true → d.a = ident ∨ d.e.inPartition .db = true

namespace Db

theorem withTransactionAt_eq (db : Db) (t : Nat) (instant : Int64) (datoms : List Datom) :
    ∃ instants, db.withTransactionAt t instant datoms =
      { db.applyTransaction t (recordedAt t instant datoms) with instants } := by
  unfold withTransactionAt recordedAt
  cases h : assertedInstant t datoms with
  | some asserted => exact ⟨_, rfl⟩
  | none => exact ⟨_, rfl⟩

end Db

variable {datoms : List Datom}

theorem DescribesInDb.stamped {t : Nat} {instant : Int64} (h : DescribesInDb datoms) :
    DescribesInDb (recordedAt t instant datoms) := by
  unfold recordedAt
  cases hasserted : assertedInstant t datoms with
  | some asserted => exact h
  | none =>
    intro d hd hs
    rcases mem_append.mp hd with hd | hd
    · exact h d hd hs
    · rw [mem_singleton.mp hd] at hs
      exact absurd hs (by decide : ¬ isSchemaAttribute txInstant = true)

/-- A transaction on a value whose indexes are there: the new value's own fold. -/
theorem applyCurrent_eq_index {db : Db} (hv : db.view = .current) {indexes : Indexes} (hindexes : ∀ order, indexes order = db.index order)
    (t : Nat) (instant : Int64) (hdescribes : DescribesInDb datoms)
    (hsame : SchemaDatoms.changesSchema (recordedAt t instant datoms) = false) (order : IndexOrder) :
    applyCurrent db.schema indexes (recordedAt t instant datoms) order = (db.withTransactionAt t instant datoms).index order := by
  obtain ⟨instants, heq⟩ := db.withTransactionAt_eq t instant datoms
  -- nothing is described, so coverage stays
  have hschema : (db.withTransactionAt t instant datoms).schema = db.schema := by
    rw [heq]
    refine db.applyTransaction_schema_of_only_idents t fun d hd hs => ?_
    refine (hdescribes.stamped d hd hs).resolve_right fun hdb => ?_
    have := any_eq_false.mp hsame d hd
    simp [hs, hdb] at this
  have hview : (db.withTransactionAt t instant datoms).view = .current := by
    rw [heq]
    exact hv
  rw [Db.index_eq_foldCovered hview, hschema, applyCurrent_eq_foldCovered, hindexes order, Db.index_eq_foldCovered hv, heq]
  exact (foldCovered_append _ _).symm

/-! ## Views of one value -/

namespace Db

/-- Every datom is of a transaction from one on, up to the basis. -/
def Timed (db : Db) : Prop := ∀ d ∈ db.recorded, 1 ≤ d.tx.sequence ∧ d.tx.sequence ≤ db.basisT

variable {db : Db}

theorem live_asOf_basis (h : db.Timed) {t : Nat} (ht : db.basisT ≤ t) :
    (db.withView (.asOf t)).live = (db.withView .current).live := by
  show foldLive (db.recorded.filter fun d => d.tx.sequence ≤ t) = foldLive db.recorded
  rw [filter_eq_self.mpr fun d hd => decide_eq_true ((h d hd).2.trans ht)]

theorem live_since_zero (h : db.Timed) : (db.withView (.since 0)).live = (db.withView .current).live := by
  show (foldLive db.recorded).filter (fun _ d => 0 < d.tx.sequence) = foldLive db.recorded
  apply Std.ExtTreeMap.ext_getElem?
  intro k
  rw [Std.ExtTreeMap.getElem?_filter']
  cases hk : (foldLive db.recorded)[k]? with
  | none => rfl
  | some d =>
    have hd := (liveDatom_some (foldLive_some.mp hk).2).2.2
    simp [Option.filter, Nat.one_le_iff_ne_zero.mp (h d hd).1]

theorem index_congr {db' : Db} (hv : db.ShowsLive) (hv' : db'.ShowsLive) (hschema : db.schema = db'.schema)
    (hlive : db.live = db'.live) : db.index = db'.index := by
  funext order
  rw [index_of_showsLive hv, index_of_showsLive hv', hschema, hlive]

/-- A view has the indexes of the view it shares its fold with. -/
theorem index_foldClass (h : db.Timed) (view : DbView) :
    (db.withView view).index = (db.withView (db.foldClass view)).index := by
  unfold foldClass
  split
  · rename_i t
    split
    · rename_i ht
      exact index_congr nofun nofun rfl (live_asOf_basis h ht)
    · rfl
  · exact index_congr nofun nofun rfl (live_since_zero h)
  · rfl

end Db

/-! ## Every value there is -/

/-- The values in use, and their cells. -/
structure Store where
  cells : Cells
  handles : List Handle

/-- What a program does with database values. A clone is the same handle again. -/
inductive StoreStep (admits : List Datom → Prop) : Store → Store → Prop where
  /-- A value with nothing folded yet: a new database, or one from a published snapshot. -/
  | create {s : Store} (db : Db) :
      StoreStep admits s ⟨s.cells ++ [none], s.handles ++ [⟨db, s.cells.length⟩]⟩
  | read {s : Store} {h : Handle} : h ∈ s.handles → StoreStep admits s { s with cells := (h.indexes s.cells).2 }
  | view {s : Store} {h : Handle} (view : DbView) : h ∈ s.handles → h.db.Timed →
      StoreStep admits s ⟨(h.withView view s.cells).2, s.handles ++ [(h.withView view s.cells).1]⟩
  | transact {s : Store} {h : Handle} (t : Nat) (instant : Int64) (datoms : List Datom) : h ∈ s.handles →
      h.db.view = .current → admits datoms →
      StoreStep admits s ⟨(h.withTransactionAt t instant datoms s.cells).2,
        s.handles ++ [(h.withTransactionAt t instant datoms s.cells).1]⟩

abbrev StoreSteps (admits : List Datom → Prop) : Store → Store → Prop := Relation.ReflTransGen (StoreStep admits)

def Store.empty : Store := ⟨[], []⟩

/-- A filled cell holds the indexes of every value that has it, and these agree. -/
structure Store.Exact (s : Store) : Prop where
  cells : ∀ h ∈ s.handles, h.cell < s.cells.length
  shared : ∀ h ∈ s.handles, ∀ h' ∈ s.handles, h.cell = h'.cell → h.db.index = h'.db.index
  filled : ∀ h ∈ s.handles, ∀ indexes, s.cells[h.cell]? = some (some indexes) → indexes = h.db.index

namespace Store

variable {s s' : Store}
variable {h : Handle}

/-- What a value of an exact store reads. -/
theorem Exact.indexes (hs : s.Exact) (hh : h ∈ s.handles) : (h.indexes s.cells).1 = h.db.index := by
  unfold Handle.indexes
  split
  · rename_i indexes hfilled
    exact hs.filled h hh indexes hfilled
  · rfl

/-- A new value in a cell of its own. -/
theorem Exact.extend (hs : s.Exact) (db : Db) (cell : Option Indexes) (hcell : ∀ indexes, cell = some indexes → indexes = db.index) :
    Exact ⟨s.cells ++ [cell], s.handles ++ [⟨db, s.cells.length⟩]⟩ := by
  have hold : ∀ h ∈ s.handles, h.cell ≠ s.cells.length := fun h hh => Nat.ne_of_lt (hs.cells h hh)
  refine ⟨fun h hh => ?_, fun h hh h' hh' heq => ?_, fun h hh indexes hfilled => ?_⟩
  · rw [length_append, length_singleton]
    rcases mem_append.mp hh with hh | hh
    · exact Nat.lt_succ_of_lt (hs.cells h hh)
    · rw [mem_singleton.mp hh]
      exact Nat.lt_succ_self _
  · rcases mem_append.mp hh with hh | hh <;> rcases mem_append.mp hh' with hh' | hh'
    · exact hs.shared h hh h' hh' heq
    · rw [mem_singleton.mp hh'] at heq
      exact absurd heq (hold h hh)
    · rw [mem_singleton.mp hh] at heq
      exact absurd heq.symm (hold h' hh')
    · rw [mem_singleton.mp hh, mem_singleton.mp hh']
  · rcases mem_append.mp hh with hh | hh
    · rw [List.getElem?_append_left (hs.cells h hh)] at hfilled
      exact hs.filled h hh indexes hfilled
    · obtain rfl := mem_singleton.mp hh
      rw [List.getElem?_concat_length] at hfilled
      exact hcell indexes (Option.some.inj hfilled)

/-- A value that shares a cell with one of the same indexes. -/
theorem Exact.share (hs : s.Exact) (hh : h ∈ s.handles) {db : Db} (hdb : db.index = h.db.index) :
    Exact ⟨s.cells, s.handles ++ [⟨db, h.cell⟩]⟩ := by
  refine ⟨fun x hx => ?_, fun x hx y hy heq => ?_, fun x hx indexes hfilled => ?_⟩
  · rcases mem_append.mp hx with hx | hx
    · exact hs.cells x hx
    · rw [mem_singleton.mp hx]
      exact hs.cells h hh
  · rcases mem_append.mp hx with hx | hx <;> rcases mem_append.mp hy with hy | hy
    · exact hs.shared x hx y hy heq
    · obtain rfl := mem_singleton.mp hy
      exact (hs.shared x hx h hh heq).trans hdb.symm
    · obtain rfl := mem_singleton.mp hx
      exact hdb.trans (hs.shared h hh y hy heq)
    · rw [mem_singleton.mp hx, mem_singleton.mp hy]
  · rcases mem_append.mp hx with hx | hx
    · exact hs.filled x hx indexes hfilled
    · obtain rfl := mem_singleton.mp hx
      exact (hs.filled h hh indexes hfilled).trans hdb.symm

theorem Exact.read (hs : s.Exact) (hh : h ∈ s.handles) : Exact { s with cells := (h.indexes s.cells).2 } := by
  unfold Handle.indexes
  split
  · exact hs
  · refine ⟨fun x hx => ?_, hs.shared, fun x hx indexes hfilled => ?_⟩
    · rw [length_set]
      exact hs.cells x hx
    · by_cases hx' : h.cell = x.cell
      · rw [← hx', List.getElem?_set_self (hs.cells h hh)] at hfilled
        rw [← hs.shared h hh x hx hx']
        exact (Option.some.inj (Option.some.inj hfilled)).symm
      · rw [List.getElem?_set_ne hx'] at hfilled
        exact hs.filled x hx indexes hfilled

theorem Exact.step (hs : s.Exact) (hstep : StoreStep DescribesInDb s s') : s'.Exact := by
  cases hstep with
  | create db => exact hs.extend db none nofun
  | read hh => exact hs.read hh
  | @view h view hh htimed =>
    unfold Handle.withView
    split
    · exact hs.share hh rfl
    · split
      · rename_i hclass
        refine hs.share hh ?_
        rw [Db.index_foldClass htimed, hclass, ← Db.index_foldClass htimed]
        rfl
      · exact hs.extend _ none nofun
  | @transact h t instant datoms hh hv hdescribes =>
    refine hs.extend _ _ fun indexes hcell => ?_
    unfold Handle.derived at hcell
    split at hcell
    · rename_i parent hparent
      split at hcell
      · cases hcell
      · rename_i hsame
        cases hcell
        have hparent := hs.filled h hh parent hparent
        funext order
        exact applyCurrent_eq_index hv (fun order => congrFun hparent order) t instant hdescribes (Bool.eq_false_iff.mpr hsame) order
    · cases hcell

theorem exact_of_steps (h : StoreSteps DescribesInDb empty s) : s.Exact := by
  induction h with
  | refl => exact ⟨nofun, nofun, nofun⟩
  | tail _ hstep ih => exact ih.step hstep

/-- In every run in which attributes are described on db-partition entities, every
    value reads, in every order, the index folded from its own recorded datoms under
    its own schema, whichever cells were filled, derived or shared before. -/
theorem reads_are_the_fold (hs : StoreSteps DescribesInDb empty s) {h : Handle} (hh : h ∈ s.handles) (order : IndexOrder) :
    (h.indexes s.cells).1 order = h.db.index order ∧
      (h.db.view = .current → (h.indexes s.cells).1 order = foldCovered h.db.schema order ∅ h.db.recorded) := by
  have hindexes := congrFun ((exact_of_steps hs).indexes hh) order
  exact ⟨hindexes, fun hv => hindexes.trans (Db.index_eq_foldCovered hv order)⟩

end Store

/-! ## An attribute described elsewhere -/

namespace DescribedElsewhereExample

def user (n : Nat) : EntityId := EntityId.new Partition.user.id n

/-- A text attribute on the entity `e`. -/
def named (e : EntityId) : Db := Db.new (Schema.empty.insert (simple e .str))

def fact (e : EntityId) : Datom := { e := user 1001, a := e, v := .str "ada", tx := txId 1, added := true }

/-- The attribute is to be indexed. -/
def describes (e : EntityId) : Datom := { e, a := Bootstrap.index, v := .bool true, tx := txId 2, added := true }

/-- The fact is recorded and its indexes are read. -/
def read (e : EntityId) : Store :=
  let created : Handle := ⟨named e, 0⟩
  let (recorded, cells) := created.withTransactionAt 1 5 [fact e] [none]
  ⟨(recorded.indexes cells).2, [created, recorded]⟩

/-- Then the attribute is described. -/
def described (e : EntityId) : Handle × Cells :=
  Handle.withTransactionAt ⟨(named e).withTransactionAt 1 5 [fact e], 1⟩ 2 6 [describes e] (read e).cells

theorem steps_described {admits : List Datom → Prop} {e : EntityId} (h1 : admits [fact e]) (h2 : admits [describes e]) :
    StoreSteps admits Store.empty ⟨(described e).2, (read e).handles ++ [(described e).1]⟩ := by
  have hcreate : StoreStep admits Store.empty ⟨[none], [⟨named e, 0⟩]⟩ := .create (named e)
  have hfact : StoreStep admits ⟨[none], [⟨named e, 0⟩]⟩
      ⟨(Handle.withTransactionAt ⟨named e, 0⟩ 1 5 [fact e] [none]).2, (read e).handles⟩ :=
    .transact 1 5 [fact e] (mem_singleton_self _) rfl h1
  have hread : StoreStep admits ⟨(Handle.withTransactionAt ⟨named e, 0⟩ 1 5 [fact e] [none]).2, (read e).handles⟩ (read e) :=
    .read (mem_append_right [_] (mem_singleton_self _))
  refine (((Relation.ReflTransGen.single hcreate).tail hfact).tail hread).tail ?_
  exact .transact 2 6 [describes e] (mem_append_right [_] (mem_singleton_self _)) rfl h2

/-- An attribute on a user entity gets AVET coverage; the fact under it is not in the
    index that is read, and is in the one folded anew. -/
theorem a_described_user_entity_is_half_indexed :
    ∃ s h, StoreSteps (fun _ => True) Store.empty s ∧ h ∈ s.handles ∧ h.db.view = .current ∧
      fact (user 1000) ∉ h.datomsAt s.cells .avet ∧ fact (user 1000) ∈ h.db.datomsAt .avet := by
  refine ⟨_, (described (user 1000)).1, steps_described trivial trivial, mem_append_right _ (mem_singleton_self _), rfl, ?_⟩
  decide

/-- The same attribute on a db entity. -/
theorem a_described_attribute_is_indexed :
    ∃ s h, StoreSteps DescribesInDb Store.empty s ∧ h ∈ s.handles ∧
      (h.indexes s.cells).1 .avet = h.db.index .avet ∧ fact (dbAttr 100) ∈ h.db.datomsAt .avet := by
  have h1 : DescribesInDb [fact (dbAttr 100)] := by
    intro d hd hs
    rw [mem_singleton.mp hd] at hs
    exact absurd hs (by decide)
  have h2 : DescribesInDb [describes (dbAttr 100)] := by
    intro d hd _
    rw [mem_singleton.mp hd]
    exact .inr (by decide)
  have hmem := mem_append_right (read (dbAttr 100)).handles (mem_singleton_self (described (dbAttr 100)).1)
  exact ⟨_, _, steps_described h1 h2, hmem, (Store.reads_are_the_fold (steps_described h1 h2) hmem .avet).1, by decide⟩

end DescribedElsewhereExample

end Corium
