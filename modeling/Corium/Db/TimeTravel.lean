/-
  Corium.Db.TimeTravel — what the time views of a database value show
  (`as_of`, `since`, `history` and `with_view` of `crates/corium-db/src/lib.rs`).

  Views are folds over everything recorded, by a value's own schema. An as-of view
  shows the datoms of the value there was, in the orders that schema covers now; since
  and history are filters. A view taken of a view replaces it: there is one window
  (`views_are_exact`, and `taken_views_do_not_intersect` for what this is not).
-/

import Corium.Db.Cached

namespace Corium

open Corium.Core Corium.Lib List

/-- A transaction as it is applied. -/
structure Applied where
  t : Nat
  instant : Int64
  datoms : List Datom

namespace Db

def applyAll (db : Db) (run : List Applied) : Db := run.foldl (fun db x => db.withTransactionAt x.t x.instant x.datoms) db

end Db

def Applied.stamped (x : Applied) : List Datom := recordedAt x.t x.instant x.datoms

/-- The datoms of a transaction are of it; its number fits an entity id. -/
structure Numbered (run : List Applied) : Prop where
  bounded : ∀ x ∈ run, x.t < sequenceLimit
  own : ∀ x ∈ run, ∀ d ∈ x.datoms, d.tx = Bootstrap.txId x.t

/-! ## What a run records -/

theorem Numbered.tx {run : List Applied} (h : Numbered run) {x : Applied} (hx : x ∈ run) {d : Datom} (hd : d ∈ x.stamped) :
    d.tx = Bootstrap.txId x.t := by
  unfold Applied.stamped recordedAt at hd
  split at hd
  · exact h.own x hx d hd
  · rcases mem_append.mp hd with hd | hd
    · exact h.own x hx d hd
    · rw [mem_singleton.mp hd]
      rfl

theorem Numbered.sequence {run : List Applied} (h : Numbered run) {x : Applied} (hx : x ∈ run) {d : Datom} (hd : d ∈ x.stamped) :
    d.tx.sequence = x.t := by
  rw [h.tx hx hd, txId_sequence (h.bounded x hx)]

theorem Db.applyAll_recorded (db : Db) (run : List Applied) :
    (db.applyAll run).recorded = db.recorded ++ run.flatMap Applied.stamped ∧ (db.applyAll run).view = db.view := by
  induction run generalizing db with
  | nil => simp [applyAll]
  | cons x run ih =>
    obtain ⟨instants, heq⟩ := db.withTransactionAt_eq x.t x.instant x.datoms
    obtain ⟨hrec, hview⟩ := ih (db.withTransactionAt x.t x.instant x.datoms)
    refine ⟨hrec.trans ?_, hview.trans (by rw [heq]; rfl)⟩
    rw [heq, flatMap_cons, ← append_assoc]
    rfl

/-- Cutting what is recorded at `t` is applying the transactions up to `t`. -/
theorem Numbered.filter_recorded {run : List Applied} (h : Numbered run) (t : Nat) :
    (run.flatMap Applied.stamped).filter (fun d => d.tx.sequence ≤ t) = (run.filter (·.t ≤ t)).flatMap Applied.stamped := by
  have hseq := fun {x} (hx : x ∈ run) {d} => h.sequence hx (d := d)
  clear h
  induction run with
  | nil => rfl
  | cons x run ih =>
    rw [flatMap_cons, filter_append, ih fun hy => hseq (mem_cons_of_mem _ hy)]
    have hx := fun {d} => hseq (d := d) mem_cons_self
    by_cases ht : x.t ≤ t
    · rw [filter_eq_self.mpr fun d hd => by rw [hx hd]; exact decide_eq_true ht, filter_cons, if_pos (decide_eq_true ht),
        flatMap_cons]
    · rw [filter_eq_nil_iff.mpr fun d hd => by rw [hx hd]; simpa using ht, filter_cons, if_neg (by simpa using ht),
        nil_append]

/-! ## The views -/

section Views

variable {db : Db}

/-- The current facts of `past` in an order, as the schema of `db` covers them. -/
theorem Db.index_asOf {past : Db} (hpast : past.view = .current) {t : Nat}
    (hrec : db.recorded.filter (fun d => d.tx.sequence ≤ t) = past.recorded) :
    (db.asOf t).index = ({ past with schema := db.schema } : Db).index := by
  refine index_congr nofun (showsLive_of_current hpast) rfl ?_
  have hlive : ({ past with schema := db.schema } : Db).live = foldLive past.recorded := by
    unfold live
    rw [hpast]
  rw [hlive, ← hrec]
  rfl

theorem Db.index_coverage {order : IndexOrder} (hv : db.ShowsLive) {schema : Schema}
    (hsame : order = .avet → ∀ a, avetCovered db.schema a = avetCovered schema a) :
    ({ db with schema } : Db).index order = db.index order := by
  apply Std.ExtTreeMap.ext_getElem?
  intro k
  apply Option.ext
  intro d
  have hcovered : covered schema order d = covered db.schema order d := by
    cases order with
    | avet => exact (hsame rfl d.a).symm
    | _ => rfl
  rw [@index_some { db with schema } hv, index_some hv]
  show _ ∧ covered schema order d = true ∧ _ ↔ _
  rw [hcovered]
  exact Iff.rfl

/-- A since view is the current one, less what is older. -/
theorem Db.index_since (hv : db.view = .current) (t : Nat) (order : IndexOrder) :
    (db.since t).index order = (db.index order).filter fun _ d => t < d.tx.sequence := by
  have hlive : (db.since t).live = db.live.filter fun _ d => t < d.tx.sequence := by
    show (foldLive db.recorded).filter _ = _
    unfold live
    rw [hv]
  apply Std.ExtTreeMap.ext_getElem?
  intro k
  apply Option.ext
  intro d
  rw [@index_some (db.since t) nofun, Std.ExtTreeMap.getElem?_filter', Option.filter_eq_some_iff,
    index_some (showsLive_of_current hv), hlive, indexValues_filter (fun d => decide (t < d.tx.sequence)), mem_filter]
  exact ⟨fun ⟨hk, hc, hl, ht⟩ => ⟨⟨hk, hc, hl⟩, ht⟩, fun ⟨⟨hk, hc, hl⟩, ht⟩ => ⟨hk, hc, hl, ht⟩⟩

theorem Numbered.raw_lt {schema : Schema} {run : List Applied} (h : Numbered run) :
    ∀ d ∈ ((Db.new schema).applyAll run).recorded, d.tx.raw.toNat < 2 ^ 63 := by
  intro d hd
  rw [(Db.applyAll_recorded _ _).1] at hd
  obtain ⟨x, hx, hd⟩ := mem_flatMap.mp ((mem_append.mp hd).resolve_left not_mem_nil)
  rw [h.tx hx hd, txId_raw]
  omega

/-- The value after the transactions up to `t`. -/
def past (schema : Schema) (run : List Applied) (t : Nat) : Db := (Db.new schema).applyAll (run.filter (·.t ≤ t))

variable {schema : Schema} {run : List Applied}

/-- Of the value `db` after any run: as of `t` it shows the datoms of the value after
    exactly the transactions up to `t`, those `db`'s schema covers in the order (in
    every order but AVET, the very datoms that value shows, and in AVET too where
    coverage is the same); since `t` it shows the current datoms of later transactions;
    its history shows, by key, every recorded datom of an attribute that keeps
    history, where the order covers it. A view of a view is that view of `db`. And so
    reads every value that is a view of `db`, in any store whose attributes are
    described on db-partition entities. -/
theorem views_are_exact (hrun : Numbered run) (order : IndexOrder) :
    let db := (Db.new schema).applyAll run
    (∀ t,
      (db.asOf t).datomsAt order = ({ past schema run t with schema := db.schema } : Db).datomsAt order ∧
      ((order = .avet → ∀ a, avetCovered (past schema run t).schema a = avetCovered db.schema a) →
        (db.asOf t).datomsAt order = (past schema run t).datomsAt order)) ∧
    (∀ t, (db.since t).datomsAt order = (db.datomsAt order).filter fun d => t < d.tx.sequence) ∧
    ((∀ d, d ∈ (db.withView .history).datomsAt order ↔
        d ∈ db.recorded ∧ noHistoryOf db.schema d.a = false ∧ covered db.schema order d = true) ∧
      ((db.withView .history).datomsAt order).Pairwise fun d d' => compare (d.key order) (d'.key order) = .lt) ∧
    (∀ view view', (db.withView view).withView view' = db.withView view') ∧
    ∀ s h view, StoreSteps DescribesInDb Store.empty s → h ∈ s.handles → h.db = db.withView view →
      h.datomsAt s.cells order = (db.withView view).datomsAt order ∧
        ∀ view', (h.withView view' s.cells).1.db = db.withView view' := by
  intro db
  have hview : db.view = .current := (Db.applyAll_recorded _ _).2
  have hrec : db.recorded = run.flatMap Applied.stamped := (Db.applyAll_recorded _ _).1
  refine ⟨fun t => ?_, fun t => ?_, ?_, fun _ _ => rfl, fun s h view hs hh hdb => ⟨?_, fun view' => ?_⟩⟩
  · have hpast : (past schema run t).view = .current := (Db.applyAll_recorded _ _).2
    have hcut : db.recorded.filter (fun d => d.tx.sequence ≤ t) = (past schema run t).recorded := by
      rw [hrec, hrun.filter_recorded]
      exact (Db.applyAll_recorded (Db.new schema) _).1.symm
    have hindex : (db.asOf t).datomsAt order = ({ past schema run t with schema := db.schema } : Db).datomsAt order :=
      congrArg indexValues (congrFun (Db.index_asOf hpast hcut) order)
    refine ⟨hindex, fun hsame => hindex.trans ?_⟩
    exact congrArg indexValues (Db.index_coverage (Db.showsLive_of_current hpast) hsame)
  · exact (congrArg indexValues (Db.index_since hview t order)).trans (indexValues_filter _ _)
  · exact ⟨fun d => mem_historyValues db.schema order hrun.raw_lt, historyValues_pairwise db.schema order hrun.raw_lt⟩
  · unfold Handle.datomsAt Db.datomsAt
    rw [(Store.exact_of_steps hs).indexes hh, hdb]
  · unfold Handle.withView
    split
    · rename_i heq
      rw [heq, hdb]
      rfl
    · split <;> rw [hdb] <;> rfl

end Views

/-! ## One window, one schema -/

namespace TakenViewsExample

open DescribedElsewhereExample (user fact describes named described steps_described)

def attr : AttrId := Bootstrap.dbAttr 100

def schema : Schema := Schema.empty.insert (Bootstrap.simple attr .str)

/-- A fact, and then its attribute is indexed. -/
def run : List Applied := [⟨1, 5, [fact attr]⟩, ⟨2, 6, [describes attr]⟩]

def db : Db := (Db.new schema).applyAll run

theorem numbered_run : Numbered run := by
  refine ⟨by decide, ?_⟩
  decide

/-- As of the second transaction, the facts since the first still show one of the
    first; and as of the first, AVET shows what its value did not cover. -/
theorem taken_views_do_not_intersect :
    Numbered run ∧ fact attr ∈ ((db.since 1).asOf 2).datomsAt .eavt ∧ ¬ 1 < (fact attr).tx.sequence ∧
      fact attr ∈ (db.asOf 1).datomsAt .avet ∧ fact attr ∉ (past schema run 1).datomsAt .avet := by
  refine ⟨numbered_run, ?_⟩
  decide

/-- The value as of the first transaction, read where its later indexes were. -/
theorem views_are_exact_before_the_index :
    ∃ s h, StoreSteps DescribesInDb Store.empty s ∧ h ∈ s.handles ∧ h.db = db.asOf 1 ∧
      h.datomsAt s.cells .eavt = (past schema run 1).datomsAt .eavt ∧ fact attr ∈ (past schema run 1).datomsAt .eavt := by
  have h1 : DescribesInDb [fact attr] := by
    intro d hd hs
    rw [mem_singleton.mp hd] at hs
    exact absurd hs (by decide)
  have h2 : DescribesInDb [describes attr] := by
    intro d hd _
    rw [mem_singleton.mp hd]
    exact .inr (by decide)
  have htimed : (described attr).1.db.Timed := by
    unfold Db.Timed
    decide
  have hsteps := (steps_described h1 h2).tail (.view (.asOf 1) (mem_append_right _ (mem_singleton_self _)) htimed)
  have hmem := mem_append_right ((DescribedElsewhereExample.read attr).handles ++ [(described attr).1])
    (mem_singleton_self ((described attr).1.withView (.asOf 1) (described attr).2).1)
  have hdb : ((described attr).1.withView (.asOf 1) (described attr).2).1.db = db.withView (.asOf 1) := rfl
  obtain ⟨hasOf, _, _, _, hread⟩ := @views_are_exact schema _ numbered_run .eavt
  refine ⟨_, _, hsteps, hmem, hdb, ?_, by decide⟩
  exact (hread _ _ _ hsteps hmem hdb).1.trans ((hasOf 1).2 nofun)

end TakenViewsExample

end Corium
