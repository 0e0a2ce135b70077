/-
  Corium.Transactor.Alternation — runs of accepted transactions alternate, where their
  compare-and-swaps are clean.

  A run's net effect (`squash`) is then the difference between the value it starts from
  and the one it leaves (`runs_of_clean_swaps_are_their_difference`). On a value whose
  cardinality-one pairs hold one value every swap is clean, and runs keep it so. A value
  read back from a snapshot may hold two (`a_swap_asserts_a_live_value`).
-/

import Corium.Transactor.MergeRuns
import Corium.Transactor.Recovery
import Corium.Tx.Alternation

namespace Corium.Transactor

open Corium.Core Corium.Lib Corium.Tx Bootstrap

/-- Transactions accepted and applied one after another, those that `admits` lets in:
    what they record, and the value they leave. -/
inductive Accepted (admits : Db → List TxItem → TxId → Nat → Prop) (db : Db) : List Datom → Db → Prop where
  | refl : Accepted admits db [] db
  | step {ds : List Datom} {w : Db} {items : List TxItem} {t n : Nat} {instant : Int64} {r : PreparedTx} :
      Accepted admits db ds w → prepare w items (txId t) n = .ok r → admits w items (txId t) n →
      Accepted admits db (ds ++ recordedAt t instant r.datoms) (w.withTransactionAt t instant r.datoms)

section Runs

variable {admits : Db → List TxItem → TxId → Nat → Prop} {db w : Db} {ds : List Datom}

theorem accepted_stands {items : List TxItem} {t n : Nat} {r : PreparedTx} (hv : w.view = .current)
    (h : prepare w items (txId t) n = .ok r) (instant : Int64) :
    StandsFor w (recordedAt t instant r.datoms) (w.withTransactionAt t instant r.datoms) := by
  refine withTransactionAt_stands w t instant fun d hd hs => ?_
  obtain ⟨w', heff⟩ := prepare_effects hv h
  exact ident_of_writable (heff.mem hd).2 hs

theorem Accepted.stands (hv : db.view = .current) (h : Accepted admits db ds w) : StandsFor db ds w := by
  induction h with
  | refl => exact .refl db
  | step _ hprep _ ih => exact ih.trans (accepted_stands (ih.view.trans hv) hprep _)

/-- The instant a transaction is stamped with is of a transaction entity. -/
theorem alternatesAt_recordedAt {xs datoms : List Datom} (t : Nat) (instant : Int64) (h : Alternates xs datoms) {f : Fact}
    (hf : f.1.inPartition .tx = false) : AlternatesAt xs (recordedAt t instant datoms) f := by
  obtain ⟨stamp, hrec, hstamp⟩ := recordedAt_cases t instant datoms
  rw [hrec]
  refine alternatesAt_append.mpr ⟨h f, alternatesAt_of_ne fun d hd hfact => ?_⟩
  rw [hstamp d hd] at hfact
  rw [← hfact, show (txInstantDatom t instant).fact.1 = txId t from rfl, inPartition_txId] at hf
  cases hf

theorem Accepted.alternates (hv : db.view = .current) (h : Accepted SwapClean db ds w) {f : Fact}
    (hf : f.1.inPartition .tx = false) : AlternatesAt db.recorded ds f := by
  induction h with
  | refl => exact alternatesAt_of_ne (List.forall_mem_nil _)
  | step hrun hprep hclean ih =>
    have hstands := hrun.stands hv
    refine alternatesAt_append.mpr ⟨ih, ?_⟩
    rw [← hstands.recorded]
    exact alternatesAt_recordedAt _ _ ((prepare_alternates_iff (hstands.view.trans hv) hprep).mpr hclean) hf

/-- Every pair keeps to its cardinality, the transaction's instant apart. -/
def KeepsToOne (db : Db) : Prop := ∀ e a, a ≠ txInstant → OneAt db e a

theorem KeepsToOne.accepted {items : List TxItem} {t n : Nat} {r : PreparedTx} (hv : w.view = .current) (hone : KeepsToOne w)
    (h : prepare w items (txId t) n = .ok r) (instant : Int64) : KeepsToOne (w.withTransactionAt t instant r.datoms) := by
  intro e a ha attr hattr hcard v v' hheld hheld'
  obtain ⟨w', heff⟩ := prepare_effects hv h
  have hstands := accepted_stands hv h instant
  obtain ⟨stamp, hrec, hstamp⟩ := recordedAt_cases t instant r.datoms
  have hne : ∀ v, ∀ d ∈ stamp, d.fact ≠ (e, a, v) := by
    intro v d hd hfact
    rw [hstamp d hd] at hfact
    exact ha (congrArg (·.2.1) hfact).symm
  rw [Db.Holds, hstands.recorded, hrec, ← List.append_assoc, holds_append_of_ne (hne _), ← heff.follows.recorded] at hheld hheld'
  rw [hstands.schema, ← heff.follows.schema] at hattr
  exact one_of_effects hv heff (hone e a ha) attr hattr hcard v v' hheld hheld'

theorem KeepsToOne.clean (hv : db.view = .current) (hone : KeepsToOne db) (h : Accepted admits db ds w) :
    Accepted SwapClean db ds w ∧ KeepsToOne w := by
  induction h with
  | refl => exact ⟨.refl, hone⟩
  | step hrun hprep _ ih =>
    have hview := (hrun.stands hv).view.trans hv
    exact ⟨.step ih.1 hprep (swapClean_of_one hview ih.2 hprep), ih.2.accepted hview hprep _⟩

/-- What an accepted transaction records alternates exactly if its swaps are clean; a run
    of such transactions has as its net effect, away from transaction entities, what
    the value it leaves holds and the value it started from did not, and the other way
    round; and on a value whose pairs keep to their cardinality all runs are such. -/
theorem runs_of_clean_swaps_are_their_difference (hv : db.view = .current) :
    (∀ items tx n r, prepare db items tx n = .ok r → (Alternates db.recorded r.datoms ↔ SwapClean db items tx n)) ∧
    (∀ ds w, Accepted SwapClean db ds w → ∀ f,
      (f ∈ (squash ds).asserts ↔ f.1.inPartition .tx = false ∧ w.Holds f ∧ ¬ db.Holds f) ∧
      (f ∈ (squash ds).retracts ↔ f.1.inPartition .tx = false ∧ db.Holds f ∧ ¬ w.Holds f)) ∧
    (KeepsToOne db → ∀ admits ds w, Accepted admits db ds w → Accepted SwapClean db ds w) := by
  refine ⟨fun _ _ _ _ h => prepare_alternates_iff hv h, fun ds w h f => ?_, fun hone _ _ _ h => (hone.clean hv h).1⟩
  obtain ⟨hasserts, hretracts⟩ := @mem_squash_of_alternates ds db.recorded (fun f hf => h.alternates hv hf) f
  rw [← (h.stands hv).recorded] at hasserts hretracts
  rw [hasserts, hretracts]
  unfold Db.Holds
  rw [Bool.not_eq_true, Bool.not_eq_true]
  exact ⟨and_congr_right fun _ => and_comm, Iff.rfl⟩

end Runs

/-! ## A swap on two values -/

namespace ReplaceExample

/-- Ada's value, read back from a snapshot: both names are live. -/
def recovered : Db :=
  (recoverTransactor (publish (recoverFrom base [record])) schema Idents.empty KeywordInterner.empty [record]).db

/-- Ada's name is swapped. -/
def swap : List TxItem := [.op (.cas (.id ada) nameAttr (some (.str "a")) (.str "b"))]

def swapped : List Datom :=
  [retraction (txId 2) ada nameAttr (.str "a"), assertion (txId 2) ada nameAttr (.str "b")]

/-- The swap is accepted and asserts a name that is there; the run's net effect has it as new. -/
theorem a_swap_asserts_a_live_value :
    recovered.view = .current ∧ prepare recovered swap (txId 2) 1001 = .ok ⟨swapped, ∅⟩ ∧
      ¬ Alternates recovered.recorded swapped ∧
      (ada, nameAttr, .str "b") ∈ (squash (recordedAt 2 6 swapped)).asserts ∧ recovered.Holds (ada, nameAttr, .str "b") := by
  refine ⟨by decide +kernel, by decide +kernel, fun h => ?_, by decide, ?_⟩
  · have := h (ada, nameAttr, .str "b") [retraction (txId 2) ada nameAttr (.str "a")] _ [] rfl rfl
    exact absurd this (by decide +kernel)
  · unfold Db.Holds
    decide +kernel

theorem swapClean_items : SwapClean base items (txId 1) 1000 := by
  intro pre op post p hsplit _
  have hop : op ∈ expandItems items := by
    rw [hsplit]
    exact List.mem_append_right _ List.mem_cons_self
  rw [show expandItems items = [.add (.temp "ada") nameAttr (.str "a"), .add (.temp "ada") nameAttr (.str "b")] from rfl] at hop
  simp only [List.mem_cons, List.not_mem_nil, or_false] at hop
  rcases hop with rfl | rfl <;> trivial

/-- Named twice in one transaction, Ada is left with the second name, and that is the net effect. -/
theorem the_difference_of_naming_twice :
    base.view = .current ∧ ∃ ds w, Accepted SwapClean base ds w ∧ w.Holds (ada, nameAttr, .str "b") ∧
      (ada, nameAttr, .str "b") ∈ (squash ds).asserts ∧ (ada, nameAttr, .str "a") ∉ (squash ds).asserts := by
  have hprep : prepare base items (txId 1) 1000 = .ok ⟨record.datoms.take 3, tempids⟩ := by decide +kernel
  have hrun : Accepted SwapClean base ([] ++ recordedAt 1 5 (record.datoms.take 3)) _ := .step .refl hprep swapClean_items
  have hdiff := (runs_of_clean_swaps_are_their_difference (by decide : base.view = .current)).2.1 _ _ hrun
  have hheld : (base.withTransactionAt 1 5 (record.datoms.take 3)).Holds (ada, nameAttr, .str "b") := by
    unfold Db.Holds
    decide
  refine ⟨by decide, _, _, hrun, hheld, ?_, fun h => absurd ((hdiff _).1.mp h).2.1 ?_⟩
  · refine (hdiff _).1.mpr ⟨by decide, hheld, ?_⟩
    unfold Db.Holds
    decide
  · unfold Db.Holds
    decide

end ReplaceExample

end Corium.Transactor
