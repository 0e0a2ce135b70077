/-
  Corium.Transactor.MergeUnion — a merge without conflicts is the union of both
  sides' net effects.

  The transaction of a novelty retracts what the branch took back and asserts what
  it added. Where the novelty fits the parent (`NoveltyFits`), which an empty `scan`
  establishes for two runs from one value (`fits_of_scan`), each retraction and
  assertion does that and nothing else, so the transaction records exactly the
  changes still to be made (`mergeDatoms`).
-/

import Corium.Transactor.MergeRuns

namespace Corium.Transactor

open Corium.Core Corium.Lib Corium.Tx Bootstrap List Std Saga

/-! ## One item after another -/

/-- What the transaction of a novelty needs of the parent. -/
structure NoveltyFits (parent : Db) (n : Novelty) : Prop where
  view : parent.view = .current
  retracts : ∀ f ∈ n.retracts, writableByTransaction f.1 f.2.1 = true ∧ f.2.1 ≠ txInstant ∧
    Retractable parent.schema f
  asserts : ∀ f ∈ n.asserts, f.2.1 ≠ txInstant ∧ Assertable parent f
  apart : ∀ f ∈ n.asserts, f ∉ n.retracts
  /-- On a cardinality-one pair nothing but the value asserted is left. -/
  one : ∀ f ∈ n.asserts, ∀ attr, parent.schema.get f.2.1 = some attr → attr.cardinality = .one → ∀ v,
    parent.Holds (f.1, f.2.1, v) ∧ (f.1, f.2.1, v) ∉ n.retracts ∨ (f.1, f.2.1, v) ∈ n.asserts → v = f.2.2
  owner : ∀ f ∈ n.asserts, ∀ attr, parent.schema.get f.2.1 = some attr → attr.unique.isSome = true →
    (parent.lookup f.2.1 f.2.2).all (· = f.1) = true

def assertFact (tx : TxId) (f : Fact) : Datom := assertion tx f.1 f.2.1 f.2.2

def retractFact (tx : TxId) (f : Fact) : Datom := retraction tx f.1 f.2.1 f.2.2

/-- The retractions that find something to retract, then the assertions of what is not there. -/
def mergeDatoms (parent : Db) (tx : TxId) (retracts asserts : List Fact) : List Datom :=
  (retracts.filter fun f => holds parent.recorded f).map (retractFact tx) ++
    (asserts.filter fun f => !holds parent.recorded f).map (assertFact tx)

theorem holds_append_assertions (ds : List Datom) (tx : TxId) (facts : List Fact) (f : Fact) :
    holds (ds ++ facts.map (assertFact tx)) f = true ↔ holds ds f = true ∨ f ∈ facts := by
  induction facts using List.reverseRecOn with
  | nil => simp
  | append_singleton facts g ih =>
    rw [map_append, ← append_assoc, map_singleton, holds_concat, show (assertFact tx g).fact = g from rfl]
    by_cases h : g = f
    · subst h
      simp [assertFact, assertion]
    · rw [if_neg h, ih]
      have h' : f ≠ g := fun e => h e.symm
      simp [h']

theorem holds_mergeDatoms {parent : Db} {tx : TxId} {rs as : List Fact} (hapart : ∀ f ∈ as, f ∉ rs) (f : Fact) :
    holds (parent.recorded ++ mergeDatoms parent tx rs as) f = true ↔ parent.Holds f ∧ f ∉ rs ∨ f ∈ as := by
  have hretracts := holds_append_retractions parent.recorded tx (rs.filter fun f => holds parent.recorded f) f
  unfold mergeDatoms
  rw [← append_assoc, holds_append_assertions]
  rw [show (rs.filter fun f => holds parent.recorded f).map (retractFact tx) =
    (rs.filter fun f => holds parent.recorded f).map fun f => retraction tx f.1 f.2.1 f.2.2 from rfl, hretracts]
  simp only [mem_filter, Bool.not_eq_true', Db.Holds]
  constructor
  · rintro (⟨hheld, hno⟩ | ⟨has, -⟩)
    · exact .inl ⟨hheld, fun hrs => hno ⟨hrs, hheld⟩⟩
    · exact .inr has
  · rintro (⟨hheld, hno⟩ | has)
    · exact .inl ⟨hheld, fun h => hno h.1⟩
    · cases hheld : holds parent.recorded f with
      | true => exact .inl ⟨rfl, fun h => hapart f has h.1⟩
      | false => exact .inr ⟨has, rfl⟩

theorem mergeDatoms_retract (parent : Db) (tx : TxId) (rs : List Fact) (f : Fact) :
    mergeDatoms parent tx (rs ++ [f]) [] =
      mergeDatoms parent tx rs [] ++ if holds parent.recorded f then [retractFact tx f] else [] := by
  cases h : holds parent.recorded f <;> simp [mergeDatoms, h]

theorem mergeDatoms_assert (parent : Db) (tx : TxId) (rs as : List Fact) (f : Fact) :
    mergeDatoms parent tx rs (as ++ [f]) =
      mergeDatoms parent tx rs as ++ if holds parent.recorded f then [] else [assertFact tx f] := by
  cases h : holds parent.recorded f <;> simp [mergeDatoms, h]

/-- The progress after the retractions `rs` and the assertions `as`. -/
structure Merging (parent : Db) (tx : TxId) (rs as : List Fact) (p : Progress) : Prop where
  follows : Follows parent p.datoms p.working
  datoms : p.datoms = mergeDatoms parent tx rs as

variable {p : Progress} {schema : Schema} {d : Datom}

theorem Merging.holds_iff {parent : Db} {tx : TxId} {rs as : List Fact} (h : Merging parent tx rs as p)
    (hapart : ∀ f ∈ as, f ∉ rs) (f : Fact) : p.working.Holds f ↔ parent.Holds f ∧ f ∉ rs ∨ f ∈ as := by
  rw [Db.Holds, h.follows.recorded, h.datoms, holds_mergeDatoms hapart]

theorem Follows.advance {parent : Db} {ds : List Datom} (h : Follows parent p.datoms p.working)
    (hw : ∀ d ∈ ds, writableByTransaction d.e d.a = true) :
    Follows parent (p.advance ds).datoms (p.advance ds).working := by
  refine h.trans ⟨by simp [Progress.advance], ?_, by simp [Progress.advance], by simp [Progress.advance]⟩
  exact Db.withTransaction_schema_of_only_idents _ _ fun d hd hs => ident_of_writable (hw d hd) hs

variable {a : AttrId} {e : EntityId} {f : Fact}
variable {v : Value} {k : EntityId × AttrId} {b : Option Value} {drift : Novelty} {items : List TxItem}
  {r : PreparedTx} {t : Nat}

theorem validate_of {db : Db} (hw : writableByTransaction e a = true)
    (h : ∃ attr, db.schema.get a = some attr ∧ v.hasType attr.valueType = true) : validate db e a v = .ok () := by
  obtain ⟨attr, hattr, htype⟩ := h
  simp [validate, hw, hattr, htype]

theorem validateHistoricalForm_of {db : Db}
    (h : ∀ s, v = .sealed s → s.cls ∈ (db.schema.protectionOf a).classes) : validateHistoricalForm db a v = .ok () := by
  cases v with
  | «sealed» s => simp [validateHistoricalForm, h s rfl]
  | _ => rfl

theorem applyRetract_of {tx : TxId} {p : Progress} {f : Fact} (hw : writableByTransaction f.1 f.2.1 = true)
    (h : Retractable p.working.schema f) : applyRetract tx p f.1 f.2.1 f.2.2 =
      .ok (p.advance (if f.2.2 ∈ p.working.values f.1 f.2.1 then [retractFact tx f] else [])) := by
  unfold applyRetract
  rw [validate_of hw h.1, validateHistoricalForm_of h.2]
  rfl

theorem noteInstant_of_ne (h : a ≠ txInstant) : p.noteInstant a = p := by
  simp [Progress.noteInstant, h]

/-- An assertion that may be made is, unless another entity owns the value. -/
theorem applyAdd_of {tx : TxId} {p : Progress} {f : Fact} {attr : Attribute} (ha : f.2.1 ≠ txInstant)
    (h : Assertable p.working f) (hattr : p.working.schema.get f.2.1 = some attr)
    (howner : attr.unique.isSome = true → (p.working.lookup f.2.1 f.2.2).all (· = f.1) = true) :
    applyAdd tx p f.1 f.2.1 f.2.2 = .ok (if f.2.2 ∈ p.working.values f.1 f.2.1 then p
      else p.advance (addDatoms tx p.working attr f.1 f.2.1 f.2.2)) := by
  unfold applyAdd
  rw [validate_of h.write h.installed, h.form]
  simp only [require, validateNotRetired, h.notRetired, ha, hattr, noteInstant_of_ne ha, Bool.false_eq_true, if_false,
    false_implies, if_true, bind, Except.bind, pure, Except.pure]
  rw [if_pos howner]
  by_cases hpresent : f.2.2 ∈ p.working.values f.1 f.2.1 <;> simp [hpresent]

/-! ## The whole transaction -/

section Transaction

variable {parent : Db} {n : Novelty} {tx : TxId} {db : Db} {tempids : Tempids}

/-- A retraction is made, and records something exactly where the parent holds the fact. -/
theorem Merging.retract (hfit : NoveltyFits parent n) {rs : List Fact} {p : Progress} (h : Merging parent tx rs [] p) {f : Fact}
    (hf : f ∈ n.retracts) (hnew : f ∉ rs) :
    ∃ p', applyOp db tempids tx p (.retract (.id f.1) f.2.1 f.2.2) = .ok p' ∧ Merging parent tx (rs ++ [f]) [] p' := by
  obtain ⟨hw, ha, hok⟩ := hfit.retracts f hf
  have hheld : f.2.2 ∈ p.working.values f.1 f.2.1 ↔ holds parent.recorded f = true := by
    rw [Db.mem_values (h.follows.view.trans hfit.view), h.holds_iff (forall_mem_nil _)]
    simp [hnew, Db.Holds]
  have happly : applyOp db tempids tx p (.retract (.id f.1) f.2.1 f.2.2) = applyRetract tx p f.1 f.2.1 f.2.2 := by
    simp only [applyOp, require, ha, ne_eq, not_false_eq_true, if_true, resolve]
    rfl
  refine ⟨_, happly.trans (applyRetract_of hw (h.follows.schema ▸ hok)), Follows.advance h.follows fun d hd => ?_, ?_⟩
  · split at hd
    · rw [mem_singleton.mp hd]
      exact hw
    · cases hd
  · show p.datoms ++ _ = _
    rw [h.datoms, mergeDatoms_retract]
    simp only [hheld]

variable {f : Fact}
variable {as rs : List Fact} {p : Progress}
variable {attr : Attribute}

/-- What an assertion finds at its pair: nothing, if the attribute is cardinality-one and the value is not there yet. -/
theorem Merging.addDatoms (hfit : NoveltyFits parent n) (h : Merging parent tx rs as p)
    (hrs : ∀ f, f ∈ rs ↔ f ∈ n.retracts) (has : ∀ f ∈ as, f ∈ n.asserts) (hf : f ∈ n.asserts)
    (hattr : parent.schema.get f.2.1 = some attr) (habsent : f.2.2 ∉ p.working.values f.1 f.2.1) :
    addDatoms tx p.working attr f.1 f.2.1 f.2.2 = [assertFact tx f] := by
  have hview := h.follows.view.trans hfit.view
  have hapart : ∀ g ∈ as, g ∉ rs := fun g hg hr => hfit.apart g (has g hg) ((hrs g).mp hr)
  unfold Tx.addDatoms
  split
  · rename_i hone
    have hempty : p.working.values f.1 f.2.1 = [] := by
      refine eq_nil_iff_forall_not_mem.mpr fun v hv => habsent ?_
      rw [Db.mem_values hview, h.holds_iff hapart, hrs] at hv
      have hveq := hfit.one f hf attr hattr hone v (hv.imp_right (has _))
      rw [← hveq, Db.mem_values hview, h.holds_iff hapart, hrs]
      exact hv
    rw [hempty]
    rfl
  · rfl

/-- The owner an assertion of a unique value finds is its own entity, unless an earlier assertion gave the value away. -/
theorem Merging.owner_iff (hfit : NoveltyFits parent n) (h : Merging parent tx rs as p)
    (hrs : ∀ f, f ∈ rs ↔ f ∈ n.retracts) (has : ∀ f ∈ as, f ∈ n.asserts) (hf : f ∈ n.asserts)
    (hattr : parent.schema.get f.2.1 = some attr) (hu : attr.unique.isSome = true) (hbefore : ∀ g ∈ as, compare g f = .lt) :
    (p.working.lookup f.2.1 f.2.2).all (· = f.1) = true ↔ ∀ g ∈ as, g.2 ≠ f.2 := by
  have hview := h.follows.view.trans hfit.view
  have hapart : ∀ g ∈ as, g ∉ rs := fun g hg hr => hfit.apart g (has g hg) ((hrs g).mp hr)
  have hcovered : avetCovered parent.schema f.2.1 = true := by simp [avetCovered, hattr, hu]
  have hcovered' : avetCovered p.working.schema f.2.1 = true := h.follows.schema ▸ hcovered
  cases hlook : p.working.lookup f.2.1 f.2.2 with
  | none =>
    refine iff_of_true rfl fun g hg heq => Db.lookup_none hview hlook g.1 ?_
    rw [h.holds_iff hapart, ← heq]
    exact .inr hg
  | some e =>
    have hheld := (h.holds_iff hapart _).mp (Db.lookup_some hview hlook)
    simp only [Option.all_some, decide_eq_true_eq]
    constructor
    · rintro rfl g hg heq
      -- the earlier one is the lower entity, and `lookup` finds the lowest
      have hgiven : p.working.Holds (g.1, f.2) := (h.holds_iff hapart _).mpr (.inr (by rw [← heq]; exact hg))
      have hle := Db.lookup_lowest hview hcovered' hlook hgiven
      have hlt : (compare g.1 f.1).then (compare g.2 f.2) = .lt := hbefore g hg
      rw [heq, compare_same, Ordering.then_eq] at hlt
      have hge : g.1 = f.1 := eq_of_isLE (by rw [hlt]; rfl) hle
      rw [hge, compare_same] at hlt
      cases hlt
    · intro hno
      rcases hheld with ⟨hold, -⟩ | hmem
      · -- an owner in the parent is `f`'s entity, which keeps the value, and no owner is lower
        have howner := hfit.owner f hf attr hattr hu
        cases hparent : parent.lookup f.2.1 f.2.2 with
        | none => exact absurd hold (Db.lookup_none hfit.view hparent e)
        | some e' =>
          rw [hparent] at howner
          obtain rfl : e' = f.1 := by simpa using howner
          have hkept : p.working.Holds (f.1, f.2.1, f.2.2) :=
            (h.holds_iff hapart _).mpr (.inl ⟨Db.lookup_some hfit.view hparent, fun hr => hfit.apart f hf ((hrs _).mp hr)⟩)
          exact eq_of_isLE (Db.lookup_lowest hview hcovered' hlook hkept) (Db.lookup_lowest hfit.view hcovered hparent hold)
      · exact (hno (e, f.2.1, f.2.2) hmem rfl).elim

/-- No earlier assertion gives away a unique value. -/
def Unowned (parent : Db) (as : List Fact) (f : Fact) : Prop :=
  ∀ attr, parent.schema.get f.2.1 = some attr → attr.unique.isSome = true → ∀ g ∈ as, g.2 ≠ f.2

theorem Merging.assert (hfit : NoveltyFits parent n) (h : Merging parent tx rs as p)
    (hrs : ∀ f, f ∈ rs ↔ f ∈ n.retracts) (has : ∀ f ∈ as, f ∈ n.asserts) (hf : f ∈ n.asserts)
    (hbefore : ∀ g ∈ as, compare g f = .lt) :
    (Unowned parent as f → ∃ p', applyOp db tempids tx p (.add (.id f.1) f.2.1 f.2.2) = .ok p') ∧
      ∀ p', applyOp db tempids tx p (.add (.id f.1) f.2.1 f.2.2) = .ok p' →
        Unowned parent as f ∧ Merging parent tx rs (as ++ [f]) p' := by
  obtain ⟨ha, hok⟩ := hfit.asserts f hf
  obtain ⟨attr, hattr, -⟩ := hok.installed
  have hattr' : p.working.schema.get f.2.1 = some attr := h.follows.schema ▸ hattr
  have hok' : Assertable p.working f := hok.congr h.follows.schema.symm
  have hview := h.follows.view.trans hfit.view
  have hapart : ∀ g ∈ as, g ∉ rs := fun g hg hr => hfit.apart g (has g hg) ((hrs g).mp hr)
  have hnew : f ∉ as := fun hmem => by
    have := hbefore f hmem
    rw [compare_same] at this
    cases this
  have hheld : f.2.2 ∈ p.working.values f.1 f.2.1 ↔ holds parent.recorded f = true := by
    rw [Db.mem_values hview, h.holds_iff hapart]
    constructor
    · rintro (⟨hp, -⟩ | hmem)
      · exact hp
      · exact absurd hmem hnew
    · exact fun hp => .inl ⟨hp, fun hr => hfit.apart f hf ((hrs f).mp hr)⟩
  have happly : applyOp db tempids tx p (.add (.id f.1) f.2.1 f.2.2) = applyAdd tx p f.1 f.2.1 f.2.2 := rfl
  constructor
  · intro hun
    rw [happly]
    exact ⟨_, applyAdd_of ha hok' hattr' fun hu =>
      (h.owner_iff hfit hrs has hf hattr hu hbefore).mpr (hun attr hattr hu)⟩
  · intro p' hp'
    rw [happly] at hp'
    have howner : attr.unique.isSome = true → (p.working.lookup f.2.1 f.2.2).all (· = f.1) = true := by
      intro hu
      rcases applyAdd_ok hp' with ⟨hpresent, -⟩ | ⟨attr', g, -⟩
      · -- a value that is there already went through the same check
        unfold applyAdd at hp'
        simp only [bind_eq_ok, require_eq_ok, hattr'] at hp'
        obtain ⟨_, -, _, -, _, -, _, -, _, hlook, -⟩ := hp'
        exact hlook hu
      · cases hattr'.symm.trans g.installed
        exact g.owner hu
    refine ⟨fun attr' hattr'' hu => ?_, ?_⟩
    · cases hattr.symm.trans hattr''
      exact (h.owner_iff hfit hrs has hf hattr hu hbefore).mp (howner hu)
    · rw [applyAdd_of ha hok' hattr' howner] at hp'
      cases hp'
      split
      · rename_i hpresent
        refine ⟨h.follows, ?_⟩
        rw [h.datoms, mergeDatoms_assert, if_pos (hheld.mp hpresent), append_nil]
      · rename_i habsent
        rw [h.addDatoms hfit hrs has hf hattr habsent]
        refine ⟨Follows.advance h.follows fun d hd => ?_, ?_⟩
        · rw [mem_singleton.mp hd]
          exact hok.write
        · show p.datoms ++ _ = _
          rw [h.datoms, mergeDatoms_assert, if_neg fun hp => habsent (hheld.mpr hp)]

/-- The novelty asserts no unique value of two entities. -/
def Distinct (schema : Schema) (n : Novelty) : Prop :=
  ∀ f ∈ n.asserts, ∀ g ∈ n.asserts, ∀ attr, schema.get f.2.1 = some attr → attr.unique.isSome = true → g.2 = f.2 → g = f

def noveltyOps (n : Novelty) : List TxOp :=
  n.retracts.toList.map (fun f => .retract (.id f.1) f.2.1 f.2.2) ++
    n.asserts.toList.map fun f => .add (.id f.1) f.2.1 f.2.2

theorem expandItems_noveltyItems (n : Novelty) : expandItems (noveltyItems n) = noveltyOps n := by
  simp only [expandItems, noveltyItems, noveltyOps, flatMap_append, flatMap_map, expandItem,
    ← map_eq_flatMap]

/-- Facts ascend, so what stands before a fact is less. -/
theorem lt_of_split {facts : FactSet} {pre post : List Fact} (h : facts.toList = pre ++ f :: post) :
    ∀ g ∈ pre, compare g f = .lt := by
  have hsorted : facts.toList.Pairwise fun a b => compare a b = .lt := ExtTreeSet.ordered_toList
  rw [h, pairwise_append] at hsorted
  exact fun g hg => hsorted.2.2 g hg f mem_cons_self

theorem distinct_iff (n : Novelty) :
    (∀ pre f post, n.asserts.toList = pre ++ f :: post → Unowned parent pre f) ↔ Distinct parent.schema n := by
  constructor
  · intro h f hf g hg attr hattr hu heq
    by_contra hne
    -- whichever of the two comes first gives the value away
    obtain ⟨pre, post, hsplit⟩ := append_of_mem (ExtTreeSet.mem_toList.mpr hf)
    have hmem := ExtTreeSet.mem_toList.mpr hg
    rw [hsplit] at hmem
    rcases mem_append.mp hmem with hpre | hpost
    · exact h pre f post hsplit attr hattr hu g hpre heq
    rcases mem_cons.mp hpost with rfl | hpost
    · exact hne rfl
    obtain ⟨mid, post', rfl⟩ := append_of_mem hpost
    have hattr' : parent.schema.get g.2.1 = some attr := heq ▸ hattr
    exact h (pre ++ f :: mid) g post' (by rw [hsplit]; simp) attr hattr' hu f (by simp) heq.symm
  · intro h pre f post hsplit attr hattr hu g hg heq
    have hf : f ∈ n.asserts := ExtTreeSet.mem_toList.mp (by rw [hsplit]; simp)
    have hg' : g ∈ n.asserts := ExtTreeSet.mem_toList.mp (by rw [hsplit]; simp [hg])
    have hlt := lt_of_split hsplit g hg
    rw [h f hf g hg' attr hattr hu heq, compare_same] at hlt
    cases hlt

/-- The transaction of a novelty that fits runs through exactly when it gives no unique value to two entities. -/
theorem foldlM_noveltyOps (hfit : NoveltyFits parent n) :
    ((∃ p, (noveltyOps n).foldlM (applyOp db tempids tx) (Progress.start parent) = .ok p) ↔ Distinct parent.schema n) ∧
      ∀ p, (noveltyOps n).foldlM (applyOp db tempids tx) (Progress.start parent) = .ok p →
        Merging parent tx n.retracts.toList n.asserts.toList p := by
  have hstart : Merging parent tx [] [] (Progress.start parent) := ⟨⟨by simp [Progress.start], rfl, rfl, rfl⟩, rfl⟩
  have hmem : ∀ {facts : FactSet} {pre post : List Fact} {f : Fact}, facts.toList = pre ++ f :: post →
      f ∈ facts ∧ (∀ g ∈ pre, g ∈ facts) ∧ f ∉ pre := by
    intro facts pre post f hsplit
    refine ⟨ExtTreeSet.mem_toList.mp (by simp [hsplit]), fun g hg =>
      ExtTreeSet.mem_toList.mp (by simp [hsplit, hg]), fun hf => ?_⟩
    have hlt := lt_of_split hsplit f hf
    rw [compare_same] at hlt
    cases hlt
  have hretract : ∀ pre f post p, n.retracts.toList = pre ++ f :: post → Merging parent tx pre [] p →
      ∃ p', applyOp db tempids tx p (.retract (.id f.1) f.2.1 f.2.2) = .ok p' ∧ Merging parent tx (pre ++ [f]) [] p' :=
    fun pre f post p hsplit hp => hp.retract hfit (hmem hsplit).1 (hmem hsplit).2.2
  obtain ⟨hiff, hinv⟩ := foldlM_ok_iff
    (f := fun p (f : Fact) => applyOp db tempids tx p (.retract (.id f.1) f.2.1 f.2.2))
    (P := fun rs p => Merging parent tx rs [] p) (Q := fun _ _ => True)
    (fun pre f post p hsplit hp _ => (hretract pre f post p hsplit hp).imp fun _ => And.left)
    (fun pre f post p p' hsplit hp hp' => by
      obtain ⟨p'', hp'', hmerging⟩ := hretract pre f post p hsplit hp
      cases hp'.symm.trans hp''
      exact ⟨trivial, hmerging⟩) hstart
  obtain ⟨p, hp⟩ := hiff.mpr fun _ _ _ _ => trivial
  have hassert : ∀ pre f post p, n.asserts.toList = pre ++ f :: post → Merging parent tx n.retracts.toList pre p →
      (Unowned parent pre f → ∃ p', applyOp db tempids tx p (.add (.id f.1) f.2.1 f.2.2) = .ok p') ∧
        ∀ p', applyOp db tempids tx p (.add (.id f.1) f.2.1 f.2.2) = .ok p' →
          Unowned parent pre f ∧ Merging parent tx n.retracts.toList (pre ++ [f]) p' :=
    fun pre f post p hsplit hp => hp.assert hfit (fun _ => ExtTreeSet.mem_toList) (hmem hsplit).2.1 (hmem hsplit).1
      (lt_of_split hsplit)
  have hsecond := foldlM_ok_iff (f := fun p (f : Fact) => applyOp db tempids tx p (.add (.id f.1) f.2.1 f.2.2))
    (P := fun as p => Merging parent tx n.retracts.toList as p) (Q := Unowned parent)
    (fun pre f post p hsplit hp => (hassert pre f post p hsplit hp).1)
    (fun pre f post p p' hsplit hp => (hassert pre f post p hsplit hp).2 p') (hinv p hp)
  rw [distinct_iff] at hsecond
  have hfold : ∀ p', (noveltyOps n).foldlM (applyOp db tempids tx) (Progress.start parent) = .ok p' ↔
      n.asserts.toList.foldlM (fun p (f : Fact) => applyOp db tempids tx p (.add (.id f.1) f.2.1 f.2.2)) p = .ok p' := by
    intro p'
    rw [noveltyOps, foldlM_append, foldlM_map, hp, ← foldlM_map]
    rfl
  simp only [hfold]
  exact hsecond

end Transaction

/-! ## What an empty scan says -/

theorem scan_eq_nil_iff (parent : Db) (branch drift : Novelty) :
    scan parent branch drift = [] ↔
      (∀ e a b, (branchPairs parent.schema branch)[(e, a)]? = some b → pairConflict parent drift e a b = none) ∧
        ∀ f ∈ branch.asserts, uniqueConflict parent f = none ∧ danglingConflict parent drift f = none := by
  unfold scan
  rw [← length_eq_zero_iff, length_mergeSort, length_eq_zero_iff, append_eq_nil_iff,
    filterMap_eq_nil_iff, flatMap_eq_nil_iff]
  simp only [append_eq_nil_iff, Option.toList_eq_nil_iff, ExtTreeSet.mem_toList, Prod.forall,
    ExtTreeMap.mem_toList_iff_getElem?_eq_some]

theorem getElem?_notePair_of_ne {x : Fact × Bool}
    (h : (x.1.1, x.1.2.1) ≠ k) (m : Pairs) : (notePair schema m x)[k]? = m[k]? := by
  have hne : ¬ compare (x.1.1, x.1.2.1) k = .eq := fun hc => h (eq_of_compare_eq hc)
  unfold notePair
  split
  · rfl
  · split
    · rw [ExtTreeMap.getElem?_insert, if_neg hne]
    · rw [ExtTreeMap.getElem?_insertIfNew, if_neg fun hc => hne hc.1]

/-- A pair of the branch comes from a fact of it. -/
theorem exists_of_branchPairs {branch : Novelty}
    (h : (branchPairs schema branch)[k]? = some b) : ∃ x ∈ branch.facts, (x.1.1, x.1.2.1) = k := by
  by_contra hno
  have hkeep : ∀ x ∈ branch.facts, ∀ m : Pairs, m[k]? = none → (notePair schema m x)[k]? = none := fun x hx m hm =>
    (getElem?_notePair_of_ne (fun hk => hno ⟨x, hx, hk⟩) m).trans hm
  have hnone : (branchPairs schema branch)[k]? = none :=
    foldl_of_brings (P := fun m : Pairs => m[k]? = none) (Q := fun _ => False) (fun _ _ hf => hf.elim)
      (fun x hx _ m hm => hkeep x hx m hm) (.inl (by simp))
  rw [hnone] at h
  cases h

theorem mem_facts {n : Novelty} {b : Bool} :
    (f, b) ∈ n.facts ↔ if b then f ∈ n.asserts else f ∈ n.retracts := by
  cases b <;> simp [Novelty.facts]

/-- The branch means a cardinality-one pair to hold the value it asserts for it, where it asserts one. -/
theorem branchPairs_of_assert {branch : Novelty} (hf : f ∈ branch.asserts) (hmany : many schema f.2.1 = false)
    (hone : ∀ g ∈ branch.asserts, g.1 = f.1 → g.2.1 = f.2.1 → g.2.2 = f.2.2) :
    (branchPairs schema branch)[(f.1, f.2.1)]? = some (some f.2.2) := by
  refine foldl_of_brings (P := fun m : Pairs => m[(f.1, f.2.1)]? = some (some f.2.2)) (Q := fun x => x = (f, true)) ?_ ?_
    (.inr ⟨(f, true), ?_, rfl⟩)
  · rintro x - rfl m
    simp [notePair, hmany]
  · intro x hx _ m hm
    by_cases hkey : (x.1.1, x.1.2.1) = (f.1, f.2.1)
    · -- any other assertion of the pair is of the same value, and a retraction leaves what is there
      obtain ⟨h1, h2⟩ := Prod.mk.inj hkey
      unfold notePair
      rw [h1, h2, hmany]
      simp only [Bool.false_eq_true, if_false]
      split
      · rename_i hadded
        rw [hone x.1 (by simpa [hadded] using mem_facts.mp hx) h1 h2]
        simp
      · have hin : (f.1, f.2.1) ∈ m := ExtTreeMap.isSome_getElem?_iff_mem.mp (by rw [hm]; rfl)
        rw [ExtTreeMap.getElem?_insertIfNew, if_neg fun hc => hc.2 hin]
        exact hm
    · exact (getElem?_notePair_of_ne hkey m).trans hm
  · exact mem_facts.mpr hf

theorem not_drifted (h : drifted drift e a = false) (he : f.1 = e)
    (ha : f.2.1 = a) : f ∉ drift.asserts ∧ f ∉ drift.retracts := by
  have hno : ∀ b, (f, b) ∉ drift.facts := fun b hmem => by
    have := any_eq_false.mp h (f, b) hmem
    simp [he, ha] at this
  exact ⟨fun hmem => hno true (mem_facts.mpr hmem), fun hmem => hno false (mem_facts.mpr hmem)⟩

theorem pairConflict_eq_none_iff {parent : Db} :
    pairConflict parent drift e a b = none ↔ drifted drift e a = false ∨ (parent.values e a).head? = b := by
  unfold pairConflict
  by_cases h : drifted drift e a = false ∨ (parent.values e a).head? = b
  · rcases h with h | h <;> simp [h]
  · obtain ⟨h1, h2⟩ := not_or.mp h
    simp [h1, h2]

theorem uniqueConflict_eq_none_iff {parent : Db} : uniqueConflict parent f = none ↔
    ∀ attr, parent.schema.get f.2.1 = some attr → attr.unique.isSome = true →
      (parent.lookup f.2.1 f.2.2).all (· = f.1) = true := by
  unfold uniqueConflict
  cases hattr : parent.schema.get f.2.1 with
  | none => simp
  | some attr =>
    simp only [Option.any_some, Option.some.injEq, forall_eq']
    by_cases hu : attr.unique.isSome = true
    · rw [if_pos hu]
      cases hlook : parent.lookup f.2.1 f.2.2 with
      | none => simp
      | some holder => by_cases heq : holder = f.1 <;> simp [hu, heq]
    · simp [hu]

/-! ## Two runs from one value -/

/-- The novelty writes no registry attribute. -/
def Plain (n : Novelty) : Prop := ∀ f, f ∈ n.asserts ∨ f ∈ n.retracts → isRegistryAttribute f.2.1 = false

section Sides

variable {base branch parent : Db} {bs ds : List Datom}

theorem many_eq_false {schema : Schema} {a : AttrId} {attr : Attribute} (h : schema.get a = some attr)
    (hone : attr.cardinality = .one) : many schema a = false := by simp [many, h, hone]

/-- Where the scan of two runs from one value finds no conflict, the branch's novelty fits the parent. -/
theorem fits_of_scan (ho : Ordered base) (hb : Runs base bs branch) (hd : Runs base ds parent) (hplain : Plain (squash bs))
    (hscan : scan parent (squash bs) (squash ds) = []) : NoveltyFits parent (squash bs) := by
  obtain ⟨hpairs, hfacts⟩ := (scan_eq_nil_iff parent (squash bs) (squash ds)).mp hscan
  have hstands := hd.stands ho.view
  have hview := hstands.view.trans ho.view
  -- what the branch asserts for one pair is one value
  have hbranch : ∀ f ∈ (squash bs).asserts, ∀ attr, parent.schema.get f.2.1 = some attr → attr.cardinality = .one →
      ∀ v, branch.Holds (f.1, f.2.1, v) → v = f.2.2 := by
    intro f hf attr hattr hone v hv
    obtain ⟨htx, -, hheld⟩ := (hb.mem_asserts ho).mp hf
    refine (hb.ordered ho).one f.1 f.2.1 htx attr ?_ hone v f.2.2 hv hheld
    rw [(hb.stands ho.view).schema, ← hstands.schema]
    exact hattr
  refine ⟨hview, fun f hf => ?_, fun f hf => ?_, fun f hf hr => ?_, ?_, fun f hf =>
    uniqueConflict_eq_none_iff.mp (hfacts f hf).1⟩
  · obtain ⟨htx, hheld, -⟩ := (hb.mem_retracts ho).mp hf
    have hreg := hplain f (.inr hf)
    obtain ⟨d, hd, rfl, -⟩ := Runs.exists_of_netWord (mem_squash.2.mp hf)
    obtain ⟨hw, ha⟩ := hb.writes ho.view hd ⟨htx, hreg⟩
    exact ⟨hw, ha, hstands.schema ▸ ho.retractable _ hheld htx hreg⟩
  · obtain ⟨htx, -, -⟩ := (hb.mem_asserts ho).mp hf
    have hreg := hplain f (.inl hf)
    obtain ⟨d, hd, rfl, hadded⟩ := Runs.exists_of_netWord (mem_squash.1.mp hf)
    exact ⟨(hb.writes ho.view hd ⟨htx, hreg⟩).2, (hb.assertable ho.view hd ⟨htx, hreg⟩ hadded).congr hstands.schema.symm⟩
  · exact ((hb.mem_asserts ho).mp hf).2.1 ((hb.mem_retracts ho).mp hr).2.1
  · rintro f hf attr hattr hone v (⟨hheld, hkept⟩ | hmem)
    · obtain ⟨htx, -, -⟩ := (hb.mem_asserts ho).mp hf
      have hpair := hpairs f.1 f.2.1 _ (branchPairs_of_assert hf (many_eq_false hattr hone) fun g hg h1 h2 => by
        have hg' := ((hb.mem_asserts ho).mp hg).2.2
        rw [show g = (f.1, f.2.1, g.2.2) from Prod.ext h1 (Prod.ext h2 rfl)] at hg'
        exact hbranch f hf attr hattr hone _ hg')
      rcases pairConflict_eq_none_iff.mp hpair with hdrift | hconverged
      · -- the parent left the pair alone, so what it holds the branch started from, and retracted unless it is the same
        obtain ⟨hna, -⟩ := not_drifted (f := (f.1, f.2.1, v)) hdrift rfl rfl
        have hbase : base.Holds (f.1, f.2.1, v) := by
          by_contra hno
          exact hna ((hd.mem_asserts ho).mpr ⟨htx, hno, hheld⟩)
        by_contra hne
        exact hkept ((hb.mem_retracts ho).mpr ⟨htx, hbase, fun hv => hne (hbranch f hf attr hattr hone v hv)⟩)
      · have hhead : parent.Holds (f.1, f.2.1, f.2.2) := (Db.mem_values hview).mp (mem_of_mem_head? hconverged)
        exact (hd.ordered ho).one f.1 f.2.1 htx attr hattr hone v f.2.2 hheld hhead
    · exact hbranch f hf attr hattr hone v ((hb.mem_asserts ho).mp hmem).2.2

/-- What the merged value holds: neither side's update is lost. -/
theorem union_iff (ho : Ordered base) (hb : Runs base bs branch) (hd : Runs base ds parent) {f : Fact}
    (hf : f.1.inPartition .tx = false) :
    (parent.Holds f ∧ f ∉ (squash bs).retracts ∨ f ∈ (squash bs).asserts) ↔
      (base.Holds f ∧ f ∉ (squash bs).retracts ∧ f ∉ (squash ds).retracts) ∨
        f ∈ (squash bs).asserts ∨ f ∈ (squash ds).asserts := by
  rw [hb.mem_asserts ho, hb.mem_retracts ho, hd.mem_asserts ho, hd.mem_retracts ho]
  tauto

end Sides

/-! ## Blocks of open sagas -/

/-- The ids a fact names. -/
def factIds (f : Fact) : List EntityId :=
  f.1 :: match f.2.2 with
    | .ref e => [e]
    | _ => []

/-- The novelty's facts the merge has still to write. -/
def Writes (parent : Db) (n : Novelty) (f : Fact) : Prop :=
  f ∈ n.retracts ∧ parent.Holds f ∨ f ∈ n.asserts ∧ ¬ parent.Holds f

/-- What is still to be written names no id leased to one of `sagas`. -/
def Free (sagas : List SagaEntry) (parent : Db) (n : Novelty) : Prop :=
  ∀ entry ∈ sagas, ∀ g ∈ entry.grants, ∀ f, Writes parent n f → ∀ e ∈ factIds f, g.holds e = false

theorem mem_mergeDatoms {parent : Db} {tx : TxId} {n : Novelty} :
    d ∈ mergeDatoms parent tx n.retracts.toList n.asserts.toList ↔
      ∃ f, f ∈ n.retracts ∧ parent.Holds f ∧ d = retractFact tx f ∨ f ∈ n.asserts ∧ ¬ parent.Holds f ∧ d = assertFact tx f := by
  simp only [mergeDatoms, mem_append, mem_map, mem_filter, ExtTreeSet.mem_toList, Db.Holds,
    Bool.not_eq_true', Bool.not_eq_true]
  constructor
  · rintro (⟨f, ⟨hf, hheld⟩, rfl⟩ | ⟨f, ⟨hf, hheld⟩, rfl⟩)
    · exact ⟨f, .inl ⟨hf, hheld, rfl⟩⟩
    · exact ⟨f, .inr ⟨hf, hheld, rfl⟩⟩
  · rintro ⟨f, ⟨hf, hheld, rfl⟩ | ⟨hf, hheld, rfl⟩⟩
    · exact .inl ⟨f, ⟨hf, hheld⟩, rfl⟩
    · exact .inr ⟨f, ⟨hf, hheld⟩, rfl⟩

theorem fact_of_mem_mergeDatoms {parent : Db} {tx : TxId} {n : Novelty}
    (h : d ∈ mergeDatoms parent tx n.retracts.toList n.asserts.toList) : Writes parent n d.fact := by
  obtain ⟨f, ⟨hf, hheld, rfl⟩ | ⟨hf, hheld, rfl⟩⟩ := mem_mergeDatoms.mp h
  · exact .inl ⟨hf, hheld⟩
  · exact .inr ⟨hf, hheld⟩

theorem exists_mem_mergeDatoms {parent : Db} {n : Novelty} (h : Writes parent n f) (tx : TxId) :
    ∃ d ∈ mergeDatoms parent tx n.retracts.toList n.asserts.toList, d.fact = f := by
  rcases h with ⟨hf, hheld⟩ | ⟨hf, hheld⟩
  · exact ⟨retractFact tx f, mem_mergeDatoms.mpr ⟨f, .inl ⟨hf, hheld, rfl⟩⟩, rfl⟩
  · exact ⟨assertFact tx f, mem_mergeDatoms.mpr ⟨f, .inr ⟨hf, hheld, rfl⟩⟩, rfl⟩

theorem namedIds_of_plain (h : isRegistryAttribute d.a = false) : namedIds d = factIds d.fact := by
  unfold namedIds factIds Datom.fact
  cases d.v <;> simp [h]

theorem validateGrantedIds_ok_iff {db : Db} {ds : List Datom} : validateGrantedIds db ds = .ok () ↔
    ∀ d ∈ ds, ∀ e ∈ namedIds d, ∀ g ∈ guardedGrants db ds, g.holds e = false := by
  unfold validateGrantedIds
  simp only
  constructor
  · intro h d hd e he g hg
    split at h
    · cases h
    · rename_i hnone
      have := List.find?_eq_none.mp hnone e (mem_flatMap.mpr ⟨d, hd, he⟩)
      rw [any_eq_true] at this
      exact Bool.eq_false_iff.mpr fun hh => this ⟨g, hg, hh⟩
  · intro h
    have hnone : (ds.flatMap namedIds).find? (fun e => (guardedGrants db ds).any (·.holds e)) = none := by
      refine List.find?_eq_none.mpr fun e he hany => ?_
      obtain ⟨d, hd, he⟩ := mem_flatMap.mp he
      obtain ⟨g, hg, hh⟩ := any_eq_true.mp hany
      rw [h d hd e he g hg] at hh
      cases hh
    rw [hnone]

theorem assertedStatus_of_no_status {db : Db} {ds : List Datom} (h : ∀ d ∈ ds, d.a ≠ sagaStatus) :
    assertedStatus db e ds = none := by
  have hnone : ds.reverse.find? (fun d => d.e = e ∧ d.a = sagaStatus ∧ d.added) = none := by
    refine List.find?_eq_none.mpr fun d hd hc => h d (mem_reverse.mp hd) ?_
    simp only [decide_eq_true_eq] at hc
    exact hc.2.1
  unfold assertedStatus
  rw [hnone]
  rfl

/-- Facts outside the registry are refused only for the ids they name. -/
theorem validateSagas_of_plain {parent : Db} {tx : TxId} {n : Novelty} (hplain : Plain n) :
    validateSagas parent (mergeDatoms parent tx n.retracts.toList n.asserts.toList) = .ok () ↔
      Free (openEntries parent) parent n := by
  have hreg : ∀ d ∈ mergeDatoms parent tx n.retracts.toList n.asserts.toList, isRegistryAttribute d.a = false := by
    intro d hd
    exact hplain d.fact ((fact_of_mem_mergeDatoms hd).symm.imp And.left And.left)
  generalize hds : mergeDatoms parent tx n.retracts.toList n.asserts.toList = ds at hreg
  have hsaga : ∀ d ∈ ds, isSagaAttribute d.a = false ∧ isGrantAttribute d.a = false := by
    intro d hd
    have := hreg d hd
    simp only [isRegistryAttribute, Bool.or_eq_false_iff] at this
    exact this.1
  have hne : ∀ d ∈ ds, ∀ a, isSagaAttribute a = true → d.a ≠ a := by
    rintro d hd a ha rfl
    rw [(hsaga d hd).1] at ha
    cases ha
  have hguarded : guardedGrants parent ds = (openEntries parent).flatMap (·.grants) := by
    unfold guardedGrants
    rw [filter_eq_self.mpr fun entry _ => by
      rw [assertedStatus_of_no_status fun d hd => hne d hd _ (by decide)]
      rfl]
  have hfilter : ds.filter (fun d => isSagaAttribute d.a) = [] :=
    filter_eq_nil_iff.mpr fun d hd => by simp [(hsaga d hd).1]
  have hrequire : ∀ d ∈ ds, isGrantAttribute d.a = false ∧ d.a ≠ sagaIdGrants := fun d hd =>
    ⟨(hsaga d hd).2, hne d hd _ (by decide)⟩
  have hrest : validateSagas parent ds = .ok () ↔ validateGrantedIds parent ds = .ok () := by
    unfold validateSagas
    simp only [hfilter, bind_eq_ok, require_eq_ok]
    constructor
    · rintro ⟨_, -, _, h, -⟩
      exact h
    · exact fun h => ⟨(), hrequire, (), h, rfl⟩
  rw [hrest, validateGrantedIds_ok_iff, hguarded]
  constructor
  · intro h entry hentry g hg f hf e he
    obtain ⟨d, hd, rfl⟩ := exists_mem_mergeDatoms hf tx
    rw [hds] at hd
    exact h d hd e (by rw [namedIds_of_plain (hreg d hd)]; exact he) g (mem_flatMap.mpr ⟨entry, hentry, hg⟩)
  · intro h d hd e he g hg
    obtain ⟨entry, hentry, hg⟩ := mem_flatMap.mp hg
    rw [namedIds_of_plain (hreg d hd)] at he
    exact h entry hentry g hg d.fact (fact_of_mem_mergeDatoms (hds ▸ hd)) e he

/-! ## The union -/

theorem prepare_eq_ok_iff {db : Db} {tx : TxId} {n : Nat} : prepare db items tx n = .ok r ↔
      ∃ p, (expandItems items).foldlM (applyOp db (allocate db tx n (expandItems items)).tempids tx) (Progress.start db) = .ok p ∧
        validateSagas db p.datoms = .ok () ∧
        r = { datoms := p.datoms, tempids := (allocate db tx n (expandItems items)).tempids } := by
  constructor
  · intro h
    obtain ⟨htemp, ⟨p, hp, hds⟩, hsagas⟩ := prepare_ok h
    rw [htemp] at hp
    exact ⟨p, hp, hds ▸ hsagas, by rw [← hds, ← htemp]⟩
  · rintro ⟨p, hp, hsagas, rfl⟩
    unfold prepare
    simp only [bind_eq_ok, pure_eq_ok]
    exact ⟨p, hp, (), by rw [hsagas]; rfl, rfl⟩

/-- What the merged value holds of ordinary entities. -/
theorem holds_withTransactionAt {db : Db} {datoms : List Datom} (instant : Int64) (hf : f.1.inPartition .tx = false) :
    (db.withTransactionAt t instant datoms).Holds f ↔ holds (db.recorded ++ datoms) f = true := by
  have hrec : (db.withTransactionAt t instant datoms).recorded = db.recorded ++ recordedAt t instant datoms := by
    unfold Db.withTransactionAt recordedAt
    cases assertedInstant t datoms <;> rfl
  obtain ⟨stamp, hstamp, hmem⟩ := recordedAt_cases t instant datoms
  rw [Db.Holds, hrec, hstamp, ← append_assoc, holds_append_of_ne]
  intro d hd hfact
  have hde : d.e = f.1 := congrArg (·.1) hfact
  rw [hmem d hd] at hde
  rw [← hde, show (txInstantDatom t instant).e = txId t from rfl, inPartition_txId] at hf
  cases hf

/-- Two runs from one value, whose scan finds no conflict: the branch's novelty is
    accepted exactly when it gives no unique value to two entities and names no id
    leased to an open saga, and then the value holds the union of what both sides
    did. -/
theorem conflict_free_merge_is_the_union {base branch parent : Db} {bs ds : List Datom} (ho : Ordered base)
    (hb : Runs base bs branch) (hd : Runs base ds parent) (hplain : Plain (squash bs))
    (hscan : scan parent (squash bs) (squash ds) = []) (t n : Nat) :
    Distinct base.schema (squash bs) ∧ Free (openEntries parent) parent (squash bs) ↔
      ∃ r, prepare parent (noveltyItems (squash bs)) (txId t) n = .ok r ∧
        ∀ instant f, f.1.inPartition .tx = false → ((parent.withTransactionAt t instant r.datoms).Holds f ↔
          (base.Holds f ∧ f ∉ (squash bs).retracts ∧ f ∉ (squash ds).retracts) ∨
            f ∈ (squash bs).asserts ∨ f ∈ (squash ds).asserts) := by
  have hfit := fits_of_scan ho hb hd hplain hscan
  obtain ⟨hiff, hmerging⟩ := @foldlM_noveltyOps parent (squash bs) (txId t) parent
    (allocate parent (txId t) n (noveltyOps (squash bs))).tempids hfit
  rw [(hd.stands ho.view).schema] at hiff
  constructor
  · rintro ⟨hdistinct, hfree⟩
    obtain ⟨p, hp⟩ := hiff.mpr hdistinct
    have hm := hmerging p hp
    refine ⟨_, prepare_eq_ok_iff.mpr ⟨p, by rw [expandItems_noveltyItems]; exact hp, ?_, rfl⟩, fun instant f hf => ?_⟩
    · rw [hm.datoms]
      exact (validateSagas_of_plain hplain).mpr hfree
    · rw [holds_withTransactionAt instant hf, hm.datoms, holds_mergeDatoms, ExtTreeSet.mem_toList,
        ExtTreeSet.mem_toList]
      · exact union_iff ho hb hd hf
      · exact fun g hg hr => hfit.apart g (ExtTreeSet.mem_toList.mp hg) (ExtTreeSet.mem_toList.mp hr)
  · rintro ⟨r, hr, -⟩
    obtain ⟨p, hp, hsagas, -⟩ := prepare_eq_ok_iff.mp hr
    rw [expandItems_noveltyItems] at hp
    rw [(hmerging p hp).datoms] at hsagas
    exact ⟨hiff.mp ⟨p, hp⟩, (validateSagas_of_plain hplain).mp hsagas⟩

theorem ordered_of_empty {db : Db} (hv : db.view = .current) (h : db.recorded = []) : Ordered db := by
  have hnone : ∀ f, ¬ db.Holds f := fun f hf => by
    rw [Db.Holds, h] at hf
    cases hf
  exact ⟨hv, fun e a _ _ _ _ v _ hv => absurd hv (hnone _), fun f hf => absurd hf (hnone f)⟩

theorem leasedWith_nil (before : List Datom) : LeasedWith before [] :=
  ⟨forall_mem_nil _, forall_mem_nil _, forall_mem_nil _, nodup_nil⟩

/-- One transaction that leases nothing. -/
theorem Runs.one {db : Db} {n : Nat} (instant : Int64) (h : prepare db items (txId t) n = .ok r) :
    Runs db (recordedAt t instant r.datoms) (db.withTransactionAt t instant r.datoms) := by
  have hstep : Runs db (recordedAt t instant (r.datoms ++ [])) (db.withTransactionAt t instant (r.datoms ++ [])) :=
    Runs.step .refl h (leasedWith_nil _)
  rw [append_nil] at hstep
  exact hstep

namespace SwappedMergeExample

open SwapExample

/-- The branch's one transaction gives an address to Alice and swaps it in for Bob. -/
def swapped : List Datom := recordedAt 1 5 prepared.datoms

/-- No entity of the parent has the address, so the scan finds no conflict; but the
    merge gives it to both, and is refused. -/
theorem a_swapped_unique_value_does_not_merge :
    ∃ branch, Ordered db ∧ Runs db swapped branch ∧ Runs db [] db ∧ Plain (squash swapped) ∧
      scan db (squash swapped) (squash []) = [] ∧
      prepare db (noveltyItems (squash swapped)) (txId 1) 1000 = .error .uniqueConflict := by
  have hprep : prepare db items (txId 1) 1000 = .ok prepared := by decide
  refine ⟨_, ordered_of_empty rfl rfl, Runs.one 5 hprep, .refl, fun f hf => ?_, by decide +kernel, by decide⟩
  have hasserts : (squash swapped).asserts.toList = [(alice, email, .str "a@x"), (bob, email, .str "a@x")] := by
    decide
  have hretracts : (squash swapped).retracts.toList = [] := by decide
  rw [← ExtTreeSet.mem_toList, ← ExtTreeSet.mem_toList, hasserts, hretracts] at hf
  have : f.2.1 = email := by
    simp only [mem_cons, not_mem_nil, or_false] at hf
    rcases hf with rfl | rfl <;> rfl
  rw [this]
  decide

/-- The branch gives Alice an address, the parent another to Bob meanwhile. -/
def branched : PreparedTx := { datoms := [assertion tx alice email (.str "a@x")], tempids := ∅ }

def meanwhile : PreparedTx := { datoms := [assertion tx bob email (.str "b@x")], tempids := ∅ }

theorem conflict_free_merge_keeps_both_addresses :
    ∃ r, prepare (db.withTransactionAt 1 5 meanwhile.datoms) (noveltyItems (squash (recordedAt 1 5 branched.datoms)))
        (txId 2) 1000 = .ok r ∧
      ∀ instant f, f.1.inPartition .tx = false →
        (((db.withTransactionAt 1 5 meanwhile.datoms).withTransactionAt 2 instant r.datoms).Holds f ↔
          (db.Holds f ∧ f ∉ (squash (recordedAt 1 5 branched.datoms)).retracts ∧
              f ∉ (squash (recordedAt 1 5 meanwhile.datoms)).retracts) ∨
            f ∈ (squash (recordedAt 1 5 branched.datoms)).asserts ∨
              f ∈ (squash (recordedAt 1 5 meanwhile.datoms)).asserts) := by
  have hb : prepare db [.op (.add (.id alice) email (.str "a@x"))] (txId 1) 1000 = .ok branched := by
    decide
  have hd : prepare db [.op (.add (.id bob) email (.str "b@x"))] (txId 1) 1000 = .ok meanwhile := by
    decide
  have hasserts : (squash (recordedAt 1 5 branched.datoms)).asserts.toList = [(alice, email, .str "a@x")] := by
    decide
  have hretracts : (squash (recordedAt 1 5 branched.datoms)).retracts.toList = [] := by decide
  have honly : ∀ f ∈ (squash (recordedAt 1 5 branched.datoms)).asserts, f = (alice, email, .str "a@x") := by
    intro f hf
    rw [← ExtTreeSet.mem_toList, hasserts] at hf
    exact mem_singleton.mp hf
  refine (conflict_free_merge_is_the_union (ordered_of_empty rfl rfl) (Runs.one 5 hb) (Runs.one 5 hd) (fun f hf => ?_)
    (by decide +kernel) 2 1000).mp ⟨fun f hf g hg _ _ _ _ => (honly g hg).trans (honly f hf).symm, ?_⟩
  · rcases hf with hf | hf
    · rw [honly f hf]
      decide
    · rw [← ExtTreeSet.mem_toList, hretracts] at hf
      cases hf
  · have hopen : openEntries (db.withTransactionAt 1 5 meanwhile.datoms) = [] := by decide
    rw [hopen]
    exact forall_mem_nil _

end SwappedMergeExample

end Corium.Transactor
