/-
  Corium.Tx.RetractEntity — what `:db/retractEntity` removes
  (`collect_entity_retractions` of `crates/corium-tx/src/lib.rs`).

  The source recurses over the live datoms with a set of visited entities. It is a
  depth-first visit: it reaches the entity and its components, whatever cycles and shared
  children there are, and collects each live fact about one of them or pointing at
  one, once. So these are gone and every other datom is as it was
  (`retract_entity_is_exact`).
-/

import Corium.Lib.DepthFirst
import Corium.Tx.Constraints

namespace Corium.Tx

open Corium.Core Corium.Lib Bootstrap

/-- From `x` one gets to `y` through references of component attributes. -/
def Components (db : Db) : EntityId → EntityId → Prop :=
  Relation.ReflTransGen fun x y => ∃ a, db.Holds (x, a, .ref y) ∧ isComponentAttr db a = true

/-- The fact is about a component of `e`, or points at one. -/
def Touches (db : Db) (e : EntityId) (f : Fact) : Prop :=
  Components db e f.1 ∨ ∃ y, f.2.2 = .ref y ∧ Components db e y

/-! ## The visit -/

/-- The component child a datom of `e` leads to. -/
def componentChild (db : Db) (e : EntityId) (d : Datom) : Option EntityId :=
  if d.e = e then
    match d.v with
    | .ref child => if isComponentAttr db d.a then some child else none
    | _ => none
  else none

/-- The fact a datom adds at `e`. -/
def collectedFact (e : EntityId) (d : Datom) : Option Fact := if d.e = e ∨ d.v = .ref e then some d.fact else none

theorem collectEntityRetractions_eq_visit (db : Db) (fuel : Nat) (e : EntityId) (acc : Collected) :
    collectEntityRetractions db fuel e acc = DepthFirst.visit (db.datomsAt .eavt) (componentChild db) collectedFact fuel e acc := by
  induction fuel generalizing e acc with
  | zero => rfl
  | succ fuel ih =>
    unfold collectEntityRetractions DepthFirst.visit
    split
    · rfl
    · congr 1
      funext acc d
      by_cases he : d.e = e
      · cases hd : d.v with
        | ref child => by_cases hc : isComponentAttr db d.a <;> simp [DepthFirst.step, componentChild, collectedFact, he, hd, hc, ih]
        | _ => simp [DepthFirst.step, componentChild, collectedFact, he, hd]
      · by_cases hd : d.v = .ref e <;> simp [DepthFirst.step, componentChild, collectedFact, he, hd]

/-- The entities a visit can come to, other than where it starts. -/
def referenced (db : Db) : Finset EntityId :=
  ((db.datomsAt .eavt).filterMap fun d => match d.v with | .ref child => some child | _ => none).toFinset

section Facts

variable {db : Db} (hv : db.view = .current)
include hv

theorem mem_datomsAt_eavt {d : Datom} : d ∈ db.datomsAt .eavt ↔ liveDatom db.recorded d.fact = some d := by
  rw [← Db.mem_live_iff hv]
  constructor
  · intro hd
    obtain ⟨k, hk⟩ := mem_indexValues.mp hd
    exact ((Db.index_some (Db.showsLive_of_current hv) .eavt).mp hk).2.2
  · intro hd
    exact mem_indexValues.mpr ⟨_, (Db.index_some (Db.showsLive_of_current hv) .eavt).mpr ⟨rfl, rfl, hd⟩⟩

theorem exists_datom_iff {f : Fact} : (∃ d ∈ db.datomsAt .eavt, d.fact = f) ↔ db.Holds f := by
  rw [Db.Holds, holds_iff]
  constructor
  · rintro ⟨d, hd, rfl⟩
    exact ⟨d, (mem_datomsAt_eavt hv).mp hd⟩
  · rintro ⟨d, hd⟩
    have hf := (liveDatom_some hd).1
    exact ⟨d, (mem_datomsAt_eavt hv).mpr (hf ▸ hd), hf⟩

theorem componentChild_iff {x y : EntityId} :
    (∃ d ∈ db.datomsAt .eavt, componentChild db x d = some y) ↔ ∃ a, db.Holds (x, a, .ref y) ∧ isComponentAttr db a = true := by
  constructor
  · rintro ⟨d, hd, hchild⟩
    unfold componentChild at hchild
    split at hchild
    · rename_i he
      split at hchild
      · rename_i child hv'
        split at hchild
        · rename_i hcomponent
          cases hchild
          exact ⟨d.a, (exists_datom_iff hv).mp ⟨d, hd, by rw [Datom.fact, he, hv']⟩, hcomponent⟩
        · cases hchild
      · cases hchild
    · cases hchild
  · rintro ⟨a, hheld, hcomponent⟩
    obtain ⟨d, hd, hfact⟩ := (exists_datom_iff hv).mpr hheld
    obtain ⟨rfl, rfl, hvalue⟩ : d.e = x ∧ d.a = a ∧ d.v = .ref y := by simpa [Datom.fact] using hfact
    exact ⟨d, hd, by simp [componentChild, hvalue, hcomponent]⟩

theorem reach_eq_components : DepthFirst.Reach (db.datomsAt .eavt) (componentChild db) = Components db := by
  unfold DepthFirst.Reach Components
  congr 1
  funext x y
  exact propext (componentChild_iff hv)

/-- The visit marks the components and collects the live facts that touch them. -/
theorem collectEntityRetractions_spec {fuel : Nat} (e : EntityId) (hfuel : (db.datomsAt .eavt).length + 2 ≤ fuel) :
    (∀ x, x ∈ (collectEntityRetractions db fuel e (∅, ∅)).2 ↔ Components db e x) ∧
      ∀ f, f ∈ (collectEntityRetractions db fuel e (∅, ∅)).1 ↔ db.Holds f ∧ Touches db e f := by
  have hbound : (insert e (referenced db)).card < fuel := by
    have h1 := Finset.card_insert_le e (referenced db)
    have h2 : (referenced db).card ≤ (db.datomsAt .eavt).length :=
      (List.toFinset_card_le _).trans (List.length_filterMap_le _ _)
    omega
  have hnodes : ∀ x, ∀ d ∈ db.datomsAt .eavt, ∀ y, componentChild db x d = some y → y ∈ insert e (referenced db) := by
    intro x d hd y hy
    refine Finset.mem_insert_of_mem (List.mem_toFinset.mpr (List.mem_filterMap.mpr ⟨d, hd, ?_⟩))
    unfold componentChild at hy
    split at hy
    · split at hy
      · split at hy
        · exact hy
        · cases hy
      · cases hy
    · cases hy
  have hvisit := DepthFirst.visit_spec collectedFact hnodes (Finset.mem_insert_self _ _) hbound
  rw [← collectEntityRetractions_eq_visit, reach_eq_components hv] at hvisit
  obtain ⟨hseen, hout⟩ := hvisit
  refine ⟨hseen, fun f => (hout f).trans ?_⟩
  constructor
  · rintro ⟨x, hx, d, hd, hf⟩
    unfold collectedFact at hf
    split at hf
    · rename_i habout
      cases hf
      refine ⟨(exists_datom_iff hv).mp ⟨d, hd, rfl⟩, ?_⟩
      rcases habout with rfl | hvalue
      · exact .inl hx
      · exact .inr ⟨x, hvalue, hx⟩
    · cases hf
  · rintro ⟨hheld, htouches⟩
    obtain ⟨d, hd, rfl⟩ := (exists_datom_iff hv).mpr hheld
    rcases htouches with hx | ⟨y, hy, hreach⟩
    · exact ⟨d.e, hx, d, hd, by simp [collectedFact]⟩
    · exact ⟨y, hreach, d, hd, by simp [collectedFact, show d.v = .ref y from hy]⟩

/-- More fuel changes nothing: the recursion ends by itself. -/
theorem collectEntityRetractions_fuel {fuel : Nat} (e : EntityId) (hfuel : (db.datomsAt .eavt).length + 2 ≤ fuel) :
    collectEntityRetractions db fuel e (∅, ∅) = collectEntityRetractions db ((db.datomsAt .eavt).length + 2) e (∅, ∅) := by
  obtain ⟨hseen, hfacts⟩ := collectEntityRetractions_spec hv e hfuel
  obtain ⟨hseen', hfacts'⟩ := collectEntityRetractions_spec hv e (Nat.le_refl _)
  exact Prod.ext (Std.ExtTreeSet.ext_mem fun f => (hfacts f).trans (hfacts' f).symm)
    (Std.ExtTreeSet.ext_mem fun x => (hseen x).trans (hseen' x).symm)

theorem mem_entityRetractions {e : EntityId} {f : Fact} : f ∈ entityRetractions db e ↔ db.Holds f ∧ Touches db e f :=
  Std.ExtTreeSet.mem_toList.trans ((collectEntityRetractions_spec hv e (Nat.le_refl _)).2 f)

end Facts

/-! ## The operation -/

theorem liveDatom_append_retractions (ds : List Datom) (tx : TxId) (facts : List Fact) (f : Fact) :
    liveDatom (ds ++ facts.map fun f => retraction tx f.1 f.2.1 f.2.2) f = if f ∈ facts then none else liveDatom ds f := by
  split
  · rename_i hf
    have := mt (holds_append_retractions ds tx facts f).mp (fun h => h.2 hf)
    cases hl : liveDatom (ds ++ facts.map fun f => retraction tx f.1 f.2.1 f.2.2) f with
    | none => rfl
    | some d => exact absurd (holds_iff.mpr ⟨d, hl⟩) this
  · rename_i hf
    have hlast : lastDatom (facts.map fun f => retraction tx f.1 f.2.1 f.2.2) f = none := by
      refine lastOn_eq_none_iff.mpr fun d hd hfact => hf ?_
      obtain ⟨g, hg, rfl⟩ := List.mem_map.mp hd
      exact hfact ▸ hg
    rw [liveDatom_append, hlast]

/-- A `:db/retractEntity` that is accepted, wherever in a transaction it stands: it
    retracts, once each, the live facts about the entity and its components and those
    that point at one; no other datom of the value changes, and the recursion that finds
    them ends, whatever the graph. -/
theorem retract_entity_is_exact {db : Db} {tempids : Tempids} {tx : TxId} {p p' : Progress} {entity : EntityRef}
    (hv : p.working.view = .current) (h : applyOp db tempids tx p (.retractEntity entity) = .ok p') :
    ∃ e ds, resolve db tempids entity = .ok e ∧ p'.datoms = p.datoms ++ ds ∧
      (∀ d, d ∈ p'.working.datomsAt .eavt ↔ d ∈ p.working.datomsAt .eavt ∧ ¬ Touches p.working e d.fact) ∧
      (∀ f, f ∈ ds.map Datom.fact ↔ p.working.Holds f ∧ Touches p.working e f) ∧ (ds.map Datom.fact).Nodup ∧
      (∀ d ∈ ds, d.added = false) ∧
      ∀ fuel, (p.working.datomsAt .eavt).length + 2 ≤ fuel →
        (collectEntityRetractions p.working fuel e (∅, ∅)).1.toList = entityRetractions p.working e := by
  simp only [applyOp, bind_eq_ok] at h
  obtain ⟨e, he, h⟩ := h
  obtain ⟨hwrite, hinstant, rfl⟩ := applyRetractEntity_ok h
  have hfacts : ((entityRetractions p.working e).map fun f => retraction tx f.1 f.2.1 f.2.2).map Datom.fact =
      entityRetractions p.working e := by
    rw [List.map_map]
    exact List.map_id _
  have hfollows : Follows p.working _ (p.advance _).working := (OpEffect.retractEntity hwrite hinstant
    (fun f hf => entityRetractions_live hv hf) (entityRetractions_nodup p.working e) : OpEffect tx _ _).follows (.inl rfl)
  refine ⟨e, _, he, rfl, fun d => ?_, fun f => ?_, ?_, fun d hd => ?_, fun fuel hfuel => ?_⟩
  · rw [mem_datomsAt_eavt (hfollows.view.trans hv), mem_datomsAt_eavt hv, hfollows.recorded, liveDatom_append_retractions]
    by_cases hd : d.fact ∈ entityRetractions p.working e
    · rw [if_pos hd]
      exact iff_of_false (by simp) fun hand => hand.2 ((mem_entityRetractions hv).mp hd).2
    · rw [if_neg hd]
      refine ⟨fun hl => ⟨hl, fun ht => hd ((mem_entityRetractions hv).mpr ⟨holds_iff.mpr ⟨d, hl⟩, ht⟩)⟩, And.left⟩
  · rw [hfacts]
    exact mem_entityRetractions hv
  · rw [hfacts]
    exact entityRetractions_nodup p.working e
  · obtain ⟨f, -, rfl⟩ := List.mem_map.mp hd
    rfl
  · rw [collectEntityRetractions_fuel hv e hfuel]
    rfl

namespace CycleExample

def part : AttrId := dbAttr 100

def link : AttrId := dbAttr 101

def entity (n : Nat) : EntityId := EntityId.new Partition.user.id (1000 + n)

def points (a : AttrId) (x y : Nat) : Datom := assertion (txId 1) (entity x) a (.ref (entity y))

/-- Two entities that are part of each other, one that links to a part, and one it links to. -/
def db : Db :=
  (Db.new ((Schema.empty.insert { simple part .ref with isComponent := true }).insert (simple link .ref))).withTransaction 1
    [points part 1 2, points part 2 1, points link 3 2, points link 4 3]

def tx : TxId := txId 2

/-- Only the link to what is left of the others stays. -/
theorem retract_entity_is_exact_on_a_cycle :
    ∃ p', applyOp db ∅ tx (Progress.start db) (.retractEntity (.id (entity 1))) = .ok p' ∧ points link 4 3 ∈ p'.working.datomsAt .eavt ∧
      points link 3 2 ∉ p'.working.datomsAt .eavt ∧ points part 2 1 ∉ p'.working.datomsAt .eavt := by
  have hv : db.view = .current := by decide
  have hcomponents := (collectEntityRetractions_spec hv (entity 1) (Nat.le_refl _)).1
  obtain ⟨p', hp⟩ : ∃ p', applyOp db ∅ tx (Progress.start db) (.retractEntity (.id (entity 1))) = .ok p' := by
    have hok : (applyOp db ∅ tx (Progress.start db) (.retractEntity (.id (entity 1)))).toOption.isSome = true := by decide
    cases h : applyOp db ∅ tx (Progress.start db) (.retractEntity (.id (entity 1))) with
    | ok p' => exact ⟨p', rfl⟩
    | error x =>
      rw [h] at hok
      cases hok
  obtain ⟨e, ds, he, -, hleft, -⟩ := retract_entity_is_exact hv hp
  cases he
  refine ⟨p', hp, (hleft _).mpr ⟨by decide, ?_⟩, fun h => ((hleft _).mp h).2 (.inr ⟨entity 2, rfl, ?_⟩),
    fun h => ((hleft _).mp h).2 (.inl ?_)⟩
  · rintro (h | ⟨y, hy, h⟩)
    · exact absurd ((hcomponents _).mpr h) (by decide)
    · cases hy
      exact absurd ((hcomponents _).mpr h) (by decide)
  · exact (hcomponents _).mp (by decide)
  · exact (hcomponents _).mp (by decide)

end CycleExample

end Corium.Tx
