/-
  Corium.Tx.Registry — what an accepted transaction does to a saga's registry
  entry (`validate_entity` of `crates/corium-tx/src/saga.rs`).

  The validator reads which fields of an entry a transaction asserts or retracts.
  A field it asserts is in force afterwards only if nothing takes it back, so what
  follows is about transactions whose retractions are replaced (`Replaced`): a
  value removed is followed by one asserted for the same entity and attribute.
  `:db/retractEntity` retracts an entity whole (`entityRetractions_whole`), so it
  cannot take a field of an entry and leave its id.
-/

import Corium.Tx.Constraints

namespace Corium.Tx

open Corium.Core Corium.Lib Bootstrap List Std Saga

/-! ## Retracting an entity retracts all of it -/

/-- Every live fact of `x` is collected. -/
def Whole (db : Db) (facts : FactSet) (x : EntityId) : Prop := ∀ d ∈ db.datomsAt .eavt, d.e = x → d.fact ∈ facts

/-- A fact is collected for its entity, or because it refers to a collected one. -/
def Sourced (acc : Collected) : Prop := ∀ f ∈ acc.1, f.1 ∈ acc.2 ∨ Value.isRef f.2.2 = true

/-- From `acc` to `acc'` facts and visits are only added, and every entity newly
    visited is collected whole, apart from those still being visited. -/
structure Collects (db : Db) (pending : EntityId → Prop) (acc acc' : Collected) : Prop where
  facts : ∀ f ∈ acc.1, f ∈ acc'.1
  seen : ∀ x ∈ acc.2, x ∈ acc'.2
  whole : (∀ x ∈ acc.2, ¬ pending x → Whole db acc.1 x) → ∀ x ∈ acc'.2, ¬ pending x → Whole db acc'.1 x
  sourced : Sourced acc → Sourced acc'

namespace Collects

variable {db : Db} {pending : EntityId → Prop} {acc acc' acc'' : Collected}

theorem refl : Collects db pending acc acc := ⟨fun _ h => h, fun _ h => h, fun h => h, fun h => h⟩

theorem trans (h : Collects db pending acc acc') (h' : Collects db pending acc' acc'') :
    Collects db pending acc acc'' :=
  ⟨fun f hf => h'.facts f (h.facts f hf), fun x hx => h'.seen x (h.seen x hx), fun hw => h'.whole (h.whole hw),
    fun hs => h'.sourced (h.sourced hs)⟩

theorem insert {f : Fact} (hf : f.1 ∈ acc.2 ∨ Value.isRef f.2.2 = true) :
    Collects db pending acc (acc.1.insert f, acc.2) := by
  refine ⟨fun g hg => ExtTreeSet.mem_insert.mpr (.inr hg), fun _ h => h, fun hw x hx hp d hd he => ?_, ?_⟩
  · exact ExtTreeSet.mem_insert.mpr (.inr (hw x hx hp d hd he))
  · intro hs g hg
    rcases ExtTreeSet.mem_insert.mp hg with hcmp | hg
    · rw [← eq_of_compare_eq hcmp]
      exact hf
    · exact hs g hg

end Collects

theorem mem_insert_self (facts : FactSet) (f : Fact) : f ∈ facts.insert f :=
  ExtTreeSet.mem_insert.mpr (.inl (compare_same f))

/-- One datom of a visit to `e`. -/
def collectStep (db : Db) (fuel : Nat) (e : EntityId) (acc : Collected) (d : Datom) : Collected :=
  if d.e = e then
    let acc := match d.v with
      | .ref child => if isComponentAttr db d.a then collectEntityRetractions db fuel child acc else acc
      | _ => acc
    (acc.1.insert d.fact, acc.2)
  else if d.v = .ref e then (acc.1.insert d.fact, acc.2)
  else acc

theorem collectEntityRetractions_succ (db : Db) (fuel : Nat) (e : EntityId) (acc : Collected) :
    collectEntityRetractions db (fuel + 1) e acc =
      if e ∈ acc.2 then acc else (db.datomsAt .eavt).foldl (collectStep db fuel e) (acc.1, acc.2.insert e) := rfl

variable {e : EntityId} {tx : TxId} {p p' : Progress} {a : AttrId} {d : Datom} {ds : List Datom} {w w' : Db}

theorem collects_step {db : Db} {fuel : Nat} {pending : EntityId → Prop} {acc : Collected}
    (ih : ∀ child acc, Collects db pending acc (collectEntityRetractions db fuel child acc)) (he : e ∈ acc.2) (d : Datom) :
    Collects db pending acc (collectStep db fuel e acc d) ∧ (d.e = e → d.fact ∈ (collectStep db fuel e acc d).1) := by
  unfold collectStep
  split
  · rename_i hde
    -- the child's visit, if any, then the datom's own fact
    have hchild : ∀ acc', Collects db pending acc acc' → Collects db pending acc (acc'.1.insert d.fact, acc'.2) ∧
        (d.e = e → d.fact ∈ acc'.1.insert d.fact) := fun acc' h =>
      ⟨h.trans (.insert (.inl (show d.e ∈ acc'.2 from hde.symm ▸ h.seen e he))), fun _ => mem_insert_self _ _⟩
    split
    · split
      · exact hchild _ (ih _ acc)
      · exact hchild _ .refl
    · exact hchild _ .refl
  · rename_i hde
    split
    · rename_i hv
      refine ⟨.insert (.inr ?_), fun h => absurd h hde⟩
      rw [show d.fact.2.2 = .ref e from hv]
      rfl
    · exact ⟨.refl, fun h => absurd h hde⟩

theorem collects (db : Db) (fuel : Nat) (e : EntityId) (pending : EntityId → Prop) (acc : Collected) :
    Collects db pending acc (collectEntityRetractions db fuel e acc) := by
  induction fuel generalizing e pending acc with
  | zero => exact .refl
  | succ fuel ih =>
    rw [collectEntityRetractions_succ]
    split
    · exact .refl
    · -- while `e` is visited it is pending too; every datom of the scan adds its own
      have hscan : ∀ (ds : List Datom) (acc : Collected), e ∈ acc.2 →
          Collects db (fun x => pending x ∨ x = e) acc (ds.foldl (collectStep db fuel e) acc) ∧
            ∀ d ∈ ds, d.e = e → d.fact ∈ (ds.foldl (collectStep db fuel e) acc).1 := by
        intro ds
        induction ds with
        | nil => exact fun acc _ => ⟨.refl, nofun⟩
        | cons d ds ihds =>
          intro acc he
          obtain ⟨hstep, hown⟩ := collects_step (fun child acc => ih child (fun x => pending x ∨ x = e) acc) he d
          obtain ⟨hrest, hmem⟩ := ihds _ (hstep.seen e he)
          refine ⟨hstep.trans hrest, fun d' hd' hde => ?_⟩
          rcases mem_cons.mp hd' with rfl | hd'
          · exact hrest.facts _ (hown hde)
          · exact hmem d' hd' hde
      obtain ⟨h, hmem⟩ := hscan (db.datomsAt .eavt) (acc.1, acc.2.insert e)
        (ExtTreeSet.mem_insert.mpr (.inl (compare_same e)))
      have hinsert : ∀ x ∈ acc.2, x ∈ acc.2.insert e := fun x hx => ExtTreeSet.mem_insert.mpr (.inr hx)
      refine ⟨h.facts, fun x hx => h.seen x (hinsert x hx), fun hw x hx hp => ?_, fun hs => h.sourced fun f hf => ?_⟩
      · by_cases hxe : x = e
        · exact fun d hd hde => hmem d hd (hde.trans hxe)
        · refine h.whole (fun y hy hpy => ?_) x hx (not_or.mpr ⟨hp, hxe⟩)
          rcases ExtTreeSet.mem_insert.mp hy with hcmp | hy
          · exact absurd (.inr (eq_of_compare_eq hcmp).symm) hpy
          · exact hw y hy fun hpend => hpy (.inl hpend)
      · exact (hs f hf).imp_left fun hx => hinsert _ hx

variable {v : Value} {tempids : Tempids} {op : TxOp} {items : List TxItem} {r : PreparedTx} {n : Nat}
  {status : Option SagaStatus}

/-- A fact of `e` that is no reference is retracted only with all of `e`. -/
theorem entityRetractions_whole {w : Db} (hv : w.view = .current) {x e : EntityId} {a a' : AttrId} {v' : Value}
    (hf : (e, a, v) ∈ entityRetractions w x) (href : Value.isRef v = false) (hlive : w.Holds (e, a', v')) :
    (e, a', v') ∈ entityRetractions w x := by
  have h := collects w ((w.datomsAt .eavt).length + 2) x (fun _ => False) (∅, ∅)
  have hmem := ExtTreeSet.mem_toList.mp hf
  have hseen : e ∈ (collectEntityRetractions w ((w.datomsAt .eavt).length + 2) x (∅, ∅)).2 := by
    rcases h.sourced (fun f hf => absurd hf ExtTreeSet.not_mem_empty) _ hmem with hseen | href'
    · exact hseen
    · rw [href] at href'
      cases href'
  obtain ⟨d, hd⟩ := holds_iff.mp hlive
  have hfact := (liveDatom_some hd).1
  have hdatom : d ∈ w.datomsAt .eavt := by
    refine mem_indexValues.mpr ⟨_, (Db.index_some (Db.showsLive_of_current hv) .eavt).mpr ⟨rfl, rfl, ?_⟩⟩
    rw [Db.mem_live_iff hv, hfact]
    exact hd
  have := h.whole (fun y hy => absurd hy ExtTreeSet.not_mem_empty) e hseen id d hdatom (congrArg (·.1) hfact)
  rw [hfact] at this
  exact ExtTreeSet.mem_toList.mpr this

/-! ## Retractions that are replaced -/

/-- The attribute an addition or a swap writes. -/
def assertedAttribute : TxOp → Option AttrId
  | .add _ a _ | .addRef _ a _ | .cas _ a _ _ => some a
  | _ => none

/-- The operation retracts a value of one of `attrs` and puts none in its place. -/
def clears (attrs : List AttrId) : TxOp → Bool
  | .retract _ a _ => a ∈ attrs
  | _ => false

def retractsEntity : TxOp → Bool
  | .retractEntity _ => true
  | _ => false

/-- Where `covers` applies, a retraction is followed by an assertion on the same entity and attribute. -/
def Replaced (covers : EntityId → AttrId → Prop) (ds : List Datom) : Prop :=
  ∀ l d r, ds = l ++ d :: r → covers d.e d.a → d.added = false → ∃ d' ∈ r, d'.e = d.e ∧ d'.a = d.a ∧ d'.added = true

section Replaced

variable {covers : EntityId → AttrId → Prop}

theorem Replaced.append {xs ys : List Datom} (hx : Replaced covers xs) (hy : Replaced covers ys) :
    Replaced covers (xs ++ ys) := by
  intro l d r h hc hadded
  rcases append_eq_append_iff.mp h with ⟨l', rfl, hys⟩ | ⟨r', rfl, hxs⟩
  · exact hy l' d r hys hc hadded
  · cases r' with
    | nil =>
      rw [nil_append] at hxs
      exact hy [] d r hxs.symm hc hadded
    | cons x r' =>
      obtain ⟨rfl, rfl⟩ := List.cons.inj hxs
      obtain ⟨d', hd', hd⟩ := hx l d r' rfl hc hadded
      exact ⟨d', mem_append_left _ hd', hd⟩

theorem replaced_replaceDatoms (tx : TxId) (e : EntityId) (a : AttrId) (old : List Value) (v : Value) :
    Replaced covers (replaceDatoms tx e a old v) := by
  intro l d r h _ hadded
  unfold replaceDatoms at h
  have hlast : assertion tx e a v ∈ d :: r := by
    have hmem := congrArg List.getLast? h
    rw [List.getLast?_append_of_ne_nil _ (by simp), List.getLast?_append_of_ne_nil _ (by simp)] at hmem
    exact mem_of_getLast? hmem.symm
  have hd : d ∈ old.map (retraction tx e a) ++ [assertion tx e a v] := by rw [h]; simp
  rcases mem_append.mp hd with hd | hd
  · obtain ⟨v', -, rfl⟩ := mem_map.mp hd
    rcases mem_cons.mp hlast with heq | hmem
    · exact absurd (congrArg Datom.added heq) (by simp [assertion, retraction])
    · exact ⟨_, hmem, rfl, rfl, rfl⟩
  · rw [mem_singleton.mp hd] at hadded
    cases hadded

variable {ds : List Datom}

theorem replaced_of_forall (h : ∀ d ∈ ds, ¬ covers d.e d.a ∨ d.added = true) : Replaced covers ds := by
  intro l d r hds hc hadded
  rcases h d (by rw [hds]; simp) with hne | hadd
  · exact absurd hc hne
  · rw [hadded] at hadd
    cases hadd

theorem replaced_nil : Replaced covers [] := replaced_of_forall nofun

/-- The last value asserted for (e, a). -/
def lastAsserted (e : EntityId) (a : AttrId) (ds : List Datom) : Option Datom :=
  ds.reverse.find? fun d => d.e = e ∧ d.a = a ∧ d.added

theorem lastAsserted_isSome {e : EntityId} {a : AttrId} {d : Datom} (hd : d ∈ ds) (he : d.e = e)
    (ha : d.a = a) (hadded : d.added = true) : ∃ d', lastAsserted e a ds = some d' := by
  refine Option.isSome_iff_exists.mp (List.find?_isSome.mpr ⟨d, mem_reverse.mpr hd, ?_⟩)
  simp [he, ha, hadded]

/-- Where retractions are replaced, the value asserted last is in force. -/
theorem Replaced.holds (h : Replaced covers ds) {e : EntityId} {a : AttrId} (hc : covers e a) {d : Datom}
    (hd : lastAsserted e a ds = some d) : holds ds (e, a, d.v) = true := by
  obtain ⟨hprop, as, bs, hsplit, hbefore⟩ := List.find?_eq_some_iff_append.mp hd
  simp only [decide_eq_true_eq] at hprop
  obtain ⟨he, ha, hadded⟩ := hprop
  have hds : ds = bs.reverse ++ d :: as.reverse := by
    have := congrArg List.reverse hsplit
    simpa using this
  have hafter : ∀ x ∈ as.reverse, ¬ (x.e = e ∧ x.a = a ∧ x.added = true) := by
    rintro x hx ⟨hxe, hxa, hxadded⟩
    have := hbefore x (mem_reverse.mp hx)
    simp [hxe, hxa, hxadded] at this
  have hlast : lastDatom ds (e, a, d.v) = some d := by
    refine lastOn_eq_some_iff.mpr ⟨by rw [← he, ← ha]; rfl, bs.reverse, as.reverse, hds, fun x hx hfact => ?_⟩
    have hxe : x.e = e := congrArg (·.1) hfact
    have hxa : x.a = a := congrArg (·.2.1) hfact
    cases hxadded : x.added with
    | true => exact hafter x hx ⟨hxe, hxa, hxadded⟩
    | false =>
      -- a later retraction would be followed by an assertion later still
      obtain ⟨l, r, hsp⟩ := append_of_mem hx
      obtain ⟨d', hd', he', ha', hadded'⟩ := h (bs.reverse ++ d :: l) x r (by rw [hds, hsp]; simp)
        (by rw [hxe, hxa]; exact hc) hxadded
      exact hafter d' (by rw [hsp]; simp [hd']) ⟨he'.trans hxe, ha'.trans hxa, hadded'⟩
  exact holds_iff.mpr ⟨d, by simp [liveDatom, hlast, hadded]⟩

/-- Where retractions are replaced, an attribute that had a value has one. -/
theorem Replaced.keeps (h : Replaced covers ds) {e : EntityId} {a : AttrId} (hc : covers e a)
    {xs : List Datom} {v : Value} (hv : Corium.holds xs (e, a, v) = true) :
    ∃ v', Corium.holds (xs ++ ds) (e, a, v') = true := by
  by_cases hasserted : ∃ d ∈ ds, d.e = e ∧ d.a = a ∧ d.added = true
  · obtain ⟨d, hd, he, ha, hadded⟩ := hasserted
    obtain ⟨d', hd'⟩ := lastAsserted_isSome hd he ha hadded
    exact ⟨d'.v, holds_append_of_holds xs (h.holds hc hd')⟩
  · refine ⟨v, (holds_append_of_ne fun d hd hfact => hasserted ?_).trans hv⟩
    have he : d.e = e := congrArg (·.1) hfact
    have ha : d.a = a := congrArg (·.2.1) hfact
    cases hadded : d.added with
    | true => exact ⟨d, hd, he, ha, hadded⟩
    | false =>
      obtain ⟨l, r, rfl⟩ := append_of_mem hd
      obtain ⟨d', hd', he', ha', hadded'⟩ := h l d r rfl (by rw [he, ha]; exact hc) hadded
      exact ⟨d', by simp [hd'], he'.trans he, ha'.trans ha, hadded'⟩

end Replaced

/-! ## Operations -/

theorem applyAdd_datoms (h : applyAdd tx p e a v = .ok p') :
    p'.datoms = p.datoms ∨ ∃ old, p'.datoms = p.datoms ++ replaceDatoms tx e a old v := by
  rcases applyAdd_ok h with ⟨-, rfl⟩ | ⟨attr, -, rfl⟩
  · exact .inl rfl
  · exact .inr ⟨_, congrArg (p.datoms ++ ·) (addDatoms_eq tx p.working attr e a v)⟩

/-- What an operation records: values replaced, or retractions only. -/
theorem applyOp_datoms {db : Db} (h : applyOp db tempids tx p op = .ok p') : p'.datoms = p.datoms ∨
    (∃ e a old v, assertedAttribute op = some a ∧ p'.datoms = p.datoms ++ replaceDatoms tx e a old v) ∨
    (∃ entity a v e, op = .retract entity a v ∧ p'.datoms = p.datoms ++ [retraction tx e a v]) ∨
    ∃ entity e, op = .retractEntity entity ∧
      p'.datoms = p.datoms ++ (entityRetractions p.working e).map fun f => retraction tx f.1 f.2.1 f.2.2 := by
  cases op with
  | add entity a v =>
    simp only [applyOp, bind_eq_ok] at h
    obtain ⟨e, -, h⟩ := h
    exact (applyAdd_datoms h).imp_right fun hold => .inl ⟨e, a, hold.choose, v, rfl, hold.choose_spec⟩
  | addRef entity a target =>
    simp only [applyOp, bind_eq_ok] at h
    obtain ⟨target, -, e, -, h⟩ := h
    exact (applyAdd_datoms h).imp_right fun hold => .inl ⟨e, a, hold.choose, _, rfl, hold.choose_spec⟩
  | retract entity a v =>
    simp only [applyOp, bind_eq_ok] at h
    obtain ⟨_, -, e, -, h⟩ := h
    obtain ⟨-, rfl⟩ := applyRetract_ok h
    by_cases hlive : v ∈ p.working.values e a
    · rw [if_pos hlive]
      exact .inr (.inr (.inl ⟨entity, a, v, e, rfl, rfl⟩))
    · rw [if_neg hlive]
      exact .inl (append_nil _)
  | cas entity a old new =>
    simp only [applyOp, bind_eq_ok, require_eq_ok] at h
    obtain ⟨_, ha, e, -, h⟩ := h
    obtain ⟨attr, -, rfl⟩ := applyCas_ok ha h
    exact .inr (.inl ⟨e, a, old.toList, new, rfl, rfl⟩)
  | retractEntity entity =>
    simp only [applyOp, bind_eq_ok] at h
    obtain ⟨e, -, h⟩ := h
    obtain ⟨-, -, rfl⟩ := applyRetractEntity_ok h
    exact .inr (.inr (.inr ⟨entity, e, rfl, rfl⟩))

/-- What an operation asserts is on the attribute it writes. -/
theorem applyOp_asserts {db : Db}
    (h : applyOp db tempids tx p op = .ok p') (hd : d ∈ p'.datoms) (hadded : d.added = true) :
    d ∈ p.datoms ∨ assertedAttribute op = some d.a := by
  rcases applyOp_datoms h with hds | ⟨e, a, old, v, hop, hds⟩ | ⟨_, a, v, e, -, hds⟩ | ⟨_, e, -, hds⟩
  · exact .inl (hds ▸ hd)
  all_goals
    rw [hds] at hd
    rcases mem_append.mp hd with hd | hd
    · exact .inl hd
  · unfold replaceDatoms at hd
    rcases mem_append.mp hd with hd | hd
    · obtain ⟨v', -, rfl⟩ := mem_map.mp hd
      cases hadded
    · rw [mem_singleton.mp hd]
      exact .inr hop
  · rw [mem_singleton.mp hd] at hadded
    cases hadded
  · obtain ⟨f, -, rfl⟩ := mem_map.mp hd
    cases hadded

/-- An operation that clears none of `attrs` replaces what it retracts of them. -/
theorem applyOp_replaced {db : Db} {attrs : List AttrId}
    (hclears : clears attrs op = false) (hentity : retractsEntity op = false)
    (hp : Replaced (fun _ a => a ∈ attrs) p.datoms) (h : applyOp db tempids tx p op = .ok p') :
    Replaced (fun _ a => a ∈ attrs) p'.datoms := by
  rcases applyOp_datoms h with hds | ⟨e, a, old, v, -, hds⟩ | ⟨_, a, v, e, rfl, hds⟩ | ⟨_, e, rfl, hds⟩
  · exact hds ▸ hp
  · exact hds ▸ hp.append (replaced_replaceDatoms tx e a old v)
  · refine hds ▸ hp.append (replaced_of_forall fun d hd => .inl ?_)
    rw [mem_singleton.mp hd]
    exact of_decide_eq_false hclears
  · cases hentity

/-- An attribute a transaction asserts is one an operation of it writes. -/
theorem prepare_asserts {db : Db} (h : prepare db items tx n = .ok r) (hd : d ∈ r.datoms) (hadded : d.added = true) :
    ∃ op ∈ expandItems items, assertedAttribute op = some d.a := by
  obtain ⟨-, ⟨p, hp, hds⟩, -⟩ := prepare_ok h
  rw [hds] at hd
  refine foldlM_inv (P := fun p => d ∈ p.datoms → ∃ op ∈ expandItems items, assertedAttribute op = some d.a)
    (fun op hop s s' ih hstep hd => ?_) (fun hd => by cases hd) hp hd
  rcases applyOp_asserts hstep hd hadded with hold | hnew
  · exact ih hold
  · exact ⟨op, hop, hnew⟩

theorem prepare_replaced {db : Db} {attrs : List AttrId} (h : prepare db items tx n = .ok r)
    (hops : ∀ op ∈ expandItems items, clears attrs op = false ∧ retractsEntity op = false) :
    Replaced (fun _ a => a ∈ attrs) r.datoms := by
  obtain ⟨-, ⟨p, hp, hds⟩, -⟩ := prepare_ok h
  rw [hds]
  exact foldlM_inv (P := fun p => Replaced (fun _ a => a ∈ attrs) p.datoms) (fun op hop s s' ih hstep =>
    applyOp_replaced (hops op hop).1 (hops op hop).2 ih hstep) replaced_nil hp

/-! ## Types and cardinality one -/

section Attributes

variable (attrs : List AttrId)

/-- Every live value of `attrs` has its attribute's type, in the clear unless the attribute is protected. -/
def WellTyped (db : Db) : Prop :=
  ∀ f attr, f.2.1 ∈ attrs → db.Holds f → db.schema.get f.2.1 = some attr → f.2.2.hasType attr.valueType = true ∧
    ((db.schema.protectionOf f.2.1).current = none → ∀ s, f.2.2 ≠ .sealed s)

/-- Those of `attrs` that are cardinality-one hold at most one value per entity. -/
def OneValued (db : Db) : Prop :=
  ∀ a attr, a ∈ attrs → db.schema.get a = some attr → attr.cardinality = .one →
    ∀ e v v', db.Holds (e, a, v) → db.Holds (e, a, v') → v = v'

end Attributes

/-- (e, a) holds at most one value, if `a` is cardinality-one. -/
def OneAt (db : Db) (e : EntityId) (a : AttrId) : Prop :=
  ∀ attr, db.schema.get a = some attr → attr.cardinality = .one → ∀ v v', db.Holds (e, a, v) → db.Holds (e, a, v') → v = v'

variable {attrs : List AttrId}

theorem not_sealed_of_form {w : Db} (h : validateAssertionForm w a v = .ok ())
    (hnone : (w.schema.protectionOf a).current = none) (s : Sealed) : v ≠ .sealed s := by
  rintro rfl
  unfold validateAssertionForm at h
  rw [hnone] at h
  cases h

/-- What an effect asserts has passed the checks. -/
theorem OpEffect.asserted {w : Db} (h : OpEffect tx w ds) (hd : d ∈ ds)
    (hadded : d.added = true) : ∃ attr, w.schema.get d.a = some attr ∧ d.v.hasType attr.valueType = true ∧
      ((w.schema.protectionOf d.a).current = none → ∀ s, d.v ≠ .sealed s) := by
  have hreplace : ∀ {e a old v attr}, w.schema.get a = some attr → v.hasType attr.valueType = true →
      validateAssertionForm w a v = .ok () → d ∈ replaceDatoms tx e a old v → ∃ attr, w.schema.get d.a = some attr ∧
        d.v.hasType attr.valueType = true ∧ ((w.schema.protectionOf d.a).current = none → ∀ s, d.v ≠ .sealed s) := by
    intro e a old v attr hattr htype hform hd
    rcases mem_append.mp hd with hd | hd
    · obtain ⟨v', -, rfl⟩ := mem_map.mp hd
      cases hadded
    · rw [mem_singleton.mp hd]
      exact ⟨attr, hattr, htype, not_sealed_of_form hform⟩
  cases h with
  | nothing => cases hd
  | add g =>
    rw [addDatoms_eq] at hd
    exact hreplace g.installed g.type g.form hd
  | retract =>
    rw [mem_singleton.mp hd] at hadded
    cases hadded
  | cas g => exact hreplace g.installed g.type g.form hd
  | retractEntity =>
    obtain ⟨f, -, rfl⟩ := mem_map.mp hd
    cases hadded

theorem WellTyped.effect (hw : WellTyped attrs w) (h : OpEffect tx w ds)
    (hf : Follows w ds w') : WellTyped attrs w' := by
  intro f attr hmem hholds hattr
  rw [hf.schema] at hattr ⊢
  rw [Db.Holds, hf.recorded] at hholds
  rcases holds_append_cases hholds with ⟨d, hd, rfl, hadded⟩ | ⟨hold, -⟩
  · obtain ⟨attr', hattr', htype, hform⟩ := h.asserted hd hadded
    cases hattr.symm.trans hattr'
    exact ⟨htype, hform⟩
  · exact hw f attr hmem hold hattr

/-- A pair keeps at most one value. -/
theorem OneAt.effect (hw : OneAt w e a)
    (hv : w.view = .current) (h : OpEffect tx w ds) (hf : Follows w ds w') : OneAt w' e a := by
  intro attr hattr hone v v' hvv hvv'
  rw [hf.schema] at hattr
  rw [Db.Holds, hf.recorded] at hvv hvv'
  -- values of (e, a) replaced by one: nothing else is left of them
  have hreplace : ∀ {e' a' old new}, (∀ x, w.Holds (e', a', x) → e' = e → a' = a → x ∈ old) →
      ds = replaceDatoms tx e' a' old new → v = v' := by
    rintro e' a' old new hall rfl
    rw [holds_replaceDatoms] at hvv hvv'
    rcases hvv with heq | ⟨hv1, hno1⟩ <;> rcases hvv' with heq' | ⟨hv2, hno2⟩
    · cases heq
      cases heq'
      rfl
    · cases heq
      exact absurd rfl (hno2 v' (hall v' hv2 rfl rfl))
    · cases heq'
      exact absurd rfl (hno1 v (hall v hv1 rfl rfl))
    · exact hw attr hattr hone v v' hv1 hv2
  have hold : (∀ f, holds (w.recorded ++ ds) f = true → w.Holds f) → v = v' := fun hsub =>
    hw attr hattr hone v v' (hsub _ hvv) (hsub _ hvv')
  cases h with
  | nothing => exact hold fun f hf => by simpa [Db.Holds] using hf
  | @add e' a' new attr' g =>
    refine hreplace ?_ (addDatoms_eq tx w attr' e' a' new)
    rintro x hx - rfl
    cases hattr.symm.trans g.installed
    rw [if_pos hone]
    exact (Db.mem_values hv).mpr hx
  | @retract e' a' v0 =>
    exact hold fun f hf => ((holds_append_retractions w.recorded tx [(e', a', v0)] f).mp hf).1
  | @cas e' a' old new attr' g =>
    refine @hreplace e' a' old.toList new ?_ rfl
    rintro x hx rfl rfl
    cases hattr.symm.trans g.installed
    -- the swap retracts the first value, which is the only one
    rw [← g.current]
    cases hvs : w.values e' a' with
    | nil =>
      have := (Db.mem_values hv).mpr hx
      rw [hvs] at this
      cases this
    | cons y rest =>
      have hy : w.Holds (e', a', y) := (Db.mem_values hv).mp (by rw [hvs]; exact mem_cons_self)
      rw [hw attr hattr hone x y hx hy]
      exact mem_singleton_self y
  | retractEntity => exact hold fun f hf => ((holds_append_retractions w.recorded tx _ f).mp hf).1

theorem OneValued.effect (hw : OneValued attrs w) (hv : w.view = .current)
    (h : OpEffect tx w ds) (hf : Follows w ds w') : OneValued attrs w' := by
  intro a attr hmem hattr hone e v v'
  have hat : OneAt w e a := fun attr hattr hone => hw a attr hmem hattr hone e
  exact hat.effect hv h hf attr hattr hone v v'

/-- Types and cardinality survive an accepted transaction. -/
theorem Effects.wellTyped (h : Effects tx w ds w') (hv : w.view = .current)
    (ht : WellTyped attrs w) (ho : OneValued attrs w) : WellTyped attrs w' ∧ OneValued attrs w' := by
  induction h with
  | refl => exact ⟨ht, ho⟩
  | step hchain heff hw ih =>
    have hf := heff.follows hw
    exact ⟨ih.1.effect heff hf, ih.2.effect (hchain.follows.view.trans hv) heff hf⟩

/-! ## Entries are not retracted in part -/

/-- In a transaction that leaves the id of the entry `e` alone, what is retracted
    of its other plain fields is replaced. -/
theorem prepare_replaced_entry {db : Db}
    (hv : db.view = .current) (ht : WellTyped attrs db) (h : prepare db items tx n = .ok r)
    (hplain : ∀ a ∈ attrs, ∃ attr, db.schema.get a = some attr ∧ attr.valueType ≠ .ref)
    (hops : ∀ op ∈ expandItems items, clears attrs op = false) {id : Value}
    (hid : db.Holds (e, sagaId, id)) (hno : ∀ d ∈ r.datoms, d.e = e → d.a ≠ sagaId) :
    Replaced (fun x a => x = e ∧ a ∈ attrs) r.datoms := by
  obtain ⟨-, ⟨p, hp, hds⟩, -⟩ := prepare_ok h
  rw [hds] at hno ⊢
  have hinv : ((p.working.view = .current ∧ p.working.schema = db.schema) ∧ WellTyped attrs p.working) ∧
      ((∃ d ∈ p.datoms, d.e = e ∧ d.a = sagaId) ∨
        p.working.Holds (e, sagaId, id) ∧ Replaced (fun x a => x = e ∧ a ∈ attrs) p.datoms) := by
    refine foldlM_inv (P := fun p => ((p.working.view = .current ∧ p.working.schema = db.schema) ∧ WellTyped attrs p.working) ∧
      ((∃ d ∈ p.datoms, d.e = e ∧ d.a = sagaId) ∨
        p.working.Holds (e, sagaId, id) ∧ Replaced (fun x a => x = e ∧ a ∈ attrs) p.datoms))
      (fun op hop s s' ih hstep => ?_) ⟨⟨⟨hv, rfl⟩, ht⟩, .inr ⟨hid, replaced_nil⟩⟩ hp
    obtain ⟨⟨⟨hview, hschema⟩, htyped⟩, ih⟩ := ih
    obtain ⟨ds, heff, hadv⟩ := applyOp_effect hview hstep
    have hfollows := heff.follows hadv.working
    refine ⟨⟨⟨hfollows.view.trans hview, hfollows.schema.trans hschema⟩, htyped.effect heff hfollows⟩, ?_⟩
    rw [hadv.datoms]
    rcases ih with ⟨d, hd, hde⟩ | ⟨hlive, hrep⟩
    · exact .inl ⟨d, mem_append_left _ hd, hde⟩
    by_cases htouch : ∃ d ∈ ds, d.e = e ∧ d.a = sagaId
    · obtain ⟨d, hd, hde⟩ := htouch
      exact .inl ⟨d, mem_append_right _ hd, hde⟩
    have huntouched : ∀ d ∈ ds, d.fact ≠ (e, sagaId, id) := fun d hd hf =>
      htouch ⟨d, hd, congrArg (·.1) hf, congrArg (·.2.1) hf⟩
    refine .inr ⟨by rw [Db.Holds, hfollows.recorded]; exact (holds_append_of_ne huntouched).trans hlive, hrep.append ?_⟩
    have hcancel : ∀ {xs : List Datom}, s'.datoms = s.datoms ++ xs → ds = xs := fun hxs =>
      append_cancel_left (hadv.datoms.symm.trans hxs)
    rcases applyOp_datoms hstep with heq | ⟨e', a, old, v, -, heq⟩ | ⟨_, a, v, e', rfl, heq⟩ | ⟨_, x, rfl, heq⟩
    · rw [hcancel (heq.trans (append_nil _).symm)]
      exact replaced_nil
    · rw [hcancel heq]
      exact replaced_replaceDatoms tx e' a old v
    · rw [hcancel heq]
      refine replaced_of_forall fun d hd => .inl ?_
      rw [mem_singleton.mp hd]
      exact fun hc => of_decide_eq_false (hops _ hop) hc.2
    · -- a field of `e` would be collected with its id
      rw [hcancel heq]
      refine replaced_of_forall fun d hd => .inl fun hin => ?_
      obtain ⟨hde, hda⟩ := hin
      obtain ⟨f, hf, rfl⟩ := mem_map.mp hd
      obtain ⟨e', a, v⟩ := f
      obtain rfl : e' = e := hde
      obtain ⟨attr, hattr, hne⟩ := hplain a hda
      have hheld := (Db.mem_values hview).mp (entityRetractions_live hview hf)
      have htype := (htyped _ attr hda hheld (by rw [hschema]; exact hattr)).1
      have href : Value.isRef v = false := by
        cases v with
        | ref x =>
          simp only at htype
          cases hvt : attr.valueType <;> rw [hvt] at htype <;> simp_all [Value.hasType]
        | _ => rfl
      have hidmem := entityRetractions_whole hview hf href hlive
      refine htouch ⟨retraction tx e' sagaId id, ?_, rfl, rfl⟩
      rw [hcancel heq]
      exact mem_map.mpr ⟨_, hidmem, rfl⟩
  rcases hinv.2 with ⟨d, hd, hde, hda⟩ | ⟨-, hrep⟩
  · exact absurd hda (hno d hd hde)
  · exact hrep

/-! ## What the validator accepts -/

/-- `e` holds the status `status` in `db`. -/
def HoldsStatus (db : Db) (e : EntityId) (status : SagaStatus) : Prop :=
  ∃ v k, db.Holds (e, sagaStatus, v) ∧ keyword db v = some k ∧ SagaStatus.fromKeyword k = status

theorem mem_sagaWrites :
    d ∈ sagaWrites e ds ↔ d ∈ ds ∧ d.e = e ∧ isSagaAttribute d.a = true := by
  simp [sagaWrites]

theorem assertsField_iff (ha : isSagaAttribute a = true) :
    assertsField (sagaWrites e ds) a = true ↔ ∃ d ∈ ds, d.e = e ∧ d.a = a ∧ d.added = true := by
  simp only [assertsField, any_eq_true, decide_eq_true_eq, mem_sagaWrites]
  constructor
  · rintro ⟨d, ⟨hd, he, -⟩, hda, hadded⟩
    exact ⟨d, hd, he, hda, hadded⟩
  · rintro ⟨d, hd, he, rfl, hadded⟩
    exact ⟨d, ⟨hd, he, ha⟩, rfl, hadded⟩

theorem retractsField_iff (ha : isSagaAttribute a = true) :
    retractsField (sagaWrites e ds) a = true ↔ ∃ d ∈ ds, d.e = e ∧ d.a = a ∧ d.added = false := by
  simp only [retractsField, any_eq_true, decide_eq_true_eq, mem_sagaWrites, Bool.not_eq_true]
  constructor
  · rintro ⟨d, ⟨hd, he, -⟩, hda, hadded⟩
    exact ⟨d, hd, he, hda, hadded⟩
  · rintro ⟨d, hd, he, rfl, hadded⟩
    exact ⟨d, ⟨hd, he, ha⟩, rfl, hadded⟩

theorem rejectFirst_ok {attrs : List AttrId} {bad : AttrId → Bool} {err : String → SagaViolation}
    (h : rejectFirst attrs bad err = .ok ()) : ∀ a ∈ attrs, bad a = false := by
  unfold rejectFirst at h
  split at h
  · cases h
  · rename_i hnone
    exact fun a ha => Bool.eq_false_iff.mpr (List.find?_eq_none.mp hnone a ha)

/-- Only the transaction that commits a saga records its merge. -/
theorem checkMergeRecord_ok (h : checkMergeRecord (sagaWrites e ds) status = .ok ()) :
    status = some .committed ∨ ∀ d ∈ ds, d.e = e → d.a ∈ [sagaMergedTx, sagaSteps] → d.added = false := by
  unfold checkMergeRecord at h
  split at h
  · exact .inl ‹_›
  · right
    intro d hd he ha
    have hsaga : isSagaAttribute d.a = true := by
      simp only [mem_cons, not_mem_nil, or_false] at ha
      rcases ha with ha | ha <;> (rw [ha]; decide)
    have hno := rejectFirst_ok h d.a ha
    rw [Bool.eq_false_iff, ne_eq, assertsField_iff hsaga] at hno
    exact Bool.eq_false_iff.mpr fun hadded => hno ⟨d, hd, he, rfl, hadded⟩

/-- The fields an entry is created with. -/
def openFields : List AttrId := [sagaBasisT, sagaOwner, sagaExpiresAt]

/-- What opens an entry. -/
theorem validateOpen_ok (h : validateOpen e (sagaWrites e ds) status = .ok ()) :
    status = some .opened ∧ (∀ a ∈ sagaId :: openFields, ∃ d ∈ ds, d.e = e ∧ d.a = a ∧ d.added = true) ∧
      ∀ d ∈ ds, d.e = e → d.a ∈ [sagaMergedTx, sagaSteps] → d.added = false := by
  unfold validateOpen at h
  simp only [bind_eq_ok, require_eq_ok] at h
  obtain ⟨_, hid, h⟩ := h
  split at h
  case h_2 => cases h
  case h_3 => cases h
  simp only [bind_eq_ok] at h
  obtain ⟨_, hfields, hmerge⟩ := h
  refine ⟨rfl, fun a ha => ?_, ?_⟩
  · rcases mem_cons.mp ha with rfl | ha
    · exact (assertsField_iff (by decide)).mp hid
    · have hsaga : isSagaAttribute a = true := by
        simp only [openFields, mem_cons, not_mem_nil, or_false] at ha
        rcases ha with rfl | rfl | rfl <;> decide
      exact (assertsField_iff hsaga).mp (by simpa using rejectFirst_ok hfields a ha)
  · rcases checkMergeRecord_ok hmerge with hc | hno
    · cases hc
    · exact hno

/-- The fields that never change. -/
def fixedFields : List AttrId :=
  [sagaId, sagaBasisT, sagaOwner, sagaSealed]

/-- What updates an entry whose status is `current`. -/
theorem validateUpdate_ok {prior : SagaEntry} {current : SagaStatus} (hcurrent : prior.status = some current)
    (h : validateUpdate prior (sagaWrites e ds) status = .ok ()) : (∀ d ∈ ds, d.e = e → d.a ∉ fixedFields) ∧
      (status = none ∧ (∀ d ∈ ds, d.e = e → d.a = sagaStatus → d.added = true) ∨
        ∃ next, status = some next ∧ current = .opened ∧ next.isTerminal = true) ∧
      (status = some .committed ∨
        ∀ d ∈ ds, d.e = e → d.a ∈ [sagaMergedTx, sagaSteps] → d.added = false) := by
  unfold validateUpdate at h
  simp only [bind_eq_ok] at h
  obtain ⟨_, hfixed, _, htransition, _, -, hmerge⟩ := h
  refine ⟨fun d hd he ha => ?_, ?_, checkMergeRecord_ok hmerge⟩
  · have hsaga : isSagaAttribute d.a = true := by
      simp only [fixedFields, mem_cons, not_mem_nil, or_false] at ha
      rcases ha with ha | ha | ha | ha <;> (rw [ha]; decide)
    obtain ⟨hnoadd, hnoretract⟩ := Bool.or_eq_false_iff.mp (rejectFirst_ok hfixed d.a ha)
    cases hadded : d.added with
    | true => exact Bool.eq_false_iff.mp hnoadd ((assertsField_iff hsaga).mpr ⟨d, hd, he, rfl, hadded⟩)
    | false => exact Bool.eq_false_iff.mp hnoretract ((retractsField_iff hsaga).mpr ⟨d, hd, he, rfl, hadded⟩)
  · unfold validateTransition at htransition
    rw [hcurrent] at htransition
    cases status with
    | none =>
      simp only [bind_eq_ok, require_eq_ok] at htransition
      obtain ⟨_, hretracts, -⟩ := htransition
      refine .inl ⟨rfl, fun d hd he ha => ?_⟩
      rw [retractsField_iff (by decide)] at hretracts
      cases hadded : d.added with
      | true => rfl
      | false => exact absurd ⟨d, hd, he, ha, hadded⟩ hretracts
    | some next =>
      simp only [require_eq_ok, SagaStatus.mayBecome, Bool.and_eq_true, decide_eq_true_eq] at htransition
      exact .inr ⟨next, rfl, htransition.1, htransition.2⟩

end Corium.Tx
