/-
  Corium.Tx.Alloc — where the entity ids of a prepared transaction come from
  (`prepare` of `crates/corium-tx/src/lib.rs`).

  A tempid is the transaction's own, is unified with an entity the database
  holds, or is fresh: the next user sequence, each a different one
  (`allocate_spec`). An id a prepared datom mentions is one the transaction
  names, one of its tempids, or one already recorded (`prepare_ids`). A tempid
  that some addition or swap is about is the entity of a recorded datom
  (`prepare_entity`).
-/

import Corium.Tx.Effects

namespace Corium.Tx

open Corium.Core Corium.Lib List

/-! ## Allocation -/

/-- The tempids that identity assertions unify with existing entities. -/
def unified (db : Db) (ops : List TxOp) : Tempids := ops.foldl (unifyIdentity db) ∅

/-- Tempids that are neither the transaction's own nor unified. -/
def isFresh (db : Db) (ops : List TxOp) (t : String) : Bool := t ≠ txTempid ∧ t ∉ unified db ops

/-- The ids newly allocated for tempids. -/
def freshIds (db : Db) (ops : List TxOp) (tempids : Tempids) : List EntityId :=
  (tempids.toList.filter fun x => isFresh db ops x.1).map (·.2)

variable {t : String} {v : Value}

theorem unified_some {db : Db} {ops : List TxOp} {e : EntityId} (h : (unified db ops)[t]? = some e) :
    t ≠ txTempid ∧ ∃ a v, db.lookup a v = some e := by
  revert h
  unfold unified
  apply List.foldlRecOn (motive := fun tempids : Tempids => tempids[t]? = some e → t ≠ txTempid ∧ ∃ a v, db.lookup a v = some e)
  · intro h
    simp at h
  · intro tempids ih op _ h
    unfold unifyIdentity at h
    split at h
    · split at h
      · rename_i a v _ hid
        split at h
        · rename_i e' hlookup
          rw [Std.ExtTreeMap.getElem?_insert] at h
          split at h
          · rename_i hcmp
            cases h
            exact ⟨Std.LawfulEqCmp.eq_of_compare hcmp ▸ hid.1, a, v, hlookup⟩
          · exact ih h
        · exact ih h
      · exact ih h
    · exact ih h

/-- What allocation has settled, starting at `start`. -/
structure Allocates (db : Db) (tx : TxId) (ops : List TxOp) (start : Nat) (alloc : Allocation) : Prop where
  start_le : start ≤ alloc.next
  own : ∀ e, alloc.tempids[txTempid]? = some e → e = tx
  unified : ∀ t, t ∈ unified db ops → alloc.tempids[t]? = (unified db ops)[t]?
  fresh : ∀ t e, alloc.tempids[t]? = some e → isFresh db ops t = true →
    ∃ k, start ≤ k ∧ k < alloc.next ∧ e = EntityId.new Partition.user.id k
  distinct : alloc.next ≤ sequenceLimit → ∀ t t' e, alloc.tempids[t]? = some e → alloc.tempids[t']? = some e →
    isFresh db ops t = true → isFresh db ops t' = true → t = t'

theorem getElem?_insert_eq (m : Tempids) (t t' : String) (e : EntityId) :
    (m.insert t e)[t']? = if t = t' then some e else m[t']? := by
  rw [Std.ExtTreeMap.getElem?_insert]
  simp only [compare_eq_iff_eq]

theorem allocateRef_spec {db : Db} {tx : TxId} {ops : List TxOp} {start : Nat} {alloc : Allocation}
    (h : Allocates db tx ops start alloc) (ref : EntityRef) : Allocates db tx ops start (allocateRef tx alloc ref) := by
  cases ref with
  | id e => exact h
  | lookup a v => exact h
  | temp t =>
    simp only [allocateRef]
    split
    · rename_i ht
      subst ht
      have hnot : ∀ t, isFresh db ops t = true → txTempid ≠ t := fun t hf heq => by simp [isFresh, ← heq] at hf
      refine ⟨h.start_le, fun e he => ?_, fun t hu => ?_, fun t e he hf => ?_, fun hn t t' e he he' hf hf' => ?_⟩
      · rw [getElem?_insert_eq, if_pos rfl] at he
        exact (Option.some.inj he).symm
      · rw [getElem?_insert_eq, if_neg]
        · exact h.unified t hu
        · obtain ⟨e, he⟩ := Option.isSome_iff_exists.mp (Std.ExtTreeMap.mem_iff_isSome_getElem?.mp hu)
          exact fun heq => (unified_some he).1 heq.symm
      · rw [getElem?_insert_eq, if_neg (hnot t hf)] at he
        exact h.fresh t e he hf
      · rw [getElem?_insert_eq, if_neg (hnot t hf)] at he
        rw [getElem?_insert_eq, if_neg (hnot t' hf')] at he'
        exact h.distinct hn t t' e he he' hf hf'
    · rename_i ht
      split
      · exact h
      · rename_i hnew
        have hnone : alloc.tempids[t]? = none := by
          rw [Std.ExtTreeMap.mem_iff_isSome_getElem?] at hnew
          simpa using hnew
        -- an older id is below the counter, and so is not the new one
        have hold : alloc.next + 1 ≤ sequenceLimit → ∀ t' e, alloc.tempids[t']? = some e → isFresh db ops t' = true →
            e ≠ EntityId.new Partition.user.id alloc.next := by
          intro hn t' e he hf heq
          obtain ⟨k, -, hk, rfl⟩ := h.fresh t' e he hf
          unfold sequenceLimit at hn
          have hk' : k < 2 ^ 42 := by omega
          have hnext : alloc.next < 2 ^ 42 := by omega
          have := EntityId.new_injective_of_lt hk' hnext heq
          omega
        refine ⟨by have := h.start_le; simp only; omega, fun e he => ?_, fun t' hu => ?_, fun t' e he hf => ?_,
          fun hn t₁ t₂ e he he' hf hf' => ?_⟩
        · rw [getElem?_insert_eq, if_neg ht] at he
          exact h.own e he
        · rw [getElem?_insert_eq, if_neg]
          · exact h.unified t' hu
          · intro heq
            subst heq
            rw [h.unified t hu] at hnone
            rw [Std.ExtTreeMap.mem_iff_isSome_getElem?, hnone] at hu
            cases hu
        · have hstart := h.start_le
          rw [getElem?_insert_eq] at he
          split at he
          · cases he
            exact ⟨alloc.next, hstart, by simp only; omega, rfl⟩
          · obtain ⟨k, hk, hlt, rfl⟩ := h.fresh t' e he hf
            exact ⟨k, hk, by simp only; omega, rfl⟩
        · simp only at hn
          rw [getElem?_insert_eq] at he he'
          split at he <;> split at he'
          · rename_i h1 h2
            exact h1.symm.trans h2
          · cases he
            exact absurd rfl (hold hn t₂ _ he' hf')
          · cases he'
            exact absurd rfl (hold hn t₁ _ he hf)
          · exact h.distinct (by omega) t₁ t₂ e he he' hf hf'

theorem allocate_spec (db : Db) (tx : TxId) (n : Nat) (ops : List TxOp) :
    Allocates db tx ops (max n firstUserId) (allocate db tx n ops) := by
  have hnone : ∀ t e, (unified db ops)[t]? = some e → isFresh db ops t = true → False := by
    intro t e he hf
    have hmem : t ∈ unified db ops := by
      rw [Std.ExtTreeMap.mem_iff_isSome_getElem?, he]
      rfl
    simp [isFresh, hmem] at hf
  unfold allocate
  apply List.foldlRecOn (motive := fun alloc => Allocates db tx ops (max n firstUserId) alloc)
  · exact ⟨Nat.le_refl _, fun e he => absurd rfl (unified_some he).1, fun _ _ => rfl,
      fun t e he hf => (hnone t e he hf).elim, fun _ t _ e he _ hf => (hnone t e he hf).elim⟩
  · exact fun alloc ih ref _ => allocateRef_spec ih ref

theorem allocateRef_mono (tx : TxId) (alloc : Allocation) (ref : EntityRef) (h : t ∈ alloc.tempids) :
    t ∈ (allocateRef tx alloc ref).tempids := by
  unfold allocateRef
  split
  · split
    · exact Std.ExtTreeMap.mem_insert.mpr (.inr h)
    · split
      · exact h
      · exact Std.ExtTreeMap.mem_insert.mpr (.inr h)
  · exact h

theorem allocateRef_temp (tx : TxId) (alloc : Allocation) (t : String) :
    t ∈ (allocateRef tx alloc (.temp t)).tempids := by
  simp only [allocateRef]
  split
  · exact Std.ExtTreeMap.mem_insert.mpr (.inl (compare_same t))
  · split
    · assumption
    · exact Std.ExtTreeMap.mem_insert.mpr (.inl (compare_same t))

/-- Every tempid in an entity position is allocated. -/
theorem mem_allocate {db : Db} {tx : TxId} {n : Nat} {ops : List TxOp} {op : TxOp} {t : String} (hop : op ∈ ops)
    (ht : .temp t ∈ entityPositions op) : t ∈ (allocate db tx n ops).tempids := by
  have hmem : .temp t ∈ ops.flatMap entityPositions := mem_flatMap.mpr ⟨op, hop, ht⟩
  unfold allocate
  generalize ops.flatMap entityPositions = refs at hmem
  generalize ({ tempids := _, next := _ } : Allocation) = alloc
  induction refs generalizing alloc with
  | nil => cases hmem
  | cons ref refs ih =>
    rw [foldl_cons]
    rcases mem_cons.mp hmem with rfl | hmem
    · apply List.foldlRecOn (motive := fun alloc : Allocation => t ∈ alloc.tempids)
      · exact allocateRef_temp tx alloc t
      · exact fun alloc h ref _ => allocateRef_mono tx alloc ref h
    · exact ih hmem _

section Allocated

variable {db : Db} {tx : TxId} {n : Nat} {ops : List TxOp}

theorem mem_freshIds {tempids : Tempids} {e : EntityId} :
    e ∈ freshIds db ops tempids ↔ ∃ t, tempids[t]? = some e ∧ isFresh db ops t = true := by
  unfold freshIds
  simp only [mem_map, mem_filter]
  refine ⟨fun ⟨⟨t, e'⟩, ⟨hmem, hf⟩, he⟩ => ?_, fun ⟨t, he, hf⟩ => ?_⟩
  · cases (he : e' = e)
    exact ⟨t, Std.ExtTreeMap.mem_toList_iff_getElem?_eq_some.mp hmem, hf⟩
  · exact ⟨(t, e), ⟨Std.ExtTreeMap.mem_toList_iff_getElem?_eq_some.mpr he, hf⟩, rfl⟩

/-- A tempid's id is the transaction's, one the database holds, or fresh. -/
theorem allocate_cases {t : String} {e : EntityId} (h : (allocate db tx n ops).tempids[t]? = some e) :
    e = tx ∨ (∃ a v, db.lookup a v = some e) ∨ e ∈ freshIds db ops (allocate db tx n ops).tempids := by
  have hspec := allocate_spec db tx n ops
  by_cases htx : t = txTempid
  · exact .inl (hspec.own e (htx ▸ h))
  by_cases hu : t ∈ unified db ops
  · rw [hspec.unified t hu] at h
    exact .inr (.inl (unified_some h).2)
  · exact .inr (.inr (mem_freshIds.mpr ⟨t, h, by simp [isFresh, htx, hu]⟩))

theorem freshIds_range {e : EntityId} (h : e ∈ freshIds db ops (allocate db tx n ops).tempids) :
    ∃ k, max n firstUserId ≤ k ∧ k < (allocate db tx n ops).next ∧ e = EntityId.new Partition.user.id k := by
  obtain ⟨t, he, hf⟩ := mem_freshIds.mp h
  exact (allocate_spec db tx n ops).fresh t e he hf

theorem freshIds_nodup (hn : (allocate db tx n ops).next ≤ sequenceLimit) :
    (freshIds db ops (allocate db tx n ops).tempids).Nodup := by
  have hspec := (allocate_spec db tx n ops).distinct hn
  refine pairwise_map.mpr (List.Pairwise.imp_of_mem ?_ (List.Pairwise.filter _ Std.ExtTreeMap.distinct_keys_toList))
  intro a b ha hb hne heq
  obtain ⟨ha, hfa⟩ := mem_filter.mp ha
  obtain ⟨hb, hfb⟩ := mem_filter.mp hb
  have hab := hspec a.1 b.1 a.2 (Std.ExtTreeMap.mem_toList_iff_getElem?_eq_some.mp ha)
    (heq ▸ Std.ExtTreeMap.mem_toList_iff_getElem?_eq_some.mp hb) hfa hfb
  exact hne (hab ▸ compare_same _)

end Allocated

/-! ## Ids of the prepared datoms -/

def valueIds : Value → List EntityId
  | .ref e => [e]
  | _ => []

/-- The ids a datom mentions: its entity and its value, where that is a reference. -/
def datomIds (d : Datom) : List EntityId := d.e :: valueIds d.v

def refIds : EntityRef → List EntityId
  | .id e => [e]
  | _ => []

/-- The ids an operation names to assert something about or with. A retraction
    records only what is live, whatever it names. -/
def assertedIds : TxOp → List EntityId
  | .add e _ v => refIds e ++ valueIds v
  | .addRef e _ target => refIds e ++ refIds target
  | .cas e _ _ new => refIds e ++ valueIds new
  | .retract _ _ _ | .retractEntity _ => []

/-- The entity an operation asserts something about. -/
def assertedRef : TxOp → Option EntityRef
  | .add e _ _ | .addRef e _ _ | .cas e _ _ _ => some e
  | .retract _ _ _ | .retractEntity _ => none

/-- A live value is the value of a recorded datom about the entity. -/
theorem recorded_of_values {db : Db} (hv : db.view = .current) {e : EntityId} {a : AttrId}
    (h : v ∈ db.values e a) : ∃ d ∈ db.recorded, d.e = e ∧ d.a = a ∧ d.v = v := by
  obtain ⟨d, hd⟩ := holds_iff.mp ((Db.mem_values hv).mp h)
  obtain ⟨hf, -, hmem⟩ := liveDatom_some hd
  exact ⟨d, hmem, congrArg (·.1) hf, congrArg (·.2.1) hf, congrArg (·.2.2) hf⟩

theorem recorded_of_lookup {db : Db} (hv : db.view = .current) {e : EntityId} {a : AttrId}
    (h : db.lookup a v = some e) : ∃ d ∈ db.recorded, d.e = e := by
  obtain ⟨d, hd, he, -⟩ := recorded_of_values hv ((Db.mem_values hv).mpr (Db.lookup_some hv h))
  exact ⟨d, hd, he⟩

section Ids

variable {tx : TxId} {w : Db} {Q : EntityId → Prop}

/-- `Q` holds of the ids of `ds`. -/
def AllIds (Q : EntityId → Prop) (ds : List Datom) : Prop := ∀ d ∈ ds, ∀ e ∈ datomIds d, Q e

theorem allIds_nil : AllIds Q [] := fun _ hd => absurd hd not_mem_nil

variable {ds : List Datom} {v : Value} {ref : EntityRef} {items : List TxItem} {r : PreparedTx}

theorem AllIds.append {ds' : List Datom} (h : AllIds Q ds) (h' : AllIds Q ds') : AllIds Q (ds ++ ds') := by
  intro d hd
  rcases mem_append.mp hd with hd | hd
  · exact h d hd
  · exact h' d hd

variable {e : EntityId} {p p' : Progress}
variable {a : AttrId} {tempids : Tempids} {op : TxOp}

theorem allIds_retractions {vs : List Value} (hv : w.view = .current)
    (hw : AllIds Q w.recorded) (hvs : ∀ v ∈ vs, v ∈ w.values e a) : AllIds Q (vs.map (retraction tx e a)) := by
  intro d hd
  obtain ⟨v, hmem, rfl⟩ := mem_map.mp hd
  obtain ⟨d', hd', rfl, -, rfl⟩ := recorded_of_values hv (hvs v hmem)
  exact hw d' hd'

theorem allIds_assertion (he : Q e) (hv : ∀ x ∈ valueIds v, Q x) : AllIds Q [assertion tx e a v] := by
  intro d hd x hx
  rw [mem_singleton.mp hd] at hx
  rcases mem_cons.mp hx with rfl | hx
  · exact he
  · exact hv x hx

theorem applyAdd_ids (hview : p.working.view = .current)
    (hw : AllIds Q p.working.recorded) (he : Q e) (hv : ∀ x ∈ valueIds v, Q x) (h : applyAdd tx p e a v = .ok p') :
    ∃ ds, Advances p p' ds ∧ AllIds Q ds := by
  rcases applyAdd_ok h with ⟨-, rfl⟩ | ⟨attr, g, rfl⟩
  · exact ⟨[], ⟨by simp [Progress.noteInstant], .inr ⟨rfl, rfl⟩⟩, allIds_nil⟩
  · refine ⟨_, ⟨rfl, .inl rfl⟩, AllIds.append ?_ (allIds_assertion he hv)⟩
    split
    · exact allIds_retractions hview hw fun v hv => hv
    · exact allIds_nil

theorem resolve_ids {db : Db} (hview : db.view = .current)
    (hw : AllIds Q db.recorded) (hnamed : ∀ x ∈ refIds ref, Q x)
    (htemp : ∀ t, ref = .temp t → t ∈ tempids) (hids : ∀ (t : String) e, tempids[t]? = some e → Q e)
    (h : resolve db tempids ref = .ok e) : Q e := by
  cases ref with
  | id e' =>
    cases h
    exact hnamed e mem_cons_self
  | temp t =>
    cases h
    rw [Std.ExtTreeMap.getD_eq_getD_getElem?]
    obtain ⟨e, he⟩ := Option.isSome_iff_exists.mp (Std.ExtTreeMap.mem_iff_isSome_getElem?.mp (htemp t rfl))
    rw [he]
    exact hids t e he
  | lookup a v =>
    simp only [resolve] at h
    split at h
    · cases h
    · split at h
      · cases h
      · split at h
        · rename_i e' hlookup
          cases h
          obtain ⟨d, hd, rfl⟩ := recorded_of_lookup hview hlookup
          exact hw d hd _ mem_cons_self
        · cases h

theorem applyOp_ids {db : Db} (hview : db.view = .current)
    (hpview : p.working.view = .current) (hdb : AllIds Q db.recorded) (hw : AllIds Q p.working.recorded)
    (hnamed : ∀ x ∈ assertedIds op, Q x) (htemp : ∀ t, .temp t ∈ entityPositions op → t ∈ tempids)
    (hids : ∀ (t : String) e, tempids[t]? = some e → Q e) (h : applyOp db tempids tx p op = .ok p') :
    ∃ ds, Advances p p' ds ∧ AllIds Q ds := by
  have hres : ∀ {ref e}, ref ∈ entityPositions op → (∀ x ∈ refIds ref, Q x) → resolve db tempids ref = .ok e → Q e :=
    fun hpos hq hr => resolve_ids hview hdb hq (fun t heq => htemp t (heq ▸ hpos)) hids hr
  cases op with
  | add entity a v =>
    simp only [applyOp, bind_eq_ok] at h
    obtain ⟨e, hr, h⟩ := h
    have he := hres mem_cons_self (fun x hx => hnamed x (mem_append_left _ hx)) hr
    exact applyAdd_ids hpview hw he (fun x hx => hnamed x (mem_append_right _ hx)) h
  | addRef entity a target =>
    simp only [applyOp, bind_eq_ok] at h
    obtain ⟨target', hr', e, hr, h⟩ := h
    have he := hres mem_cons_self (fun x hx => hnamed x (mem_append_left _ hx)) hr
    have ht := hres (mem_cons_of_mem _ mem_cons_self) (fun x hx => hnamed x (mem_append_right _ hx)) hr'
    refine applyAdd_ids hpview hw he (fun x hx => ?_) h
    rw [mem_singleton.mp hx]
    exact ht
  | retract entity a v =>
    simp only [applyOp, bind_eq_ok, require_eq_ok] at h
    obtain ⟨_, -, e, -, h⟩ := h
    obtain ⟨-, rfl⟩ := applyRetract_ok h
    refine ⟨_, advances_advance p _, ?_⟩
    split
    · rename_i hlive
      have hone : ∀ x ∈ [v], x ∈ p.working.values e a := fun x hx => mem_singleton.mp hx ▸ hlive
      exact allIds_retractions hpview hw hone
    · exact allIds_nil
  | cas entity a old new =>
    simp only [applyOp, bind_eq_ok, require_eq_ok] at h
    obtain ⟨_, ha, e, hr, h⟩ := h
    obtain ⟨attr, g, rfl⟩ := applyCas_ok ha h
    have he := hres mem_cons_self (fun x hx => hnamed x (mem_append_left _ hx)) hr
    refine ⟨_, advances_advance p _, AllIds.append (allIds_retractions hpview hw fun x hx => ?_)
      (allIds_assertion he fun x hx => hnamed x (mem_append_right _ hx))⟩
    rw [Option.mem_toList, ← g.current] at hx
    exact mem_of_mem_head? hx
  | retractEntity entity =>
    simp only [applyOp, bind_eq_ok] at h
    obtain ⟨e, -, h⟩ := h
    obtain ⟨-, -, rfl⟩ := applyRetractEntity_ok h
    refine ⟨_, advances_advance p _, fun d hd => ?_⟩
    obtain ⟨f, hf, rfl⟩ := mem_map.mp hd
    obtain ⟨d', hd', h1, -, h3⟩ := recorded_of_values hpview (entityRetractions_live hpview hf)
    have hq := hw d' hd'
    unfold datomIds at hq ⊢
    rw [h1, h3] at hq
    exact hq

theorem Advances.recorded (h : Advances p p' ds) : p'.working.recorded = p.working.recorded ++ ds := by
  rcases h.working with hw | ⟨rfl, hw⟩ <;> simp [hw]

theorem Advances.view {p p' : Progress} {ds : List Datom} (h : Advances p p' ds) :
    p'.working.view = p.working.view := by
  rcases h.working with hw | ⟨-, hw⟩ <;> simp [hw]

/-- An id a prepared datom mentions is named by the transaction, one of its
    tempids, or recorded before. -/
theorem prepare_ids {db : Db} {n : Nat} (hview : db.view = .current)
    (hdb : AllIds Q db.recorded) (hnamed : ∀ op ∈ expandItems items, ∀ x ∈ assertedIds op, Q x)
    (hids : ∀ (t : String) e, r.tempids[t]? = some e → Q e) (h : prepare db items tx n = .ok r) : AllIds Q r.datoms := by
  obtain ⟨htempids, ⟨p, hp, hds⟩, -⟩ := prepare_ok h
  rw [hds]
  have hinv := foldlM_inv (P := fun p : Progress => p.working.view = .current ∧
    p.working.recorded = db.recorded ++ p.datoms ∧ AllIds Q p.datoms) ?_ ⟨hview, by simp [Progress.start], allIds_nil⟩ hp
  · exact hinv.2.2
  · intro op hop p p' ⟨hpview, hrec, hq⟩ hstep
    obtain ⟨ds, hadv, hds⟩ := applyOp_ids hview hpview hdb (hrec ▸ hdb.append hq) (hnamed op hop)
      (fun t ht => htempids ▸ mem_allocate hop ht) hids hstep
    refine ⟨hadv.view.trans hpview, ?_, ?_⟩
    · rw [hadv.recorded, hrec, hadv.datoms, append_assoc]
    · rw [hadv.datoms]
      exact hq.append hds

/-- What an operation asserts something about is the entity of a datom, recorded
    before or by it. -/
theorem applyOp_entity {db : Db}
    (hpview : p.working.view = .current) (href : assertedRef op = some ref) (hres : resolve db tempids ref = .ok e)
    (h : applyOp db tempids tx p op = .ok p') : ∃ d ∈ p'.working.recorded, d.e = e := by
  -- an addition records its assertion, or the fact is there already
  have hadd : ∀ {a v}, applyAdd tx p e a v = .ok p' → ∃ d ∈ p'.working.recorded, d.e = e := by
    intro a v h
    rcases applyAdd_ok h with ⟨hpresent, rfl⟩ | ⟨attr, g, rfl⟩
    · obtain ⟨d, hd, he, -⟩ := recorded_of_values hpview hpresent
      exact ⟨d, hd, he⟩
    · refine ⟨assertion tx e a v, ?_, rfl⟩
      simp [Progress.advance, Progress.noteInstant, addDatoms]
  cases op with
  | add entity a v =>
    cases href
    simp only [applyOp, bind_eq_ok] at h
    obtain ⟨e', hr, h⟩ := h
    cases hres.symm.trans hr
    exact hadd h
  | addRef entity a target =>
    cases href
    simp only [applyOp, bind_eq_ok] at h
    obtain ⟨target', -, e', hr, h⟩ := h
    cases hres.symm.trans hr
    exact hadd h
  | retract entity a v => cases href
  | cas entity a old new =>
    cases href
    simp only [applyOp, bind_eq_ok, require_eq_ok] at h
    obtain ⟨_, ha, e', hr, h⟩ := h
    cases hres.symm.trans hr
    obtain ⟨attr, g, rfl⟩ := applyCas_ok ha h
    refine ⟨assertion tx e a new, ?_, rfl⟩
    simp [Progress.advance, casDatoms]
  | retractEntity entity => cases href

/-- A tempid that an addition or a swap is about is the entity of a datom. -/
theorem prepare_entity {db : Db} {n : Nat} (hview : db.view = .current)
    (h : prepare db items tx n = .ok r) (hop : op ∈ expandItems items) {t : String}
    (href : assertedRef op = some (.temp t)) (he : r.tempids[t]? = some e) :
    ∃ d ∈ db.recorded ++ r.datoms, d.e = e := by
  obtain ⟨-, ⟨p, hp, hds⟩, -⟩ := prepare_ok h
  obtain ⟨pre, post, p1, p2, hsplit, h1, h2, h3⟩ := foldlM_step hop hp
  obtain ⟨ds1, heff1, hdatoms1⟩ := effects_of_foldlM (p := Progress.start db) hview h1
  have hview1 : p1.working.view = .current := heff1.follows.view.trans hview
  obtain ⟨ds2, heff2, hadv⟩ := applyOp_effect hview1 h2
  obtain ⟨ds3, heff3, hdatoms3⟩ := effects_of_foldlM (hadv.view.trans hview1) h3
  have hres : resolve db r.tempids (.temp t) = .ok e := by
    simp only [resolve, Std.ExtTreeMap.getD_eq_getD_getElem?, he, Option.getD_some]
  obtain ⟨d, hd, hde⟩ := applyOp_entity hview1 href hres h2
  refine ⟨d, ?_, hde⟩
  rw [hadv.recorded, heff1.follows.recorded] at hd
  rw [hds, hdatoms3, hadv.datoms, hdatoms1]
  simp only [Progress.start, nil_append, mem_append] at hd ⊢
  tauto

end Ids

end Corium.Tx
