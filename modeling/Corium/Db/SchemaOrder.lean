/-
  Corium.Db.SchemaOrder — whether deriving a schema depends on the order of datoms
  (`final_values` and `derive` of `crates/corium-db/src/schemadatoms.rs`).

  A transaction's datoms are collapsed to one value per (entity, attribute), and the rest of
  the derivation reads the collapsed values alone. Collapsing keeps one slot: a value that is
  asserted takes it and, when retracted, empties it. A value asserted and retracted after one
  that stays asserted thus empties the slot of both, while before it it does not
  (`a_passing_value_clears_the_one_that_stays`). Where no value passes through a slot that
  another stays in (`Settled`), and only there, the order does not matter. Deriving on
  disjoint entities commutes, names apart: of two entities given one name the later has it
  (`derivation_and_order`).
-/

import Corium.Db.Idents
import Corium.Db.SchemaReplay
import Corium.Db.Views

namespace Corium.SchemaDatoms

open Corium.Core Corium.Bootstrap Corium.Lib List

/-- The same datoms, in an order that keeps each fact's own. -/
def Shuffle (ds ds' : List Datom) : Prop := ∀ f : Fact, ds'.filter (·.fact = f) = ds.filter (·.fact = f)

/-- No entity and vocabulary attribute end with two values asserted. -/
def OneEach (ds : List Datom) : Prop :=
  ∀ e a v w, isSchemaAttribute a = true → holds ds (e, a, v) = true → holds ds (e, a, w) = true → v = w

/-- Where a value stays asserted no other is asserted, not even to be retracted again. -/
def Settled (ds : List Datom) : Prop :=
  ∀ d ∈ ds, isSchemaAttribute d.a = true → d.added = true → ∀ v, holds ds (d.e, d.a, v) = true → d.v = v

/-! ## Shuffles -/

section Shuffles

variable {ds ds' : List Datom} {f : Fact}

theorem holds_filter (ds : List Datom) (f : Fact) : holds (ds.filter (·.fact = f)) f = holds ds f := by
  have hlast : lastOn Datom.fact f (ds.filter (·.fact = f)) = lastOn Datom.fact f ds := by
    rw [lastOn_filter_key (fun d : Datom => decide (d.fact = f)) true fun d _ hd => decide_eq_true hd, if_pos rfl]
  unfold holds liveDatom lastDatom
  rw [hlast]

theorem Shuffle.holds_eq (h : Shuffle ds ds') (f : Fact) : holds ds' f = holds ds f := by
  rw [← holds_filter ds', h f, holds_filter]

theorem Shuffle.mem_iff (h : Shuffle ds ds') {d : Datom} : d ∈ ds' ↔ d ∈ ds := by
  have hfilter : d ∈ ds'.filter (·.fact = d.fact) ↔ d ∈ ds.filter (·.fact = d.fact) := by rw [h d.fact]
  simpa using hfilter

/-- A fact's datoms can be moved to the end. -/
theorem shuffle_last (ds : List Datom) (f : Fact) : Shuffle ds (ds.filter (·.fact ≠ f) ++ ds.filter (·.fact = f)) := by
  intro g
  rw [filter_append, filter_filter, filter_filter]
  by_cases hg : g = f
  · subst hg
    have hnone : (ds.filter fun d => decide (d.fact = g) && decide (d.fact ≠ g)) = [] := by
      refine filter_eq_nil_iff.mpr fun d _ => ?_
      by_cases hd : d.fact = g <;> simp [hd]
    rw [hnone, nil_append]
    exact filter_congr fun d _ => by rw [Bool.and_self]
  · have hnone : (ds.filter fun d => decide (d.fact = g) && decide (d.fact = f)) = [] := by
      refine filter_eq_nil_iff.mpr fun d _ hd => ?_
      simp only [Bool.and_eq_true, decide_eq_true_eq] at hd
      exact hg (hd.1.symm.trans hd.2)
    rw [hnone, append_nil]
    refine filter_congr fun d _ => ?_
    by_cases hd : d.fact = g
    · simp [hd, hg]
    · simp [hd]

end Shuffles

/-! ## One slot -/

section Slot

variable {ds : List Datom} {key : EntityId × AttrId}

theorem finalValues_concat (hkey : isSchemaAttribute key.2 = true) (d : Datom) :
    (finalValues (ds ++ [d]))[key]? = if (d.e, d.a) = key then slotStep (finalValues ds)[key]? d else (finalValues ds)[key]? := by
  have hslot : slotDatoms key (ds ++ [d]) = slotDatoms key ds ++ if (d.e, d.a) = key then [d] else [] := by
    unfold slotDatoms
    rw [filter_append]
    by_cases hd : (d.e, d.a) = key
    · have ha : isSchemaAttribute d.a = true := by rw [← hd] at hkey; exact hkey
      simp [hd, ha]
    · simp [hd]
  rw [finalValues_getElem?, finalValues_getElem?, hslot, foldl_append]
  split <;> rfl

variable {v : Value}

/-- The value a slot ends with is one that stays asserted. -/
theorem holds_of_finalValues (hkey : isSchemaAttribute key.2 = true) (h : (finalValues ds)[key]? = some (some v)) :
    holds ds (key.1, key.2, v) = true := by
  induction ds using List.reverseRecOn generalizing v with
  | nil =>
    rw [finalValues_getElem?] at h
    cases h
  | append_singleton ds d ih =>
    rw [holds_concat]
    rw [finalValues_concat hkey] at h
    split at h
    · next hd =>
      subst hd
      simp only [slotStep, Option.some.injEq] at h
      split at h
      · next hadded =>
        cases h
        rw [if_pos (show d.fact = (d.e, d.a, d.v) from rfl), hadded]
      · split at h
        · cases h
        · next hne =>
          -- the slot still holds what it held, which is not what was retracted
          have hv : d.v ≠ v := fun hv => hne (by rw [h, hv])
          have hprev : (finalValues ds)[(d.e, d.a)]? = some (some v) := by
            cases hslot : (finalValues ds)[(d.e, d.a)]? with
            | none => rw [hslot] at h; cases h
            | some slot => rw [hslot] at h; exact congrArg some h
          rw [if_neg fun hf => hv (congrArg (fun f : Fact => f.2.2) hf)]
          exact ih hprev
    · next hd =>
      have hf : d.fact ≠ (key.1, key.2, v) := fun hf => hd (by
        have he := congrArg (fun f : Fact => (f.1, f.2.1)) hf
        exact he)
      rw [if_neg hf]
      exact ih h

/-- A slot in which only `v` is asserted holds it if it stays asserted. -/
theorem finalValues_of_only (hkey : isSchemaAttribute key.2 = true)
    (h : ∀ d ∈ ds, (d.e, d.a) = key → d.added = true → d.v = v) :
    (finalValues ds)[key]?.getD none = if holds ds (key.1, key.2, v) = true then some v else none := by
  induction ds using List.reverseRecOn with
  | nil => rw [finalValues_getElem?]; rfl
  | append_singleton ds d ih =>
    have hprev := ih fun x hx => h x (mem_append_left _ hx)
    have hlast := h d (mem_append_right _ (mem_singleton_self d))
    rw [finalValues_concat hkey, holds_concat]
    by_cases hd : (d.e, d.a) = key
    · subst hd
      rw [if_pos rfl]
      simp only [slotStep, Option.getD_some]
      cases hadded : d.added with
      | true =>
        have hv := hlast rfl hadded
        rw [if_pos (show d.fact = (d.e, d.a, v) from hv ▸ rfl)]
        simp [hv]
      | false =>
        by_cases hv : d.v = v
        · rw [if_pos (show d.fact = (d.e, d.a, v) from hv ▸ rfl), hprev, hv]
          split <;> simp
        · rw [if_neg (show ¬ d.fact = (d.e, d.a, v) from fun hf => hv (congrArg (fun f : Fact => f.2.2) hf)), hprev]
          by_cases hh : holds ds (d.e, d.a, v) = true
          · simp [hh, Ne.symm hv]
          · simp [hh]
    · have hf : d.fact ≠ (key.1, key.2, v) := fun hf => hd (congrArg (fun f : Fact => (f.1, f.2.1)) hf)
      rw [if_neg hd, if_neg hf, hprev]

theorem isSome_finalValues (hkey : isSchemaAttribute key.2 = true) :
    (finalValues ds)[key]?.isSome = true ↔ ∃ d ∈ ds, (d.e, d.a) = key := by
  constructor
  · intro h
    obtain ⟨d, hd, -, hk⟩ := mem_finalValues (Std.ExtTreeMap.mem_iff_isSome_getElem?.mpr h)
    exact ⟨d, hd, hk⟩
  · rintro ⟨d, hd, rfl⟩
    rw [finalValues_getElem?]
    have hmem : d ∈ slotDatoms (d.e, d.a) ds := mem_slotDatoms.mpr ⟨hd, hkey, rfl⟩
    rcases eq_nil_or_concat (slotDatoms (d.e, d.a) ds) with hnil | ⟨init, last, heq⟩
    · rw [hnil] at hmem
      cases hmem
    · rw [heq, concat_eq_append, foldl_append]
      rfl

end Slot

/-! ## Collapsing a shuffle -/

section Collapse

variable {ds ds' : List Datom}

theorem finalValues_of_not_schema {key : EntityId × AttrId} (hkey : isSchemaAttribute key.2 = false) :
    (finalValues ds)[key]? = none := by
  cases h : (finalValues ds)[key]? with
  | none => rfl
  | some slot =>
    obtain ⟨d, -, ha, rfl⟩ := mem_finalValues (Std.ExtTreeMap.mem_iff_isSome_getElem?.mpr (by rw [h]; rfl))
    rw [hkey] at ha
    cases ha

theorem Settled.shuffle (hs : Settled ds) (h : Shuffle ds ds') : Settled ds' := by
  intro d hd ha hadded v hv
  rw [h.holds_eq] at hv
  exact hs d (h.mem_iff.mp hd) ha hadded v hv

theorem slot_ext {α : Type} {x y : Option (Option α)} (hsome : x.isSome = true ↔ y.isSome = true)
    (hget : x.getD none = y.getD none) : x = y := by
  cases x <;> cases y <;> simp_all

/-- Settled datoms collapse to the same values in every order. -/
theorem Settled.finalValues_eq (hs : Settled ds) (h : Shuffle ds ds') : finalValues ds' = finalValues ds := by
  refine Std.ExtTreeMap.ext_getElem? fun key => ?_
  cases hkey : isSchemaAttribute key.2 with
  | false => rw [finalValues_of_not_schema hkey, finalValues_of_not_schema hkey]
  | true =>
    refine slot_ext ?_ ?_
    · rw [isSome_finalValues hkey, isSome_finalValues hkey]
      simp only [h.mem_iff]
    · by_cases hstays : ∃ v, holds ds (key.1, key.2, v) = true
      · obtain ⟨v, hv⟩ := hstays
        have honly : ∀ {xs : List Datom}, Settled xs → holds xs (key.1, key.2, v) = true →
            ∀ d ∈ xs, (d.e, d.a) = key → d.added = true → d.v = v := by
          intro xs hxs hxv d hd hk hadded
          subst hk
          exact hxs d hd hkey hadded v hxv
        have hv' : holds ds' (key.1, key.2, v) = true := by rw [h.holds_eq, hv]
        rw [finalValues_of_only hkey (honly hs hv), finalValues_of_only hkey (honly (hs.shuffle h) hv'), hv, hv']
      · -- no value stays, so the slot is empty in either order
        have hempty : ∀ {xs : List Datom}, (∀ v, holds xs (key.1, key.2, v) = holds ds (key.1, key.2, v)) →
            (finalValues xs)[key]?.getD none = none := by
          intro xs hxs
          cases hslot : (finalValues xs)[key]? with
          | none => rfl
          | some slot =>
            cases slot with
            | none => rfl
            | some v => exact absurd ⟨v, (hxs v).symm.trans (holds_of_finalValues hkey hslot)⟩ hstays
        rw [hempty fun v => h.holds_eq _, hempty fun v => rfl]

variable {e : EntityId} {a : AttrId} {v : Value}

/-- With the datoms of a fact at the end, its slot holds its value if it stays asserted. -/
theorem finalValues_last (ha : isSchemaAttribute a = true) (hv : holds ds (e, a, v) = true) :
    (finalValues (ds.filter (·.fact ≠ (e, a, v)) ++ ds.filter (·.fact = (e, a, v))))[(e, a)]? = some (some v) := by
  rw [← holds_filter] at hv
  rcases eq_nil_or_concat (ds.filter (·.fact = (e, a, v))) with hnil | ⟨init, d, heq⟩
  · rw [hnil] at hv
    cases hv
  · have hd : d.fact = (e, a, v) := by
      have hmem : d ∈ ds.filter (·.fact = (e, a, v)) := by
        rw [heq, concat_eq_append]
        exact mem_append_right _ (mem_singleton_self d)
      exact of_decide_eq_true (mem_filter.mp hmem).2
    have hkey : (d.e, d.a) = (e, a) := congrArg (fun f : Fact => (f.1, f.2.1)) hd
    have hval : d.v = v := congrArg (fun f : Fact => f.2.2) hd
    rw [heq, concat_eq_append, holds_concat, if_pos hd] at hv
    rw [heq, concat_eq_append, ← append_assoc, finalValues_concat ha, if_pos hkey, slotStep, if_pos hv, hval]

/-- A value that passes through a slot last leaves it without the value that stays. -/
theorem finalValues_passing_last (ha : isSchemaAttribute a = true) {d : Datom}
    (hd : d ∈ ds) (hf : (d.e, d.a) = (e, a)) (hadded : d.added = true) (hne : d.v ≠ v) :
    (finalValues (ds.filter (·.fact ≠ d.fact) ++ ds.filter (·.fact = d.fact)))[(e, a)]? ≠ some (some v) := by
  have hblock : ∀ block : List Datom, (∀ x ∈ block, x.fact = d.fact) → (∃ x ∈ block, x.added = true) →
      ∀ others : List Datom, (finalValues (others ++ block))[(e, a)]? ≠ some (some v) := by
    intro block
    induction block using List.reverseRecOn with
    | nil => rintro - ⟨x, hx, -⟩; cases hx
    | append_singleton block x ih =>
      intro hall hex others
      have hx : x.fact = d.fact := hall x (mem_append_right _ (mem_singleton_self x))
      have hkey : (x.e, x.a) = (e, a) := (congrArg (fun f : Fact => (f.1, f.2.1)) hx).trans hf
      have hval : x.v = d.v := congrArg (fun f : Fact => f.2.2) hx
      rw [← append_assoc, finalValues_concat ha, if_pos hkey, slotStep]
      intro h
      rw [Option.some.injEq] at h
      split at h
      · exact hne (hval ▸ Option.some.inj h)
      · next hxadded =>
        split at h
        · cases h
        · -- the retraction kept the slot, which an earlier assertion of the block already took
          have hearlier : ∃ y ∈ block, y.added = true := by
            obtain ⟨y, hy, hyadded⟩ := hex
            rcases mem_append.mp hy with hy | hy
            · exact ⟨y, hy, hyadded⟩
            · rw [mem_singleton] at hy
              exact absurd (hy ▸ hyadded) hxadded
          refine ih (fun y hy => hall y (mem_append_left _ hy)) hearlier others ?_
          cases hslot : (finalValues (others ++ block))[(e, a)]? with
          | none => rw [hslot] at h; cases h
          | some slot => rw [hslot] at h; exact congrArg some h
  refine hblock _ (fun x hx => of_decide_eq_true (mem_filter.mp hx).2) ⟨d, ?_, hadded⟩ _
  exact mem_filter.mpr ⟨hd, decide_eq_true rfl⟩

theorem finalValues_eq_iff_settled :
    (∀ ds', Shuffle ds ds' → finalValues ds' = finalValues ds) ↔ Settled ds := by
  refine ⟨fun h d hd ha hadded v hv => ?_, fun hs ds' h => hs.finalValues_eq h⟩
  by_contra hne
  refine finalValues_passing_last ha hd rfl hadded hne ?_
  rw [h _ (shuffle_last ds d.fact), ← h _ (shuffle_last ds (d.e, d.a, v))]
  exact finalValues_last ha hv

end Collapse

/-! ## Disjoint entities -/

section Disjoint

variable {interner : KeywordInterner} {k : EntityId} {s s' : Schema} {x : Entry} {xs : List Entry}

/-- Two schemas say the same of one entity. -/
structure AgreeAt (k : EntityId) (s s' : Schema) : Prop where
  get : s.get k = s'.get k
  docs : s.docs[k]? = s'.docs[k]?
  retired : k ∈ s.retired ↔ k ∈ s'.retired
  protection : s.protection[k]? = s'.protection[k]?

theorem AgreeAt.rfl : AgreeAt k s s := ⟨Eq.refl _, Eq.refl _, Iff.rfl, Eq.refl _⟩

theorem AgreeAt.symm (h : AgreeAt k s s') : AgreeAt k s' s := ⟨h.get.symm, h.docs.symm, h.retired.symm, h.protection.symm⟩

theorem AgreeAt.trans {s'' : Schema} (h : AgreeAt k s s') (h' : AgreeAt k s' s'') : AgreeAt k s s'' :=
  ⟨h.get.trans h'.get, h.docs.trans h'.docs, h.retired.trans h'.retired, h.protection.trans h'.protection⟩

theorem deriveEntry_other (hs : Keyed s) (hx : x.entity ≠ k) : AgreeAt k (deriveEntry interner s x) s := by
  obtain ⟨-, hdocs, hretired, hprot⟩ := @deriveEntry_tables interner s x
  refine ⟨?_, ?_, ?_, ?_⟩
  · rw [deriveEntry_get hs, if_neg fun h => hx h.1]
  · rw [hdocs, if_neg fun h => hx h.1]
  · rw [hretired, if_neg fun h => hx h.1]
  · rw [hprot, if_neg fun h => hx h.1]

theorem deriveEntry_agree (hs : Keyed s) (hs' : Keyed s') (h : AgreeAt k s s') :
    AgreeAt k (deriveEntry interner s x) (deriveEntry interner s' x) := by
  obtain ⟨-, hdocs, hretired, hprot⟩ := @deriveEntry_tables interner s x
  obtain ⟨-, hdocs', hretired', hprot'⟩ := @deriveEntry_tables interner s' x
  have htimeline : s.protectionOf k = s'.protectionOf k := by
    unfold Schema.protectionOf
    rw [h.protection]
  refine ⟨?_, ?_, ?_, ?_⟩
  · rw [deriveEntry_get hs, deriveEntry_get hs', h.get]
  · rw [hdocs, hdocs', h.docs]
  · rw [hretired, hretired', h.retired]
  · rw [hprot, hprot', htimeline, h.protection]

theorem deriveAll_other (hs : Keyed s) (hxs : ∀ x ∈ xs, x.entity ≠ k) : AgreeAt k (deriveAll interner s xs) s := by
  induction xs generalizing s with
  | nil => exact .rfl
  | cons x xs ih =>
    have hnext : Keyed (deriveEntry interner s x) := hs.deriveEntry
    have hrest := ih hnext fun y hy => hxs y (mem_cons_of_mem _ hy)
    exact hrest.trans (deriveEntry_other hs (hxs x mem_cons_self))

theorem deriveAll_agree (hs : Keyed s) (hs' : Keyed s') (h : AgreeAt k s s') :
    AgreeAt k (deriveAll interner s xs) (deriveAll interner s' xs) := by
  induction xs generalizing s s' with
  | nil => exact h
  | cons x xs ih => exact ih hs.deriveEntry hs'.deriveEntry (deriveEntry_agree hs hs' h)

theorem deriveAll_classes : (deriveAll interner s xs).classes = s.classes := by
  induction xs generalizing s with
  | nil => rfl
  | cons x xs ih => exact ih.trans deriveEntry_tables.1

/-- Entries of disjoint entities can be derived in either order: of each entity only one of
    the two lists says anything. -/
theorem deriveAll_comm (hs : Keyed s) {ys : List Entry} (h : ∀ x ∈ xs, ∀ y ∈ ys, x.entity ≠ y.entity) :
    deriveAll interner (deriveAll interner s xs) ys = deriveAll interner (deriveAll interner s ys) xs := by
  have hagree : ∀ k, AgreeAt k (deriveAll interner (deriveAll interner s xs) ys)
      (deriveAll interner (deriveAll interner s ys) xs) := by
    intro k
    have hafter : ∀ zs, Keyed (deriveAll interner s zs) := fun zs => hs.deriveAll zs
    by_cases hk : ∃ y ∈ ys, y.entity = k
    · obtain ⟨y, hy, rfl⟩ := hk
      have hxs : ∀ x ∈ xs, x.entity ≠ y.entity := fun x hx => h x hx y hy
      exact (deriveAll_agree (hafter xs) hs (deriveAll_other hs hxs)).trans (deriveAll_other (hafter ys) hxs).symm
    · have hys : ∀ y ∈ ys, y.entity ≠ k := fun y hy he => hk ⟨y, hy, he⟩
      exact (deriveAll_other (hafter xs) hys).trans (deriveAll_agree hs (hafter ys) (deriveAll_other hs hys).symm)
  refine schema_ext (fun k => (hagree k).get) ?_ (fun k => (hagree k).protection) (fun k => (hagree k).docs)
    fun k => (hagree k).retired
  rw [deriveAll_classes, deriveAll_classes, deriveAll_classes, deriveAll_classes]

end Disjoint

/-! ## Names -/

section Names

variable {xs ys : List (Keyword × EntityId)}

theorem filter_last_comm {α β : Type} (f : α → β) (p : α → Bool) {xs ys : List α} (base : Option β)
    (h : (∀ x ∈ xs, p x = false) ∨ ∀ y ∈ ys, p y = false) :
    ((ys.filter p).getLast?.map f).or (((xs.filter p).getLast?.map f).or base) =
      ((xs.filter p).getLast?.map f).or (((ys.filter p).getLast?.map f).or base) := by
  have hnone : ∀ {zs : List α}, (∀ z ∈ zs, p z = false) → (zs.filter p).getLast?.map f = none := by
    intro zs hzs
    rw [filter_eq_nil_iff.mpr fun z hz => by rw [hzs z hz]; exact Bool.false_ne_true]
    rfl
  rcases h with h | h
  · rw [hnone h, Option.none_or, Option.none_or]
  · rw [hnone h, Option.none_or, Option.none_or]

/-- Names of disjoint entities can be registered in either order unless they share one. -/
theorem register_comm_iff (idents : Idents) (hdisjoint : ∀ x ∈ xs, ∀ y ∈ ys, x.2 ≠ y.2) :
    (idents.register xs).register ys = (idents.register ys).register xs ↔ ∀ x ∈ xs, ∀ y ∈ ys, x.1 ≠ y.1 := by
  constructor
  · intro heq x hx y hy hname
    -- the shared name answers with an entity of the list registered last
    have hlast : ∀ {zs : List (Keyword × EntityId)} {z : Keyword × EntityId} (i : Idents), z ∈ zs →
        ∃ w ∈ zs, (i.register zs).entid z.1 = some w.2 := by
      intro zs z i hz
      rw [Idents.register_entid]
      have hmem : z ∈ zs.filter fun x => decide (x.1 = z.1) := mem_filter.mpr ⟨hz, decide_eq_true rfl⟩
      cases hw : (zs.filter fun x => decide (x.1 = z.1)).getLast? with
      | none =>
        rw [List.getLast?_eq_none_iff.mp hw] at hmem
        cases hmem
      | some w => exact ⟨w, (mem_filter.mp (mem_of_getLast? hw)).1, rfl⟩
    obtain ⟨w, hw, hleft⟩ := hlast (idents.register xs) hy
    obtain ⟨w', hw', hright⟩ := hlast (idents.register ys) hx
    rw [heq, ← hname, hright] at hleft
    exact hdisjoint w' hw' w hw (Option.some.inj hleft)
  · intro hnames
    refine Idents.ext_answers (fun k => ?_) fun e => ?_
    · rw [Idents.register_entid, Idents.register_entid, Idents.register_entid, Idents.register_entid]
      refine filter_last_comm _ _ _ ?_
      by_cases hk : ∃ x ∈ xs, x.1 = k
      · obtain ⟨x, hx, rfl⟩ := hk
        exact .inr fun y hy => decide_eq_false fun h => hnames x hx y hy h.symm
      · exact .inl fun x hx => decide_eq_false fun h => hk ⟨x, hx, h⟩
    · rw [Idents.register_ident, Idents.register_ident, Idents.register_ident, Idents.register_ident]
      refine filter_last_comm _ _ _ ?_
      by_cases he : ∃ x ∈ xs, x.2 = e
      · obtain ⟨x, hx, rfl⟩ := he
        exact .inr fun y hy => decide_eq_false fun h => hdisjoint x hx y hy h.symm
      · exact .inl fun x hx => decide_eq_false fun h => he ⟨x, hx, h⟩

theorem datom_of_collapsed {ds : List Datom} {entry : (EntityId × AttrId) × Option Value}
    (h : entry ∈ (finalValues ds).toList) : ∃ d ∈ ds, isSchemaAttribute d.a = true ∧ (d.e, d.a) = entry.1 := by
  have hget := Std.ExtTreeMap.mem_toList_iff_getElem?_eq_some.mp h
  exact mem_finalValues (Std.ExtTreeMap.mem_iff_isSome_getElem?.mpr (by rw [hget]; rfl))

theorem datom_of_name {interner : KeywordInterner} {ds : List Datom} {x : Keyword × EntityId}
    (hx : x ∈ namesOf interner ds) : ∃ d ∈ ds, isSchemaAttribute d.a = true ∧ d.e = x.2 := by
  obtain ⟨entry, hentry, hname⟩ := mem_filterMap.mp hx
  obtain ⟨d, hd, ha, hkey⟩ := datom_of_collapsed hentry
  refine ⟨d, hd, ha, ?_⟩
  split at hname
  · cases hk : entry.2.bind (keywordOf interner) with
    | none => rw [hk] at hname; cases hname
    | some k =>
      rw [hk, Option.map_some, Option.some.injEq] at hname
      rw [← hname, ← hkey]
  · cases hname

end Names

/-! ## Derivation and order -/

/-- No entity has vocabulary datoms in both. -/
def DisjointEntities (ds ds' : List Datom) : Prop :=
  ∀ d ∈ ds, ∀ d' ∈ ds', isSchemaAttribute d.a = true → isSchemaAttribute d'.a = true → d.e ≠ d'.e

/--
  What deriving a schema and its names depends on.

  A transaction's datoms collapse to the same values in every order that keeps each fact's
  own exactly when they are settled: no (entity, attribute) that ends with a value asserted
  has another value asserted on the way. Settled datoms give one schema and one set of names
  in every such order. Transactions on disjoint entities give one schema in either order, and
  the same names exactly when they give no two entities the same name.
-/
theorem derivation_and_order (interner : KeywordInterner) (schema : Schema) (hs : Keyed schema) (idents : Idents)
    (ds : List Datom) :
    ((∀ ds', Shuffle ds ds' → finalValues ds' = finalValues ds) ↔ Settled ds) ∧
    (Settled ds → ∀ ds', Shuffle ds ds' →
      (∀ t, deriveSchema schema interner t ds' = deriveSchema schema interner t ds) ∧
      deriveIdents idents interner ds' = deriveIdents idents interner ds) ∧
    ∀ ds', DisjointEntities ds ds' →
      (∀ t t', deriveSchema (deriveSchema schema interner t ds) interner t' ds' =
        deriveSchema (deriveSchema schema interner t' ds') interner t ds) ∧
      (deriveIdents (deriveIdents idents interner ds) interner ds' =
        deriveIdents (deriveIdents idents interner ds') interner ds ↔
          ∀ x ∈ namesOf interner ds, ∀ y ∈ namesOf interner ds', x.1 ≠ y.1) := by
  refine ⟨finalValues_eq_iff_settled, fun hsettled ds' h => ?_, fun ds' hdisjoint => ⟨fun t t' => ?_, ?_⟩⟩
  · have heq := hsettled.finalValues_eq h
    exact ⟨fun t => by rw [deriveSchema, deriveSchema, heq], by rw [deriveIdents, deriveIdents, heq]⟩
  · rw [deriveSchema_eq_deriveAll, deriveSchema_eq_deriveAll, deriveSchema_eq_deriveAll, deriveSchema_eq_deriveAll]
    refine deriveAll_comm hs fun x hx y hy => ?_
    obtain ⟨entry, hentry, rfl⟩ := mem_map.mp hx
    obtain ⟨entry', hentry', rfl⟩ := mem_map.mp hy
    obtain ⟨d, hd, ha, hkey⟩ := datom_of_collapsed hentry
    obtain ⟨d', hd', ha', hkey'⟩ := datom_of_collapsed hentry'
    have he : d.e = entry.1.1 := congrArg Prod.fst hkey
    have he' : d'.e = entry'.1.1 := congrArg Prod.fst hkey'
    exact fun h => hdisjoint d hd d' hd' ha ha' (he.trans (h.trans he'.symm))
  · rw [deriveIdents_eq_register, deriveIdents_eq_register, deriveIdents_eq_register, deriveIdents_eq_register]
    refine register_comm_iff idents fun x hx y hy h => ?_
    obtain ⟨d, hd, ha, he⟩ := datom_of_name hx
    obtain ⟨d', hd', ha', he'⟩ := datom_of_name hy
    exact hdisjoint d hd d' hd' ha ha' (he.trans (h.trans he'.symm))

namespace PassingNameExample

def interner : KeywordInterner := ⟨[⟨none, "a"⟩, ⟨none, "b"⟩], by decide⟩

def entity : EntityId := EntityId.new Partition.user.id 1000

def named (v : KwId) (added : Bool) : Datom := ⟨entity, ident, .keyword v, Bootstrap.txId 1, added⟩

/-- An entity is named `:b`, the name is taken back, and it is named `:a`. -/
def renamed : List Datom := [named 1 true, named 1 false, named 0 true]

/-- The same datoms, those of `:b` last. -/
def reordered : List Datom := [named 0 true, named 1 true, named 1 false]

theorem shuffle_reordered : Shuffle renamed reordered := by
  have hlast : renamed.filter (·.fact ≠ (named 1 true).fact) ++ renamed.filter (·.fact = (named 1 true).fact) = reordered := by
    decide
  rw [← hlast]
  exact shuffle_last renamed (named 1 true).fact

theorem value_of_holds {e : EntityId} {a : AttrId} {v : Value} (h : holds renamed (e, a, v) = true) : v = .keyword 0 := by
  have hsplit : renamed = [named 1 true] ++ [named 1 false] ++ [named 0 true] := rfl
  rw [hsplit, holds_concat, holds_concat] at h
  split at h
  · next hf => exact (congrArg (fun f : Fact => f.2.2) hf).symm
  · split at h
    · cases h
    · next hf =>
      rw [show [named 1 true] = [] ++ [named 1 true] from rfl, holds_concat,
        if_neg (show ¬ (named 1 true).fact = (e, a, v) from hf)] at h
      cases h

/-- One name stays asserted, and in one order the entity has it, in the other it has none. -/
theorem a_passing_value_clears_the_one_that_stays : Shuffle renamed reordered ∧ OneEach renamed ∧
    (deriveIdents .empty interner renamed).ident entity = some ⟨none, "a"⟩ ∧
    (deriveIdents .empty interner reordered).ident entity = none :=
  ⟨shuffle_reordered, fun _ _ _ _ _ hv hw => (value_of_holds hv).trans (value_of_holds hw).symm, by decide,
    by decide⟩

theorem keyed_empty : Keyed Schema.empty := by
  intro e r h
  cases h

/-- Naming the entity in place of its old name is settled, so its order does not matter. -/
theorem derivation_and_order_of_a_rename :
    named 1 false ≠ named 0 true ∧
      ∀ ds', Shuffle [named 1 false, named 0 true] ds' → finalValues ds' = finalValues [named 1 false, named 0 true] := by
  refine ⟨by decide, (derivation_and_order interner Schema.empty keyed_empty .empty [named 1 false, named 0 true]).1.mpr ?_⟩
  intro d hd ha hadded v hv
  have hd0 : d = named 0 true := by
    rcases mem_pair.mp hd with rfl | rfl
    · cases hadded
    · rfl
  subst hd0
  rw [show [named 1 false, named 0 true] = [named 1 false] ++ [named 0 true] from rfl, holds_concat] at hv
  split at hv
  · next hf => exact congrArg (fun f : Fact => f.2.2) hf
  · rw [show [named 1 false] = [] ++ [named 1 false] from rfl, holds_concat] at hv
    split at hv <;> cases hv

end PassingNameExample

end Corium.SchemaDatoms
