/-
  Corium.Db.Ranges — a range of values in the AVET index
  (`index_range` of `crates/corium-db/src/lib.rs`).

  The scan starts at the first key from the lower bound's prefix on and stops at the first
  key of another attribute, or the first value that is not below the upper bound. In byte
  order these are the keys of the attribute with a value in the range, so both stops are
  filters (`indexRange_eq_filter`), over whatever the view shows: live facts, or in the
  history view every retained statement (`index_range_is_a_filter`).
-/

import Corium.Db.Views

namespace Corium

open Corium.Core Corium.Lib List

inductive RangeError where
  | protectedAttr (a : AttrId)
  deriving DecidableEq, Repr

/-- `[lo, hi)`, either bound absent. -/
def valueInRange (lo hi : Option Value) (v : Value) : Bool := lo.all (fun lo => compare lo v != .gt) && hi.all fun hi => compare v hi == .lt

/-- Sealed values sort by bytes, not by value, so a range over an attribute that was ever protected is refused. -/
def Db.indexRange (db : Db) (a : AttrId) (lo hi : Option Value) : Except RangeError (List Datom) :=
  if (db.schema.protectionOf a).everProtected then .error (.protectedAttr a)
  else
    let pre := keyPrefix .avet none (some a) none
    let start := keyPrefix .avet none (some a) lo
    .ok (((((db.index .avet).toList.filter fun x => compare start x.1 != .gt).takeWhile fun x => pre.isPrefixOf x.1).map
      (·.2)).takeWhile fun d => hi.all fun hi => compare d.v hi == .lt)

/-! ## Stopping early -/

/-- Where a predicate holds up to some point of a list, taking while it holds is filtering. -/
theorem takeWhile_eq_filter {γ : Type} {R : γ → γ → Prop} {p : γ → Bool} {l : List γ} (hs : l.Pairwise R)
    (h : ∀ x ∈ l, ∀ y ∈ l, R x y → p y = true → p x = true) : l.takeWhile p = l.filter p := by
  induction l with
  | nil => rfl
  | cons x l ih =>
    obtain ⟨hx, hl⟩ := pairwise_cons.mp hs
    have hrest := ih hl fun y hy z hz => h y (mem_cons_of_mem _ hy) z (mem_cons_of_mem _ hz)
    cases hp : p x with
    | true => rw [takeWhile_cons_of_pos hp, filter_cons_of_pos hp, hrest]
    | false =>
      have hnone : l.filter p = [] := by
        refine filter_eq_nil_iff.mpr fun y hy hpy => ?_
        rw [h x mem_cons_self y (mem_cons_of_mem _ hy) (hx y hy) hpy] at hp
        cases hp
      rw [takeWhile_cons_of_neg (by simp [hp]), filter_cons_of_neg (by simp [hp]), hnone]

/-! ## What a view shows -/

/-- A live fact of a current, as-of or since view; a retained statement of the history view. -/
def Db.Shows (db : Db) (d : Datom) : Prop :=
  match db.view with
  | .current => liveDatom db.recorded d.fact = some d
  | .asOf t => liveDatom (db.recorded.filter fun d => d.tx.sequence ≤ t) d.fact = some d
  | .since t => liveDatom db.recorded d.fact = some d ∧ t < d.tx.sequence
  | .history => d ∈ db.recorded ∧ noHistoryOf db.schema d.a = false

theorem Db.index_history {db : Db} (hv : db.view = .history) (order : IndexOrder) :
    db.index order = historyIndex db.schema order db.recorded := by
  unfold Db.index
  rw [hv]

variable {d : Datom} {order : IndexOrder} {o : Ordering}

theorem Db.mem_live_iff_shows {db : Db} (hv : db.ShowsLive) : d ∈ indexValues db.live ↔ db.Shows d := by
  rw [mem_indexValues_live db.keyedByFact_live, Db.Shows, Db.live]
  cases hview : db.view with
  | current => simp only [getElem?_foldLive]
  | asOf t => simp only [getElem?_foldLive]
  | since t => simp only [Std.ExtTreeMap.getElem?_filter', getElem?_foldLive, Option.filter_eq_some_iff, decide_eq_true_eq]
  | history => exact absurd hview hv

/-- An entry's key begins with the components of its datom. -/
def Keyed (order : IndexOrder) (x : Bytes × Datom) : Prop := ∃ s, x.1 = factComponents order x.2.fact ++ s

theorem Db.keyed {db : Db} {x : Bytes × Datom} (hx : x ∈ (db.index order).toList) : Keyed order x := by
  have hget := Std.ExtTreeMap.mem_toList_iff_getElem?_eq_some.mp hx
  by_cases hv : db.view = .history
  · rw [Db.index_history hv, historyIndex_eq_replay, getElem?_replay_empty, Option.bind_fun_some] at hget
    exact ⟨encodeTxAdded x.2.tx x.2.added, (key_of_lastOn hget).symm⟩
  · exact ⟨[], by rw [append_nil]; exact ((Db.index_some hv order).mp hget).1⟩

/-- An index holds what the view shows, as far as its order covers it. -/
theorem Db.mem_datomsAt {db : Db} (htx : db.view = .history → ∀ d ∈ db.recorded, d.tx.raw.toNat < 2 ^ 63) :
    d ∈ db.datomsAt order ↔ db.Shows d ∧ covered db.schema order d = true := by
  rw [Db.datomsAt]
  by_cases hv : db.view = .history
  · rw [Db.index_history hv, mem_historyValues db.schema order (htx hv), Db.Shows, hv]
    exact and_assoc.symm
  · rw [mem_indexValues, ← Db.mem_live_iff_shows hv]
    constructor
    · rintro ⟨_, h⟩
      exact ((Db.index_some hv order).mp h).2.symm
    · intro h
      exact ⟨_, (Db.index_some hv order).mpr ⟨rfl, h.2, h.1⟩⟩

/-- A prefix scan finds what the view shows with the leading components. -/
theorem Db.mem_scan {db : Db} (htx : db.view = .history → ∀ d ∈ db.recorded, d.tx.raw.toNat < 2 ^ 63)
    {e : Option EntityId} {a : Option AttrId} {v : Option Value} : d ∈ db.datomsPrefix order (keyPrefix order e a v) ↔
      db.Shows d ∧ covered db.schema order d = true ∧ MatchesLeading order e a v d.fact := by
  rw [Db.datomsPrefix_eq_filter, mem_map]
  constructor
  · rintro ⟨x, hx, rfl⟩
    obtain ⟨hx, hpre⟩ := mem_filter.mp hx
    obtain ⟨s, hkey⟩ := Db.keyed hx
    obtain ⟨hshows, hc⟩ := (Db.mem_datomsAt htx).mp (mem_map_of_mem hx)
    rw [ isPrefixOf_iff_prefix, hkey, selects_keyPrefix] at hpre
    exact ⟨hshows, hc, hpre⟩
  · rintro ⟨hshows, hc, hlead⟩
    obtain ⟨x, hx, rfl⟩ := mem_map.mp ((Db.mem_datomsAt htx).mpr ⟨hshows, hc⟩)
    obtain ⟨s, hkey⟩ := Db.keyed hx
    refine ⟨x, mem_filter.mpr ⟨hx, ?_⟩, rfl⟩
    rw [ isPrefixOf_iff_prefix, hkey, selects_keyPrefix]
    exact hlead

section Keyed

variable {x : Bytes × Datom} {a : AttrId}

theorem Keyed.prefix_iff (hx : Keyed .avet x) : (keyPrefix .avet none (some a) none).isPrefixOf x.1 = true ↔ x.2.a = a := by
  obtain ⟨s, hkey⟩ := hx
  rw [ isPrefixOf_iff_prefix, hkey, selects_keyPrefix]
  simp [MatchesLeading, leading, Datom.fact]

/-- Among the attribute's keys, those from the lower bound's prefix on have a value from the bound on. -/
theorem Keyed.start_iff (hx : Keyed .avet x) (ha : x.2.a = a) (lo : Option Value) :
    (compare (keyPrefix .avet none (some a) lo) x.1 != .gt) = lo.all fun lo => compare lo x.2.v != .gt := by
  obtain ⟨s, hkey⟩ := hx
  have hfact : x.1 = encodeEntityId a ++ (encodeValue x.2.v ++ (encodeEntityId x.2.e ++ s)) := by
    rw [hkey, factComponents, Datom.fact, ha]
    simp
  cases lo with
  | none =>
    have hpre : keyPrefix .avet none (some a) none <+: x.1 := by
      rw [hfact]
      simp [keyPrefix, joinComponents]
    simpa using compare_prefix hpre
  | some lo =>
    have hstart : keyPrefix .avet none (some a) (some lo) = encodeEntityId a ++ (encodeValue lo ++ []) := by
      simp [keyPrefix, joinComponents]
    have hend : (compare [] (encodeEntityId x.2.e ++ s) != .gt) = true := bne_iff_ne.mpr ( compare_prefix nil_prefix)
    rw [hstart, hfact, ordCode_encodeEntityId, compare_same, Ordering.eq_then, ordCode_encodeValue]
    cases hlo : compare lo x.2.v with
    | lt => simp [hlo]
    | eq =>
      rw [Ordering.eq_then, hend, Option.all_some, hlo]
      rfl
    | gt => simp [hlo]

/-- Two of the attribute's keys in key order are in value order. -/
theorem Keyed.value_le {y : Bytes × Datom} (hx : Keyed .avet x) (hy : Keyed .avet y) (h : x.2.a = y.2.a) (hlt : compare x.1 y.1 = .lt) :
    compare x.2.v y.2.v ≠ .gt := by
  obtain ⟨s, hkx⟩ := hx
  obtain ⟨t, hky⟩ := hy
  rw [hkx, hky, compare_factComponents] at hlt
  intro hgt
  simp [compareFacts, Datom.fact, h, hgt] at hlt

end Keyed

/-! ## A range is a filter -/

theorem isLE_of_ne_gt (h : o ≠ .gt) : o.isLE = true := by cases o <;> simp_all

theorem ne_gt_of_isLE (h : o.isLE = true) : o ≠ .gt := by
  rintro rfl
  cases h

section Scan

variable {db : Db} {a : AttrId}

/-- From the lower bound on, the attribute's keys come first. -/
theorem takeWhile_attribute (lo : Option Value) :
    (((db.index .avet).toList.filter fun x => compare (keyPrefix .avet none (some a) lo) x.1 != .gt).takeWhile fun x =>
        (keyPrefix .avet none (some a) none).isPrefixOf x.1) =
      (db.index .avet).toList.filter fun x => decide (x.2.a = a) && lo.all fun lo => compare lo x.2.v != .gt := by
  have hpre : keyPrefix .avet none (some a) none <+: keyPrefix .avet none (some a) lo := by
    cases lo <;> simp [keyPrefix, joinComponents]
  rw [takeWhile_eq_filter (Std.ExtTreeMap.ordered_keys_toList.filter _), filter_filter]
  · refine filter_congr fun x hx => ?_
    have hkeyed := Db.keyed hx
    by_cases ha : x.2.a = a
    · rw [hkeyed.prefix_iff.mpr ha, hkeyed.start_iff ha, decide_eq_true ha]
    · have hno : (keyPrefix .avet none (some a) none).isPrefixOf x.1 = false :=
        Bool.eq_false_iff.mpr fun h => ha (hkeyed.prefix_iff.mp h)
      rw [hno, decide_eq_false ha, Bool.false_and, Bool.false_and]
  · intro x hx y _ hlt hy
    have hstart : compare (keyPrefix .avet none (some a) lo) x.1 ≠ .gt := bne_iff_ne.mp (mem_filter.mp hx).2
    have hle : compare (keyPrefix .avet none (some a) none) x.1 ≠ .gt :=
      ne_gt_of_isLE (Std.TransCmp.isLE_trans (isLE_of_ne_gt ( compare_prefix hpre)) (isLE_of_ne_gt hstart))
    rw [ isPrefixOf_iff_prefix] at hy ⊢
    exact prefix_of_between hle (by rw [hlt]; decide) hy

/-- What the scan returns is what the view's AVET index has of the attribute in the range, in the index's order. -/
theorem Db.indexRange_eq_filter (hprotected : (db.schema.protectionOf a).everProtected = false) (lo hi : Option Value) :
    db.indexRange a lo hi = .ok ((db.datomsAt .avet).filter fun d => decide (d.a = a) && valueInRange lo hi d.v) := by
  have hsorted : ((db.index .avet).toList.filter fun x => decide (x.2.a = a) && lo.all fun lo => compare lo x.2.v != .gt).Pairwise
      fun x y => compare x.1 y.1 = .lt := Std.ExtTreeMap.ordered_keys_toList.filter _
  rw [Db.indexRange, if_neg (by simp [hprotected])]
  simp only [takeWhile_attribute]
  rw [takeWhile_map, takeWhile_eq_filter hsorted]
  · rw [filter_filter, Db.datomsAt, indexValues, filter_map]
    refine congrArg (fun l : List (Bytes × Datom) => Except.ok (l.map (·.2))) (filter_congr fun x _ => ?_)
    simp only [Function.comp_apply, valueInRange]
    rw [Bool.and_comm, Bool.and_assoc]
  · intro x hx y hy hlt hbelow
    obtain ⟨hx, hxa⟩ := mem_filter.mp hx
    obtain ⟨hy, hya⟩ := mem_filter.mp hy
    have hxa := of_decide_eq_true (Bool.and_eq_true_iff.mp hxa).1
    have hya := of_decide_eq_true (Bool.and_eq_true_iff.mp hya).1
    have hle := (Db.keyed hx).value_le (Db.keyed hy) (hxa.trans hya.symm) hlt
    cases hi with
    | none => rfl
    | some hi =>
      simp only [Function.comp_apply, Option.all_some, beq_iff_eq] at hbelow ⊢
      exact Std.TransCmp.lt_of_isLE_of_lt (isLE_of_ne_gt hle) hbelow

/-! ## The order of a range -/

theorem Db.mem_datomsAt_avet (hcovered : avetCovered db.schema a = true)
    (htx : db.view = .history → ∀ d ∈ db.recorded, d.tx.raw.toNat < 2 ^ 63) {d : Datom} (ha : d.a = a) :
    d ∈ db.datomsAt .avet ↔ db.Shows d := by
  rw [Db.mem_datomsAt htx, covered, ha]
  exact and_iff_left hcovered

/-- By value, then entity; statements of one fact by transaction, a retraction first. -/
def compareInRange (d d' : Datom) : Ordering :=
  (compare d.v d'.v).then ((compare d.e d'.e).then ((compare d.tx d'.tx).then (compare d.added d'.added)))

/-- The index's order, among datoms of one attribute. -/
theorem Db.datomsAt_avet_ordered (htx : db.view = .history → ∀ d ∈ db.recorded, d.tx.raw.toNat < 2 ^ 63) :
    (db.datomsAt .avet).Pairwise fun d d' => d.a = d'.a → compareInRange d d' = .lt := by
  unfold Db.datomsAt
  by_cases hv : db.view = .history
  · rw [Db.index_history hv]
    refine (historyValues_pairwise db.schema .avet (htx hv)).imp_of_mem fun {d d'} hd hd' hlt ha => ?_
    have hbound := htx hv d ((mem_historyValues db.schema .avet (htx hv)).mp hd).1
    have hbound' := htx hv d' ((mem_historyValues db.schema .avet (htx hv)).mp hd').1
    rw [Datom.key, Datom.key, compare_factComponents, compare_encodeTxAdded d.added d'.added hbound hbound'] at hlt
    simpa [compareFacts, compareInRange, Datom.fact, ha, Ordering.then_assoc] using hlt
  · unfold indexValues
    rw [pairwise_map]
    refine List.Pairwise.imp_of_mem (fun {x y} hx hy hlt ha => ?_) Std.ExtTreeMap.ordered_keys_toList
    have hkx := ((Db.index_some hv .avet).mp (Std.ExtTreeMap.mem_toList_iff_getElem?_eq_some.mp hx)).1
    have hky := ((Db.index_some hv .avet).mp (Std.ExtTreeMap.mem_toList_iff_getElem?_eq_some.mp hy)).1
    have hcmp := compare_factComponents .avet x.2.fact y.2.fact [] []
    rw [append_nil, append_nil, ← hkx, ← hky, hlt] at hcmp
    -- live facts of one attribute already differ in value or entity
    simp only [compareFacts, Datom.fact, ha, compare_same, Ordering.eq_then, Ordering.then_eq] at hcmp
    rw [compareInRange, ← Ordering.then_assoc, ← hcmp]
    rfl

end Scan

/--
  A range over an indexed attribute that was never protected: the datoms of it that the view shows with a value in the
  range, each once, in value order. An attribute that was ever protected is refused.
-/
theorem index_range_is_a_filter (db : Db) (a : AttrId) (lo hi : Option Value) (hcovered : avetCovered db.schema a = true)
    (htx : db.view = .history → ∀ d ∈ db.recorded, d.tx.raw.toNat < 2 ^ 63) :
    ((db.schema.protectionOf a).everProtected = true → db.indexRange a lo hi = .error (.protectedAttr a)) ∧
      ((db.schema.protectionOf a).everProtected = false →
        ∃ ds, db.indexRange a lo hi = .ok ds ∧ ds.Pairwise (fun d d' => compareInRange d d' = .lt) ∧
          ∀ d, d ∈ ds ↔ db.Shows d ∧ d.a = a ∧ (∀ v ∈ lo, compare v d.v ≠ .gt) ∧ ∀ v ∈ hi, compare d.v v = .lt) := by
  refine ⟨fun hprotected => if_pos hprotected, fun hprotected => ⟨_, Db.indexRange_eq_filter hprotected lo hi, ?_, fun d => ?_⟩⟩
  · refine ((Db.datomsAt_avet_ordered htx).filter _).imp_of_mem fun {d d'} hd hd' hlt => hlt ?_
    have ha := of_decide_eq_true (Bool.and_eq_true_iff.mp (mem_filter.mp hd).2).1
    have ha' := of_decide_eq_true (Bool.and_eq_true_iff.mp (mem_filter.mp hd').2).1
    exact ha.trans ha'.symm
  · have hrange : valueInRange lo hi d.v = true ↔ (∀ v ∈ lo, compare v d.v ≠ .gt) ∧ ∀ v ∈ hi, compare d.v v = .lt := by
      cases lo <;> cases hi <;> simp [valueInRange]
    rw [mem_filter, Bool.and_eq_true_iff, decide_eq_true_eq, hrange]
    constructor
    · rintro ⟨hmem, ha, hin⟩
      exact ⟨(Db.mem_datomsAt_avet hcovered htx ha).mp hmem, ha, hin⟩
    · rintro ⟨hshows, ha, hin⟩
      exact ⟨(Db.mem_datomsAt_avet hcovered htx ha).mpr hshows, ha, hin⟩

namespace RangeExample

def age : AttrId := ⟨100⟩

def schema : Schema :=
  Schema.empty.insert { id := age, valueType := .long, cardinality := .one, unique := none, isComponent := false, indexed := true, noHistory := false }

def tx (t : Nat) : EntityId := Bootstrap.txId t

/-- Entity 7 is thirty, then nothing; entity 8 is forty. -/
def asserted : Datom := { e := ⟨7⟩, a := age, v := .long 30, tx := tx 1, added := true }
def retracted : Datom := { asserted with tx := tx 2, added := false }
def other : Datom := { e := ⟨8⟩, a := age, v := .long 40, tx := tx 2, added := true }

def db : Db := { Db.new schema with recorded := [asserted, retracted, other] }

theorem mem_scan_of_history : retracted ∈ db.history.datomsPrefix .eavt (keyPrefix .eavt (some ⟨7⟩) (some age) none) :=
  (Db.mem_scan fun _ => by decide).mpr
    ⟨⟨by simp [db, Db.history, Db.withView], by decide⟩, by decide, by simp [MatchesLeading, leading, retracted, asserted, Datom.fact]⟩

/-- The history view's range holds an assertion that is no longer live and its retraction. -/
theorem a_range_of_history_is_not_of_live_facts :
    db.indexRange age (some (.long 30)) none = .ok [other] ∧
      db.history.indexRange age (some (.long 30)) none = .ok [asserted, retracted, other] ∧
      liveDatom db.recorded asserted.fact = none := by
  decide

theorem index_range_is_a_filter_of_history :
    ∃ ds, db.history.indexRange age (some (.long 30)) (some (.long 40)) = .ok ds ∧ asserted ∈ ds ∧ retracted ∈ ds ∧ other ∉ ds := by
  obtain ⟨ds, hds, -, hmem⟩ := (index_range_is_a_filter db.history age (some (.long 30)) (some (.long 40)) (by decide)
    (fun _ => by decide)).2 (by decide)
  refine ⟨ds, hds, (hmem _).mpr ?_, (hmem _).mpr ?_, fun h => ?_⟩
  · exact ⟨⟨by simp [db, Db.history, Db.withView], by decide⟩, rfl, by decide, by decide⟩
  · exact ⟨⟨by simp [db, Db.history, Db.withView], by decide⟩, rfl, by decide, by decide⟩
  · exact absurd (((hmem _).mp h).2.2.2 _ rfl) (by decide)

end RangeExample

end Corium
