/-
  Corium.Db.Views — what a database value shows, read off its recorded datoms.

  The abstract account: the last datom recorded on a fact decides it.
  `liveDatom ds f` is that datom when it is an assertion, `holds ds f` says the
  fact is live. Over it, the covering indexes: an index of a current, as-of or
  since view holds exactly the live datoms its order covers, under their
  component keys (`getElem?_index`), so a prefix scan is a filter, `values` lists
  the live values of (e, a) once each, and `lookup` finds an entity exactly when
  some entity holds the value.
-/

import Corium.Db.Basic

namespace Corium

open Corium.Core Corium.Lib List Std

/-! ## The last datom on a fact -/

def lastDatom (ds : List Datom) (f : Fact) : Option Datom := lastOn Datom.fact f ds

/-- The datom that makes `f` live after `ds`. -/
def liveDatom (ds : List Datom) (f : Fact) : Option Datom :=
  (lastDatom ds f).bind fun d => if d.added then some d else none

/-- Whether `f` is live after `ds`. -/
def holds (ds : List Datom) (f : Fact) : Bool := (liveDatom ds f).isSome

@[simp] theorem liveDatom_nil (f : Fact) : liveDatom [] f = none := rfl

@[simp] theorem holds_nil (f : Fact) : holds [] f = false := rfl

theorem liveDatom_concat (ds : List Datom) (d : Datom) (f : Fact) :
    liveDatom (ds ++ [d]) f = if d.fact = f then (if d.added then some d else none) else liveDatom ds f := by
  unfold liveDatom lastDatom
  rw [lastOn_concat]
  by_cases h : d.fact = f <;> simp [h]

theorem holds_concat (ds : List Datom) (d : Datom) (f : Fact) :
    holds (ds ++ [d]) f = if d.fact = f then d.added else holds ds f := by
  unfold holds
  rw [liveDatom_concat]
  by_cases h : d.fact = f
  · cases hd : d.added <;> simp [h]
  · simp [h]

theorem liveDatom_append (xs ys : List Datom) (f : Fact) :
    liveDatom (xs ++ ys) f = match lastDatom ys f with
      | some d => if d.added then some d else none
      | none => liveDatom xs f := by
  unfold liveDatom lastDatom
  rw [lastOn_append]
  cases lastOn Datom.fact f ys <;> simp

variable {ds : List Datom} {d : Datom} {f : Fact}

theorem liveDatom_some (h : liveDatom ds f = some d) :
    d.fact = f ∧ d.added = true ∧ d ∈ ds := by
  obtain ⟨x, hx, hd⟩ := Option.bind_eq_some_iff.mp h
  split at hd
  · cases hd
    exact ⟨key_of_lastOn hx, ‹_›, mem_of_lastOn hx⟩
  · cases hd

theorem holds_iff : holds ds f = true ↔ ∃ d, liveDatom ds f = some d :=
  Option.isSome_iff_exists

variable {xs ys : List Datom} {k : Bytes} {live : Index}

/-- Datoms on other facts change nothing. -/
theorem holds_append_of_ne (h : ∀ d ∈ ys, d.fact ≠ f) : holds (xs ++ ys) f = holds xs f := by
  have hlast : lastDatom ys f = none := lastOn_eq_none_iff.mpr h
  rw [holds, liveDatom_append, hlast]
  rfl

/-- What is live afterwards was asserted since, or was live before and not retracted since. -/
theorem holds_append_cases (h : holds (xs ++ ys) f = true) :
    (∃ d ∈ ys, d.fact = f ∧ d.added = true) ∨ (holds xs f = true ∧ ∀ d ∈ ys, d.fact ≠ f) := by
  rw [holds, liveDatom_append] at h
  cases hl : lastDatom ys f with
  | none =>
    rw [hl] at h
    exact .inr ⟨h, lastOn_eq_none_iff.mp hl⟩
  | some d =>
    rw [hl] at h
    cases hadded : d.added with
    | true => exact .inl ⟨d, mem_of_lastOn hl, key_of_lastOn hl, hadded⟩
    | false => simp [hadded] at h

/-- A fact that is never retracted stays. -/
theorem holds_append_of_not_retracted (h : holds xs f = true)
    (hys : ∀ d ∈ ys, d.fact = f → d.added = true) : holds (xs ++ ys) f = true := by
  rw [holds, liveDatom_append]
  cases hl : lastDatom ys f with
  | none => exact h
  | some d => simp [hys d (mem_of_lastOn hl) (key_of_lastOn hl)]

/-- What the later datoms leave live is live. -/
theorem holds_append_of_holds (xs : List Datom) (h : holds ys f = true) : holds (xs ++ ys) f = true := by
  obtain ⟨d, hd⟩ := holds_iff.mp h
  obtain ⟨x, hx, hadded⟩ := Option.bind_eq_some_iff.mp hd
  rw [holds, liveDatom_append, hx]
  simp only
  rw [hadded]
  rfl

/-! ## Keys -/

theorem keyPrefix_fact (order : IndexOrder) (e : EntityId) (a : AttrId) (v : Value) :
    keyPrefix order (some e) (some a) (some v) = factComponents order (e, a, v) := by
  cases order <;> simp [keyPrefix, joinComponents, factComponents]

theorem liveKey_eq (order : IndexOrder) (d : Datom) : liveKey order d = factComponents order d.fact :=
  keyPrefix_fact order d.e d.a d.v

/-- `pre` picks out the facts `p`: it starts a fact's components, with anything after them, exactly there. -/
def Selects (order : IndexOrder) (pre : Bytes) (p : Fact → Prop) : Prop :=
  ∀ f s, pre <+: factComponents order f ++ s ↔ p f

/-- The conditions up to the first missing one. -/
def leading : List (Option Prop) → Prop
  | some p :: rest => p ∧ leading rest
  | _ => True

/-- A fact has the bound components that lead in an order. -/
def MatchesLeading (order : IndexOrder) (e : Option EntityId) (a : Option AttrId) (v : Option Value) (f : Fact) : Prop :=
  let e := e.map fun e => f.1 = e
  let a := a.map fun a => f.2.1 = a
  let v := v.map fun v => f.2.2 = v
  leading (match order with
    | .eavt => [e, a, v]
    | .aevt => [a, e, v]
    | .avet => [a, v, e]
    | .vaet => [v, a, e])

theorem prefix_component {α : Type} [Ord α] [Std.LawfulEqOrd α] {code : α → Bytes} (hcode : OrdCode code) (x : Option α)
    (y : α) {rest : List (Option Bytes)} {conds : List (Option Prop)} {s : Bytes}
    (h : joinComponents rest <+: s ↔ leading conds) :
    joinComponents (x.map code :: rest) <+: code y ++ s ↔ leading (x.map (fun x => y = x) :: conds) := by
  cases x with
  | none => simp [joinComponents, leading]
  | some x =>
    simp only [Option.map_some, joinComponents, leading, hcode.prefix_iff, h]
    rw [eq_comm]

/-- A key prefix starts exactly the facts that have its components. -/
theorem selects_keyPrefix (order : IndexOrder) (e : Option EntityId) (a : Option AttrId) (v : Option Value) :
    Selects order (keyPrefix order e a v) (MatchesLeading order e a v) := by
  rintro ⟨e', a', v'⟩ s
  have hnil : joinComponents [] <+: s ↔ leading [] := by simp [joinComponents, leading]
  cases order <;> simp only [factComponents, append_assoc]
  case eavt =>
    exact prefix_component ordCode_encodeEntityId e e' (prefix_component ordCode_encodeEntityId a a'
      (prefix_component ordCode_encodeValue v v' hnil))
  case aevt =>
    exact prefix_component ordCode_encodeEntityId a a' (prefix_component ordCode_encodeEntityId e e'
      (prefix_component ordCode_encodeValue v v' hnil))
  case avet =>
    exact prefix_component ordCode_encodeEntityId a a' (prefix_component ordCode_encodeValue v v'
      (prefix_component ordCode_encodeEntityId e e' hnil))
  case vaet =>
    exact prefix_component ordCode_encodeValue v v' (prefix_component ordCode_encodeEntityId a a'
      (prefix_component ordCode_encodeEntityId e e' hnil))

theorem selects_entity_attribute (e : EntityId) (a : AttrId) :
    Selects .eavt (keyPrefix .eavt (some e) (some a) none) fun f => f.1 = e ∧ f.2.1 = a := by
  intro f s
  rw [selects_keyPrefix]
  simp [MatchesLeading, leading]

theorem selects_attribute_value (a : AttrId) (v : Value) :
    Selects .avet (keyPrefix .avet none (some a) (some v)) fun f => f.2.1 = a ∧ f.2.2 = v := by
  intro f s
  rw [selects_keyPrefix]
  simp [MatchesLeading, leading]

theorem selects_attribute (a : AttrId) :
    Selects .aevt (keyPrefix .aevt none (some a) none) fun f => f.2.1 = a := by
  intro f s
  rw [selects_keyPrefix]
  simp [MatchesLeading, leading]

/-- Facts in an index's order. -/
def compareFacts (order : IndexOrder) (f g : Fact) : Ordering :=
  let e := compare f.1 g.1
  let a := compare f.2.1 g.2.1
  let v := compare f.2.2 g.2.2
  match order with
  | .eavt => e.then (a.then v)
  | .aevt => a.then (e.then v)
  | .avet => a.then (v.then e)
  | .vaet => v.then (a.then e)

theorem compare_factComponents (order : IndexOrder) (f g : Fact) (s t : Bytes) :
    compare (factComponents order f ++ s) (factComponents order g ++ t) = (compareFacts order f g).then (compare s t) := by
  cases order <;>
    simp only [factComponents, compareFacts, append_assoc, ordCode_encodeEntityId _ _ _ _, ordCode_encodeValue _ _ _ _,
      Ordering.then_assoc]

theorem compare_encodeTxAdded {tx tx' : TxId} (added added' : Bool) (h : tx.raw.toNat < 2 ^ 63)
    (h' : tx'.raw.toNat < 2 ^ 63) : compare (encodeTxAdded tx added) (encodeTxAdded tx' added') =
      (compare tx tx').then (compare added added') := by
  have hbit : ∀ (n : Nat) (b : Bool), (2 * n + b.toNat) / 2 = n ∧ (2 * n + b.toNat) % 2 = b.toNat := by
    intro n b
    have : b.toNat ≤ 1 := by cases b <;> decide
    omega
  have hadded : compare added.toNat added'.toNat = compare added added' := by
    cases added <;> cases added' <;> rfl
  have htx : compare tx.raw.toNat tx'.raw.toNat = compare tx tx' :=
    (UInt64.compare_eq_toNat_compare_toNat tx.raw tx'.raw).symm
  unfold encodeTxAdded
  rw [ordCode_encodeU64.compare_eq, UInt64.compare_eq_toNat_compare_toNat, txAdded_toNat h, txAdded_toNat h',
    ← compare_div_then_mod _ _ 2 (by decide), (hbit _ _).1, (hbit _ _).1, (hbit _ _).2, (hbit _ _).2, hadded, htx]

/--
  The keys of the four covering orders: a key reads back its datom; keys sort by the order's components, then by
  transaction and assertion; key components are the fact's; and a key prefix starts exactly the keys whose leading
  components it binds.
-/
theorem keys_realise_the_covering_orders (order : IndexOrder) (d d' : Datom) (h : d.tx.raw.toNat < 2 ^ 63)
    (h' : d'.tx.raw.toNat < 2 ^ 63) :
    Datom.fromKey order (d.key order) = .ok d ∧
      compare (d.key order) (d'.key order) =
        (compareFacts order d.fact d'.fact).then ((compare d.tx d'.tx).then (compare d.added d'.added)) ∧
      (keyComponents (d.key order) = keyComponents (d'.key order) ↔ d.fact = d'.fact) ∧
      ∀ e a v, keyPrefix order e a v <+: d.key order ↔ MatchesLeading order e a v d.fact := by
  refine ⟨Datom.fromKey_key order h, ?_, Datom.keyComponents_eq_iff d d' order, fun e a v => ?_⟩
  · unfold Datom.key
    rw [compare_factComponents, compare_encodeTxAdded d.added d'.added h h']
  · exact selects_keyPrefix order e a v d.fact _

theorem keys_realise_the_covering_orders_for_a_text :
    let d : Datom := { e := ⟨42⟩, a := ⟨7⟩, v := .str "a\x00z", tx := ⟨19⟩, added := true }
    let d' : Datom := { e := ⟨42⟩, a := ⟨7⟩, v := .str "a", tx := ⟨20⟩, added := false }
    Datom.fromKey .avet (d.key .avet) = .ok d ∧ compare (d.key .avet) (d'.key .avet) = .gt := by
  have h := keys_realise_the_covering_orders .avet { e := ⟨42⟩, a := ⟨7⟩, v := .str "a\x00z", tx := ⟨19⟩, added := true }
    { e := ⟨42⟩, a := ⟨7⟩, v := .str "a", tx := ⟨20⟩, added := false } (by decide) (by decide)
  exact ⟨h.1, h.2.1.trans (by decide)⟩

/-! ## The live fold -/

theorem getElem?_foldLive (ds : List Datom) (f : Fact) :
    (foldLive ds)[factComponents .eavt f]? = liveDatom ds f := by
  unfold foldLive liveDatom lastDatom
  rw [getElem?_replay_empty, funext (liveKey_eq .eavt), lastOn_map_key (factComponents_injective .eavt)]

theorem foldLive_some :
    (foldLive ds)[k]? = some d ↔ k = factComponents .eavt d.fact ∧ liveDatom ds d.fact = some d := by
  constructor
  · intro h
    have hk : k = factComponents .eavt d.fact := by
      unfold foldLive at h
      rw [getElem?_replay_empty] at h
      obtain ⟨x, hx, hd⟩ := Option.bind_eq_some_iff.mp h
      split at hd
      · cases hd
        rw [← key_of_lastOn hx, liveKey_eq]
      · cases hd
    refine ⟨hk, ?_⟩
    rw [hk, getElem?_foldLive] at h
    exact h
  · rintro ⟨rfl, h⟩
    rw [getElem?_foldLive, h]

theorem foldLive_congr {ds ds' : List Datom} (h : ∀ f, liveDatom ds f = liveDatom ds' f) :
    foldLive ds = foldLive ds' := by
  apply ExtTreeMap.ext_getElem?
  intro k
  apply Option.ext
  intro d
  rw [foldLive_some, foldLive_some, h]

theorem mem_indexValues {index : Index} : d ∈ indexValues index ↔ ∃ k : Bytes, index[k]? = some d := by
  unfold indexValues
  rw [mem_map]
  constructor
  · rintro ⟨⟨k, d'⟩, hmem, rfl⟩
    exact ⟨k, ExtTreeMap.mem_toList_iff_getElem?_eq_some.mp hmem⟩
  · rintro ⟨k, h⟩
    exact ⟨(k, d), ExtTreeMap.mem_toList_iff_getElem?_eq_some.mpr h, rfl⟩

theorem indexValues_filter (p : Datom → Bool) (index : Index) :
    indexValues (index.filter fun _ d => p d) = (indexValues index).filter p := by
  unfold indexValues
  rw [ExtTreeMap.toList_filter, filter_map]
  rfl

theorem mem_foldLive : d ∈ indexValues (foldLive ds) ↔ liveDatom ds d.fact = some d := by
  rw [mem_indexValues]
  constructor
  · intro ⟨k, hk⟩
    exact (foldLive_some.mp hk).2
  · intro h
    exact ⟨_, foldLive_some.mpr ⟨rfl, h⟩⟩

/-! ## The history index -/

theorem historyIndex_eq_replay (schema : Schema) (order : IndexOrder) (ds : List Datom) :
    historyIndex schema order ds =
      replay (·.key order) some ∅ (ds.filter fun d => !noHistoryOf schema d.a && covered schema order d) := by
  unfold historyIndex replay
  rw [foldl_filter]
  congr 1
  funext index d
  cases noHistoryOf schema d.a <;> simp [applyEvent]

/-- A history index holds every retained datom its order covers, under its full key. -/
theorem historyIndex_some (schema : Schema) (order : IndexOrder) (hb : ∀ d ∈ ds, d.tx.raw.toNat < 2 ^ 63) :
    (historyIndex schema order ds)[k]? = some d ↔
      k = d.key order ∧ d ∈ ds ∧ noHistoryOf schema d.a = false ∧ covered schema order d = true := by
  have hinj : ∀ x ∈ ds.filter fun d => !noHistoryOf schema d.a && covered schema order d,
      ∀ y ∈ ds.filter fun d => !noHistoryOf schema d.a && covered schema order d,
        x.key order = y.key order → x = y := by
    intro x hx y hy h
    exact Datom.key_injective order (hb x (mem_filter.mp hx).1) (hb y (mem_filter.mp hy).1) h
  rw [historyIndex_eq_replay, getElem?_replay_empty, Option.bind_fun_some, lastOn_of_injOn hinj, mem_filter]
  simp only [Bool.and_eq_true, Bool.not_eq_true']
  constructor
  · intro ⟨⟨hmem, hr, hc⟩, hk⟩
    exact ⟨hk.symm, hmem, hr, hc⟩
  · intro ⟨hk, hmem, hr, hc⟩
    exact ⟨⟨hmem, hr, hc⟩, hk.symm⟩

theorem mem_historyValues (schema : Schema) (order : IndexOrder)
    (hb : ∀ d ∈ ds, d.tx.raw.toNat < 2 ^ 63) :
    d ∈ indexValues (historyIndex schema order ds) ↔
      d ∈ ds ∧ noHistoryOf schema d.a = false ∧ covered schema order d = true := by
  rw [mem_indexValues]
  constructor
  · intro ⟨k, hk⟩
    exact ((historyIndex_some schema order hb).mp hk).2
  · intro h
    exact ⟨_, (historyIndex_some schema order hb).mpr ⟨rfl, h⟩⟩

theorem historyValues_pairwise (schema : Schema) (order : IndexOrder)
    (hb : ∀ d ∈ ds, d.tx.raw.toNat < 2 ^ 63) :
    (indexValues (historyIndex schema order ds)).Pairwise fun d d' => compare (d.key order) (d'.key order) = .lt := by
  unfold indexValues
  rw [pairwise_map]
  have hkey : ∀ x ∈ (historyIndex schema order ds).toList, x.1 = x.2.key order := fun x hx =>
    ((historyIndex_some schema order hb).mp (ExtTreeMap.mem_toList_iff_getElem?_eq_some.mp hx)).1
  refine List.Pairwise.imp_of_mem ?_ ExtTreeMap.ordered_keys_toList
  intro x y hx hy h
  rwa [← hkey x hx, ← hkey y hy]

/-! ## Projected orders -/

/-- A live index: each entry under its fact's EAVT components. -/
def KeyedByFact (live : Index) : Prop := ∀ k d, live[k]? = some d → k = factComponents .eavt d.fact

theorem keyedByFact_foldLive (ds : List Datom) : KeyedByFact (foldLive ds) :=
  fun _ _ h => (foldLive_some.mp h).1

theorem mem_indexValues_live (hlive : KeyedByFact live) :
    d ∈ indexValues live ↔ live[factComponents .eavt d.fact]? = some d := by
  rw [mem_indexValues]
  exact ⟨fun ⟨k, h⟩ => hlive k d h ▸ h, fun h => ⟨_, h⟩⟩

/-- Distinct entries of a live index state distinct facts. -/
theorem fact_injOn_live (hlive : KeyedByFact live) {d d' : Datom} (hd : d ∈ indexValues live)
    (hd' : d' ∈ indexValues live) (h : d.fact = d'.fact) : d = d' := by
  rw [mem_indexValues_live hlive] at hd hd'
  rw [h] at hd
  exact Option.some.inj (hd.symm.trans hd')

theorem projectIndex_eq_replay (schema : Schema) (order : IndexOrder) (live : Index) :
    projectIndex schema order live =
      replay (liveKey order) some ∅ ((indexValues live).filter (covered schema order)) := by
  unfold projectIndex replay
  rw [foldl_filter]
  rfl

/-- A projected order holds the live datoms it covers, under its own components. -/
theorem projectIndex_some (schema : Schema) (order : IndexOrder) (hlive : KeyedByFact live) :
    (projectIndex schema order live)[k]? = some d ↔
      k = factComponents order d.fact ∧ covered schema order d = true ∧ d ∈ indexValues live := by
  have hinj : ∀ x ∈ (indexValues live).filter (covered schema order),
      ∀ y ∈ (indexValues live).filter (covered schema order), liveKey order x = liveKey order y → x = y := by
    intro x hx y hy h
    rw [liveKey_eq, liveKey_eq] at h
    exact fact_injOn_live hlive (mem_filter.mp hx).1 (mem_filter.mp hy).1 (factComponents_injective order h)
  rw [projectIndex_eq_replay, getElem?_replay_empty, Option.bind_fun_some, lastOn_of_injOn hinj, mem_filter,
    liveKey_eq]
  exact ⟨fun ⟨⟨hm, hc⟩, hk⟩ => ⟨hk.symm, hc, hm⟩, fun ⟨hk, hc, hm⟩ => ⟨⟨hm, hc⟩, hk.symm⟩⟩

/-! ## Indexes of a view -/

namespace Db

/-- A view that shows live facts, as every view but history does. -/
def ShowsLive (db : Db) : Prop := db.view ≠ .history

theorem keyedByFact_live (db : Db) : KeyedByFact db.live := by
  unfold live
  split
  · exact keyedByFact_foldLive _
  · intro k d h
    rw [ExtTreeMap.getElem?_filter'] at h
    exact keyedByFact_foldLive _ k d (Option.filter_eq_some_iff.mp h).1
  · exact keyedByFact_foldLive _

variable {db : Db} {a : AttrId} {v : Value}

theorem index_of_showsLive (hv : db.ShowsLive) (order : IndexOrder) :
    db.index order = match order with
      | .eavt => db.live
      | order => projectIndex db.schema order db.live := by
  unfold index
  split
  · exact absurd ‹_› hv
  · rfl

/-- An index of a live view holds the live datoms its order covers. -/
theorem index_some {db : Db} (hv : db.ShowsLive) (order : IndexOrder) {k : Bytes} {d : Datom} :
    (db.index order)[k]? = some d ↔
      k = factComponents order d.fact ∧ covered db.schema order d = true ∧ d ∈ indexValues db.live := by
  rw [index_of_showsLive hv]
  cases order with
  | eavt =>
    rw [mem_indexValues_live db.keyedByFact_live]
    constructor
    · intro h
      have hk := db.keyedByFact_live k d h
      exact ⟨hk, rfl, hk ▸ h⟩
    · rintro ⟨rfl, -, h⟩
      exact h
  | aevt => exact projectIndex_some db.schema .aevt db.keyedByFact_live
  | avet => exact projectIndex_some db.schema .avet db.keyedByFact_live
  | vaet => exact projectIndex_some db.schema .vaet db.keyedByFact_live

/-- A prefix scan is a filter. -/
theorem datomsPrefix_eq_filter (db : Db) (order : IndexOrder) (pre : Bytes) :
    db.datomsPrefix order pre = ((db.index order).toList.filter fun x => pre.isPrefixOf x.1).map (·.2) := by
  unfold datomsPrefix
  rw [takeWhile_prefix_eq_filter pre Prod.fst _ ExtTreeMap.ordered_keys_toList]

theorem mem_datomsPrefix (hv : db.ShowsLive) {order : IndexOrder} {pre : Bytes} {p : Fact → Prop}
    (hp : Selects order pre p) {d : Datom} :
    d ∈ db.datomsPrefix order pre ↔ p d.fact ∧ covered db.schema order d = true ∧ d ∈ indexValues db.live := by
  have hpd : pre <+: factComponents order d.fact ↔ p d.fact := by
    have := hp d.fact []
    rwa [append_nil] at this
  rw [datomsPrefix_eq_filter, mem_map]
  constructor
  · rintro ⟨⟨k, d'⟩, hmem, rfl⟩
    obtain ⟨hmem, hpre⟩ := mem_filter.mp hmem
    obtain ⟨rfl, hc, hl⟩ := (index_some hv order).mp (ExtTreeMap.mem_toList_iff_getElem?_eq_some.mp hmem)
    exact ⟨hpd.mp ( isPrefixOf_iff_prefix.mp hpre), hc, hl⟩
  · rintro ⟨hpf, hc, hl⟩
    refine ⟨(_, d), mem_filter.mpr ⟨ExtTreeMap.mem_toList_iff_getElem?_eq_some.mpr
      ((index_some hv order).mpr ⟨rfl, hc, hl⟩), ?_⟩, rfl⟩
    exact isPrefixOf_iff_prefix.mpr (hpd.mpr hpf)

/-! ## Reading the current view -/

/-- `f` is live in the current view. -/
def Holds (db : Db) (f : Fact) : Prop := holds db.recorded f = true

theorem mem_live_iff (hv : db.view = .current) {d : Datom} :
    d ∈ indexValues db.live ↔ liveDatom db.recorded d.fact = some d := by
  rw [mem_indexValues_live db.keyedByFact_live]
  have : db.live = foldLive db.recorded := by unfold live; rw [hv]
  rw [this, getElem?_foldLive]

theorem showsLive_of_current (hv : db.view = .current) : db.ShowsLive := by
  rw [ShowsLive, hv]
  exact nofun

variable {e : EntityId}

theorem mem_values (hv : db.view = .current) : v ∈ db.values e a ↔ db.Holds (e, a, v) := by
  unfold values Holds
  rw [holds_iff, mem_map]
  constructor
  · rintro ⟨d, hd, rfl⟩
    obtain ⟨⟨rfl, rfl⟩, -, hl⟩ := (mem_datomsPrefix (showsLive_of_current hv) (selects_entity_attribute e a)).mp hd
    exact ⟨d, (mem_live_iff hv).mp hl⟩
  · rintro ⟨d, hd⟩
    have hf := (liveDatom_some hd).1
    refine ⟨d, (mem_datomsPrefix (showsLive_of_current hv) (selects_entity_attribute e a)).mpr ⟨?_, rfl, ?_⟩, ?_⟩
    · rw [hf]; exact ⟨rfl, rfl⟩
    · rw [mem_live_iff hv, hf]; exact hd
    · exact congrArg (fun f : Fact => f.2.2) hf

/-- The values of (e, a) ascend. -/
theorem values_ascending (hv : db.view = .current) (e : EntityId) (a : AttrId) :
    (db.values e a).Pairwise fun v w => compare v w = .lt := by
  unfold values
  rw [datomsPrefix_eq_filter, map_map, pairwise_map]
  have hsorted := (ExtTreeMap.ordered_keys_toList (t := db.index .eavt)).filter
    fun x => (keyPrefix .eavt (some e) (some a) none).isPrefixOf x.1
  refine hsorted.imp_of_mem fun {x y} hx hy hlt => ?_
  -- keys are those of facts on (e, a), which differ in their values only
  have hkey : ∀ z ∈ (db.index .eavt).toList.filter fun z => (keyPrefix .eavt (some e) (some a) none).isPrefixOf z.1,
      z.1 = factComponents .eavt z.2.fact ∧ z.2.fact.1 = e ∧ z.2.fact.2.1 = a := by
    intro z hz
    obtain ⟨hmem, -⟩ := mem_filter.mp hz
    have hin : z.2 ∈ db.datomsPrefix .eavt (keyPrefix .eavt (some e) (some a) none) := by
      rw [datomsPrefix_eq_filter]
      exact mem_map_of_mem hz
    obtain ⟨hpair, -⟩ := (mem_datomsPrefix (showsLive_of_current hv) (selects_entity_attribute e a)).mp hin
    exact ⟨((index_some (showsLive_of_current hv) .eavt).mp (ExtTreeMap.mem_toList_iff_getElem?_eq_some.mp hmem)).1, hpair⟩
  obtain ⟨hkx, hex, hax⟩ := hkey x hx
  obtain ⟨hky, hey, hay⟩ := hkey y hy
  have hcmp := compare_factComponents .eavt x.2.fact y.2.fact [] []
  rw [append_nil, append_nil, ← hkx, ← hky, hlt] at hcmp
  simp only [compareFacts, hex, hey, hax, hay, compare_same, Ordering.eq_then, Ordering.then_eq] at hcmp
  exact hcmp.symm

/-- What (e, a) holds decides what `values` reads there. -/
theorem values_congr {db db' : Db} (hv : db.view = .current) (hv' : db'.view = .current)
    (h : ∀ v, db'.Holds (e, a, v) ↔ db.Holds (e, a, v)) : db'.values e a = db.values e a := by
  have hirrefl : ∀ v : Value, ¬ compare v v = .lt := fun v hv => by
    rw [compare_same] at hv
    cases hv
  have : Std.Irrefl fun v w : Value => compare v w = .lt := ⟨hirrefl⟩
  have : Std.Antisymm fun v w : Value => compare v w = .lt := ⟨fun v w hvw hwv =>
    absurd (Std.TransCmp.lt_trans hvw hwv) (hirrefl v)⟩
  refine List.Pairwise.eq_of_mem_iff (values_ascending hv' e a) (values_ascending hv e a) fun v => ?_
  rw [mem_values hv', mem_values hv, h]

/-- `lookup` finds an entity exactly when one holds the value, and then one that does. -/
theorem lookup_some (hv : db.view = .current) (h : db.lookup a v = some e) : db.Holds (e, a, v) := by
  unfold lookup at h
  unfold Holds
  rw [holds_iff]
  split at h
  · obtain ⟨d, hd, rfl⟩ := Option.map_eq_some_iff.mp h
    obtain ⟨⟨rfl, rfl⟩, -, hl⟩ := (mem_datomsPrefix (showsLive_of_current hv) (selects_attribute_value a v)).mp
      (mem_of_mem_head? hd)
    exact ⟨d, (mem_live_iff hv).mp hl⟩
  · obtain ⟨d, hd, rfl⟩ := Option.map_eq_some_iff.mp h
    obtain ⟨rfl, -, hl⟩ := (mem_datomsPrefix (showsLive_of_current hv) (selects_attribute a)).mp
      (mem_of_find?_eq_some hd)
    have hdv : d.v = v := by simpa using List.find?_some hd
    subst hdv
    exact ⟨d, (mem_live_iff hv).mp hl⟩

theorem lookup_none (hv : db.view = .current) (h : db.lookup a v = none)
    (e : EntityId) : ¬ db.Holds (e, a, v) := by
  unfold Holds
  rw [holds_iff]
  rintro ⟨d, hd⟩
  have hf := (liveDatom_some hd).1
  have hl : d ∈ indexValues db.live := by rw [mem_live_iff hv, hf]; exact hd
  have ha : d.fact.2.1 = a := by rw [hf]
  have hdv : d.fact.2.2 = v := by rw [hf]
  unfold lookup at h
  split at h
  · rename_i hc
    have hmem := (mem_datomsPrefix (showsLive_of_current hv) (selects_attribute_value a v)).mpr
      ⟨⟨ha, hdv⟩, (show avetCovered db.schema d.a = true by rw [show d.a = a from ha]; exact hc), hl⟩
    rw [Option.map_eq_none_iff, List.head?_eq_none_iff] at h
    rw [h] at hmem
    cases hmem
  · have hmem := (mem_datomsPrefix (showsLive_of_current hv) (selects_attribute a)).mpr ⟨ha, rfl, hl⟩
    rw [Option.map_eq_none_iff, List.find?_eq_none] at h
    exact h d hmem (decide_eq_true hdv)

/-- Of the entities that hold a value of an indexed attribute `lookup` finds the lowest. -/
theorem lookup_lowest (hv : db.view = .current) (hc : avetCovered db.schema a = true)
    {e' : EntityId} (h : db.lookup a v = some e) (h' : db.Holds (e', a, v)) : (compare e e').isLE = true := by
  unfold lookup at h
  rw [if_pos hc] at h
  obtain ⟨d, hd, rfl⟩ := Option.map_eq_some_iff.mp h
  obtain ⟨d', hd'⟩ := holds_iff.mp h'
  have hfact' := (liveDatom_some hd').1
  have hmem' : d' ∈ db.datomsPrefix .avet (keyPrefix .avet none (some a) (some v)) := by
    refine (mem_datomsPrefix (showsLive_of_current hv) (selects_attribute_value a v)).mpr ⟨?_, ?_, ?_⟩
    · rw [hfact']
      exact ⟨rfl, rfl⟩
    · show avetCovered db.schema d'.a = true
      rw [show d'.a = a from congrArg (·.2.1) hfact']
      exact hc
    · rw [mem_live_iff hv, hfact']
      exact hd'
  have hfact := ((mem_datomsPrefix (showsLive_of_current hv) (selects_attribute_value a v)).mp
    (mem_of_mem_head? hd)).1
  rw [datomsPrefix_eq_filter] at hd hmem'
  -- keys ascend, and the two differ in their entities only
  have hsorted := (ExtTreeMap.ordered_keys_toList (t := db.index .avet)).filter
    fun x => (keyPrefix .avet none (some a) (some v)).isPrefixOf x.1
  have hkeys : ∀ x ∈ (db.index .avet).toList.filter fun x => (keyPrefix .avet none (some a) (some v)).isPrefixOf x.1,
      x.1 = factComponents .avet x.2.fact := fun x hx =>
    ((index_some (showsLive_of_current hv) .avet).mp
      (ExtTreeMap.mem_toList_iff_getElem?_eq_some.mp (mem_filter.mp hx).1)).1
  cases hl : (db.index .avet).toList.filter fun x => (keyPrefix .avet none (some a) (some v)).isPrefixOf x.1 with
  | nil =>
    rw [hl] at hd
    cases hd
  | cons x rest =>
    rw [hl] at hd hmem' hsorted hkeys
    obtain rfl : x.2 = d := by simpa using hd
    rcases mem_map.mp hmem' with ⟨y, hy, rfl⟩
    rcases mem_cons.mp hy with rfl | hrest
    · rw [show y.2.e = e' from congrArg (·.1) hfact', compare_same]
      rfl
    · have hlt := (pairwise_cons.mp hsorted).1 y hrest
      rw [hkeys x mem_cons_self, hkeys y hy, hfact'] at hlt
      have hcmp := compare_factComponents .avet x.2.fact (e', a, v) [] []
      rw [append_nil, append_nil, hlt] at hcmp
      simp only [compareFacts, hfact.1, hfact.2, compare_same, Ordering.then_eq, Ordering.eq_then] at hcmp
      rw [show x.2.e = x.2.fact.1 from rfl, ← hcmp]
      rfl

/-! ## Applying a transaction -/

/-- Applying a record that asserts its instant, or needs none, appends exactly its datoms. -/
theorem withTransaction_eq (db : Db) (t : Nat) (datoms : List Datom) :
    ∃ instants, db.withTransaction t datoms = { db.applyTransaction t datoms with instants } := by
  unfold withTransaction withTransactionAt
  cases h : Bootstrap.assertedInstant t datoms with
  | some instant => exact ⟨_, rfl⟩
  | none => exact ⟨_, rfl⟩

@[simp] theorem withTransaction_recorded (db : Db) (t : Nat) (datoms : List Datom) :
    (db.withTransaction t datoms).recorded = db.recorded ++ datoms := by
  obtain ⟨_, h⟩ := db.withTransaction_eq t datoms
  rw [h]
  rfl

@[simp] theorem withTransaction_view (db : Db) (t : Nat) (datoms : List Datom) :
    (db.withTransaction t datoms).view = db.view := by
  obtain ⟨_, h⟩ := db.withTransaction_eq t datoms
  rw [h]
  rfl

@[simp] theorem withTransaction_interner (db : Db) (t : Nat) (datoms : List Datom) :
    (db.withTransaction t datoms).interner = db.interner := by
  obtain ⟨_, h⟩ := db.withTransaction_eq t datoms
  rw [h]
  rfl

theorem applyTransaction_schema_of_only_idents (db : Db) (t : Nat) {datoms : List Datom}
    (h : ∀ d ∈ datoms, Bootstrap.isSchemaAttribute d.a = true → d.a = Bootstrap.ident) :
    (db.applyTransaction t datoms).schema = db.schema := by
  show (if _ then SchemaDatoms.deriveSchema db.schema db.interner t datoms else db.schema) = db.schema
  split
  · exact SchemaDatoms.deriveSchema_of_only_idents db.schema db.interner t h
  · rfl

/-- Names alone do not change the schema. -/
theorem withTransaction_schema_of_only_idents (db : Db) (t : Nat) {datoms : List Datom}
    (h : ∀ d ∈ datoms, Bootstrap.isSchemaAttribute d.a = true → d.a = Bootstrap.ident) :
    (db.withTransaction t datoms).schema = db.schema := by
  obtain ⟨_, heq⟩ := db.withTransaction_eq t datoms
  rw [heq]
  exact db.applyTransaction_schema_of_only_idents t h

end Db

end Corium
