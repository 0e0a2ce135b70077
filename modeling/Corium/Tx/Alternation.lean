/-
  Corium.Tx.Alternation — recorded datoms alternate, and what squashing them gives
  (`prepare` of `crates/corium-tx/src/lib.rs`, `squash` of `crates/corium-tx/src/merge.rs`).

  `squash` reads a run's start off the first word about each fact. That is sound where
  each assertion is of an absent fact and each retraction of a live one. An accepted
  transaction's operations all record so, except a compare-and-swap: it retracts the
  one value it compares and asserts the new one unseen, so on a pair that holds the new
  value beside the compared one it asserts what is there (`prepare_alternates_iff`).
  Of runs that alternate, the net effects compose (`squash_append`).
-/

import Corium.Tx.Merge

namespace Corium.Tx

open Corium.Core Corium.Lib Bootstrap List

/-- Of `ds`, recorded after `xs`: each assertion of `f` is made while it is absent, each
    retraction while it is live. -/
def AlternatesAt (xs ds : List Datom) (f : Fact) : Prop :=
  ∀ pre d post, ds = pre ++ d :: post → d.fact = f → d.added = !holds (xs ++ pre) f

def Alternates (xs ds : List Datom) : Prop := ∀ f, AlternatesAt xs ds f

/-! ## Runs that alternate -/

section Lists

variable {xs ds ds' : List Datom} {f : Fact}

theorem alternatesAt_of_ne (h : ∀ d ∈ ds, d.fact ≠ f) : AlternatesAt xs ds f := by
  rintro pre d post rfl hf
  exact absurd hf (h d (mem_append_right _ mem_cons_self))

theorem alternatesAt_append : AlternatesAt xs (ds ++ ds') f ↔ AlternatesAt xs ds f ∧ AlternatesAt (xs ++ ds) ds' f := by
  constructor
  · refine fun h => ⟨fun pre d post hds hf => h pre d (post ++ ds') (by rw [hds]; simp) hf, fun pre d post hds hf => ?_⟩
    rw [append_assoc]
    exact h (ds ++ pre) d post (by rw [hds]; simp) hf
  · rintro ⟨h, h'⟩ pre d post hsplit hf
    rcases append_eq_append_iff.mp hsplit with ⟨mid, rfl, hrest⟩ | ⟨mid, hds, hrest⟩
    · rw [← append_assoc]
      exact h' mid d post hrest hf
    · cases mid with
      | nil =>
        have hds' : ds = pre := by simpa using hds
        subst hds'
        simpa using h' [] d post (by simpa using hrest.symm) hf
      | cons x mid =>
        obtain ⟨rfl, rfl⟩ := List.cons.inj hrest
        exact h pre d mid hds hf

theorem alternates_append : Alternates xs (ds ++ ds') ↔ Alternates xs ds ∧ Alternates (xs ++ ds) ds' :=
  (forall_congr' fun _ => alternatesAt_append).trans forall_and

theorem alternates_singleton {d : Datom} : Alternates xs [d] ↔ d.added = !holds xs d.fact := by
  constructor
  · intro h
    simpa using h d.fact [] d [] rfl rfl
  · rintro h f pre d' post hsplit rfl
    obtain ⟨rfl, rfl, rfl⟩ : pre = [] ∧ d' = d ∧ post = [] := by
      cases pre with
      | nil => simpa [eq_comm] using hsplit
      | cons x pre => simp at hsplit
    simpa using h

/-- The first word about a fact says what it was. -/
theorem AlternatesAt.tells (h : AlternatesAt xs ds f) : Tells xs ds f := by
  intro b hb
  obtain ⟨d, hd, rfl⟩ := Option.map_eq_some_iff.mp hb
  obtain ⟨hf, pre, post, hsplit, hpre⟩ := List.find?_eq_some_iff_append.mp hd
  rw [h pre d post hsplit (by simpa using hf), holds_append_of_ne fun d' hd' => by simpa using hpre d' hd']

theorem alternates_retractions (tx : TxId) {facts : List Fact} (hlive : ∀ g ∈ facts, holds xs g = true)
    (hnodup : facts.Nodup) : Alternates xs (facts.map fun g => retraction tx g.1 g.2.1 g.2.2) := by
  induction facts generalizing xs with
  | nil => exact fun f => alternatesAt_of_ne (forall_mem_nil _)
  | cons g facts ih =>
    obtain ⟨hg, hnodup⟩ := nodup_cons.mp hnodup
    refine (@alternates_append xs [retraction tx g.1 g.2.1 g.2.2] _).mpr ⟨alternates_singleton.mpr ?_, ih (fun g' hg' => ?_) hnodup⟩
    · rw [show (retraction tx g.1 g.2.1 g.2.2).fact = g from rfl, hlive g mem_cons_self]
      rfl
    · rw [holds_append_of_ne, hlive g' (mem_cons_of_mem _ hg')]
      intro d hd hf
      rw [mem_singleton.mp hd] at hf
      obtain rfl : g = g' := hf
      exact hg hg'

/-- Live values replaced by another: the datoms alternate if it was absent or is among them. -/
theorem alternates_replaceDatoms (tx : TxId) {e : EntityId} {a : AttrId} {vs : List Value} {v : Value}
    (hlive : ∀ x ∈ vs, holds xs (e, a, x) = true) (hnodup : vs.Nodup) :
    Alternates xs (replaceDatoms tx e a vs v) ↔ (holds xs (e, a, v) = true → v ∈ vs) := by
  have hmap : vs.map (retraction tx e a) = (vs.map fun x => ((e, a, x) : Fact)).map fun g => retraction tx g.1 g.2.1 g.2.2 := by
    rw [map_map]
    rfl
  have hfacts : Alternates xs (vs.map (retraction tx e a)) := by
    rw [hmap]
    refine alternates_retractions tx (fun g hg => ?_) (hnodup.map fun x y h => by simpa using h)
    obtain ⟨x, hx, rfl⟩ := mem_map.mp hg
    exact hlive x hx
  rw [replaceDatoms, alternates_append, and_iff_right hfacts, alternates_singleton, hmap]
  show true = (!_) ↔ _
  rw [eq_comm, Bool.not_eq_true', ← Bool.not_eq_true, show (assertion tx e a v).fact = (e, a, v) from rfl, holds_append_retractions,
    not_and_not_right]
  simp

end Lists

/-! ## What operations record -/

/-- The new value of a compare-and-swap is absent from its pair, or is the one compared. -/
def OpSwaps (db : Db) (tempids : Tempids) (w : Db) : TxOp → Prop
  | .cas entity a old new => ∀ e, resolve db tempids entity = .ok e → new ∈ w.values e a → old = some new
  | _ => True

section Operations

variable {db : Db} {tempids : Tempids} {tx : TxId} {p p' : Progress}

theorem values_nodup {w : Db} (hv : w.view = .current) (e : EntityId) (a : AttrId) : (w.values e a).Nodup := by
  refine List.Pairwise.imp ?_ (Db.values_ascending hv e a)
  rintro x y hlt rfl
  rw [compare_same] at hlt
  cases hlt

theorem applyAdd_alternates {e : EntityId} {a : AttrId} {v : Value} (hv : p.working.view = .current)
    (h : applyAdd tx p e a v = .ok p') : ∃ ds, Advances p p' ds ∧ Alternates p.working.recorded ds := by
  rcases applyAdd_ok h with ⟨-, rfl⟩ | ⟨attr, g, rfl⟩
  · exact ⟨[], ⟨by simp [Progress.noteInstant], .inr ⟨rfl, rfl⟩⟩, fun f => alternatesAt_of_ne (forall_mem_nil _)⟩
  · refine ⟨_, ⟨rfl, .inl rfl⟩, ?_⟩
    rw [addDatoms_eq]
    refine (alternates_replaceDatoms tx (fun x hx => ?_) ?_).mpr fun hheld => absurd ((Db.mem_values hv).mpr hheld) g.absent
    · split at hx
      · exact (Db.mem_values hv).mp hx
      · cases hx
    · split
      · exact values_nodup hv e a
      · exact nodup_nil

/-- What an operation records alternates, unless it swaps in a value the pair holds beside the one compared. -/
theorem applyOp_alternates_iff {op : TxOp} (hv : p.working.view = .current) (h : applyOp db tempids tx p op = .ok p') :
    ∃ ds, Advances p p' ds ∧ (Alternates p.working.recorded ds ↔ OpSwaps db tempids p.working op) := by
  cases op with
  | add entity a v =>
    simp only [applyOp, bind_eq_ok] at h
    obtain ⟨e, -, h⟩ := h
    obtain ⟨ds, hadv, halt⟩ := applyAdd_alternates hv h
    exact ⟨ds, hadv, iff_of_true halt trivial⟩
  | addRef entity a target =>
    simp only [applyOp, bind_eq_ok] at h
    obtain ⟨target, -, e, -, h⟩ := h
    obtain ⟨ds, hadv, halt⟩ := applyAdd_alternates hv h
    exact ⟨ds, hadv, iff_of_true halt trivial⟩
  | retract entity a v =>
    simp only [applyOp, bind_eq_ok, require_eq_ok] at h
    obtain ⟨_, -, e, -, h⟩ := h
    obtain ⟨-, rfl⟩ := applyRetract_ok h
    refine ⟨_, advances_advance p _, iff_of_true ?_ trivial⟩
    split
    · rename_i hlive
      refine alternates_singleton.mpr ?_
      rw [show (retraction tx e a v).fact = (e, a, v) from rfl, (Db.mem_values hv).mp hlive]
      rfl
    · exact fun f => alternatesAt_of_ne (forall_mem_nil _)
  | cas entity a old new =>
    simp only [applyOp, bind_eq_ok, require_eq_ok] at h
    obtain ⟨_, ha, e, he, h⟩ := h
    obtain ⟨attr, g, rfl⟩ := applyCas_ok ha h
    refine ⟨_, advances_advance p _, ?_⟩
    have hlive : ∀ x ∈ old.toList, holds p.working.recorded (e, a, x) = true := by
      intro x hx
      rw [← g.current] at hx
      exact (Db.mem_values hv).mp (mem_of_mem_head? (Option.mem_toList.mp hx))
    refine (alternates_replaceDatoms tx hlive (by cases old <;> simp)).trans ?_
    simp only [OpSwaps, he, Except.ok.injEq, forall_eq', Db.mem_values hv, Option.mem_toList]
    exact Iff.rfl
  | retractEntity entity =>
    simp only [applyOp, bind_eq_ok] at h
    obtain ⟨e, -, h⟩ := h
    obtain ⟨-, -, rfl⟩ := applyRetractEntity_ok h
    refine ⟨_, advances_advance p _, iff_of_true ?_ trivial⟩
    exact alternates_retractions tx (fun g hg => (Db.mem_values hv).mp (entityRetractions_live hv hg))
      (entityRetractions_nodup p.working e)

/-- A swap on a pair that holds one value compares that value. -/
theorem opSwaps_of_one {op : TxOp} (hv : p.working.view = .current)
    (hone : ∀ e a, a ≠ txInstant → OneAt p.working e a) (h : applyOp db tempids tx p op = .ok p') :
    OpSwaps db tempids p.working op := by
  cases op with
  | cas entity a old new =>
    simp only [applyOp, bind_eq_ok, require_eq_ok] at h
    obtain ⟨_, ha, e, he, h⟩ := h
    obtain ⟨attr, g, rfl⟩ := applyCas_ok ha h
    intro e' he' hnew
    cases he.symm.trans he'
    rw [← g.current]
    cases hvs : p.working.values e a with
    | nil =>
      rw [hvs] at hnew
      cases hnew
    | cons y rest =>
      have hy : y ∈ p.working.values e a := by rw [hvs]; exact mem_cons_self
      rw [hone e a ha attr g.installed g.one new y ((Db.mem_values hv).mp hnew) ((Db.mem_values hv).mp hy)]
      rfl
  | _ => trivial

end Operations

/-! ## The whole transaction -/

/-- Each compare-and-swap finds, in the value the operations before it leave, its new
    value absent from the pair or the one it compares. -/
def SwapClean (db : Db) (items : List TxItem) (tx : TxId) (n : Nat) : Prop :=
  ∀ pre op post p, expandItems items = pre ++ op :: post → runOps db items tx n pre = .ok p →
    OpSwaps db (allocate db tx n (expandItems items)).tempids p.working op

section Transaction

variable {db : Db} {items : List TxItem} {tx : TxId} {n : Nat}

theorem runOps_alternates_iff (hv : db.view = .current) {ops : List TxOp} {p : Progress} (h : runOps db items tx n ops = .ok p) :
    Alternates db.recorded p.datoms ↔ ∀ pre op post q, ops = pre ++ op :: post → runOps db items tx n pre = .ok q →
      OpSwaps db (allocate db tx n (expandItems items)).tempids q.working op := by
  -- what is recorded so far alternates exactly if every operation so far swapped well
  induction ops using List.reverseRecOn generalizing p with
  | nil =>
    cases h
    refine iff_of_true (fun f => alternatesAt_of_ne (forall_mem_nil _)) ?_
    intro pre op post q hsplit
    cases pre <;> cases hsplit
  | append_singleton ops op ih =>
    obtain ⟨q, hq, hop⟩ := runOps_concat.mp h
    obtain ⟨ds, heff, hds⟩ := effects_of_foldlM (p := Progress.start db) hv hq
    have hrec : q.working.recorded = db.recorded ++ q.datoms := by
      rw [heff.follows.recorded, hds]
      rfl
    obtain ⟨ds', hadv, halt⟩ := applyOp_alternates_iff (runOps_view hv hq) hop
    rw [hadv.datoms, alternates_append, ih hq, ← hrec, halt]
    constructor
    · rintro ⟨hbefore, hlast⟩ pre op' post q' hsplit hq'
      rcases eq_nil_or_concat post with rfl | ⟨post, x, rfl⟩
      · obtain ⟨rfl, heq⟩ := append_inj' hsplit rfl
        cases heq
        cases hq.symm.trans hq'
        exact hlast
      · refine hbefore pre op' post q' ?_ hq'
        have : ops ++ [op] = (pre ++ op' :: post) ++ [x] := by simpa using hsplit
        exact (append_inj' this rfl).1
    · intro hall
      exact ⟨fun pre op' post q' hsplit hq' => hall pre op' (post ++ [op]) q' (by rw [hsplit]; simp) hq',
        hall ops op [] q rfl hq⟩

/-- What an accepted transaction records alternates exactly if its swaps are clean. -/
theorem prepare_alternates_iff {r : PreparedTx} (hv : db.view = .current) (h : prepare db items tx n = .ok r) :
    Alternates db.recorded r.datoms ↔ SwapClean db items tx n := by
  obtain ⟨htemp, ⟨p, hp, hds⟩, -⟩ := prepare_ok h
  rw [htemp] at hp
  rw [hds]
  exact runOps_alternates_iff hv hp

theorem one_of_effects {w w' : Db} {ds : List Datom} (hv : w.view = .current) (h : Effects tx w ds w') {e : EntityId} {a : AttrId}
    (hone : OneAt w e a) : OneAt w' e a :=
  (Effects.tells (f := (e, a, .bool true)) h hv hone).2

/-- A transaction on a value whose pairs keep to their cardinality swaps cleanly. -/
theorem swapClean_of_one {r : PreparedTx} (hv : db.view = .current) (hone : ∀ e a, a ≠ txInstant → OneAt db e a)
    (h : prepare db items tx n = .ok r) : SwapClean db items tx n := by
  intro pre op post q hsplit hq
  obtain ⟨q', hop⟩ := runOps_next h hsplit hq
  obtain ⟨ds, heff, -⟩ := effects_of_foldlM (p := Progress.start db) hv hq
  exact opSwaps_of_one (runOps_view hv hq) (fun e a ha => one_of_effects hv heff (hone e a ha)) hop

end Transaction

/-! ## Net effects compose -/

section Squash

variable {ds r r' : List Datom}

theorem mem_squash_of_alternates {xs : List Datom} (h : ∀ f, f.1.inPartition .tx = false → AlternatesAt xs ds f) {f : Fact} :
    (f ∈ (squash ds).asserts ↔ f.1.inPartition .tx = false ∧ holds xs f = false ∧ holds (xs ++ ds) f = true) ∧
      (f ∈ (squash ds).retracts ↔ f.1.inPartition .tx = false ∧ holds xs f = true ∧ holds (xs ++ ds) f = false) := by
  rw [mem_squash.1, mem_squash.2]
  cases hf : f.1.inPartition .tx with
  | true => simp [NetWord, hf]
  | false =>
    rw [(h f hf).tells.netWord_iff true, (h f hf).tells.netWord_iff false, hf]
    exact ⟨Iff.rfl, Iff.rfl⟩

/-- The step count is how many transactions there are: within their partition ids differ by sequence. -/
theorem squash_steps (h : ∀ d ∈ ds, d.tx.inPartition .tx = true) : (squash ds).steps = (ds.map (·.tx)).dedup.length := by
  have hinj : ∀ x ∈ (ds.map (·.tx)).dedup, ∀ y ∈ (ds.map (·.tx)).dedup, x.sequence = y.sequence → x = y := by
    intro x hx y hy hseq
    obtain ⟨d, hd, rfl⟩ := mem_map.mp (mem_dedup.mp hx)
    obtain ⟨d', hd', rfl⟩ := mem_map.mp (mem_dedup.mp hy)
    exact EntityId.ext_iff_parts.mpr ⟨(eq_of_beq (h d hd)).trans (eq_of_beq (h d' hd')).symm, hseq⟩
  have hnodup : ((Std.ExtTreeSet.ofList (ds.map (·.tx.sequence)) compare).toList).Nodup := by
    refine List.Pairwise.imp ?_ Std.ExtTreeSet.distinct_toList
    rintro a b hab rfl
    exact hab (compare_same a)
  have hperm : ((Std.ExtTreeSet.ofList (ds.map (·.tx.sequence)) compare).toList).Perm
      ((ds.map (·.tx)).dedup.map (·.sequence)) := by
    refine (perm_ext_iff_of_nodup hnodup ((nodup_dedup _).map_on hinj)).mpr fun t => ?_
    simp [Std.ExtTreeSet.mem_ofList]
  show (Std.ExtTreeSet.ofList (ds.map (·.tx.sequence)) compare).size = _
  rw [← Std.ExtTreeSet.length_toList, hperm.length_eq, length_map]

/-- Of runs that alternate, one after the other, the net effects compose: what one
    asserts and the next does not retract, and what the next asserts and the first had
    not retracted; the same the other way round. -/
theorem squash_append {xs : List Datom} (h : ∀ f, f.1.inPartition .tx = false → AlternatesAt xs r f)
    (h' : ∀ f, f.1.inPartition .tx = false → AlternatesAt (xs ++ r) r' f) (htx : ∀ d ∈ r ++ r', d.tx.inPartition .tx = true) :
    (∀ f, f ∈ (squash (r ++ r')).asserts ↔
      (f ∈ (squash r).asserts ∧ f ∉ (squash r').retracts) ∨ (f ∈ (squash r').asserts ∧ f ∉ (squash r).retracts)) ∧
    (∀ f, f ∈ (squash (r ++ r')).retracts ↔
      (f ∈ (squash r).retracts ∧ f ∉ (squash r').asserts) ∨ (f ∈ (squash r').retracts ∧ f ∉ (squash r).asserts)) ∧
    (squash (r ++ r')).steps = ((r ++ r').map (·.tx)).dedup.length := by
  have hboth : ∀ f, f.1.inPartition .tx = false → AlternatesAt xs (r ++ r') f :=
    fun f hf => alternatesAt_append.mpr ⟨h f hf, h' f hf⟩
  refine ⟨fun f => ?_, fun f => ?_, squash_steps htx⟩
  · rw [(mem_squash_of_alternates hboth).1, ← append_assoc, (mem_squash_of_alternates h).1, (mem_squash_of_alternates h).2,
      (mem_squash_of_alternates h').1, (mem_squash_of_alternates h').2]
    -- what held before, in between and after
    cases f.1.inPartition .tx <;> cases holds xs f <;> cases holds (xs ++ r) f <;> simp
  · rw [(mem_squash_of_alternates hboth).2, ← append_assoc, (mem_squash_of_alternates h).1, (mem_squash_of_alternates h).2,
      (mem_squash_of_alternates h').1, (mem_squash_of_alternates h').2]
    cases f.1.inPartition .tx <;> cases holds xs f <;> cases holds (xs ++ r) f <;> simp

end Squash

namespace RenameExample

def ada : EntityId := EntityId.new Partition.user.id 1000

def name : AttrId := dbAttr 100

/-- Ada is named, and renamed. -/
def named : List Datom := [assertion (txId 1) ada name (.str "a")]

def renamed : List Datom := [retraction (txId 2) ada name (.str "a"), assertion (txId 2) ada name (.str "b")]

theorem squash_append_renamed :
    (ada, name, .str "b") ∈ (squash (named ++ renamed)).asserts ∧ (ada, name, .str "a") ∉ (squash (named ++ renamed)).asserts ∧
      (squash (named ++ renamed)).steps = 2 := by
  have hnamed : Alternates [] named := alternates_singleton.mpr (by decide)
  have hrenamed : Alternates ([] ++ named) renamed :=
    (@alternates_append named [retraction (txId 2) ada name (.str "a")] _).mpr
      ⟨alternates_singleton.mpr (by decide), alternates_singleton.mpr (by decide)⟩
  obtain ⟨hasserts, -, hsteps⟩ := squash_append (fun f _ => hnamed f) (fun f _ => hrenamed f) (by decide)
  refine ⟨(hasserts _).mpr (.inr (by decide)), fun h => ?_, hsteps.trans (by decide)⟩
  exact absurd ((hasserts _).mp h) (by decide)

end RenameExample

end Corium.Tx
