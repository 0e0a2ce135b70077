/-
  Corium.Tx.Constraints — the schema constraints a transaction must keep: a
  unique attribute maps each value to at most one entity, a cardinality-one
  attribute holds at most one value per entity.

  Every operation keeps both except compare-and-swap, which replaces a value
  without looking for another owner of the new one (`Add` does look). So the
  constraints hold after every operation exactly when each compare-and-swap on a
  unique attribute meets a value nobody else owns (`CasClean`), and a transaction
  that is clean in this sense keeps them.
  `a_swap_onto_an_owned_value_gives_it_two_owners` is the failing transaction.
-/

import Corium.Tx.Effects

namespace Corium.Tx

open Corium.Core Corium.Lib List

structure Constrained (db : Db) : Prop where
  unique : ∀ a attr, db.schema.get a = some attr → attr.unique.isSome = true →
    ∀ v e e', v ∈ db.values e a → v ∈ db.values e' a → e = e'
  one : ∀ a attr, db.schema.get a = some attr → attr.cardinality = .one →
    ∀ e v v', v ∈ db.values e a → v' ∈ db.values e a → v = v'

/-! ## What a batch of retractions and an assertion leave -/

theorem holds_append_retractions (ds : List Datom) (tx : TxId) (facts : List Fact) (f : Fact) :
    holds (ds ++ facts.map fun f => retraction tx f.1 f.2.1 f.2.2) f = true ↔ holds ds f = true ∧ f ∉ facts := by
  induction facts using List.reverseRecOn with
  | nil => simp
  | append_singleton facts g ih =>
    rw [map_append, ← append_assoc, map_singleton, holds_concat]
    have hg : (retraction tx g.1 g.2.1 g.2.2).fact = g := rfl
    rw [hg]
    by_cases h : g = f
    · subst h
      simp [retraction]
    · rw [if_neg h, ih]
      have h' : f ≠ g := fun e => h e.symm
      simp [h']

/-- Retract the values `vs` of (e, a), then assert `v`. -/
def replaceDatoms (tx : TxId) (e : EntityId) (a : AttrId) (vs : List Value) (v : Value) : List Datom :=
  vs.map (retraction tx e a) ++ [assertion tx e a v]

theorem holds_replaceDatoms (ds : List Datom) (tx : TxId) (e : EntityId) (a : AttrId) (vs : List Value) (v : Value)
    (f : Fact) :
    holds (ds ++ replaceDatoms tx e a vs v) f = true ↔
      f = (e, a, v) ∨ (holds ds f = true ∧ ∀ x ∈ vs, f ≠ (e, a, x)) := by
  have hmap : vs.map (retraction tx e a) =
      (vs.map fun x => ((e, a, x) : Fact)).map fun f => retraction tx f.1 f.2.1 f.2.2 := by
    rw [map_map]
    rfl
  have hfact : (assertion tx e a v).fact = (e, a, v) := rfl
  unfold replaceDatoms
  rw [← append_assoc, holds_concat, hfact, hmap]
  by_cases h : (e, a, v) = f
  · simp [h, assertion]
  · have h' : f ≠ (e, a, v) := fun he => h he.symm
    rw [if_neg h, holds_append_retractions]
    simp only [h', false_or, mem_map, not_exists, not_and]
    exact and_congr_right fun _ => ⟨fun hx x hv he => hx x hv he.symm, fun hx x hv he => hx x hv he.symm⟩

theorem addDatoms_eq (tx : TxId) (w : Db) (attr : Attribute) (e : EntityId) (a : AttrId) (v : Value) :
    addDatoms tx w attr e a v = replaceDatoms tx e a (if attr.cardinality = .one then w.values e a else []) v := by
  unfold addDatoms replaceDatoms
  split <;> simp

/-! ## One effect -/

variable {w w' : Db} {e : EntityId} {a : AttrId} {v : Value} {p p' : Progress} {op : TxOp} {n : Nat} {r : PreparedTx}

/-- Fewer facts keep the constraints. -/
theorem Constrained.mono (h : Constrained w) (hschema : w'.schema = w.schema)
    (hsub : ∀ e a v, v ∈ w'.values e a → v ∈ w.values e a) : Constrained w' := by
  constructor
  · intro a attr hattr hu v e e' hv hv'
    rw [hschema] at hattr
    exact h.unique a attr hattr hu v e e' (hsub e a v hv) (hsub e' a v hv')
  · intro a attr hattr hc e v v' hv hv'
    rw [hschema] at hattr
    exact h.one a attr hattr hc e v v' (hsub e a v hv) (hsub e a v' hv')

variable {attr : Attribute} {ops : List TxOp}

/-- Replacing the values of (e, a) that the new one displaces keeps the
    constraints when nobody else owns the new value. -/
theorem Constrained.replace (h : Constrained w) (hv : w.view = .current) {tx : TxId}
    {vs : List Value} (hf : Follows w (replaceDatoms tx e a vs v) w') (hattr : w.schema.get a = some attr)
    (hvs : attr.cardinality = .one → ∀ x ∈ w.values e a, x ∈ vs)
    (howner : attr.unique.isSome = true → ∀ e', v ∈ w.values e' a → e' = e) : Constrained w' := by
  have hv' : w'.view = .current := hf.view.trans hv
  have hmem : ∀ e' a' x, x ∈ w'.values e' a' ↔
      (e', a', x) = (e, a, v) ∨ (x ∈ w.values e' a' ∧ ∀ y ∈ vs, ((e', a', x) : Fact) ≠ (e, a, y)) := by
    intro e' a' x
    rw [Db.mem_values hv', Db.mem_values hv, Db.Holds, Db.Holds, hf.recorded, holds_replaceDatoms]
  constructor
  · intro b battr hb hu x e1 e2 h1 h2
    rw [hf.schema] at hb
    rcases (hmem e1 b x).mp h1 with heq1 | ⟨hw1, -⟩ <;> rcases (hmem e2 b x).mp h2 with heq2 | ⟨hw2, -⟩
    · cases heq1; cases heq2; rfl
    · cases heq1
      cases hattr.symm.trans hb
      exact (howner hu e2 hw2).symm
    · cases heq2
      cases hattr.symm.trans hb
      exact howner hu e1 hw1
    · exact h.unique b battr hb hu x e1 e2 hw1 hw2
  · intro b battr hb hc e1 x y hx hy
    rw [hf.schema] at hb
    -- on (e, a) itself everything displaced is gone
    have hgone : ∀ z, (e1, b, v) = (e, a, v) → z ∈ w.values e1 b →
        (∀ y ∈ vs, ((e1, b, z) : Fact) ≠ (e, a, y)) → False := by
      intro z heq hz hno
      cases heq
      cases hattr.symm.trans hb
      exact hno z (hvs hc z hz) rfl
    rcases (hmem e1 b x).mp hx with heq1 | ⟨hw1, hno1⟩ <;> rcases (hmem e1 b y).mp hy with heq2 | ⟨hw2, hno2⟩
    · cases heq1; cases heq2; rfl
    · cases heq1
      exact absurd hno2 fun hno => hgone y rfl hw2 hno
    · cases heq2
      exact absurd hno1 fun hno => hgone x rfl hw1 hno
    · exact h.one b battr hb hc e1 x y hw1 hw2

/-- No other entity owns `v`, as `Add` checks it: the first owner found, if any, is `e`. -/
theorem owner_of_lookup (h : Constrained w) (hv : w.view = .current)
    (hattr : w.schema.get a = some attr) (hu : attr.unique.isSome = true) :
    (w.lookup a v).all (· = e) = true ↔ ∀ e', v ∈ w.values e' a → e' = e := by
  constructor
  · intro hl e' he'
    cases hlook : w.lookup a v with
    | none => exact absurd ((Db.mem_values hv).mp he') (Db.lookup_none hv hlook e')
    | some owner =>
      rw [hlook] at hl
      have howner : owner = e := by simpa using hl
      subst howner
      exact h.unique a attr hattr hu v e' owner he' ((Db.mem_values hv).mpr (Db.lookup_some hv hlook))
  · intro hall
    cases hlook : w.lookup a v with
    | none => rfl
    | some owner =>
      have := hall owner ((Db.mem_values hv).mpr (Db.lookup_some hv hlook))
      simp [this]

/-- Retractions alone keep the constraints. -/
theorem Constrained.retractions (h : Constrained w) (hv : w.view = .current) (tx : TxId)
    (facts : List Fact) (hf : Follows w (facts.map fun f => retraction tx f.1 f.2.1 f.2.2) w') : Constrained w' := by
  refine h.mono hf.schema fun e a v hmem => ?_
  rw [Db.mem_values (hf.view.trans hv), Db.Holds, hf.recorded, holds_append_retractions] at hmem
  exact (Db.mem_values hv).mpr hmem.1

/-! ## One operation -/

/-- The owner check a compare-and-swap would need: on a unique attribute, the
    first owner of the new value in `w`, if any, is the entity written. -/
def OpClean (db : Db) (tempids : Tempids) (w : Db) : TxOp → Prop
  | .cas entity a _ new => ∀ e attr, resolve db tempids entity = .ok e → w.schema.get a = some attr →
      attr.unique.isSome = true → (w.lookup a new).all (· = e) = true
  | _ => True

theorem applyAdd_constrained {tx : TxId}
    (hv : p.working.view = .current) (hc : Constrained p.working) (h : applyAdd tx p e a v = .ok p') :
    Constrained p'.working := by
  rcases applyAdd_ok h with ⟨-, rfl⟩ | ⟨attr, g, rfl⟩
  · exact hc
  · have hf : Follows p.working
        (replaceDatoms tx e a (if attr.cardinality = .one then p.working.values e a else []) v)
        ((p.noteInstant a).advance (addDatoms tx p.working attr e a v)).working := by
      rw [← addDatoms_eq]
      exact (OpEffect.add g).follows (Or.inl rfl)
    refine hc.replace hv hf g.installed ?_ fun hu => (owner_of_lookup hc hv g.installed hu).mp (g.owner hu)
    intro hone
    rw [if_pos hone]
    exact fun x hx => hx

theorem applyCas_constrained_iff {tx : TxId} {old : Option Value}
    {new : Value} (ha : a ≠ Bootstrap.txInstant) (hv : p.working.view = .current) (hc : Constrained p.working)
    (h : applyCas tx p e a old new = .ok p') :
    Constrained p'.working ↔ ∀ attr, p.working.schema.get a = some attr → attr.unique.isSome = true →
      (p.working.lookup a new).all (· = e) = true := by
  obtain ⟨attr, g, rfl⟩ := applyCas_ok ha h
  have hf : Follows p.working (replaceDatoms tx e a old.toList new) (p.advance (casDatoms tx e a old new)).working :=
    (OpEffect.cas g).follows (Or.inl rfl)
  constructor
  · intro hc' attr' hattr hu
    cases g.installed.symm.trans hattr
    refine (owner_of_lookup hc hv hattr hu).mpr fun e' he' => ?_
    by_contra hne
    -- both `e`, which just got the value, and its old owner hold it now
    have hv' := hf.view.trans hv
    have hheld : ∀ f : Fact, f = (e, a, new) ∨ (holds p.working.recorded f = true ∧ ∀ x ∈ old.toList, f ≠ (e, a, x)) →
        f.2.2 ∈ (p.advance (casDatoms tx e a old new)).working.values f.1 f.2.1 := by
      intro f hfact
      rw [Db.mem_values hv', Db.Holds, hf.recorded]
      exact (holds_replaceDatoms ..).mpr hfact
    have hold := hheld (e', a, new) (Or.inr ⟨(Db.mem_values hv).mp he', fun x _ heq => hne (congrArg Prod.fst heq)⟩)
    have hnew := hheld (e, a, new) (Or.inl rfl)
    exact hne (hc'.unique a attr (hf.schema ▸ hattr) hu new e' e hold hnew)
  · intro hclean
    refine hc.replace hv hf g.installed ?_ fun hu =>
      (owner_of_lookup hc hv g.installed hu).mp (hclean attr g.installed hu)
    -- the one value there was is the one compared
    intro hone x hx
    have hhead : (p.working.values e a).head? = some x := by
      cases hvals : p.working.values e a with
      | nil => rw [hvals] at hx; cases hx
      | cons y ys =>
        rw [hc.one a attr g.installed hone e x y hx (by rw [hvals]; exact mem_cons_self)]
        rfl
    rw [← g.current, hhead]
    simp

theorem applyOp_constrained_iff {db : Db} {tempids : Tempids} {tx : TxId}
    (hv : p.working.view = .current) (hc : Constrained p.working) (h : applyOp db tempids tx p op = .ok p') :
    Constrained p'.working ↔ OpClean db tempids p.working op := by
  cases op with
  | add entity a v =>
    simp only [applyOp, bind_eq_ok] at h
    obtain ⟨e, -, h⟩ := h
    exact iff_of_true (applyAdd_constrained hv hc h) trivial
  | addRef entity a target =>
    simp only [applyOp, bind_eq_ok] at h
    obtain ⟨target, -, e, -, h⟩ := h
    exact iff_of_true (applyAdd_constrained hv hc h) trivial
  | retract entity a v =>
    simp only [applyOp, bind_eq_ok, require_eq_ok] at h
    obtain ⟨_, ha, e, -, h⟩ := h
    refine iff_of_true ?_ trivial
    obtain ⟨hwrite, rfl⟩ := applyRetract_ok h
    by_cases hlive : v ∈ p.working.values e a
    · rw [if_pos hlive]
      exact hc.retractions hv tx [(e, a, v)] ((OpEffect.retract hwrite ha hlive).follows (Or.inl rfl))
    · rw [if_neg hlive]
      exact hc.retractions hv tx [] ((OpEffect.nothing : OpEffect tx p.working []).follows (Or.inl rfl))
  | cas entity a old new =>
    simp only [applyOp, bind_eq_ok, require_eq_ok] at h
    obtain ⟨_, ha, e, he, h⟩ := h
    rw [applyCas_constrained_iff ha hv hc h]
    constructor
    · intro hclean e' attr he' hattr hu
      cases he.symm.trans he'
      exact hclean attr hattr hu
    · intro hclean attr hattr hu
      exact hclean e attr he hattr hu
  | retractEntity entity =>
    simp only [applyOp, bind_eq_ok] at h
    obtain ⟨e, -, h⟩ := h
    refine iff_of_true ?_ trivial
    obtain ⟨hwrite, hinstant, rfl⟩ := applyRetractEntity_ok h
    exact hc.retractions hv tx (entityRetractions p.working e) ((OpEffect.retractEntity hwrite hinstant
      (fun f hf => entityRetractions_live hv hf) (entityRetractions_nodup p.working e)).follows (Or.inl rfl))

/-! ## The whole transaction -/

/-- The state after the operations `ops`, run from `db` as `prepare` runs them. -/
def runOps (db : Db) (items : List TxItem) (tx : TxId) (nextUserSequence : Nat) (ops : List TxOp) :
    Except TxError Progress :=
  ops.foldlM (applyOp db (allocate db tx nextUserSequence (expandItems items)).tempids tx) (Progress.start db)

/-- Each compare-and-swap on a unique attribute finds, in the value the
    operations before it leave, no other owner of its new value. -/
def CasClean (db : Db) (items : List TxItem) (tx : TxId) (n : Nat) : Prop :=
  ∀ pre op post p, expandItems items = pre ++ op :: post → runOps db items tx n pre = .ok p →
    OpClean db (allocate db tx n (expandItems items)).tempids p.working op

/-- Every value the transaction passes through satisfies the constraints. -/
def ConstrainedThroughout (db : Db) (items : List TxItem) (tx : TxId) (n : Nat) : Prop :=
  ∀ pre post p, expandItems items = pre ++ post → runOps db items tx n pre = .ok p → Constrained p.working

theorem runOps_concat {db : Db} {items : List TxItem} {tx : TxId} : runOps db items tx n (ops ++ [op]) = .ok p ↔
      ∃ q, runOps db items tx n ops = .ok q ∧
        applyOp db (allocate db tx n (expandItems items)).tempids tx q op = .ok p := by
  unfold runOps
  rw [foldlM_append, bind_eq_ok]
  simp only [foldlM_cons, foldlM_nil, bind_eq_ok, pure_eq_ok, exists_eq_right]

theorem runOps_view {db : Db} (hv : db.view = .current) {items : List TxItem} {tx : TxId}
    (h : runOps db items tx n ops = .ok p) : p.working.view = .current := by
  obtain ⟨ds, heff, -⟩ := effects_of_foldlM hv h
  exact heff.follows.view.trans hv

theorem constrainedThroughout_of_clean {db : Db} {items : List TxItem} {tx : TxId}
    (hv : db.view = .current) (hc : Constrained db) (hclean : CasClean db items tx n) :
    ConstrainedThroughout db items tx n := by
  intro pre
  -- the constraints travel along the run, one operation at a time
  induction pre using List.reverseRecOn with
  | nil =>
    intro post p _ h
    cases h
    exact hc
  | append_singleton pre op ih =>
    intro post p hops h
    obtain ⟨q, hq, hop⟩ := runOps_concat.mp h
    have hsplit : expandItems items = pre ++ op :: post := by simpa using hops
    exact (applyOp_constrained_iff (runOps_view hv hq) (ih (op :: post) q hsplit hq) hop).mpr
      (hclean pre op post q hsplit hq)

/-- An accepted transaction got past each of its operations. -/
theorem runOps_next {db : Db} {items : List TxItem} {tx : TxId}
    (h : prepare db items tx n = .ok r) {pre post : List TxOp} (hsplit : expandItems items = pre ++ op :: post)
    {q : Progress} (hq : runOps db items tx n pre = .ok q) :
    ∃ q', applyOp db (allocate db tx n (expandItems items)).tempids tx q op = .ok q' := by
  obtain ⟨htemp, ⟨p, hp, -⟩, -⟩ := prepare_ok h
  rw [htemp, show expandItems items = (pre ++ [op]) ++ post by rw [hsplit]; simp, foldlM_append, bind_eq_ok] at hp
  obtain ⟨q', hq', -⟩ := hp
  rw [show (pre ++ [op]) ++ post = expandItems items by rw [hsplit]; simp] at hq'
  obtain ⟨q'', hpre, hop⟩ := runOps_concat.mp hq'
  cases hq.symm.trans hpre
  exact ⟨q', hop⟩

/-- If every value on the way satisfies the constraints, every compare-and-swap
    the transaction got past was clean. -/
theorem clean_of_constrainedThroughout {db : Db} {items : List TxItem} {tx : TxId}
    (hv : db.view = .current) (h : prepare db items tx n = .ok r)
    (hall : ConstrainedThroughout db items tx n) : CasClean db items tx n := by
  intro pre op post q hsplit hq
  obtain ⟨q', hop⟩ := runOps_next h hsplit hq
  exact (applyOp_constrained_iff (runOps_view hv hq) (hall pre (op :: post) q hsplit hq) hop).mp
    (hall (pre ++ [op]) post q' (by simpa using hsplit) (runOps_concat.mpr ⟨q, hq, hop⟩))

/-- An accepted transaction keeps the constraints after every operation exactly
    when its compare-and-swaps are clean, and then the value it leaves satisfies
    them. -/
theorem prepare_constrained_iff {db : Db} {items : List TxItem} {tx : TxId} {n : Nat} {r : PreparedTx}
    (hv : db.view = .current) (hc : Constrained db) (h : prepare db items tx n = .ok r) :
    (CasClean db items tx n ↔ ConstrainedThroughout db items tx n) ∧
      (CasClean db items tx n → ∀ t, Constrained (db.withTransaction t r.datoms)) := by
  refine ⟨⟨constrainedThroughout_of_clean hv hc, clean_of_constrainedThroughout hv h⟩, fun hclean t => ?_⟩
  obtain ⟨htemp, ⟨p, hp, hds⟩, -⟩ := prepare_ok h
  rw [htemp] at hp
  have hcp : Constrained p.working :=
    constrainedThroughout_of_clean hv hc hclean (expandItems items) [] p (by simp) hp
  obtain ⟨ds, heff, hp'⟩ := effects_of_foldlM hv hp
  have hpd : p.datoms = ds := hp'
  have hf := heff.follows
  rw [hds, hpd]
  refine hcp.mono ?_ ?_
  · rw [db.withTransaction_schema_of_only_idents t fun d hd hs => ident_of_writable (heff.mem hd).2 hs]
    exact hf.schema.symm
  · intro e a v hmem
    rw [Db.mem_values (by simpa using hv), Db.Holds, Db.withTransaction_recorded] at hmem
    rw [Db.mem_values (hf.view.trans hv), Db.Holds, hf.recorded]
    exact hmem

/-! ## A swap nobody checks -/

namespace SwapExample

def email : AttrId := Bootstrap.dbAttr 100

def alice : EntityId := EntityId.new Partition.user.id 1000

def bob : EntityId := EntityId.new Partition.user.id 1001

/-- An empty database with one unique string attribute. -/
def db : Db :=
  Db.new (Schema.empty.insert { Bootstrap.simple email .str with unique := some .value, indexed := true })

/-- Alice takes an address; Bob, who has none, swaps it in. -/
def items : List TxItem :=
  [.op (.add (.id alice) email (.str "a@x")), .op (.cas (.id bob) email none (.str "a@x"))]

def tx : TxId := Bootstrap.txId 1

/-- Both assertions are accepted. -/
def prepared : PreparedTx :=
  { datoms := [assertion tx alice email (.str "a@x"), assertion tx bob email (.str "a@x")], tempids := ∅ }

/-- Alice takes an address and swaps it for another. -/
def ownItems : List TxItem :=
  [.op (.add (.id alice) email (.str "a@x")), .op (.cas (.id alice) email (some (.str "a@x")) (.str "b@x"))]

def ownPrepared : PreparedTx :=
  { datoms := [assertion tx alice email (.str "a@x"), retraction tx alice email (.str "a@x"),
      assertion tx alice email (.str "b@x")]
    tempids := ∅ }

end SwapExample

theorem constrained_of_empty {db : Db} (hv : db.view = .current) (h : db.recorded = []) : Constrained db := by
  have hnone : ∀ e a v, v ∉ db.values e a := by
    intro e a v hmem
    rw [Db.mem_values hv, Db.Holds, h] at hmem
    exact absurd hmem (by simp)
  exact ⟨fun a _ _ _ v e _ hmem => absurd hmem (hnone e a v), fun a _ _ _ e v _ hmem => absurd hmem (hnone e a v)⟩

theorem a_swap_onto_an_owned_value_gives_it_two_owners :
    SwapExample.db.view = .current ∧ Constrained SwapExample.db ∧
      prepare SwapExample.db SwapExample.items SwapExample.tx 1000 = .ok SwapExample.prepared ∧
      ¬ Constrained (SwapExample.db.withTransaction 1 SwapExample.prepared.datoms) := by
  refine ⟨rfl, constrained_of_empty rfl rfl, by decide, fun hc => ?_⟩
  have hattr : (SwapExample.db.withTransaction 1 SwapExample.prepared.datoms).schema.get SwapExample.email =
      some { Bootstrap.simple SwapExample.email .str with unique := some .value, indexed := true } := by decide
  exact absurd (hc.unique SwapExample.email _ hattr rfl (.str "a@x") SwapExample.alice SwapExample.bob
    (by decide) (by decide)) (by decide)

theorem prepare_constrained_iff_own_swap :
    (CasClean SwapExample.db SwapExample.ownItems SwapExample.tx 1000 ↔
      ConstrainedThroughout SwapExample.db SwapExample.ownItems SwapExample.tx 1000) ∧
      (CasClean SwapExample.db SwapExample.ownItems SwapExample.tx 1000 →
        ∀ t, Constrained (SwapExample.db.withTransaction t SwapExample.ownPrepared.datoms)) :=
  prepare_constrained_iff rfl (constrained_of_empty rfl rfl)
    (show prepare SwapExample.db SwapExample.ownItems SwapExample.tx 1000 = .ok SwapExample.ownPrepared by
      decide)

end Corium.Tx
