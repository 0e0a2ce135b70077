/-
  Corium.Tx.Resolution — an owner's answers to a merge's conflicts
  (`resolve` and `apply` of `crates/corium-tx/src/merge.rs`).

  A conflict is answered by the first resolution that names its unit and the parent's
  value. Where everything is answered and nothing refused, each unit in conflict goes
  one way: the parent's, and all its facts are dropped, or the branch's, and its
  retractions are. An override refused on one conflict of a unit stays in `overridden`
  for another (`an_override_survives_its_refusal`): it means what it says exactly where
  no unit has conflicts of both kinds (`resolutions_are_sound`).
-/

import Corium.Tx.Merge

namespace Corium.Tx

open Corium.Core Corium.Lib

/-! ## Answers -/

section Answers

variable {resolutions : List Resolution}

/-- The resolution that answers a conflict. -/
def answer (resolutions : List Resolution) (c : Conflict) : Option Resolution := resolutions.find? (·.answers c)

theorem answers_iff {r : Resolution} {c : Conflict} :
    r.answers c = true ↔ (r.entity, r.attr, r.scope) = c.unit ∧ r.parent = c.parent := by
  simp [Resolution.answers, Conflict.unit, and_assoc]

/-- Conflicts on one unit that show one parent value have one answer. -/
theorem answer_congr {c d : Conflict} (hunit : c.unit = d.unit) (hparent : c.parent = d.parent) :
    answer resolutions c = answer resolutions d := by
  unfold answer
  congr 1
  funext r
  rw [Bool.eq_iff_iff, answers_iff, answers_iff, hunit, hparent]

/-- Which side the answer takes, if there is one. -/
def takes (resolutions : List Resolution) (c : Conflict) : Option Take := (answer resolutions c).map (·.take)

theorem takes_singleton {r : Resolution} {c : Conflict} {t : Take} (h : takes [r] c = some t) : t = r.take := by
  obtain ⟨y, hy, rfl⟩ := Option.map_eq_some_iff.mp h
  rw [List.mem_singleton.mp (List.mem_of_find?_eq_some hy)]

/-- What is left open: a conflict nobody answers, or an override refused. -/
def Open (resolutions : List Resolution) (c : Conflict) : Prop :=
  takes resolutions c = none ∨ takes resolutions c = some .branch ∧ c.overridable = false

instance (resolutions : List Resolution) (c : Conflict) : Decidable (Open resolutions c) := inferInstanceAs (Decidable (_ ∨ _))

/-- What one conflict adds. -/
theorem resolveStep_spec (r : Resolved) (c : Conflict) :
    (resolveStep resolutions r c).accepted = r.accepted ++ (if takes resolutions c = some .parent then [c.unit] else []) ∧
    (resolveStep resolutions r c).overridden =
      r.overridden ++ (if takes resolutions c = some .branch ∧ c.overridable = true then [c.unit] else []) ∧
    (resolveStep resolutions r c).outstanding = r.outstanding ++ (if Open resolutions c then [c] else []) := by
  cases h : resolutions.find? (·.answers c) with
  | none => simp [resolveStep, Open, takes, answer, h]
  | some x =>
    cases ht : x.take with
    | parent => simp [resolveStep, Open, takes, answer, h, ht]
    | branch => cases ho : c.overridable <;> simp [resolveStep, Open, takes, answer, h, ht, ho]

theorem foldl_resolveStep (conflicts : List Conflict) (r : Resolved) :
    (conflicts.foldl (resolveStep resolutions) r).accepted =
      r.accepted ++ (conflicts.filter fun c => takes resolutions c = some .parent).map (·.unit) ∧
    (conflicts.foldl (resolveStep resolutions) r).overridden =
      r.overridden ++ (conflicts.filter fun c => takes resolutions c = some .branch ∧ c.overridable = true).map (·.unit) ∧
    (conflicts.foldl (resolveStep resolutions) r).outstanding =
      r.outstanding ++ conflicts.filter fun c => Open resolutions c := by
  induction conflicts generalizing r with
  | nil => simp
  | cons c conflicts ih =>
    obtain ⟨haccepted, hoverridden, houtstanding⟩ := ih (resolveStep resolutions r c)
    obtain ⟨hstepAccepted, hstepOverridden, hstepOutstanding⟩ := @resolveStep_spec resolutions r c
    rw [List.foldl_cons]
    refine ⟨haccepted.trans ?_, hoverridden.trans ?_, houtstanding.trans ?_⟩
    · rw [hstepAccepted, List.append_assoc]
      by_cases h : takes resolutions c = some .parent <;> simp [h]
    · rw [hstepOverridden, List.append_assoc]
      by_cases h : takes resolutions c = some .branch ∧ c.overridable = true
      · simp [h]
      · rw [if_neg h, List.filter_cons, if_neg (by simpa using h), List.nil_append]
    · rw [hstepOutstanding, List.append_assoc]
      by_cases h : Open resolutions c <;> simp [h]

end Answers

/-- What resolving leaves, conflict by conflict. -/
theorem resolveConflicts_spec (conflicts : List Conflict) (resolutions : List Resolution) :
    (∀ u, u ∈ (resolveConflicts conflicts resolutions).accepted ↔
      ∃ c ∈ conflicts, takes resolutions c = some .parent ∧ c.unit = u) ∧
    (∀ u, u ∈ (resolveConflicts conflicts resolutions).overridden ↔
      (∃ c ∈ conflicts, takes resolutions c = some .branch ∧ c.overridable = true ∧ c.unit = u) ∧
        u ∉ (resolveConflicts conflicts resolutions).accepted) ∧
    ∀ c, c ∈ (resolveConflicts conflicts resolutions).outstanding ↔ c ∈ conflicts ∧ Open resolutions c := by
  obtain ⟨haccepted, hoverridden, houtstanding⟩ := @foldl_resolveStep resolutions conflicts {}
  refine ⟨fun u => ?_, fun u => ?_, fun c => ?_⟩
  · simp [resolveConflicts, haccepted, and_assoc]
  · simp [resolveConflicts, hoverridden, and_assoc]
  · simp [resolveConflicts, houtstanding]

/-! ## Conflicts of a scan -/

section Scan

variable {parent : Db} {branch drift : Novelty} {c : Conflict}

/-- A conflict that may be overridden shows the parent's value. -/
theorem parent_of_overridable (hc : c ∈ scan parent branch drift) (ho : c.overridable = true) :
    c.parent = (parent.values c.entity c.attr).head? := by
  unfold scan at hc
  rcases List.mem_append.mp (List.mem_mergeSort.mp hc) with hc | hc
  · obtain ⟨x, -, hx⟩ := List.mem_filterMap.mp hc
    unfold pairConflict at hx
    simp only at hx
    split at hx
    · cases hx
    · cases hx
      rfl
  · obtain ⟨f, -, hf⟩ := List.mem_flatMap.mp hc
    rcases List.mem_append.mp hf with hf | hf
    · have hf := Option.mem_toList.mp hf
      unfold uniqueConflict at hf
      split at hf
      · split at hf
        · split at hf
          · cases hf
          · cases hf
            cases ho
        · cases hf
      · cases hf
    · obtain ⟨target, -, rfl⟩ := Option.map_eq_some_iff.mp (Option.mem_toList.mp hf)
      cases ho

/-- The conflict was answered by an override that names the parent's current value. -/
def Overridden (parent : Db) (resolutions : List Resolution) (c : Conflict) : Prop :=
  ∃ r, answer resolutions c = some r ∧ r.take = .branch ∧ r.parent = (parent.values c.entity c.attr).head?

theorem overridden_of_takes {resolutions : List Resolution} (hc : c ∈ scan parent branch drift) (ho : c.overridable = true)
    (ht : takes resolutions c = some .branch) : Overridden parent resolutions c := by
  obtain ⟨r, hr, htake⟩ := Option.map_eq_some_iff.mp ht
  have hanswers : r.answers c = true := by simpa using List.find?_some hr
  exact ⟨r, hr, htake, (answers_iff.mp hanswers).2.trans (parent_of_overridable hc ho)⟩

/-- An overridden unit has conflicts that may all be overridden, and were. -/
def OverridesSound (parent : Db) (conflicts : List Conflict) (resolutions : List Resolution) : Prop :=
  ∀ u ∈ (resolveConflicts conflicts resolutions).overridden, ∀ c ∈ conflicts, c.unit = u →
    c.overridable = true ∧ Overridden parent resolutions c

/-- No unit has both a conflict that may be overridden and one that may not. -/
def Unmixed (conflicts : List Conflict) : Prop :=
  ∀ c ∈ conflicts, ∀ d ∈ conflicts, c.unit = d.unit → c.overridable = d.overridable

/-- Where no unit is mixed, an override on it answers all its conflicts: they show one parent value. -/
theorem overridesSound_of_unmixed (h : Unmixed (scan parent branch drift)) (resolutions : List Resolution) :
    OverridesSound parent (scan parent branch drift) resolutions := by
  intro u hu c hc hcu
  obtain ⟨⟨d, hd, ht, ho, hdu⟩, -⟩ := ((resolveConflicts_spec _ _).2.1 u).mp hu
  have hunit : c.unit = d.unit := hcu.trans hdu.symm
  have hco : c.overridable = true := (h c hc d hd hunit).trans ho
  have hentity : c.entity = d.entity := congrArg (·.1) hunit
  have hattr : c.attr = d.attr := congrArg (·.2.1) hunit
  have hparent : c.parent = d.parent := by
    rw [parent_of_overridable hc hco, parent_of_overridable hd ho, hentity, hattr]
  refine ⟨hco, overridden_of_takes hc hco ?_⟩
  rw [takes, answer_congr hunit hparent]
  exact ht

/-- One override on a mixed unit is refused on one conflict and kept for the other. -/
theorem unmixed_of_overridesSound (h : ∀ resolutions, OverridesSound parent (scan parent branch drift) resolutions) :
    Unmixed (scan parent branch drift) := by
  have hboth : ∀ c ∈ scan parent branch drift, ∀ d ∈ scan parent branch drift, c.unit = d.unit → c.overridable = true →
      d.overridable = true := by
    intro c hc d hd hunit ho
    let r : Resolution := ⟨c.entity, c.attr, c.scope, c.parent, .branch⟩
    have hc' : takes [r] c = some .branch := by
      have : r.answers c = true := answers_iff.mpr ⟨rfl, rfl⟩
      simp [takes, answer, this, r]
    refine (h [r] c.unit ?_ d hd hunit.symm).1
    refine ((resolveConflicts_spec _ _).2.1 _).mpr ⟨⟨c, hc, hc', ho, rfl⟩, fun hacc => ?_⟩
    obtain ⟨x, -, hx, -⟩ := ((resolveConflicts_spec _ _).1 _).mp hacc
    cases takes_singleton hx
  intro c hc d hd hunit
  rw [Bool.eq_iff_iff]
  exact ⟨hboth c hc d hd hunit, hboth d hd c hc hunit.symm⟩

theorem takes_of_settled {resolutions : List Resolution} {conflicts : List Conflict}
    (hopen : (resolveConflicts conflicts resolutions).outstanding = []) (hc : c ∈ conflicts) :
    takes resolutions c = some .parent ∨ takes resolutions c = some .branch ∧ c.overridable = true := by
  have hclosed : ¬ Open resolutions c := fun ho => by
    have := ((resolveConflicts_spec conflicts resolutions).2.2 c).mpr ⟨hc, ho⟩
    rw [hopen] at this
    cases this
  unfold Open at hclosed
  cases ht : takes resolutions c with
  | none => simp [ht] at hclosed
  | some t => cases t <;> simp_all

/-- An override means what it says, whatever is answered, exactly where no unit of the
    scan has conflicts of both kinds. Where nothing is outstanding it always does, and
    then each unit in conflict goes to one side: applied, the facts of the parent's
    units are gone, of the branch's only the retractions, and no other fact is touched. -/
theorem resolutions_are_sound (parent : Db) (branch drift : Novelty) :
    ((∀ resolutions, OverridesSound parent (scan parent branch drift) resolutions) ↔ Unmixed (scan parent branch drift)) ∧
    ∀ resolutions, let resolved := resolveConflicts (scan parent branch drift) resolutions
      resolved.outstanding = [] → resolved.rejected = [] →
      OverridesSound parent (scan parent branch drift) resolutions ∧
      (∀ c ∈ scan parent branch drift, Xor (c.unit ∈ resolved.accepted) (c.unit ∈ resolved.overridden)) ∧
      (∀ f, f ∈ (applyResolved branch resolved parent.schema).asserts ↔
        f ∈ branch.asserts ∧ unitOf parent.schema f ∉ resolved.accepted) ∧
      ∀ f, f ∈ (applyResolved branch resolved parent.schema).retracts ↔
        f ∈ branch.retracts ∧ unitOf parent.schema f ∉ resolved.accepted ∧ unitOf parent.schema f ∉ resolved.overridden := by
  refine ⟨⟨unmixed_of_overridesSound, overridesSound_of_unmixed⟩, ?_⟩
  intro resolutions resolved hopen _
  obtain ⟨haccepted, hoverridden, -⟩ := resolveConflicts_spec (scan parent branch drift) resolutions
  refine ⟨fun u hu c hc hcu => ?_, fun c hc => ?_, fun f => ?_, fun f => ?_⟩
  · rcases takes_of_settled hopen hc with ht | ⟨ht, ho⟩
    · exact absurd ((haccepted u).mpr ⟨c, hc, ht, hcu⟩) ((hoverridden u).mp hu).2
    · exact ⟨ho, overridden_of_takes hc ho ht⟩
  · by_cases hacc : c.unit ∈ resolved.accepted
    · exact .inl ⟨hacc, fun hover => ((hoverridden _).mp hover).2 hacc⟩
    · refine .inr ⟨(hoverridden _).mpr ⟨?_, hacc⟩, hacc⟩
      rcases takes_of_settled hopen hc with ht | ⟨ht, ho⟩
      · exact absurd ((haccepted _).mpr ⟨c, hc, ht, rfl⟩) hacc
      · exact ⟨c, hc, ht, ho, rfl⟩
  · simp [applyResolved, Std.ExtTreeSet.mem_filter]
  · simp [applyResolved, Std.ExtTreeSet.mem_filter, and_left_comm]

end Scan

/-! ## A refusal that does not last -/

namespace TakenAddressExample

open SwapExample (email alice bob)

def assertAt (t : Nat) (e : EntityId) (v : String) : Datom := assertion (Bootstrap.txId t) e email (.str v)

def retractAt (t : Nat) (e : EntityId) (v : String) : Datom := retraction (Bootstrap.txId t) e email (.str v)

/-- The branch changes Alice's address; the parent changed it too and `others` is what else it did. -/
def branch : Novelty := squash [retractAt 2 alice "a@x", assertAt 2 alice "c@x"]

def since (others : List Datom) : List Datom := [retractAt 2 alice "a@x", assertAt 2 alice "b@x"] ++ others

def parent (others : List Datom) : Db :=
  (SwapExample.db.withTransaction 1 [assertAt 1 alice "a@x"]).withTransaction 2 (since others)

/-- The owner insists on the branch's address. -/
def insists : Resolution := ⟨alice, email, .pair, some (.str "b@x"), .branch⟩

def conflicts (others : List Datom) : List Conflict := scan (parent others) branch (squash (since others))

/-- Bob has taken the address. The override is refused for that, and stands for the other conflict. -/
theorem an_override_survives_its_refusal :
    ∃ c ∈ conflicts [assertAt 2 bob "c@x"], c.overridable = false ∧
      c ∈ (resolveConflicts (conflicts [assertAt 2 bob "c@x"]) [insists]).outstanding ∧
      c.unit ∈ (resolveConflicts (conflicts [assertAt 2 bob "c@x"]) [insists]).overridden := by
  let c : Conflict := ⟨.uniqueness bob, alice, email, .pair, some (.str "c@x"), some (.str "b@x"), false⟩
  let d : Conflict := ⟨.writeWrite, alice, email, .pair, some (.str "c@x"), some (.str "b@x"), true⟩
  have hc : c ∈ conflicts [assertAt 2 bob "c@x"] := List.mem_mergeSort.mpr (by decide)
  have hd : d ∈ conflicts [assertAt 2 bob "c@x"] := List.mem_mergeSort.mpr (by decide)
  obtain ⟨haccepted, hoverridden, houtstanding⟩ := resolveConflicts_spec (conflicts [assertAt 2 bob "c@x"]) [insists]
  refine ⟨c, hc, rfl, (houtstanding c).mpr ⟨hc, by decide⟩, (hoverridden _).mpr ⟨⟨d, hd, by decide⟩, fun h => ?_⟩⟩
  obtain ⟨x, -, hx, -⟩ := (haccepted _).mp h
  cases takes_singleton hx

/-- With the address free, the override is all there is to settle: Alice's old address is no longer retracted. -/
theorem resolutions_are_sound_on_a_free_address :
    let resolved := resolveConflicts (conflicts []) [insists]
    resolved.outstanding = [] ∧ resolved.rejected = [] ∧ (alice, email, Scope.pair) ∈ resolved.overridden ∧
      OverridesSound (parent []) (conflicts []) [insists] ∧
      (alice, email, .str "a@x") ∉ (applyResolved branch resolved (parent []).schema).retracts := by
  have hopen : (resolveConflicts (conflicts []) [insists]).outstanding = [] := by decide +kernel
  have hrejected : (resolveConflicts (conflicts []) [insists]).rejected = [] := by decide +kernel
  have hover : (alice, email, Scope.pair) ∈ (resolveConflicts (conflicts []) [insists]).overridden := by decide +kernel
  obtain ⟨hsound, -, -, hretracts⟩ := (resolutions_are_sound (parent []) branch (squash (since []))).2 [insists] hopen hrejected
  refine ⟨hopen, hrejected, hover, hsound, fun h => ((hretracts _).mp h).2.2 ?_⟩
  rw [show unitOf (parent []).schema (alice, email, .str "a@x") = (alice, email, Scope.pair) by decide]
  exact hover

end TakenAddressExample

end Corium.Tx
