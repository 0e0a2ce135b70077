/-
  Corium.Tx.Translate — a branch's keywords in its parent's naming
  (`translate` of `crates/corium-tx/src/merge.rs`).

  A branch copies its parent's naming when it is opened, and from then on both mint ids
  on their own, so one id may name two keywords. A keyword value is therefore resolved
  in the branch's naming and interned into the parent's. The translation is a bijection
  by meaning, it touches no other value, and a translated id is one the parent had
  exactly if the parent had it for that keyword (`translation_keeps_meaning`).
-/

import Corium.Tx.Merge

namespace Corium.Tx

open Corium.Core Corium.Lib

/-- The naming has a name for the keyword of a fact. -/
def Named (branch : KeywordInterner) (f : Fact) : Prop := ∀ id, f.2.2 = .keyword id → ∃ k, branch.resolve id = some k

section Meaning

variable {branch names : KeywordInterner} {f f' g g' : Fact}
variable {id id' : KwId} {k : Keyword}

/-- No keyword has two ids. -/
theorem resolve_inj {i : KeywordInterner} (h : i.resolve id = some k) (h' : i.resolve id' = some k) : id = id' := by
  have hlt := (List.getElem?_eq_some_iff.mp h).1
  exact UInt64.toNat_inj.mp ((List.getElem?_inj hlt i.nodup).mp (h.trans h'.symm))

theorem fact_eq_of_keyword (h : f.2.2 = .keyword id) : f = (f.1, f.2.1, .keyword id) := by rw [← h]

/-- A translation is a keyword exactly if the fact is. -/
theorem Means.keyword_iff (h : Means branch names f g) : (∃ id, f.2.2 = .keyword id) ↔ ∃ id, g.2.2 = .keyword id := by
  constructor
  · rintro ⟨id, hid⟩
    obtain ⟨_, id', -, -, rfl⟩ := h.keyword id hid
    exact ⟨id', rfl⟩
  · rintro ⟨id, hid⟩
    by_contra hno
    obtain rfl := h.other fun id hid => hno ⟨id, hid⟩
    exact hno ⟨id, hid⟩

/-- Facts do not collapse: their keywords have different names, and names different ids. -/
theorem Means.injective (h : Means branch names f g) (h' : Means branch names f' g) : f = f' := by
  by_cases hf : ∃ id, f.2.2 = .keyword id
  · obtain ⟨id, hid⟩ := hf
    obtain ⟨id', hid'⟩ := h'.keyword_iff.mpr (h.keyword_iff.mp ⟨id, hid⟩)
    obtain ⟨k, j, hk, hj, rfl⟩ := h.keyword id hid
    obtain ⟨k', j', hk', hj', hg⟩ := h'.keyword id' hid'
    simp only [Prod.mk.injEq, Value.keyword.injEq] at hg
    obtain ⟨he, ha, rfl⟩ := hg
    cases hj.symm.trans hj'
    rw [fact_eq_of_keyword hid, fact_eq_of_keyword hid', resolve_inj hk hk', he, ha]
  · have hf' : ¬ ∃ id, f'.2.2 = .keyword id := fun hf' => hf (h.keyword_iff.mpr (h'.keyword_iff.mp hf'))
    rw [← h.other fun id hid => hf ⟨id, hid⟩, ← h'.other fun id hid => hf' ⟨id, hid⟩]

theorem Means.functional (h : Means branch names f g) (h' : Means branch names f g') : g = g' := by
  by_cases hf : ∃ id, f.2.2 = .keyword id
  · obtain ⟨id, hid⟩ := hf
    obtain ⟨k, j, hk, hj, rfl⟩ := h.keyword id hid
    obtain ⟨k', j', hk', hj', rfl⟩ := h'.keyword id hid
    cases hk.symm.trans hk'
    rw [resolve_inj hj hj']
  · rw [h.other fun id hid => hf ⟨id, hid⟩, h'.other fun id hid => hf ⟨id, hid⟩]

/-- A translated id is one the naming had for a keyword exactly if it is the branch's keyword. -/
theorem Means.id_iff {before : KeywordInterner} (hext : before.Extends names) {e : EntityId} {a : AttrId} {p : KwId}
    (h : Means branch names (e, a, .keyword id) (e, a, .keyword id')) (hp : before.resolve p = some k) :
    id' = p ↔ branch.resolve id = some k := by
  obtain ⟨k', j, hk', hj, hg⟩ := h.keyword id rfl
  obtain rfl : id' = j := by simpa using hg
  constructor
  · rintro rfl
    cases hj.symm.trans (hext.resolve hp)
    exact hk'
  · intro hk
    cases hk'.symm.trans hk
    exact resolve_inj hj (hext.resolve hp)

end Meaning

/-! ## Translating -/

section Translate

variable {branch names : KeywordInterner}

theorem intern_len (i : KeywordInterner) (k : Keyword) : (i.intern k).2.len ≤ i.len + 1 := by
  unfold KeywordInterner.intern KeywordInterner.len
  split <;> simp

theorem translateFact_ok {x : List Fact × KeywordInterner} {f : Fact} (h : Named branch f) :
    ∃ y, translateFact branch x f = .ok y ∧ y.2.len ≤ x.2.len + 1 := by
  unfold translateFact
  split
  · rename_i id hv
    obtain ⟨k, hk⟩ := h id hv
    rw [hk]
    exact ⟨_, rfl, intern_len x.2 k⟩
  · exact ⟨_, rfl, Nat.le_succ _⟩

theorem foldlM_translateFact_ok {facts : List Fact} (h : ∀ f ∈ facts, Named branch f) (x : List Fact × KeywordInterner) :
    ∃ y, facts.foldlM (translateFact branch) x = .ok y ∧ y.2.len ≤ x.2.len + facts.length := by
  induction facts generalizing x with
  | nil => exact ⟨x, rfl, Nat.le_refl _⟩
  | cons f facts ih =>
    obtain ⟨hf, hfacts⟩ := List.forall_mem_cons.mp h
    obtain ⟨z, hz, hzlen⟩ := translateFact_ok (x := x) hf
    obtain ⟨y, hy, hylen⟩ := ih hfacts z
    refine ⟨y, ?_, ?_⟩
    · rw [List.foldlM_cons, hz]
      exact hy
    · rw [List.length_cons]
      omega

theorem translateFacts_ok {facts : FactSet} (h : ∀ f ∈ facts, Named branch f) :
    ∃ facts' names', translateFacts branch names facts = .ok (facts', names') ∧ names'.len ≤ names.len + facts.size := by
  obtain ⟨y, hy, hlen⟩ := foldlM_translateFact_ok (fun f hf => h f (Std.ExtTreeSet.mem_toList.mp hf)) ([], names)
  refine ⟨Std.ExtTreeSet.ofList y.1 compare, y.2, ?_, by simpa using hlen⟩
  unfold translateFacts
  rw [hy]
  rfl

/-- A branch that names its keywords is translated, and the parent's naming only grows.
    What is asserted, and what is retracted, corresponds one to one with what the
    branch asserted and retracted, by meaning. A keyword keeps its id if the branch had
    it from the parent, and of the ids the parent had it gets the one for that keyword. -/
theorem translation_keeps_meaning {novelty : Novelty} (hnamed : ∀ f, f ∈ novelty.asserts ∨ f ∈ novelty.retracts → Named branch f)
    (hlen : names.len + novelty.asserts.size + novelty.retracts.size ≤ 2 ^ 64) :
    ∃ novelty' names', translate novelty branch names = .ok (novelty', names') ∧ names.Extends names' ∧
      novelty'.steps = novelty.steps ∧
      ((∀ f ∈ novelty.asserts, ∃ g ∈ novelty'.asserts, Means branch names' f g) ∧
        ∀ g ∈ novelty'.asserts, ∃ f ∈ novelty.asserts, Means branch names' f g) ∧
      ((∀ f ∈ novelty.retracts, ∃ g ∈ novelty'.retracts, Means branch names' f g) ∧
        ∀ g ∈ novelty'.retracts, ∃ f ∈ novelty.retracts, Means branch names' f g) ∧
      (∀ f f' g, Means branch names' f g → Means branch names' f' g → f = f') ∧
      (∀ f g g', Means branch names' f g → Means branch names' f g' → g = g') ∧
      ∀ e a id id', Means branch names' (e, a, .keyword id) (e, a, .keyword id') →
        (∀ p k, names.resolve p = some k → (id' = p ↔ branch.resolve id = some k)) ∧
        ∀ opened : KeywordInterner, opened.Extends branch → opened.Extends names → (opened.resolve id).isSome → id' = id := by
  obtain ⟨asserts, names1, hasserts, hlen1⟩ := @translateFacts_ok branch names _ fun f hf => hnamed f (.inl hf)
  obtain ⟨retracts, names2, hretracts, hlen2⟩ := @translateFacts_ok branch names1 _ fun f hf => hnamed f (.inr hf)
  have hext1 := translateFacts_extends hasserts
  have hext2 := translateFacts_extends hretracts
  obtain ⟨hinto, honto⟩ := translateFacts_means hasserts (by omega)
  refine ⟨{ novelty with asserts, retracts }, names2, ?_, hext1.trans hext2, rfl, ⟨fun f hf => ?_, fun g hg => ?_⟩,
    translateFacts_means hretracts (by omega), fun _ _ _ => Means.injective, fun _ _ _ => Means.functional, ?_⟩
  · unfold translate
    rw [hasserts]
    dsimp only [bind, Except.bind]
    rw [hretracts]
    rfl
  · exact (hinto f hf).imp fun _ hg => hg.imp_right (·.mono hext2)
  · exact (honto g hg).imp fun _ hf => hf.imp_right (·.mono hext2)
  · intro e a id id' hmeans
    refine ⟨fun p k hp => hmeans.id_iff (hext1.trans hext2) hp, fun opened hbranch hparent hopened => ?_⟩
    obtain ⟨k, hk⟩ := Option.isSome_iff_exists.mp hopened
    exact (hmeans.id_iff (hext1.trans hext2) (hparent.resolve hk)).mpr (hbranch.resolve hk)

end Translate

namespace MintedTwiceExample

def status (name : String) : Keyword := ⟨some "status", name⟩

/-- What the branch was opened with, and what each side minted since: the id 1. -/
def opened : KeywordInterner := (KeywordInterner.empty.intern (status "open")).2

def branch : KeywordInterner := (opened.intern (status "held")).2

def parent : KeywordInterner := (opened.intern (status "closed")).2

def fact (id : KwId) : Fact := (EntityId.new Partition.user.id 1000, Bootstrap.dbAttr 100, .keyword id)

def novelty : Novelty := { asserts := .ofList [fact 1] compare, retracts := .ofList [fact 0] compare, steps := 1 }

theorem named_novelty : ∀ f, f ∈ novelty.asserts ∨ f ∈ novelty.retracts → Named branch f := by
  intro f hf id hid
  have hfact : fact 1 = f ∨ fact 0 = f := by simpa [novelty] using hf
  rcases hfact with rfl | rfl <;> cases hid
  · exact ⟨status "held", by decide⟩
  · exact ⟨status "open", by decide⟩

theorem translation_keeps_meaning_of_an_id_minted_twice :
    branch.resolve 1 = some (status "held") ∧ parent.resolve 1 = some (status "closed") ∧
    ∃ novelty' names' id, translate novelty branch parent = .ok (novelty', names') ∧ fact id ∈ novelty'.asserts ∧ id ≠ 1 ∧
      names'.resolve id = some (status "held") ∧ names'.resolve 1 = some (status "closed") ∧ fact 0 ∈ novelty'.retracts := by
  have hheld : branch.resolve 1 = some (status "held") := by decide
  have hclosed : parent.resolve 1 = some (status "closed") := by decide
  obtain ⟨novelty', names', htranslate, hext, -, ⟨hasserts, -⟩, ⟨hretracts, -⟩, -, -, hids⟩ :=
    translation_keeps_meaning named_novelty (by decide : parent.len + _ + _ ≤ 2 ^ 64)
  obtain ⟨g, hg, hmeans⟩ := hasserts (fact 1) (by decide)
  obtain ⟨k, id, hk, hid, rfl⟩ := hmeans.keyword 1 rfl
  cases hheld.symm.trans hk
  obtain ⟨g', hg', hmeans'⟩ := hretracts (fact 0) (by decide)
  obtain ⟨k', id', hk', hid', rfl⟩ := hmeans'.keyword 0 rfl
  have hkept : id' = 0 := (hids _ _ 0 id' hmeans').2 opened (opened.intern_extends _) (opened.intern_extends _) (by decide)
  refine ⟨hheld, hclosed, novelty', names', id, htranslate, hg, fun heq => ?_, hid, hext.resolve hclosed, ?_⟩
  · exact absurd (((hids _ _ 1 id hmeans).1 1 _ hclosed).mp heq) (by decide)
  · subst hkept
    exact hg'

end MintedTwiceExample

end Corium.Tx
