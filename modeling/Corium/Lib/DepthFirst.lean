/-
  Corium.Lib.DepthFirst — a recursive depth-first visit with a set of visited nodes.

  At a node, `visit` goes through the items in order: an item may lead to a child, which
  is visited first, and may emit something. With more fuel than there are nodes not yet
  visited it marks what can be reached and emits what the items of those nodes emit
  (`visit_spec`); so the fuel is no part of the result, whatever cycles there are.

  A node that is marked when it is met again is one whose visit is over or still going
  on further up, so a visit leaves all it newly marked `Done`, and only the visit itself
  is partly done in between (`Partly`).
-/

import Mathlib

namespace Corium.Lib.DepthFirst

open Std

variable {α ι φ : Type} [Ord α] [Std.TransOrd α] [Ord φ] [Std.TransOrd φ]

abbrev Acc (φ α : Type) [Ord φ] [Std.TransOrd φ] [Ord α] [Std.TransOrd α] := ExtTreeSet φ × ExtTreeSet α

section Visit

variable (items : List ι) (child : α → ι → Option α) (emits : α → ι → Option φ)

/-- One item at `a`, with `visits` for what it leads to. -/
def step (visits : α → Acc φ α → Acc φ α) (a : α) (acc : Acc φ α) (x : ι) : Acc φ α :=
  let acc := (child a x).elim acc fun b => visits b acc
  ((emits a x).elim acc.1 acc.1.insert, acc.2)

def visit : Nat → α → Acc φ α → Acc φ α
  | 0, _, acc => acc
  | fuel + 1, a, acc => if a ∈ acc.2 then acc else items.foldl (step child emits (visit fuel) a) (acc.1, acc.2.insert a)

/-- From `a` one gets to `b`. -/
abbrev Reach : α → α → Prop := Relation.ReflTransGen fun a b => ∃ x ∈ items, child a x = some b

/-- The items in `xs` have been gone through at `b`. -/
def Done (xs : List ι) (b : α) (acc : Acc φ α) : Prop :=
  ∀ x ∈ xs, (∀ c, child b x = some c → c ∈ acc.2) ∧ ∀ f, emits b x = some f → f ∈ acc.1

/-- `acc'` has what `acc` has, and beyond that only what visiting `a` may add. -/
structure Within (a : α) (acc acc' : Acc φ α) : Prop where
  seen : ∀ b ∈ acc.2, b ∈ acc'.2
  out : ∀ f ∈ acc.1, f ∈ acc'.1
  reach : ∀ b ∈ acc'.2, b ∈ acc.2 ∨ Reach items child a b
  emitted : ∀ f ∈ acc'.1, f ∈ acc.1 ∨ ∃ b, Reach items child a b ∧ ∃ x ∈ items, emits b x = some f

/-- A visit of `a`: what it marks is done with. -/
structure Visited (a : α) (acc acc' : Acc φ α) : Prop extends Within items child emits a acc acc' where
  marked : a ∈ acc'.2
  done : ∀ b ∈ acc'.2, b ∉ acc.2 → Done child emits items b acc'

/-- A visit of `a` after the items `xs`. -/
structure Partly (a : α) (acc : Acc φ α) (xs : List ι) (acc' : Acc φ α) : Prop extends Within items child emits a acc acc' where
  marked : a ∈ acc'.2
  others : ∀ b ∈ acc'.2, b ∉ acc.2 → b ≠ a → Done child emits items b acc'
  sofar : Done child emits xs a acc'

end Visit

section Facts

variable {items : List ι} {child : α → ι → Option α} {emits : α → ι → Option φ} {a b : α} {acc acc' acc'' : Acc φ α} {xs : List ι}

theorem Done.mono (h : Done child emits xs b acc) (hseen : ∀ b ∈ acc.2, b ∈ acc'.2) (hout : ∀ f ∈ acc.1, f ∈ acc'.1) :
    Done child emits xs b acc' := fun x hx =>
  ⟨fun c hc => hseen c ((h x hx).1 c hc), fun f hf => hout f ((h x hx).2 f hf)⟩

theorem Within.trans (hab : Reach items child a b) (h : Within items child emits a acc acc')
    (h' : Within items child emits b acc' acc'') : Within items child emits a acc acc'' := by
  refine ⟨fun c hc => h'.seen c (h.seen c hc), fun f hf => h'.out f (h.out f hf), fun c hc => ?_, fun f hf => ?_⟩
  · rcases h'.reach c hc with hc | hc
    · exact h.reach c hc
    · exact .inr (hab.trans hc)
  · rcases h'.emitted f hf with hf | ⟨c, hc, hx⟩
    · exact h.emitted f hf
    · exact .inr ⟨c, hab.trans hc, hx⟩

variable {x : ι} {nodes : Finset α} {fuel : Nat}

/-- An item that leads to a child: the child is visited. -/
theorem Partly.visits (h : Partly items child emits a acc xs acc') (hx : x ∈ items) (hb : child a x = some b)
    (hv : Visited items child emits b acc' acc'') : Partly items child emits a acc xs acc'' := by
  have hab : Reach items child a b := .single ⟨x, hx, hb⟩
  refine ⟨h.toWithin.trans hab hv.toWithin, hv.seen a h.marked, fun c hc hnew hca => ?_, h.sofar.mono hv.seen hv.out⟩
  by_cases hc' : c ∈ acc'.2
  · exact (h.others c hc' hnew hca).mono hv.seen hv.out
  · exact hv.done c hc hc'

variable [Std.LawfulEqOrd φ]

theorem Partly.emit {f : φ} (h : Partly items child emits a acc xs acc') (hx : x ∈ items) (hf : emits a x = some f) :
    Partly items child emits a acc xs (acc'.1.insert f, acc'.2) := by
  have hout : ∀ g ∈ acc'.1, g ∈ acc'.1.insert f := fun g hg => ExtTreeSet.mem_insert.mpr (.inr hg)
  refine ⟨⟨h.seen, fun g hg => hout g (h.out g hg), h.reach, fun g hg => ?_⟩, h.marked,
    fun c hc hnew hca => (h.others c hc hnew hca).mono (fun _ => id) hout, h.sofar.mono (fun _ => id) hout⟩
  rcases ExtTreeSet.mem_insert.mp hg with hg | hg
  · rw [← Std.LawfulEqOrd.eq_of_compare hg]
    exact .inr ⟨a, .refl, x, hx, hf⟩
  · exact h.emitted g hg

/-- One more item. -/
theorem Partly.step {x : ι} (h : Partly items child emits a acc xs acc') (hx : x ∈ items) {visits : α → Acc φ α → Acc φ α}
    (hvisits : ∀ b, child a x = some b → Visited items child emits b acc' (visits b acc')) :
    Partly items child emits a acc (xs ++ [x]) (DepthFirst.step child emits visits a acc' x) := by
  let acc1 := (child a x).elim acc' fun b => visits b acc'
  have hchild : Partly items child emits a acc xs acc1 ∧ ∀ b, child a x = some b → b ∈ acc1.2 := by
    cases hb : child a x with
    | none =>
      have : acc1 = acc' := by simp [acc1, hb]
      exact ⟨this ▸ h, nofun⟩
    | some b =>
      have : acc1 = visits b acc' := by simp [acc1, hb]
      rw [this]
      refine ⟨h.visits hx hb (hvisits b hb), fun c hc => ?_⟩
      cases hc
      exact (hvisits b hb).marked
  have hemit : Partly items child emits a acc xs ((emits a x).elim acc1.1 acc1.1.insert, acc1.2) ∧
      ∀ f, emits a x = some f → f ∈ (emits a x).elim acc1.1 acc1.1.insert := by
    cases hf : emits a x with
    | none => exact ⟨hchild.1, nofun⟩
    | some f =>
      refine ⟨hchild.1.emit hx hf, fun g hg => ?_⟩
      cases hg
      exact ExtTreeSet.mem_insert_self
  refine { hemit.1 with sofar := fun y hy => ?_ }
  rcases List.mem_append.mp hy with hy | hy
  · exact hemit.1.sofar y hy
  · rw [List.mem_singleton.mp hy]
    exact ⟨hchild.2, hemit.2⟩

/-- With more fuel than there are nodes not yet marked, a visit is one. -/
theorem visit_visited [Std.LawfulEqOrd α] (hnodes : ∀ a, ∀ x ∈ items, ∀ b, child a x = some b → b ∈ nodes)
    (ha : a ∈ nodes) (hfuel : (nodes.filter (· ∉ acc.2)).card < fuel) :
    Visited items child emits a acc (visit items child emits fuel a acc) := by
  induction fuel generalizing a acc with
  | zero => omega
  | succ fuel ih =>
    unfold visit
    split
    · rename_i hseen
      exact ⟨⟨fun _ => id, fun _ => id, fun _ => .inl, fun _ => .inl⟩, hseen, fun b hb hnew => absurd hb hnew⟩
    rename_i hnew
    -- what is still to be marked, once `a` is
    have hless : ∀ acc' : Acc φ α, Within items child emits a acc acc' → a ∈ acc'.2 → (nodes.filter (· ∉ acc'.2)).card < fuel := by
      intro acc' hwithin hmarked
      refine Nat.lt_of_lt_of_le (Finset.card_lt_card ?_) (Nat.lt_succ_iff.mp hfuel)
      refine Finset.ssubset_iff_of_subset (fun b hb => ?_) |>.mpr ⟨a, by simp [ha, hnew], by simp [hmarked]⟩
      obtain ⟨hb, hnot⟩ := Finset.mem_filter.mp hb
      exact Finset.mem_filter.mpr ⟨hb, fun hin => hnot (hwithin.seen b hin)⟩
    have hfold : ∀ ys xs acc', items = xs ++ ys → Partly items child emits a acc xs acc' →
        Partly items child emits a acc items (ys.foldl (step child emits (visit items child emits fuel) a) acc') := by
      intro ys
      induction ys with
      | nil =>
        intro xs acc' hsplit h
        rw [List.append_nil] at hsplit
        subst hsplit
        exact h
      | cons x ys ihys =>
        intro xs acc' hsplit h
        have hx : x ∈ items := by
          rw [hsplit]
          exact List.mem_append_right _ List.mem_cons_self
        refine ihys (xs ++ [x]) _ (by rw [hsplit]; simp) (h.step hx fun b hb => ?_)
        exact ih (hnodes a x hx b hb) (hless acc' h.toWithin h.marked)
    have hstart : Partly items child emits a acc [] (acc.1, acc.2.insert a) := by
      refine ⟨⟨fun b hb => ExtTreeSet.mem_insert.mpr (.inr hb), fun _ => id, fun b hb => ?_, fun _ => .inl⟩,
        ExtTreeSet.mem_insert_self, fun b hb hnew hba => ?_, List.forall_mem_nil _⟩
      · rcases ExtTreeSet.mem_insert.mp hb with hb | hb
        · rw [← Std.LawfulEqOrd.eq_of_compare hb]
          exact .inr .refl
        · exact .inl hb
      · rcases ExtTreeSet.mem_insert.mp hb with hb | hb
        · exact absurd (Std.LawfulEqOrd.eq_of_compare hb).symm hba
        · exact absurd hb hnew
    have hend := hfold items [] _ rfl hstart
    refine ⟨hend.toWithin, hend.marked, fun b hb hnewb => ?_⟩
    by_cases hba : b = a
    · exact hba ▸ hend.sofar
    · exact hend.others b hb hnewb hba

variable (emits) in
/-- A visit from nothing marks what can be reached and emits what its items emit. -/
theorem visit_spec [Std.LawfulEqOrd α] (hnodes : ∀ a, ∀ x ∈ items, ∀ b, child a x = some b → b ∈ nodes)
    (ha : a ∈ nodes) (hfuel : nodes.card < fuel) :
    (∀ b, b ∈ (visit items child emits fuel a (∅, ∅)).2 ↔ Reach items child a b) ∧
      ∀ f, f ∈ (visit items child emits fuel a (∅, ∅)).1 ↔ ∃ b, Reach items child a b ∧ ∃ x ∈ items, emits b x = some f := by
  have h : Visited items child emits a (∅, ∅) (visit items child emits fuel a (∅, ∅)) :=
    visit_visited hnodes ha (Nat.lt_of_le_of_lt (Finset.card_filter_le _ _) hfuel)
  have hdone : ∀ b ∈ (visit items child emits fuel a (∅, ∅)).2, Done child emits items b (visit items child emits fuel a (∅, ∅)) :=
    fun b hb => h.done b hb ExtTreeSet.not_mem_empty
  have hreach : ∀ b, Reach items child a b → b ∈ (visit items child emits fuel a (∅, ∅)).2 := by
    intro b hb
    induction hb with
    | refl => exact h.marked
    | tail _ hstep ih =>
      obtain ⟨x, hx, hchild⟩ := hstep
      exact (hdone _ ih x hx).1 _ hchild
  refine ⟨fun b => ⟨fun hb => (h.reach b hb).resolve_left ExtTreeSet.not_mem_empty, hreach b⟩, fun f => ⟨fun hf => ?_, ?_⟩⟩
  · exact (h.emitted f hf).resolve_left ExtTreeSet.not_mem_empty
  · rintro ⟨b, hb, x, hx, hf⟩
    exact (hdone b (hreach b hb) x hx).2 f hf

end Facts

end Corium.Lib.DepthFirst
