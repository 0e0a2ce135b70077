/-
  Corium.Lib.SortedMerge — merging a sorted list of changes into a sorted list.

  Elements are placed by `loc`; a change names a place and the element to put
  there, or none to remove what is there. `mem_mergeChanges` says what the merged
  list holds, `mergeChanges_sorted` that it is sorted again, and
  `eq_of_sorted_of_mem` that sorted lists with the same elements are equal.
-/

import Corium.Lib.OrdCode

namespace Corium.Lib

open List

section Merge

variable {α κ : Type} [Ord κ] (loc : α → κ)

/-- Strictly ascending places. -/
def SortedBy (xs : List α) : Prop := xs.Pairwise fun x y => compare (loc x) (loc y) = .lt

def before (k : κ) (change : κ × Option α) : Bool := compare change.1 k == .lt

def mergeChanges [DecidableEq κ] : List α → List (κ × Option α) → List α
  | [], changes => changes.filterMap (·.2)
  | x :: xs, changes =>
    (changes.takeWhile (before (loc x))).filterMap (·.2) ++
      match changes.dropWhile (before (loc x)) with
      | [] => x :: mergeChanges xs []
      | (k, c) :: rest => if k = loc x then c.toList ++ mergeChanges xs rest else x :: mergeChanges xs ((k, c) :: rest)

/-- Changes in ascending order of place, each putting its element there. -/
structure Placed (changes : List (κ × Option α)) : Prop where
  sorted : changes.Pairwise fun p q => compare p.1 q.1 = .lt
  loc : ∀ p ∈ changes, ∀ x, p.2 = some x → loc x = p.1

variable {loc}

theorem Placed.of_suffix {changes rest : List (κ × Option α)} (h : Placed loc changes) (hs : rest <:+ changes) :
    Placed loc rest :=
  ⟨h.sorted.sublist hs.sublist, fun p hp => h.loc p (hs.subset hp)⟩

variable [DecidableEq κ]

/-- The changes before the first element's place come first, whatever follows. -/
theorem mergeChanges_cons (x : α) (xs : List α) (changes : List (κ × Option α)) :
    mergeChanges loc (x :: xs) changes = (changes.takeWhile (before (loc x))).filterMap (·.2) ++
      mergeChanges loc (x :: xs) (changes.dropWhile (before (loc x))) := by
  have htake : (changes.dropWhile (before (loc x))).takeWhile (before (loc x)) = [] := by
    cases hd : changes.dropWhile (before (loc x)) with
    | nil => rfl
    | cons p rest =>
      have := List.head?_dropWhile_not (before (loc x)) changes
      rw [hd] at this
      simp only [List.head?_cons] at this
      rw [takeWhile_cons, if_neg (by simp [this])]
  have hdrop : (changes.dropWhile (before (loc x))).dropWhile (before (loc x)) =
      changes.dropWhile (before (loc x)) := by
    have := takeWhile_append_dropWhile (p := before (loc x)) (l := changes.dropWhile (before (loc x)))
    rwa [htake, nil_append] at this
  conv_rhs => rw [mergeChanges]
  rw [htake, hdrop, mergeChanges]
  simp

variable {changes : List (κ × Option α)}
variable {xs ys : List α} {p : κ × Option α} {k : κ} {y : α}

/-- Elements before every change are kept as they are. -/
theorem mergeChanges_append [Std.TransOrd κ] [Std.LawfulEqOrd κ]
    (h : ∀ x ∈ xs, ∀ p ∈ changes.head?, compare (loc x) p.1 = .lt) :
    mergeChanges loc (xs ++ ys) changes = xs ++ mergeChanges loc ys changes := by
  induction xs with
  | nil => rfl
  | cons x xs ih =>
    have ih := ih fun y hy => h y (mem_cons_of_mem _ hy)
    rw [cons_append, mergeChanges]
    cases changes with
    | nil => simp [ih]
    | cons p rest =>
      have hlt : compare (loc x) p.1 = .lt := h x mem_cons_self p (by simp)
      have hb : before (loc x) p = false := by
        unfold before
        rw [Std.OrientedCmp.gt_of_lt hlt]
        rfl
      have hne : p.1 ≠ loc x := fun heq => by
        rw [heq, compare_same] at hlt
        cases hlt
      rw [takeWhile_cons, dropWhile_cons, hb]
      simp [hne, ih]

variable [Std.TransOrd κ] [Std.LawfulEqOrd κ]

omit [DecidableEq κ] [Std.LawfulEqOrd κ] in
/-- Sorted changes split at a place: those before it, and those not. -/
theorem mem_dropWhile_before (hs : changes.Pairwise fun p q => compare p.1 q.1 = .lt)
    : p ∈ changes.dropWhile (before k) ↔ p ∈ changes ∧ compare p.1 k ≠ .lt := by
  induction changes with
  | nil => simp
  | cons q changes ih =>
    obtain ⟨hq, hs⟩ := pairwise_cons.mp hs
    rw [dropWhile_cons]
    cases hb : before k q with
    | true =>
      have hlt : compare q.1 k = .lt := by simpa [before] using hb
      rw [if_pos rfl, ih hs, mem_cons]
      constructor
      · intro ⟨hp, hn⟩
        exact ⟨Or.inr hp, hn⟩
      · intro ⟨hp, hn⟩
        rcases hp with rfl | hp
        · exact absurd hlt hn
        · exact ⟨hp, hn⟩
    | false =>
      have hge : compare q.1 k ≠ .lt := by simpa [before] using hb
      rw [if_neg (by simp)]
      refine ⟨fun hp => ⟨hp, ?_⟩, And.left⟩
      rcases mem_cons.mp hp with rfl | hp
      · exact hge
      · intro hlt
        exact hge (Std.TransCmp.lt_trans (hq p hp) hlt)

omit [DecidableEq κ] [Std.LawfulEqOrd κ] in
theorem mem_takeWhile_before (hs : changes.Pairwise fun p q => compare p.1 q.1 = .lt)
    : p ∈ changes.takeWhile (before k) ↔ p ∈ changes ∧ compare p.1 k = .lt := by
  have hsplit : p ∈ changes ↔ p ∈ changes.takeWhile (before k) ∨ p ∈ changes.dropWhile (before k) := by
    rw [← mem_append, takeWhile_append_dropWhile]
  constructor
  · intro hp
    refine ⟨hsplit.mpr (Or.inl hp), ?_⟩
    have := mem_takeWhile_imp hp
    simpa [before] using this
  · intro ⟨hp, hlt⟩
    rcases hsplit.mp hp with hp | hp
    · exact hp
    · exact absurd hlt ((mem_dropWhile_before hs).mp hp).2

omit [DecidableEq κ] [Std.TransOrd κ] in
theorem ne_of_lt_loc {k' : κ} (h : compare k k' = .lt) : k ≠ k' := by
  intro heq
  rw [heq, compare_same] at h
  cases h

/-- The merged list holds what the changes put there, and what they do not touch. -/
theorem mem_mergeChanges (hx : SortedBy loc xs) (hc : changes.Pairwise fun p q => compare p.1 q.1 = .lt) :
    y ∈ mergeChanges loc xs changes ↔
      (∃ k, (k, some y) ∈ changes) ∨ (y ∈ xs ∧ ∀ p ∈ changes, p.1 ≠ loc y) := by
  induction xs generalizing changes with
  | nil => simp [mergeChanges]
  | cons x xs ih =>
    obtain ⟨hxs, hx⟩ := pairwise_cons.mp hx
    have hdrop := fun p => mem_dropWhile_before (p := p) hc (k := loc x)
    have htake := fun p => mem_takeWhile_before (p := p) hc (k := loc x)
    have hdsorted := hc.sublist (dropWhile_sublist (before (loc x)))
    -- an element after `x` is after every change before `x`
    have hbefore : ∀ p ∈ changes, compare p.1 (loc x) = .lt → ∀ z ∈ xs, p.1 ≠ loc z := fun p _ hp z hz =>
      ne_of_lt_loc (Std.TransCmp.lt_trans hp (hxs z hz))
    have hput : (∃ k, (k, some y) ∈ changes) ↔ y ∈ (changes.takeWhile (before (loc x))).filterMap (·.2) ∨
        ∃ k, (k, some y) ∈ changes.dropWhile (before (loc x)) := by
      rw [mem_filterMap]
      constructor
      · intro ⟨k, hk⟩
        by_cases hlt : compare k (loc x) = .lt
        · exact Or.inl ⟨(k, some y), (htake _).mpr ⟨hk, hlt⟩, rfl⟩
        · exact Or.inr ⟨k, (hdrop _).mpr ⟨hk, hlt⟩⟩
      · intro h
        rcases h with ⟨⟨k, c⟩, hp, hcy⟩ | ⟨k, hk⟩
        · cases hcy
          exact ⟨k, ((htake _).mp hp).1⟩
        · exact ⟨k, ((hdrop _).mp hk).1⟩
    have hkeep : ∀ z ∈ xs, (∀ p ∈ changes, p.1 ≠ loc z) ↔ ∀ p ∈ changes.dropWhile (before (loc x)), p.1 ≠ loc z := by
      intro z hz
      refine ⟨fun h p hp => h p ((hdrop p).mp hp).1, fun h p hp => ?_⟩
      by_cases hlt : compare p.1 (loc x) = .lt
      · exact hbefore p hp hlt z hz
      · exact h p ((hdrop p).mpr ⟨hp, hlt⟩)
    have hself : (∀ p ∈ changes, p.1 ≠ loc x) ↔ ∀ p ∈ changes.dropWhile (before (loc x)), p.1 ≠ loc x := by
      refine ⟨fun h p hp => h p ((hdrop p).mp hp).1, fun h p hp => ?_⟩
      by_cases hlt : compare p.1 (loc x) = .lt
      · exact ne_of_lt_loc hlt
      · exact h p ((hdrop p).mpr ⟨hp, hlt⟩)
    rw [mergeChanges, mem_append, hput, mem_cons, or_assoc]
    apply or_congr_right
    have hmem : ((y = x ∨ y ∈ xs) ∧ ∀ p ∈ changes, p.1 ≠ loc y) ↔
        (y = x ∧ ∀ p ∈ changes.dropWhile (before (loc x)), p.1 ≠ loc x) ∨
          (y ∈ xs ∧ ∀ p ∈ changes.dropWhile (before (loc x)), p.1 ≠ loc y) := by
      constructor
      · intro ⟨hy, hp⟩
        rcases hy with rfl | hy
        · exact Or.inl ⟨rfl, hself.mp hp⟩
        · exact Or.inr ⟨hy, (hkeep y hy).mp hp⟩
      · intro h
        rcases h with ⟨rfl, hp⟩ | ⟨hy, hp⟩
        · exact ⟨Or.inl rfl, hself.mpr hp⟩
        · exact ⟨Or.inr hy, (hkeep y hy).mpr hp⟩
    rw [hmem]
    clear hmem hput hkeep hself hbefore
    cases hd : changes.dropWhile (before (loc x)) with
    | nil =>
      have hrest := ih hx List.Pairwise.nil
      simp only [not_mem_nil, exists_false, false_or, false_implies, implies_true, and_true] at hrest ⊢
      rw [mem_cons, hrest]
    | cons q rest =>
      obtain ⟨k, c⟩ := q
      rw [hd] at hdsorted
      obtain ⟨hq, hrest⟩ := pairwise_cons.mp hdsorted
      have hkx : compare k (loc x) ≠ .lt := ((hdrop (k, c)).mp (by rw [hd]; exact mem_cons_self)).2
      by_cases heq : k = loc x
      · -- the change at `x` replaces it
        subst heq
        simp only [if_true]
        have hne : ∀ z ∈ xs, loc x ≠ loc z := fun z hz => ne_of_lt_loc (hxs z hz)
        rw [mem_append, ih hx hrest, Option.mem_toList]
        constructor
        · intro h
          rcases h with hy | ⟨k', hk'⟩ | ⟨hy, hp⟩
          · exact Or.inl ⟨loc x, by rw [hy]; exact mem_cons_self⟩
          · exact Or.inl ⟨k', mem_cons_of_mem _ hk'⟩
          · refine Or.inr (Or.inr ⟨hy, fun p hp' => ?_⟩)
            rcases mem_cons.mp hp' with rfl | hp'
            · exact hne y hy
            · exact hp p hp'
        · intro h
          rcases h with ⟨k', hk'⟩ | ⟨rfl, hp⟩ | ⟨hy, hp⟩
          · rcases mem_cons.mp hk' with heq | hk'
            · cases heq
              exact Or.inl rfl
            · exact Or.inr (Or.inl ⟨k', hk'⟩)
          · exact absurd rfl (hp (loc y, c) mem_cons_self)
          · exact Or.inr (Or.inr ⟨hy, fun p hp' => hp p (mem_cons_of_mem _ hp')⟩)
      · -- every change left is after `x`
        simp only [heq, if_false]
        have hafter : ∀ p ∈ (k, c) :: rest, p.1 ≠ loc x := by
          intro p hp hpx
          rcases mem_cons.mp hp with rfl | hp
          · exact heq hpx
          · exact hkx (by rw [← hpx]; exact hq p hp)
        rw [mem_cons, ih hx hdsorted]
        constructor
        · intro h
          rcases h with rfl | h | h
          · exact Or.inr (Or.inl ⟨rfl, hafter⟩)
          · exact Or.inl h
          · exact Or.inr (Or.inr h)
        · intro h
          rcases h with h | ⟨rfl, -⟩ | h
          · exact Or.inr (Or.inl h)
          · exact Or.inl rfl
          · exact Or.inr (Or.inr h)

/-- A place before every element and every change is before everything merged. -/
theorem lt_of_mem_mergeChanges (hx : SortedBy loc xs)
    (hc : Placed loc changes) (hkx : ∀ x ∈ xs, compare k (loc x) = .lt)
    (hkc : ∀ p ∈ changes, compare k p.1 = .lt) (hy : y ∈ mergeChanges loc xs changes) : compare k (loc y) = .lt := by
  rcases (mem_mergeChanges hx hc.sorted).mp hy with ⟨k', hk'⟩ | ⟨hy, -⟩
  · rw [hc.loc _ hk' y rfl]
    exact hkc _ hk'
  · exact hkx y hy

omit [DecidableEq κ] [Std.TransOrd κ] [Std.LawfulEqOrd κ] in
theorem sorted_filterMap (hc : Placed loc changes) :
    SortedBy loc (changes.filterMap (·.2)) := by
  unfold SortedBy
  rw [pairwise_filterMap]
  refine hc.sorted.imp_of_mem fun {p q} hp hq h x hx y hy => ?_
  rw [hc.loc p hp x hx, hc.loc q hq y hy]
  exact h

theorem mergeChanges_sorted (hx : SortedBy loc xs)
    (hc : Placed loc changes) : SortedBy loc (mergeChanges loc xs changes) := by
  induction xs generalizing changes with
  | nil => exact sorted_filterMap hc
  | cons x xs ih =>
    obtain ⟨hxs, hx⟩ := pairwise_cons.mp hx
    have hdrop := fun p => mem_dropWhile_before (p := p) hc.sorted (k := loc x)
    have hdplaced : Placed loc (changes.dropWhile (before (loc x))) := hc.of_suffix (dropWhile_suffix _)
    have htplaced : Placed loc (changes.takeWhile (before (loc x))) :=
      ⟨hc.sorted.sublist (takeWhile_sublist _), fun p hp => hc.loc p ((takeWhile_subset _) hp)⟩
    have htake : ∀ y ∈ (changes.takeWhile (before (loc x))).filterMap (·.2), compare (loc y) (loc x) = .lt := by
      intro y hy
      obtain ⟨p, hp, hpy⟩ := mem_filterMap.mp hy
      rw [hc.loc p ((takeWhile_subset _) hp) y hpy]
      exact ((mem_takeWhile_before hc.sorted).mp hp).2
    -- what follows the changes before `x` starts at `x` and stays after it
    suffices hrest : ∀ rest, (match changes.dropWhile (before (loc x)) with
        | [] => x :: mergeChanges loc xs []
        | (k, c) :: rest => if k = loc x then c.toList ++ mergeChanges loc xs rest
          else x :: mergeChanges loc xs ((k, c) :: rest)) = rest →
        SortedBy loc rest ∧ ∀ y ∈ rest, loc y = loc x ∨ compare (loc x) (loc y) = .lt by
      rw [mergeChanges]
      obtain ⟨hsorted, hge⟩ := hrest _ rfl
      refine pairwise_append.mpr ⟨sorted_filterMap htplaced, hsorted, fun a ha b hb => ?_⟩
      rcases hge b hb with heq | hlt
      · rw [heq]
        exact htake a ha
      · exact Std.TransCmp.lt_trans (htake a ha) hlt
    rintro rest rfl
    have hcons : ∀ changes', Placed loc changes' → (∀ p ∈ changes', compare (loc x) p.1 = .lt) →
        SortedBy loc (x :: mergeChanges loc xs changes') ∧
          ∀ y ∈ x :: mergeChanges loc xs changes', loc y = loc x ∨ compare (loc x) (loc y) = .lt := by
      intro changes' hc' hlt
      have hafter := fun y (hy : y ∈ mergeChanges loc xs changes') => lt_of_mem_mergeChanges hx hc' hxs hlt hy
      refine ⟨pairwise_cons.mpr ⟨hafter, ih hx hc'⟩, fun y hy => ?_⟩
      rcases mem_cons.mp hy with rfl | hy
      · exact Or.inl rfl
      · exact Or.inr (hafter y hy)
    cases hd : changes.dropWhile (before (loc x)) with
    | nil => exact hcons [] ⟨List.Pairwise.nil, by simp⟩ (by simp)
    | cons q rest =>
      obtain ⟨k, c⟩ := q
      rw [hd] at hdplaced
      obtain ⟨hq, -⟩ := pairwise_cons.mp hdplaced.sorted
      have hkx : compare k (loc x) ≠ .lt := ((hdrop (k, c)).mp (by rw [hd]; exact mem_cons_self)).2
      have hrplaced : Placed loc rest := hdplaced.of_suffix (suffix_cons _ _)
      by_cases heq : k = loc x
      · simp only [heq, if_true]
        rw [heq] at hq
        have hafter := fun y (hy : y ∈ mergeChanges loc xs rest) => lt_of_mem_mergeChanges hx hrplaced hxs hq hy
        have hput : ∀ y ∈ c.toList, loc y = loc x := by
          intro y hy
          rw [← heq]
          exact hdplaced.loc (k, c) mem_cons_self y (by simpa using hy)
        refine ⟨pairwise_append.mpr ⟨by cases c <;> simp, ih hx hrplaced, fun a ha b hb => ?_⟩, fun y hy => ?_⟩
        · rw [hput a ha]
          exact hafter b hb
        · rcases mem_append.mp hy with hy | hy
          · exact Or.inl (hput y hy)
          · exact Or.inr (hafter y hy)
      · simp only [heq, if_false]
        have hlt : compare (loc x) k = .lt := by
          cases hcmp : compare k (loc x) with
          | lt => exact absurd hcmp hkx
          | eq => exact absurd (eq_of_compare_eq hcmp) heq
          | gt => exact Std.OrientedCmp.lt_of_gt hcmp
        refine hcons _ hdplaced fun p hp => ?_
        rcases mem_cons.mp hp with rfl | hp
        · exact hlt
        · exact Std.TransCmp.lt_trans hlt (hq p hp)

omit [DecidableEq κ] in
/-- A sorted list is told by its elements. -/
theorem eq_of_sorted_of_mem (hx : SortedBy loc xs) (hy : SortedBy loc ys) (h : ∀ a, a ∈ xs ↔ a ∈ ys) : xs = ys := by
  have hnodup : ∀ {zs : List α}, SortedBy loc zs → zs.Nodup := fun hz =>
    hz.imp fun {a b} hab heq => by
      rw [heq, compare_same] at hab
      cases hab
  refine List.Perm.eq_of_pairwise ?_ hx hy ((perm_ext_iff_of_nodup (hnodup hx) (hnodup hy)).mpr h)
  intro a b _ _ hab hba
  rw [Std.OrientedCmp.gt_of_lt hab] at hba
  cases hba

end Merge

end Corium.Lib
