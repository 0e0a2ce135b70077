/-
  Corium.Lib.Counter — a counter handed out along a list.

  Each element is stamped with the counter, which then advances. While the
  counter stays within `limit`, below which every advance moves it on by at least
  `gap`, the stamps are that far apart (`stamped_separated`) and lie between
  where the counter began and where it ends (`stamped_mem`).
-/

import Mathlib

namespace Corium.Lib

theorem foldl_max_le_iff {xs : List Nat} {n m : Nat} : xs.foldl max n ≤ m ↔ n ≤ m ∧ ∀ x ∈ xs, x ≤ m := by
  induction xs generalizing n with
  | nil => simp
  | cons x xs ih =>
    rw [List.foldl_cons, ih, List.forall_mem_cons, Nat.max_le, and_assoc]

section Counter

variable {α β : Type} (advance : Nat → Nat)

/-- The elements of `xs` with the counters they are given. -/
def stamped : List α → Nat → List (α × Nat)
  | [], _ => []
  | x :: xs, n => (x, n) :: stamped xs (advance n)

/-- A fold that emits for each element at the counter and advances it. -/
theorem foldl_stamped (emit : α → Nat → List β) (xs : List α) (acc : List β) (n : Nat) :
    xs.foldl (fun acc x => (acc.1 ++ emit x acc.2, advance acc.2)) (acc, n) =
      (acc ++ (stamped advance xs n).flatMap fun x => emit x.1 x.2, advance^[xs.length] n) := by
  induction xs generalizing acc n with
  | nil => simp [stamped]
  | cons x xs ih =>
    rw [List.foldl_cons, ih]
    simp [stamped]

variable {advance} {limit gap : Nat} (hadvance : ∀ n, advance n ≤ limit → n + gap ≤ advance n)

include hadvance

theorem le_iterate_of_le {k n : Nat} (h : advance^[k] n ≤ limit) : n ≤ advance^[k] n := by
  induction k generalizing n with
  | zero => exact Nat.le_refl n
  | succ k ih =>
    rw [Function.iterate_succ_apply] at h ⊢
    have hnext := ih h
    have := hadvance n (by omega)
    omega

theorem stamped_mem {xs : List α} {n : Nat} (h : advance^[xs.length] n ≤ limit) {x : α × Nat}
    (hx : x ∈ stamped advance xs n) : x.1 ∈ xs ∧ n ≤ x.2 ∧ x.2 + gap ≤ advance^[xs.length] n := by
  induction xs generalizing n with
  | nil => cases hx
  | cons y ys ih =>
    rw [List.length_cons, Function.iterate_succ_apply] at h ⊢
    have hle := le_iterate_of_le hadvance h
    have hstep := hadvance n (by omega)
    rcases List.mem_cons.mp hx with rfl | hx
    · exact ⟨List.mem_cons_self, Nat.le_refl n, Nat.le_trans hstep hle⟩
    · obtain ⟨hmem, hn, hend⟩ := ih h hx
      exact ⟨List.mem_cons_of_mem _ hmem, by omega, hend⟩

theorem stamped_separated {xs : List α} {n : Nat} (h : advance^[xs.length] n ≤ limit) :
    (stamped advance xs n).Pairwise fun x y => x.2 + gap ≤ y.2 := by
  induction xs generalizing n with
  | nil => exact List.Pairwise.nil
  | cons y ys ih =>
    rw [List.length_cons, Function.iterate_succ_apply] at h
    have hle := le_iterate_of_le hadvance h
    have hstep := hadvance n (by omega)
    exact List.pairwise_cons.mpr ⟨fun x hx => Nat.le_trans hstep (stamped_mem hadvance h hx).2.1, ih h⟩

end Counter

end Corium.Lib
