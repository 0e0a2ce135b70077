/-
  Corium.Lib.Insertion — maps built by inserting the items of a list: the last
  item of a key decides, and a map's own entries build it again.
-/

import Corium.Lib.OrdCode

namespace Corium.Lib

open Std

variable {ι κ ν : Type} [Ord κ] [Std.TransOrd κ] [Std.LawfulEqOrd κ] [DecidableEq κ]
variable {m : ExtTreeMap κ ν} {a k : κ} {v w : ν} {l : List ι}

omit [DecidableEq κ] in
theorem getElem?_insert_eq_some : (m.insert k v)[a]? = some w ↔ k = a ∧ v = w ∨ k ≠ a ∧ m[a]? = some w := by
  rw [ExtTreeMap.getElem?_insert]
  by_cases hk : k = a
  · simp [hk]
  · rw [if_neg fun h => hk (eq_of_compare_eq h)]
    simp [hk]

omit [DecidableEq κ] in
theorem getElem?_erase_eq_some : (m.erase k)[a]? = some w ↔ k ≠ a ∧ m[a]? = some w := by
  rw [ExtTreeMap.getElem?_erase]
  by_cases hk : k = a
  · simp [hk]
  · rw [if_neg fun h => hk (eq_of_compare_eq h)]
    simp [hk]

theorem getElem?_foldl_insert (key : ι → κ) (val : ι → ν) (l : List ι) (m : ExtTreeMap κ ν) (k : κ) :
    (l.foldl (fun m x => m.insert (key x) (val x)) m)[k]? =
      ((l.filter fun x => key x = k).getLast?.map val).or m[k]? := by
  induction l using List.reverseRecOn with
  | nil => rfl
  | append_singleton l x ih =>
    rw [List.foldl_append, List.foldl_cons, List.foldl_nil, ExtTreeMap.getElem?_insert, List.filter_append]
    by_cases hk : key x = k
    · rw [if_pos (by rw [hk, compare_same])]
      simp [hk]
    · rw [if_neg fun h => hk (eq_of_compare_eq h), ih]
      simp [hk]

/-- Inserting only where nothing is yet: the first event on a key decides. -/
theorem getElem?_foldl_insertIfNew (key : ι → κ) (val : ι → ν) (l : List ι) (m : ExtTreeMap κ ν) (k : κ) :
    (l.foldl (fun m x => m.insertIfNew (key x) (val x)) m)[k]? =
      m[k]?.or ((l.find? fun x => key x = k).map val) := by
  induction l generalizing m with
  | nil => simp
  | cons x l ih =>
    rw [List.foldl_cons, ih, ExtTreeMap.getElem?_insertIfNew, List.find?_cons]
    by_cases hk : key x = k
    · subst hk
      by_cases hm : key x ∈ m <;> simp [hm]
    · simp [hk]

/-- What a map holds that was built from nothing came from an item. -/
theorem exists_of_getElem?_foldl_insert {key : ι → κ} {val : ι → ν}
    (h : (l.foldl (fun m x => m.insert (key x) (val x)) (∅ : ExtTreeMap κ ν))[k]? = some v) :
    ∃ x ∈ l, key x = k ∧ val x = v := by
  rw [getElem?_foldl_insert, ExtTreeMap.getElem?_empty, Option.or_none, Option.map_eq_some_iff] at h
  obtain ⟨x, hx, hv⟩ := h
  have hmem := List.mem_filter.mp (List.mem_of_getLast? hx)
  exact ⟨x, hmem.1, of_decide_eq_true hmem.2, hv⟩

omit [DecidableEq κ] in
/-- The last item of a strictly ascending list is the greatest. -/
theorem getLast?_eq_some_iff_of_ascending (key : ι → κ) {l : List ι}
    (hl : l.Pairwise fun a b => compare (key a) (key b) = .lt) {x : ι} :
    l.getLast? = some x ↔ x ∈ l ∧ ∀ y ∈ l, (compare (key y) (key x)).isLE = true := by
  induction l using List.reverseRecOn with
  | nil => simp
  | append_singleton l z _ =>
    rw [List.getLast?_append, List.getLast?_singleton, Option.some_or, Option.some.injEq]
    obtain ⟨-, -, hlt⟩ := List.pairwise_append.mp hl
    constructor
    · rintro rfl
      refine ⟨by simp, fun y hy => ?_⟩
      rcases List.mem_append.mp hy with hy | hy
      · rw [hlt y hy z (by simp)]
        rfl
      · rw [List.mem_singleton.mp hy, compare_same]
        rfl
    · rintro ⟨hx, hle⟩
      rcases List.mem_append.mp hx with hx | hx
      · have hgt := Std.OrientedCmp.gt_of_lt (hlt x hx z (by simp))
        have hzx := hle z (by simp)
        rw [hgt] at hzx
        cases hzx
      · exact (List.mem_singleton.mp hx).symm

omit [DecidableEq κ] in
theorem getElem?_of_mem_toList {x : κ × ν} (hx : x ∈ m.toList) : m[x.1]? = some x.2 :=
  ExtTreeMap.mem_toList_iff_getElem?_eq_some.mp (show (x.1, x.2) ∈ m.toList from hx)

/-- A map's own entries build it again, each under what is made of its value. -/
theorem getElem?_foldl_insert_toList {ν' : Type} (m : ExtTreeMap κ ν) (key : κ × ν → κ) (f : κ × ν → ν')
    (hkey : ∀ x ∈ m.toList, key x = x.1) (k : κ) :
    (m.toList.foldl (fun m x => m.insert (key x) (f x)) (∅ : ExtTreeMap κ ν'))[k]? =
      m[k]?.map fun v => f (k, v) := by
  rw [getElem?_foldl_insert, ExtTreeMap.getElem?_empty, Option.or_none]
  cases hm : m[k]? with
  | none =>
    have hnone : m.toList.filter (fun x => key x = k) = [] := by
      rw [List.filter_eq_nil_iff]
      intro x hx hk
      have hxk : x.1 = k := (hkey x hx).symm.trans (of_decide_eq_true hk)
      rw [← hxk, getElem?_of_mem_toList hx] at hm
      cases hm
    rw [hnone]
    rfl
  | some v =>
    have hmem : (k, v) ∈ m.toList := ExtTreeMap.mem_toList_iff_getElem?_eq_some.mpr hm
    have hlast : (m.toList.filter fun x => key x = k).getLast? = some (k, v) := by
      refine (getLast?_eq_some_iff_of_ascending Prod.fst
        (List.Pairwise.filter _ ExtTreeMap.ordered_keys_toList)).mpr ⟨?_, fun y hy => ?_⟩
      · exact List.mem_filter.mpr ⟨hmem, decide_eq_true (hkey _ hmem)⟩
      · obtain ⟨hy, hyk⟩ := List.mem_filter.mp hy
        rw [← hkey y hy, of_decide_eq_true hyk, compare_same]
        rfl
    rw [hlast]
    rfl

end Corium.Lib
