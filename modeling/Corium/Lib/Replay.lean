/-
  Corium.Lib.Replay — replaying a log of sets and deletes into a map: the last
  event on a key decides what the map holds there.

  An event has a key and either the value it sets or nothing (a delete).
  `getElem?_replay` reduces every question about a replayed map to `lastOn`, and
  the `lastOn` lemmas say how it behaves under append, filters by key, injective
  renaming of keys, and in a list sorted so that events of one key ascend. What
  every step either overwrites or leaves alone is settled by the first replay
  (`foldl_foldl_overwrites`).
-/

import Mathlib

namespace Corium.Lib

open List Std

section LastOn

variable {ε κ : Type} [DecidableEq κ] (key : ε → κ)

/-- The last event on `k`. -/
def lastOn (k : κ) : List ε → Option ε
  | [] => none
  | e :: es => (lastOn k es).or (if key e = k then some e else none)

variable {key} {k : κ} {e : ε}

@[simp] theorem lastOn_nil : lastOn key k [] = none := rfl

variable {es : List ε}

@[simp] theorem lastOn_cons : lastOn key k (e :: es) = (lastOn key k es).or (if key e = k then some e else none) := rfl

theorem lastOn_append (k : κ) (xs ys : List ε) :
    lastOn key k (xs ++ ys) = (lastOn key k ys).or (lastOn key k xs) := by
  induction xs with
  | nil => simp
  | cons x xs ih => rw [cons_append, lastOn_cons, ih, lastOn_cons, Option.or_assoc]

theorem lastOn_concat (k : κ) (xs : List ε) (e : ε) :
    lastOn key k (xs ++ [e]) = if key e = k then some e else lastOn key k xs := by
  rw [lastOn_append]
  by_cases h : key e = k <;> simp [h]

theorem lastOn_eq_none_iff : lastOn key k es = none ↔ ∀ e ∈ es, key e ≠ k := by
  induction es with
  | nil => simp
  | cons e es ih =>
    rw [lastOn_cons, Option.or_eq_none_iff, ih]
    simp only [mem_cons, forall_eq_or_imp]
    constructor
    · rintro ⟨hes, he⟩
      exact ⟨fun hk => by simp [hk] at he, hes⟩
    · rintro ⟨he, hes⟩
      exact ⟨hes, by simp [he]⟩

theorem lastOn_eq_some_iff :
    lastOn key k es = some e ↔ key e = k ∧ ∃ l r, es = l ++ e :: r ∧ ∀ x ∈ r, key x ≠ k := by
  induction es with
  | nil => simp
  | cons x es ih =>
    rw [lastOn_cons]
    cases hl : lastOn key k es with
    | some y =>
      rw [hl] at ih
      rw [Option.some_or]
      constructor
      · intro h
        obtain ⟨hk, l, r, rfl, hr⟩ := ih.mp h
        exact ⟨hk, x :: l, r, rfl, hr⟩
      · rintro ⟨hk, l, r, hes, hr⟩
        cases l with
        | nil =>
          -- the tail has no event on `k`, but its last one is `y`
          obtain ⟨-, rfl⟩ := List.cons.inj hes
          exact absurd hl (by rw [lastOn_eq_none_iff.mpr hr]; exact nofun)
        | cons z l =>
          obtain ⟨-, rfl⟩ := List.cons.inj hes
          exact ih.mpr ⟨hk, l, r, rfl, hr⟩
    | none =>
      rw [Option.none_or]
      have hnone := lastOn_eq_none_iff.mp hl
      constructor
      · intro h
        split at h
        · cases h
          exact ⟨‹_›, [], es, rfl, hnone⟩
        · cases h
      · rintro ⟨hk, l, r, hes, hr⟩
        cases l with
        | nil =>
          obtain ⟨rfl, -⟩ := List.cons.inj hes
          rw [if_pos hk]
        | cons z l =>
          obtain ⟨-, rfl⟩ := List.cons.inj hes
          exact absurd hk (hnone e (by simp))

theorem key_of_lastOn (h : lastOn key k es = some e) : key e = k := (lastOn_eq_some_iff.mp h).1

theorem mem_of_lastOn (h : lastOn key k es = some e) : e ∈ es := by
  obtain ⟨-, l, r, rfl, -⟩ := lastOn_eq_some_iff.mp h
  simp

/-- A filter that keeps or drops a key as a whole. -/
theorem lastOn_filter_key (p : ε → Bool) (q : Bool) (hp : ∀ x ∈ es, key x = k → p x = q) :
    lastOn key k (es.filter p) = if q then lastOn key k es else none := by
  induction es with
  | nil => simp
  | cons x es ih =>
    have ih' := ih fun y hy => hp y (mem_cons_of_mem _ hy)
    by_cases hk : key x = k
    · have hx := hp x mem_cons_self hk
      cases q <;> simp_all
    · have hskip : lastOn key k (x :: es) = lastOn key k es := by simp [hk]
      rw [hskip, ← ih', filter_cons]
      split
      · simp [hk]
      · rfl

theorem lastOn_map_key {κ' : Type} [DecidableEq κ'] {f : κ → κ'} (hf : Function.Injective f) (es : List ε) :
    lastOn (fun e => f (key e)) (f k) es = lastOn key k es := by
  induction es with
  | nil => rfl
  | cons e es ih => simp only [lastOn_cons, ih, hf.eq_iff]

/-- Where events are told apart by their keys, the last event on a key is the one there is. -/
theorem lastOn_of_injOn (hinj : ∀ x ∈ es, ∀ y ∈ es, key x = key y → x = y) :
    lastOn key k es = some e ↔ e ∈ es ∧ key e = k := by
  constructor
  · intro h
    exact ⟨mem_of_lastOn h, key_of_lastOn h⟩
  · rintro ⟨hmem, hk⟩
    cases hl : lastOn key k es with
    | none => exact absurd hk (lastOn_eq_none_iff.mp hl e hmem)
    | some x => rw [hinj x (mem_of_lastOn hl) e hmem ((key_of_lastOn hl).trans hk.symm)]

/-- In a list whose events of one key ascend, the last event on a key is its greatest. -/
theorem lastOn_of_pairwise {r : ε → ε → Prop} (hs : es.Pairwise r) (hmem : e ∈ es)
    (hk : key e = k) (hmax : ∀ x ∈ es, key x = k → ¬ r e x) : lastOn key k es = some e := by
  obtain ⟨l, t, rfl⟩ := append_of_mem hmem
  refine lastOn_eq_some_iff.mpr ⟨hk, l, t, rfl, fun x hx hxk => ?_⟩
  have hr : r e x := (pairwise_cons.mp (pairwise_append.mp hs).2.1).1 x hx
  exact hmax x (by simp [hx]) hxk hr

/-- The last event of a concatenation is the last one of the last part that has any. -/
theorem lastOn_flatMap {ρ : Type} {g : ρ → List ε} {rs : List ρ} (h : lastOn key k (rs.flatMap g) = some e) :
    ∃ l r rest, rs = l ++ r :: rest ∧ lastOn key k (g r) = some e ∧ ∀ r' ∈ rest, ∀ x ∈ g r', key x ≠ k := by
  induction rs with
  | nil => cases h
  | cons r rs ih =>
    rw [flatMap_cons, lastOn_append] at h
    cases hl : lastOn key k (rs.flatMap g) with
    | some x =>
      rw [hl, Option.some_or] at h
      obtain ⟨l, r', rest, rfl, hr, hrest⟩ := ih (hl.trans h)
      exact ⟨r :: l, r', rest, rfl, hr, hrest⟩
    | none =>
      rw [hl, Option.none_or] at h
      refine ⟨[], r, rs, rfl, h, fun r' hr' x hx => ?_⟩
      exact lastOn_eq_none_iff.mp hl x (mem_flatMap.mpr ⟨r', hr', hx⟩)

end LastOn

/-! ## Replay into a map -/

section Replay

variable {ε κ ν : Type} [Ord κ] [Std.TransOrd κ]
variable (key : ε → κ) (val : ε → Option ν)

def applyEvent (m : ExtTreeMap κ ν) (e : ε) : ExtTreeMap κ ν :=
  match val e with
  | some v => m.insert (key e) v
  | none => m.erase (key e)

def replay (m : ExtTreeMap κ ν) (es : List ε) : ExtTreeMap κ ν := es.foldl (applyEvent key val) m

theorem replay_append (m : ExtTreeMap κ ν) (xs ys : List ε) :
    replay key val m (xs ++ ys) = replay key val (replay key val m xs) ys := foldl_append

variable [Std.LawfulEqOrd κ] [DecidableEq κ]

theorem getElem?_applyEvent (m : ExtTreeMap κ ν) (e : ε) (k : κ) :
    (applyEvent key val m e)[k]? = if key e = k then val e else m[k]? := by
  unfold applyEvent
  split
  · rename_i v hv
    simp [ExtTreeMap.getElem?_insert, hv]
  · rename_i hv
    simp [ExtTreeMap.getElem?_erase, hv]

theorem getElem?_replay (m : ExtTreeMap κ ν) (es : List ε) (k : κ) :
    (replay key val m es)[k]? = match lastOn key k es with
      | some e => val e
      | none => m[k]? := by
  induction es generalizing m with
  | nil => rfl
  | cons e es ih =>
    rw [replay, foldl_cons, ← replay, ih, lastOn_cons, getElem?_applyEvent]
    cases lastOn key k es with
    | some x => rfl
    | none => by_cases h : key e = k <;> simp [h]

/-- Replaying the same events again changes nothing. -/
theorem replay_replay (m : ExtTreeMap κ ν) (es : List ε) :
    replay key val (replay key val m es) es = replay key val m es := by
  apply ExtTreeMap.ext_getElem?
  intro k
  rw [getElem?_replay, getElem?_replay]
  cases lastOn key k es <;> rfl

theorem getElem?_replay_empty (es : List ε) (k : κ) :
    (replay key val ∅ es)[k]? = (lastOn key k es).bind val := by
  rw [getElem?_replay]
  cases lastOn key k es <;> simp

end Replay

/-! ## Overwriting -/

section Overwrite

variable {σ α β : Type} {f : σ → α → σ} {π : σ → β}

/-- A step that overwrites what `π` reads, whatever it was, or leaves it alone. -/
def Overwrites (f : σ → α → σ) (π : σ → β) (x : α) : Prop := (∃ c, ∀ s, π (f s x) = c) ∨ ∀ s, π (f s x) = π s

variable {xs : List α} {s : σ}

theorem foldl_overwrites (h : ∀ x ∈ xs, Overwrites f π x) {s' : σ}
    (hs : π s' = π s ∨ π s' = π (xs.foldl f s)) : π (xs.foldl f s') = π (xs.foldl f s) := by
  induction xs generalizing s s' with
  | nil => exact hs.elim id id
  | cons x xs ih =>
    refine ih (fun y hy => h y (mem_cons_of_mem _ hy)) ?_
    rcases h x mem_cons_self with ⟨c, hc⟩ | hkeep
    · exact .inl ((hc s').trans (hc s).symm)
    · rw [hkeep s', hkeep s]
      exact hs

/-- Overwriting twice is overwriting once. -/
theorem foldl_foldl_overwrites (h : ∀ x ∈ xs, Overwrites f π x) (s : σ) :
    π (xs.foldl f (xs.foldl f s)) = π (xs.foldl f s) := foldl_overwrites h (.inr rfl)

/-- What some steps bring about, from any state, and the others keep. -/
theorem foldl_of_brings {P : σ → Prop} {Q : α → Prop} (hset : ∀ x ∈ xs, Q x → ∀ s, P (f s x))
    (hkeep : ∀ x ∈ xs, ¬Q x → ∀ s, P s → P (f s x)) (h : P s ∨ ∃ x ∈ xs, Q x) : P (xs.foldl f s) := by
  induction xs generalizing s with
  | nil => exact h.resolve_right nofun
  | cons x xs ih =>
    refine ih (fun y hy => hset y (mem_cons_of_mem _ hy)) (fun y hy => hkeep y (mem_cons_of_mem _ hy)) ?_
    by_cases hx : Q x
    · exact .inl (hset x mem_cons_self hx s)
    · rcases h with h | ⟨y, hy, hq⟩
      · exact .inl (hkeep x mem_cons_self hx s h)
      · rcases mem_cons.mp hy with rfl | hy
        · exact absurd hq hx
        · exact .inr ⟨y, hy, hq⟩

end Overwrite

end Corium.Lib
