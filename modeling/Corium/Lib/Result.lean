/-
  Corium.Lib.Result — computations that may fail: what a successful one says
  about its parts, and invariants of a successful fold.
-/

import Mathlib

namespace Corium.Lib

open List

variable {ε α β σ : Type}

/-- Fail with `err` unless `c` holds. -/
def require (c : Prop) [Decidable c] (err : ε) : Except ε Unit := if c then .ok () else .error err

@[simp] theorem require_eq_ok {c : Prop} [Decidable c] {err : ε} {u : Unit} : require c err = .ok u ↔ c := by
  unfold require
  split <;> simp_all

/-- A sequence succeeds when its first part does and the rest does on its result. -/
theorem bind_eq_ok {x : Except ε α} {f : α → Except ε β} {b : β} :
    (x >>= f) = .ok b ↔ ∃ a, x = .ok a ∧ f a = .ok b := by
  cases x with
  | error e => simp [bind, Except.bind]
  | ok a => simp [bind, Except.bind]

variable {a : α} {s s' : σ}

theorem pure_eq_ok {b : α} : (pure a : Except ε α) = .ok b ↔ a = b := by
  simp [pure, Except.pure]

variable {f : σ → α → Except ε σ} {l : List α}

/-- A step relation every successful step satisfies, closed under composition, holds of a successful fold. -/
theorem foldlM_ok {R : σ → σ → Prop} (hrefl : ∀ s, R s s) (hstep : ∀ {r s s' a}, R r s → f s a = .ok s' → R r s')
    (h : l.foldlM f s = .ok s') : R s s' := by
  suffices hgen : ∀ (l : List α) (r s : σ), R r s → l.foldlM f s = .ok s' → R r s' from hgen l s s (hrefl s) h
  intro l
  induction l with
  | nil =>
    intro r s hr h
    rw [foldlM_nil, pure_eq_ok] at h
    exact h ▸ hr
  | cons a l ih =>
    intro r s hr h
    rw [foldlM_cons, bind_eq_ok] at h
    obtain ⟨s1, h1, h2⟩ := h
    exact ih r s1 (hstep hr h1) h2

/-- A property every step on an element of the list keeps holds after a successful fold. -/
theorem foldlM_inv {P : σ → Prop}
    (hstep : ∀ a ∈ l, ∀ s s', P s → f s a = .ok s' → P s') (h0 : P s) (h : l.foldlM f s = .ok s') : P s' := by
  induction l generalizing s with
  | nil =>
    rw [foldlM_nil, pure_eq_ok] at h
    exact h ▸ h0
  | cons a l ih =>
    rw [foldlM_cons, bind_eq_ok] at h
    obtain ⟨s1, h1, h2⟩ := h
    exact ih (fun b hb => hstep b (mem_cons_of_mem _ hb)) (hstep a mem_cons_self s s1 h0 h1) h2

/-- A fold whose state after `pre` satisfies `P pre`, and whose step on `a` succeeds exactly
    where `Q pre a`, succeeds exactly where every step does. -/
theorem foldlM_ok_iff {P : List α → σ → Prop} {Q : List α → α → Prop}
    (hok : ∀ pre a post s, l = pre ++ a :: post → P pre s → Q pre a → ∃ s', f s a = .ok s')
    (hstep : ∀ pre a post s s', l = pre ++ a :: post → P pre s → f s a = .ok s' → Q pre a ∧ P (pre ++ [a]) s')
    (h0 : P [] s) : ((∃ s', l.foldlM f s = .ok s') ↔ ∀ pre a post, l = pre ++ a :: post → Q pre a) ∧
      ∀ s', l.foldlM f s = .ok s' → P l s' := by
  suffices hgen : ∀ rest pre s, l = pre ++ rest → P pre s →
      ((∃ s', rest.foldlM f s = .ok s') ↔ ∀ mid a post, rest = mid ++ a :: post → Q (pre ++ mid) a) ∧
        ∀ s', rest.foldlM f s = .ok s' → P l s' from hgen l [] s rfl h0
  intro rest
  induction rest with
  | nil =>
    intro pre s hl hp
    rw [append_nil] at hl
    simp only [foldlM_nil, pure_eq_ok, exists_eq', true_iff]
    exact ⟨fun mid a post h => absurd h.symm (by simp), fun s' h => h ▸ hl ▸ hp⟩
  | cons a rest ih =>
    intro pre s hl hp
    have hl' : l = (pre ++ [a]) ++ rest := by simpa using hl
    simp only [foldlM_cons, bind_eq_ok]
    refine ⟨⟨?_, fun hall => ?_⟩, ?_⟩
    · rintro ⟨s', s1, h1, h2⟩ mid b post hsplit
      obtain ⟨hq, hp1⟩ := hstep pre a rest s s1 hl hp h1
      cases mid with
      | nil =>
        obtain ⟨rfl, rfl⟩ := List.cons.inj hsplit
        simpa using hq
      | cons c mid =>
        obtain ⟨rfl, rfl⟩ := List.cons.inj hsplit
        have := ((ih (pre ++ [a]) s1 hl' hp1).1.mp ⟨s', h2⟩) mid b post rfl
        simpa using this
    · obtain ⟨s1, h1⟩ := hok pre a rest s hl hp (by simpa using hall [] a rest rfl)
      have hp1 := (hstep pre a rest s s1 hl hp h1).2
      obtain ⟨s', h2⟩ := (ih (pre ++ [a]) s1 hl' hp1).1.mpr fun mid b post hsplit => by
        simpa using hall (a :: mid) b post (by rw [hsplit]; rfl)
      exact ⟨s', s1, h1, h2⟩
    · rintro s' ⟨s1, h1, h2⟩
      exact (ih (pre ++ [a]) s1 hl' (hstep pre a rest s s1 hl hp h1).2).2 s' h2

/-- A successful fold took a step on each element of the list. -/
theorem foldlM_step (ha : a ∈ l) (h : l.foldlM f s = .ok s') :
    ∃ pre post s1 s2, l = pre ++ a :: post ∧ pre.foldlM f s = .ok s1 ∧ f s1 a = .ok s2 ∧ post.foldlM f s2 = .ok s' := by
  obtain ⟨pre, post, rfl⟩ := append_of_mem ha
  rw [foldlM_append, bind_eq_ok] at h
  obtain ⟨s1, h1, h⟩ := h
  rw [foldlM_cons, bind_eq_ok] at h
  obtain ⟨s2, h2, h⟩ := h
  exact ⟨pre, post, s1, s2, rfl, h1, h2, h⟩

theorem forM_ok {f : α → Except ε Unit} (h : l.forM f = .ok ()) : ∀ a ∈ l, f a = .ok () := by
  induction l with
  | nil => exact nofun
  | cons a l ih =>
    rw [forM_eq_forM, forM_cons, bind_eq_ok] at h
    obtain ⟨_, ha, hl⟩ := h
    intro x hx
    rcases List.mem_cons.mp hx with rfl | hx
    · exact ha
    · exact ih hl x hx

theorem forM_of_forall {f : α → Except ε Unit} (h : ∀ a ∈ l, f a = .ok ()) : l.forM f = .ok () := by
  induction l with
  | nil => rfl
  | cons a l ih =>
    rw [forM_eq_forM, forM_cons, h a mem_cons_self]
    exact ih fun b hb => h b (mem_cons_of_mem _ hb)

/-- A traversal whose every step succeeds collects the results. -/
theorem mapM_ok_of_forall {f : α → Except ε β} {g : α → β} (h : ∀ a ∈ l, f a = .ok (g a)) :
    l.mapM f = .ok (l.map g) := by
  induction l with
  | nil => rfl
  | cons a l ih =>
    rw [mapM_cons, h a mem_cons_self, ih fun b hb => h b (mem_cons_of_mem _ hb)]
    rfl

/-- Every result of a successful traversal is the result of an element. -/
theorem mem_of_mapM_ok {f : α → Except ε β} {r : List β} (h : l.mapM f = .ok r) :
    ∀ b ∈ r, ∃ a ∈ l, f a = .ok b := by
  induction l generalizing r with
  | nil =>
    rw [mapM_nil, pure_eq_ok] at h
    subst h
    exact nofun
  | cons a l ih =>
    rw [mapM_cons, bind_eq_ok] at h
    obtain ⟨b, hb, h⟩ := h
    rw [bind_eq_ok] at h
    obtain ⟨bs, hbs, h⟩ := h
    rw [pure_eq_ok] at h
    subst h
    intro x hx
    rcases List.mem_cons.mp hx with rfl | hx
    · exact ⟨a, mem_cons_self, hb⟩
    · obtain ⟨a', ha', hx⟩ := ih hbs x hx
      exact ⟨a', mem_cons_of_mem _ ha', hx⟩

end Corium.Lib
