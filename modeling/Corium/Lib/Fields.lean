/-
  Corium.Lib.Fields — texts that say where they end.

  A code is self-delimiting when what it writes can be told from whatever follows. Such
  codes can be written one after another, counted or optional, and what is written
  determines what was meant. A byte string behind its length in decimal is one.
-/

import Corium.Lib.Lines
import Corium.Lib.OrdCode
import Mathlib.Logic.Function.Basic

namespace Corium.Lib

open List

/-- What `enc` writes is told from whatever follows it. -/
def SelfDelimiting {α τ : Type} (enc : α → List τ) : Prop :=
  ∀ ⦃a b : α⦄ ⦃r s : List τ⦄, enc a ++ r = enc b ++ s → a = b ∧ r = s

namespace SelfDelimiting

variable {α τ : Type} {enc : α → List τ}

theorem injective (h : SelfDelimiting enc) : Function.Injective enc := by
  intro a b hab
  exact (h (show enc a ++ [] = enc b ++ [] by rw [hab])).1

/-- As many as are written, whatever follows. -/
theorem flatMap (h : SelfDelimiting enc) {xs ys : List α} (hlen : xs.length = ys.length) {r s : List τ}
    (heq : xs.flatMap enc ++ r = ys.flatMap enc ++ s) : xs = ys ∧ r = s := by
  induction xs generalizing ys with
  | nil =>
    rw [length_eq_zero_iff.mp hlen.symm] at heq ⊢
    exact ⟨rfl, heq⟩
  | cons x xs ih =>
    cases ys with
    | nil => cases hlen
    | cons y ys =>
      rw [flatMap_cons, flatMap_cons, append_assoc, append_assoc] at heq
      obtain ⟨rfl, hrest⟩ := h heq
      obtain ⟨rfl, hrs⟩ := ih (Nat.succ.inj hlen) hrest
      exact ⟨rfl, hrs⟩

/-- A whole text of codes, none of them empty. -/
theorem flatMap_injective (h : SelfDelimiting enc) (hne : ∀ a, enc a ≠ []) : Function.Injective (List.flatMap enc) := by
  intro xs
  induction xs with
  | nil =>
    intro ys heq
    cases ys with
    | nil => rfl
    | cons y ys => exact absurd (append_eq_nil_iff.mp heq.symm).1 (hne y)
  | cons x xs ih =>
    intro ys heq
    cases ys with
    | nil => exact absurd (append_eq_nil_iff.mp heq).1 (hne x)
    | cons y ys =>
      obtain ⟨rfl, hrest⟩ := h heq
      rw [ih hrest]

/-- A list behind its length. -/
theorem counted (h : SelfDelimiting enc) {count : Nat → τ} (hcount : Function.Injective count) :
    SelfDelimiting fun xs : List α => count xs.length :: xs.flatMap enc := by
  intro xs ys r s heq
  rw [cons_append, cons_append, List.cons.injEq] at heq
  exact h.flatMap (hcount heq.1) heq.2

/-- A value that may be missing, behind a word that says whether it is. -/
theorem optional {f : α → τ} (hf : Function.Injective f) {present missing : τ} (hne : present ≠ missing) :
    SelfDelimiting fun x : Option α => x.elim [missing] fun a => [present, f a] := by
  intro x y r s heq
  cases x <;> cases y
  · exact ⟨rfl, (List.cons.inj heq).2⟩
  · exact absurd (List.cons.inj heq).1.symm hne
  · exact absurd (List.cons.inj heq).1 hne
  · obtain ⟨hab, hrs⟩ := List.cons.inj (List.cons.inj heq).2
    exact ⟨congrArg some (hf hab), hrs⟩

end SelfDelimiting

/-! ## A byte string behind its length -/

def digitBytes (n : Nat) : Bytes := (digits n).map fun c => c.toNat.toUInt8

def colon : UInt8 := 58

def newline : UInt8 := 10

/-- `<byte length>:<bytes>` and a line feed. -/
def field (bytes : Bytes) : Bytes := digitBytes bytes.length ++ colon :: (bytes ++ [newline])

theorem digits_injective : Function.Injective digits := by
  intro m n h
  have hparse := parseDigits_digits m
  rw [h, parseDigits_digits] at hparse
  exact (Option.some.inj hparse).symm

theorem digit_bounds {c : Char} (h : c.isDigit = true) : 48 ≤ c.toNat ∧ c.toNat ≤ 57 := by
  simp only [Char.isDigit, Bool.and_eq_true, decide_eq_true_eq, UInt32.le_iff_toNat_le] at h
  exact h

theorem toUInt8_digit_inj {c d : Char} (hc : c.isDigit = true) (hd : d.isDigit = true)
    (h : c.toNat.toUInt8 = d.toNat.toUInt8) : c = d := by
  have hc' := digit_bounds hc
  have hd' := digit_bounds hd
  have hmod : c.toNat % 256 = d.toNat % 256 := congrArg UInt8.toNat h
  refine Char.ext (UInt32.toNat_inj.mp ?_)
  change c.toNat = d.toNat
  omega

theorem digitBytes_injective : Function.Injective digitBytes := by
  intro m n h
  refine digits_injective ?_
  have hinj : ∀ cs ds : List Char, (∀ c ∈ cs, c.isDigit = true) → (∀ d ∈ ds, d.isDigit = true) →
      (cs.map fun c => c.toNat.toUInt8) = (ds.map fun d => d.toNat.toUInt8) → cs = ds := by
    intro cs
    induction cs with
    | nil =>
      intro ds _ _ heq
      exact (map_eq_nil_iff.mp heq.symm).symm
    | cons c cs ih =>
      intro ds hcs hds heq
      cases ds with
      | nil => cases heq
      | cons d ds =>
        rw [map_cons, map_cons, List.cons.injEq] at heq
        rw [toUInt8_digit_inj (hcs c mem_cons_self) (hds d mem_cons_self) heq.1,
          ih ds (fun x hx => hcs x (mem_cons_of_mem _ hx)) (fun x hx => hds x (mem_cons_of_mem _ hx)) heq.2]
  exact hinj _ _ (fun c hc => isDigit_of_mem_digits hc) (fun d hd => isDigit_of_mem_digits hd) h

theorem colon_notMem_digitBytes (n : Nat) : colon ∉ digitBytes n := by
  intro h
  obtain ⟨c, hc, hcolon⟩ := mem_map.mp h
  have hbounds := digit_bounds (isDigit_of_mem_digits hc)
  have hmod : c.toNat % 256 = 58 := congrArg UInt8.toNat hcolon
  omega

/-- Two lists cut at the first `a` of each. -/
theorem append_cons_inj {α : Type} {a : α} {xs ys r s : List α} (hx : a ∉ xs) (hy : a ∉ ys)
    (h : xs ++ a :: r = ys ++ a :: s) : xs = ys ∧ r = s := by
  induction xs generalizing ys with
  | nil =>
    cases ys with
    | nil => exact ⟨rfl, (List.cons.inj h).2⟩
    | cons y ys => exact absurd ((List.cons.inj h).1 ▸ mem_cons_self) hy
  | cons x xs ih =>
    cases ys with
    | nil => exact absurd ((List.cons.inj h).1.symm ▸ mem_cons_self) hx
    | cons y ys =>
      obtain ⟨rfl, hrest⟩ := List.cons.inj h
      obtain ⟨rfl, hrs⟩ := ih (fun hm => hx (mem_cons_of_mem _ hm)) (fun hm => hy (mem_cons_of_mem _ hm)) hrest
      exact ⟨rfl, hrs⟩

theorem selfDelimiting_field : SelfDelimiting field := by
  intro x y r s h
  rw [field, field, append_assoc, append_assoc, cons_append, cons_append, append_assoc,
    append_assoc] at h
  obtain ⟨hdigits, hrest⟩ := append_cons_inj (colon_notMem_digitBytes _) (colon_notMem_digitBytes _) h
  have hlen : x.length = y.length := digitBytes_injective hdigits
  obtain ⟨hxy, hrs⟩ := append_inj hrest hlen
  exact ⟨hxy, (List.cons.inj hrs).2⟩

theorem field_ne_nil (x : Bytes) : field x ≠ [] := by
  intro h
  exact cons_ne_nil _ _ (append_eq_nil_iff.mp h).2

end Corium.Lib
