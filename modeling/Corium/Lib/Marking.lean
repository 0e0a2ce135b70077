/-
  Corium.Lib.Marking — marking what can be reached, with a worklist.

  `Will w b` says that `b` is marked or can be reached from something marked or still
  to be visited; a visit keeps it. A walk is closed when what a marked node points at
  is marked or still to be visited; so once nothing is left to visit, everything that
  will be marked is.
-/

import Mathlib

namespace Corium.Lib

open List

variable {β : Type}

/-- From `a` one gets to `b`. -/
abbrev Points (children : β → List β) : β → β → Prop := Relation.ReflTransGen fun a b => b ∈ children a

structure Walk (β : Type) where
  marked : List β
  pending : List β
  deriving DecidableEq

namespace Walk

def Will (children : β → List β) (w : Walk β) (b : β) : Prop :=
  ∃ a, (a ∈ w.marked ∨ a ∈ w.pending) ∧ Points children a b

def Closed (children : β → List β) (w : Walk β) : Prop :=
  ∀ a ∈ w.marked, ∀ b ∈ children a, b ∈ w.marked ∨ b ∈ w.pending

/-- Drops a node that is marked already. -/
def skip (w : Walk β) (rest : List β) : Walk β := { w with pending := rest }

/-- Marks a node and puts what it points at on top, last first. -/
def visit (children : β → List β) (w : Walk β) (a : β) (rest : List β) : Walk β :=
  { marked := a :: w.marked, pending := (children a).reverse ++ rest }

def push (w : Walk β) (nodes : List β) : Walk β := { w with pending := nodes ++ w.pending }

variable {children : β → List β} {w : Walk β} {a b : β} {rest : List β}

theorem Will.skip (h : w.Will children b) (hp : w.pending = a :: rest) (ha : a ∈ w.marked) :
    (w.skip rest).Will children b := by
  obtain ⟨x, hx, hxb⟩ := h
  refine ⟨x, ?_, hxb⟩
  rcases hx with hx | hx
  · exact .inl hx
  · rw [hp] at hx
    rcases mem_cons.mp hx with rfl | hx
    · exact .inl ha
    · exact .inr hx

theorem Closed.skip (h : w.Closed children) (hp : w.pending = a :: rest) (ha : a ∈ w.marked) :
    (w.skip rest).Closed children := by
  intro x hx y hy
  rcases h x hx y hy with hy | hy
  · exact .inl hy
  · rw [hp] at hy
    rcases mem_cons.mp hy with rfl | hy
    · exact .inl ha
    · exact .inr hy

theorem Will.visit (h : w.Will children b) (hp : w.pending = a :: rest) : (w.visit children a rest).Will children b := by
  obtain ⟨x, hx, hxb⟩ := h
  refine ⟨x, ?_, hxb⟩
  rcases hx with hx | hx
  · exact .inl (mem_cons_of_mem _ hx)
  · rw [hp] at hx
    rcases mem_cons.mp hx with rfl | hx
    · exact .inl mem_cons_self
    · exact .inr (mem_append_right _ hx)

theorem Closed.visit (h : w.Closed children) (hp : w.pending = a :: rest) :
    (w.visit children a rest).Closed children := by
  intro x hx y hy
  rcases mem_cons.mp hx with rfl | hx
  · exact .inr (mem_append_left _ (mem_reverse.mpr hy))
  · rcases h x hx y hy with hy | hy
    · exact .inl (mem_cons_of_mem _ hy)
    · rw [hp] at hy
      rcases mem_cons.mp hy with rfl | hy
      · exact .inl mem_cons_self
      · exact .inr (mem_append_right _ hy)

theorem Will.push (h : w.Will children b) (nodes : List β) : (w.push nodes).Will children b := by
  obtain ⟨x, hx, hxb⟩ := h
  exact ⟨x, hx.imp_right (mem_append_right _), hxb⟩

theorem will_push {nodes : List β} (ha : a ∈ nodes) (hab : Points children a b) : (w.push nodes).Will children b :=
  ⟨a, .inr (mem_append_left _ ha), hab⟩

theorem Closed.push (h : w.Closed children) (nodes : List β) : (w.push nodes).Closed children :=
  fun x hx y hy => (h x hx y hy).imp_right (mem_append_right _)

/-- When nothing is left to visit, what will be marked is. -/
theorem Closed.marked_of_will (h : w.Closed children) (hp : w.pending = []) (hb : w.Will children b) : b ∈ w.marked := by
  obtain ⟨x, hx, hxb⟩ := hb
  have hx : x ∈ w.marked := hx.resolve_right (by simp [hp])
  induction hxb with
  | refl => exact hx
  | tail _ hstep ih => exact (h _ ih _ hstep).resolve_right (by simp [hp])

end Walk

end Corium.Lib
