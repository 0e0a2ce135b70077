/-
  Corium.Lib.Chunking — lists cut into chunks where their elements say so.

  A rule looks at an element and at how many there are since the last cut, and says
  whether to cut after it. Chunks are canonical when each but the last ends at a cut and
  none passes one; a list has one canonical chunking (`Canonical.eq`).
-/

import Mathlib.Data.List.Chain

namespace Corium.Lib

open List

section Chunking

variable {α : Type} (cut : α → Nat → Bool)

/-- Nothing in the run is cut after. -/
def Uncut (run : List α) : Prop := ∀ i (h : i < run.length), cut run[i] (i + 1) = false

def EndsAtCut (run : List α) : Prop := ∃ x ∈ run.getLast?, cut x run.length = true

/-- Not empty, and cut at its end or not at all. -/
structure IsChunk (chunk : List α) : Prop where
  ne_nil : chunk ≠ []
  uncut : Uncut cut chunk.dropLast

/-- Only the last chunk may be open. -/
structure Canonical (chunks : List (List α)) : Prop where
  isChunk : ∀ c ∈ chunks, IsChunk cut c
  endsAtCut : chunks.IsChain fun c _ => EndsAtCut cut c

variable {cut} {run : List α}

theorem uncut_nil : Uncut cut [] := fun _ h => absurd h (Nat.not_lt_zero _)

variable {x : α} {cs ds : List (List α)}

theorem uncut_concat : Uncut cut (run ++ [x]) ↔ Uncut cut run ∧ cut x (run.length + 1) = false := by
  constructor
  · intro h
    refine ⟨fun i hi => ?_, ?_⟩
    · have := h i (by rw [length_append]; omega)
      rwa [getElem_append_left hi] at this
    · have := h run.length (by simp)
      rwa [getElem_concat_length rfl] at this
  · intro ⟨hrun, hx⟩ i hi
    rw [length_append, length_singleton] at hi
    by_cases hlt : i < run.length
    · rw [getElem_append_left hlt]
      exact hrun i hlt
    · obtain rfl : i = run.length := by omega
      rw [getElem_concat_length rfl]
      exact hx

theorem Uncut.left {rest : List α} (h : Uncut cut (run ++ rest)) : Uncut cut run := fun i hi => by
  have := h i (by rw [length_append]; omega)
  rwa [getElem_append_left hi] at this

/-- Nothing is cut below `least`, so a run shorter than that is uncut. -/
theorem uncut_of_lt {least : Nat} (hleast : ∀ x n, n < least → cut x n = false) (h : run.length < least) : Uncut cut run :=
  fun _ hi => hleast _ _ (Nat.lt_of_le_of_lt hi h)

theorem isChunk_concat (h : Uncut cut run) : IsChunk cut (run ++ [x]) :=
  ⟨by simp, by rwa [dropLast_concat]⟩

theorem Uncut.isChunk (h : Uncut cut run) (hne : run ≠ []) : IsChunk cut run := by
  obtain ⟨init, x, rfl⟩ := (eq_nil_or_concat' run).resolve_left hne
  exact isChunk_concat h.left

theorem endsAtCut_concat : EndsAtCut cut (run ++ [x]) ↔ cut x (run.length + 1) = true := by
  simp [EndsAtCut]

/-- Everything is cut from `most` on, so no chunk is longer. -/
theorem IsChunk.length_le {most : Nat} (hmost : ∀ x n, most ≤ n → cut x n = true) {chunk : List α} (h : IsChunk cut chunk) :
    chunk.length ≤ max most 1 := by
  rcases Nat.lt_or_ge chunk.length 2 with hlt | hge
  · omega
  · have hi : chunk.length - 2 < chunk.dropLast.length := by
      rw [length_dropLast]
      omega
    have := h.uncut _ hi
    have hlt : ¬ most ≤ chunk.length - 2 + 1 := fun hle => by
      rw [hmost _ _ hle] at this
      cases this
    omega

theorem Canonical.tail {c : List α} {cs : List (List α)} (h : Canonical cut (c :: cs)) : Canonical cut cs :=
  ⟨fun d hd => h.isChunk d (mem_cons_of_mem _ hd), h.endsAtCut.tail⟩

theorem Canonical.eq_nil (h : Canonical cut cs) (hflat : cs.flatten = []) : cs = [] := by
  cases cs with
  | nil => rfl
  | cons c cs =>
    rw [flatten_cons, append_eq_nil_iff] at hflat
    exact absurd hflat.1 (h.isChunk c mem_cons_self).ne_nil

/-- A chunk of a canonical chunking does not end inside one of another. -/
theorem Canonical.not_lt {c d : List α} (hc : Canonical cut (c :: cs)) (hd : Canonical cut (d :: ds))
    (hflat : (c :: cs).flatten = (d :: ds).flatten) : ¬ c.length < d.length := by
  intro hlt
  rw [flatten_cons, flatten_cons] at hflat
  cases cs with
  | nil =>
    have := congrArg List.length hflat
    rw [flatten_nil, append_nil, length_append] at this
    omega
  | cons c' cs =>
    obtain ⟨init, x, rfl⟩ := (eq_nil_or_concat' c).resolve_left (hc.isChunk c mem_cons_self).ne_nil
    have hcut := endsAtCut_concat.mp (List.isChain_cons_cons.mp hc.endsAtCut).1
    rw [length_append, length_singleton] at hlt
    have hi : init.length < d.dropLast.length := by
      rw [length_dropLast]
      omega
    have hx : d.dropLast[init.length] = x := by
      have := congrArg (fun l : List α => l[init.length]?) hflat
      simp only [append_assoc, singleton_append, List.getElem?_append_right (Nat.le_refl init.length), Nat.sub_self,
        List.getElem?_cons_zero, List.getElem?_append_left (show init.length < d.length by omega)] at this
      rw [getElem_dropLast]
      exact (List.getElem?_eq_some_iff.mp this.symm).2
    have huncut := (hd.isChunk d mem_cons_self).uncut init.length hi
    rw [hx, hcut] at huncut
    cases huncut

/-- A list has one canonical chunking. -/
theorem Canonical.eq (hc : Canonical cut cs) (hd : Canonical cut ds) (hflat : cs.flatten = ds.flatten) : cs = ds := by
  induction cs generalizing ds with
  | nil => exact (hd.eq_nil hflat.symm).symm
  | cons c cs ih =>
    cases ds with
    | nil => exact hc.eq_nil hflat
    | cons d ds =>
      have hlen : c.length = d.length :=
        Nat.le_antisymm (Nat.le_of_not_lt (hd.not_lt hc hflat.symm)) (Nat.le_of_not_lt (hc.not_lt hd hflat))
      rw [flatten_cons, flatten_cons] at hflat
      obtain ⟨rfl, hrest⟩ := append_inj hflat hlen
      rw [ih hc.tail hd.tail hrest]

end Chunking

end Corium.Lib
