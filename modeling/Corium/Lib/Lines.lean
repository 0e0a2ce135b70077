/-
  Corium.Lib.Lines — text that is written and read line by line, and decimal numbers.

  `lines` ends a line at a newline or at a carriage return and a newline, so what was
  written as a line is read back as one if it holds no newline and does not end with a
  carriage return (`lines_unlines`). A number is read back from its digits
  (`parseUnsigned_digits`, `parseSigned_digits`).
-/

import Mathlib

namespace Corium.Lib

open List

/-! ## Lines -/

def stripCr (line : List Char) : List Char := if line.getLast? = some '\r' then line.dropLast else line

/-- `line` is what was read since the last newline. A last line without a newline keeps its carriage return. -/
def linesFrom (line : List Char) : List Char → List (List Char)
  | [] => if line = [] then [] else [line]
  | c :: cs => if c = '\n' then stripCr line :: linesFrom [] cs else linesFrom (line ++ [c]) cs

def lines (text : List Char) : List (List Char) := linesFrom [] text

def unlines (ls : List (List Char)) : List Char := ls.flatMap (· ++ ['\n'])

theorem linesFrom_append {line l rest : List Char} (h : '\n' ∉ l) :
    linesFrom line (l ++ '\n' :: rest) = stripCr (line ++ l) :: lines rest := by
  induction l generalizing line with
  | nil => simp [linesFrom, lines]
  | cons c l ih =>
    rw [mem_cons, not_or] at h
    obtain ⟨hc, hl⟩ := h
    rw [cons_append, linesFrom, if_neg (Ne.symm hc), ih hl, append_assoc, singleton_append]

theorem lines_unlines {ls : List (List Char)} (h : ∀ l ∈ ls, '\n' ∉ l) : lines (unlines ls) = ls.map stripCr := by
  induction ls with
  | nil => rfl
  | cons l ls ih =>
    obtain ⟨hl, hls⟩ := forall_mem_cons.mp h
    have hcons : unlines (l :: ls) = l ++ '\n' :: unlines ls := by simp [unlines]
    rw [hcons, lines, linesFrom_append hl, nil_append, ih hls, map_cons]

variable {l : List Char} {c : Char}

theorem mem_of_mem_stripCr (h : c ∈ stripCr l) : c ∈ l := by
  unfold stripCr at h
  split at h
  · exact mem_of_mem_dropLast h
  · exact h

/-- A line that was read holds no newline. -/
theorem newline_notMem_of_mem_linesFrom {line text l : List Char} (hline : '\n' ∉ line) (h : l ∈ linesFrom line text) : '\n' ∉ l := by
  induction text generalizing line with
  | nil =>
    rw [linesFrom] at h
    split at h
    · cases h
    · rwa [mem_singleton.mp h]
  | cons c cs ih =>
    rw [linesFrom] at h
    split at h
    · obtain rfl | h := mem_cons.mp h
      · exact fun hmem => hline (mem_of_mem_stripCr hmem)
      · exact ih not_mem_nil h
    · next hc =>
      refine ih ?_ h
      intro hmem
      obtain hmem | hmem := mem_append.mp hmem
      · exact hline hmem
      · exact hc (mem_singleton.mp hmem).symm

theorem newline_notMem_of_mem_lines {text l : List Char} (h : l ∈ lines text) : '\n' ∉ l :=
  newline_notMem_of_mem_linesFrom not_mem_nil h

theorem stripCr_of_ne (h : l.getLast? ≠ some '\r') : stripCr l = l := if_neg h

theorem stripCr_of_notMem (h : '\r' ∉ l) : stripCr l = l := stripCr_of_ne fun hlast => h (mem_of_getLast? hlast)

theorem stripCr_eq_iff : stripCr l = l ↔ l.getLast? ≠ some '\r' := by
  refine ⟨fun h hlast => ?_, stripCr_of_ne⟩
  have hne : l ≠ [] := fun hnil => by rw [hnil] at hlast; cases hlast
  rw [stripCr, if_pos hlast] at h
  have hlen := congrArg List.length h
  have hpos := length_pos_of_ne_nil hne
  rw [length_dropLast] at hlen
  omega

/-! ## Decimal numbers -/

def digits (n : Nat) : List Char := Nat.toDigits 10 n

def intDigits (i : Int) : List Char := if i < 0 then '-' :: digits i.natAbs else digits i.natAbs

def parseDigits (cs : List Char) : Option Nat :=
  if cs ≠ [] ∧ cs.all Char.isDigit then some (Nat.ofDigitChars 10 cs 0) else none

/-- A number below `bound`, perhaps with a plus sign. -/
def parseUnsigned (bound : Nat) (cs : List Char) : Option Nat := do
  let n ← parseDigits (if cs.head? = some '+' then cs.tail else cs)
  if n < bound then some n else none

/-- A number from `-bound` to below `bound`, perhaps with a sign. -/
def parseSigned (bound : Nat) (cs : List Char) : Option Int :=
  if cs.head? = some '-' then do
    let n ← parseDigits cs.tail
    if n ≤ bound then some (-n) else none
  else (parseUnsigned bound cs).map Int.ofNat

theorem isDigit_of_mem_digits {n : Nat} (h : c ∈ digits n) : c.isDigit = true :=
  Nat.isDigit_of_mem_toDigits (by decide) (by decide) h

theorem digits_ne_nil (n : Nat) : digits n ≠ [] := Nat.toDigits_ne_nil

theorem parseDigits_digits (n : Nat) : parseDigits (digits n) = some n := by
  have hall : (digits n).all Char.isDigit = true := all_eq_true.mpr fun c hc => isDigit_of_mem_digits hc
  rw [parseDigits, if_pos ⟨digits_ne_nil n, hall⟩, digits, Nat.ofDigitChars_ten_toDigits]

theorem notMem_digits (hc : c.isDigit = false) (n : Nat) : c ∉ digits n := by
  intro h
  rw [isDigit_of_mem_digits h] at hc
  cases hc

theorem head_digits_ne (hc : c.isDigit = false) (n : Nat) : (digits n).head? ≠ some c :=
  fun h => notMem_digits hc n (mem_of_head? h)

theorem parseUnsigned_digits {bound n : Nat} (h : n < bound) : parseUnsigned bound (digits n) = some n := by
  simp [parseUnsigned, head_digits_ne (by decide : '+'.isDigit = false), parseDigits_digits, h]

theorem parseSigned_digits {bound : Nat} {i : Int} (hlo : -bound ≤ i) (hhi : i < bound) : parseSigned bound (intDigits i) = some i := by
  rw [intDigits]
  split
  · next hneg =>
    have hle : i.natAbs ≤ bound := by omega
    have hback : -(i.natAbs : Int) = i := by omega
    simp only [parseSigned, List.head?_cons, if_pos, tail_cons, parseDigits_digits, Option.bind_eq_bind, Option.bind_some, hle, hback]
  · next hpos =>
    have hlt : i.natAbs < bound := by omega
    rw [parseSigned, if_neg (head_digits_ne (by decide) _), parseUnsigned_digits hlt]
    exact congrArg some (by omega : (i.natAbs : Int) = i)

theorem notMem_intDigits (hc : c.isDigit = false) (hminus : c ≠ '-') (i : Int) : c ∉ intDigits i := by
  rw [intDigits]
  split
  · rw [mem_cons]
    exact fun h => h.elim hminus (notMem_digits hc _)
  · exact notMem_digits hc _

end Corium.Lib
