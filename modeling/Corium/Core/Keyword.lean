/-
  Corium.Core.Keyword — keywords and their interning
  (`crates/corium-core/src/keyword.rs`).

  The source's interner keeps two maps and a counter: `next` starts at zero and
  grows by one per new keyword, so the ids are the positions of the keywords in
  the order they were interned. Here the interner is that list, with no keyword
  twice. An id is the position as a `u64`. The reader-local overlay is left out:
  nothing on the write path adds to it.
-/

import Corium.Core.Value

namespace Corium.Core

open Corium.Lib List

structure Keyword where
  ns : Option String
  name : String
  deriving DecidableEq, Repr

namespace Keyword

/-- What the derived order compares: namespace, then name, each by bytes. -/
def ordKey (k : Keyword) : Option Bytes × Bytes := (k.ns.map utf8, utf8 k.name)

theorem ordKey_injective : Function.Injective ordKey := by
  intro a b h
  simp only [ordKey, Prod.mk.injEq] at h
  have hns : a.ns = b.ns := Option.map_injective utf8_injective h.1
  have hname : a.name = b.name := utf8_injective h.2
  cases a; cases b
  simp_all

instance : Ord Keyword := ⟨fun a b => compare a.ordKey b.ordKey⟩

instance : Std.TransOrd Keyword where
  eq_swap {a b} := by
    show compare a.ordKey b.ordKey = (compare b.ordKey a.ordKey).swap
    exact Std.OrientedCmp.eq_swap
  isLE_trans {a b c} := by
    show (compare a.ordKey b.ordKey).isLE → (compare b.ordKey c.ordKey).isLE → (compare a.ordKey c.ordKey).isLE
    exact Std.TransCmp.isLE_trans

instance : Std.LawfulEqOrd Keyword where
  compare_self {a} := compare_same a.ordKey
  eq_of_compare {a b} h := by
    change compare a.ordKey b.ordKey = .eq at h
    exact ordKey_injective (eq_of_compare_eq h)

/-- The keyword's text, without the leading colon. -/
def text (k : Keyword) : String :=
  match k.ns with
  | some ns => ns ++ "/" ++ k.name
  | none => k.name

/-- Only the first slash separates the namespace. -/
def parse (text : String) : Keyword :=
  match text.toList.span (· ≠ '/') with
  | (ns, _ :: name) => if ns ≠ [] ∧ name ≠ [] then ⟨some (String.ofList ns), String.ofList name⟩ else ⟨none, text⟩
  | (_, []) => ⟨none, text⟩

theorem text_parse (s : String) : (parse s).text = s := by
  unfold parse
  split
  · rename_i ns c name hspan
    split
    · rw [span_eq_takeWhile_dropWhile, Prod.mk.injEq] at hspan
      have hc : c = '/' := by
        have := List.head?_dropWhile_not (fun c : Char => decide (c ≠ '/')) s.toList
        rw [hspan.2] at this
        simpa using this
      have happend := takeWhile_append_dropWhile (p := fun c : Char => decide (c ≠ '/')) (l := s.toList)
      rw [hspan.1, hspan.2, hc] at happend
      rw [← String.toList_inj]
      simp [text, ← happend]
    · rfl
  · rfl

end Keyword

structure KeywordInterner where
  names : List Keyword
  /-- No keyword has two ids. -/
  nodup : names.Nodup
  deriving DecidableEq

namespace KeywordInterner

def empty : KeywordInterner := ⟨[], nodup_nil⟩

/-- The number of interned keywords. -/
def len (i : KeywordInterner) : Nat := i.names.length

def get (i : KeywordInterner) (k : Keyword) : Option KwId := (i.names.idxOf? k).map UInt64.ofNat

def resolve (i : KeywordInterner) (id : KwId) : Option Keyword := i.names[id.toNat]?

/-- The id of `k`, minting the next one when `k` is new. -/
def intern (i : KeywordInterner) (k : Keyword) : KwId × KeywordInterner :=
  if h : k ∈ i.names then (UInt64.ofNat (i.names.idxOf k), i)
  else (UInt64.ofNat i.names.length, ⟨i.names ++ [k], List.nodup_append.mpr
    ⟨i.nodup, nodup_singleton k, fun a ha b hb => by
      rw [mem_singleton] at hb
      exact fun hab => h (hb ▸ hab ▸ ha)⟩⟩)

/-- `j` names everything `i` names, under the same ids. -/
def Extends (i j : KeywordInterner) : Prop := i.names <+: j.names

theorem Extends.refl (i : KeywordInterner) : i.Extends i := prefix_refl _

variable {i j : KeywordInterner}

theorem Extends.trans {k : KeywordInterner} (hij : i.Extends j) (hjk : j.Extends k) : i.Extends k :=
  List.IsPrefix.trans hij hjk

theorem intern_extends (i : KeywordInterner) (k : Keyword) : i.Extends (i.intern k).2 := by
  unfold intern Extends
  split
  · exact prefix_refl _
  · exact prefix_append _ _

theorem Extends.resolve (h : i.Extends j) {id : KwId} {k : Keyword}
    (hk : i.resolve id = some k) : j.resolve id = some k := by
  obtain ⟨t, ht⟩ := h
  have hlt : id.toNat < i.names.length := (List.getElem?_eq_some_iff.mp hk).1
  unfold KeywordInterner.resolve at hk ⊢
  rw [← ht, List.getElem?_append_left hlt, hk]

/-- Names are only added at the end, so none were if there are no more of them. -/
theorem Extends.eq_of_len (h : i.Extends j) (hlen : ¬ i.len < j.len) : i = j := by
  have hnames : i.names = j.names := List.IsPrefix.eq_of_length_le h (Nat.not_lt.mp hlen)
  cases i; cases j
  simp_all

theorem Extends.antisymm (hij : i.Extends j) (hji : j.Extends i) : i = j :=
  hij.eq_of_len fun hlt => absurd (List.IsPrefix.length_le hji) (Nat.not_le.mpr hlt)

/-- What was interned resolves, while ids fit `u64`. -/
theorem resolve_intern (k : Keyword) (hlen : (i.intern k).2.len ≤ 2 ^ 64) :
    (i.intern k).2.resolve (i.intern k).1 = some k := by
  unfold intern resolve len at *
  split
  · rename_i hmem
    rw [dif_pos hmem] at hlen
    have hidx : i.names.idxOf k < i.names.length := idxOf_lt_length_of_mem hmem
    have hlt : i.names.idxOf k < 2 ^ 64 := Nat.lt_of_lt_of_le hidx hlen
    simp only [UInt64.toNat_ofNat', Nat.mod_eq_of_lt hlt, List.getElem?_eq_getElem hidx, getElem_idxOf]
  · rename_i hmem
    rw [dif_neg hmem] at hlen
    have hlt : i.names.length < 2 ^ 64 := by simpa using hlen
    simp only [UInt64.toNat_ofNat', Nat.mod_eq_of_lt hlt, List.getElem?_concat_length]

end KeywordInterner

end Corium.Core
