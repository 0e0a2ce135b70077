/-
  Corium.Lib.OrdCode — byte codes whose byte order is the order of what they
  encode.

  `OrdCode f` says one thing: comparing two codes followed by anything compares
  the encoded values first and what follows second. From it come, for every
  such code, that it preserves order, is injective, and delimits itself (no
  code is a proper prefix of another), so codes compose by concatenation.
  Fixed-width big-endian integers are such a code.

  Last, the scan of a sorted key list by prefix: the keys from the prefix on,
  taken while they start with it, are all the keys that start with it.
-/

import Mathlib

namespace Corium.Lib

open List

abbrev Bytes := List UInt8

theorem compare_same {α : Type} [Ord α] [Std.ReflOrd α] (a : α) : compare a a = .eq := Std.ReflCmp.compare_self

theorem eq_of_compare_eq {α : Type} [Ord α] [Std.LawfulEqOrd α] {a b : α} (h : compare a b = .eq) : a = b :=
  Std.LawfulEqCmp.eq_of_compare h

theorem eq_of_isLE {α : Type} [Ord α] [Std.TransOrd α] [Std.LawfulEqOrd α] {a b : α} (h : (compare a b).isLE = true)
    (h' : (compare b a).isLE = true) : a = b := by
  have hswap : compare b a = (compare a b).swap := Std.OrientedCmp.eq_swap
  cases hc : compare a b with
  | eq => exact eq_of_compare_eq hc
  | lt =>
    rw [hswap, hc] at h'
    cases h'
  | gt =>
    rw [hc] at h
    cases h

/-- Pairs compare by their first component, then by their second. -/
instance ordPair {α β : Type} [Ord α] [Ord β] : Ord (α × β) := ⟨compareLex (compareOn (·.1)) (compareOn (·.2))⟩

instance transOrdPair {α β : Type} [Ord α] [Ord β] [Std.TransOrd α] [Std.TransOrd β] : Std.TransOrd (α × β) :=
  inferInstanceAs (Std.TransCmp (compareLex (compareOn fun x : α × β => x.1) (compareOn fun x => x.2)))

instance lawfulEqOrdPair {α β : Type} [Ord α] [Ord β] [Std.LawfulEqOrd α] [Std.LawfulEqOrd β] :
    Std.LawfulEqOrd (α × β) where
  compare_self {a} := by
    show (compare a.1 a.1).then (compare a.2 a.2) = .eq
    rw [compare_same, compare_same]
    rfl
  eq_of_compare {a b} h := by
    change (compare a.1 b.1).then (compare a.2 b.2) = .eq at h
    obtain ⟨h1, h2⟩ := Ordering.then_eq_eq.mp h
    exact Prod.ext (eq_of_compare_eq h1) (eq_of_compare_eq h2)

theorem compare_nil_nil : compare ([] : Bytes) [] = .eq := rfl

theorem compare_nil_cons (b : UInt8) (s : Bytes) : compare [] (b :: s) = .lt := rfl

theorem compare_cons_nil (b : UInt8) (s : Bytes) : compare (b :: s) [] = .gt := rfl

theorem compare_cons_cons (a b : UInt8) (s t : Bytes) :
    compare (a :: s) (b :: t) = (compare a b).then (compare s t) :=
  List.compareLex_cons_cons

@[simp] theorem compare_cons_same (b : UInt8) (s t : Bytes) : compare (b :: s) (b :: t) = compare s t := by
  rw [compare_cons_cons, compare_same]
  rfl

/-- A common prefix does not take part in the comparison. -/
@[simp] theorem compare_append_left (p s t : Bytes) : compare (p ++ s) (p ++ t) = compare s t := by
  induction p with
  | nil => rfl
  | cons b p ih => rw [cons_append, cons_append, compare_cons_same, ih]

/-! ## Order-preserving self-delimiting codes -/

section OrdCode

variable {α β : Type} [Ord α]

def OrdCode (f : α → Bytes) : Prop :=
  ∀ x y s t, compare (f x ++ s) (f y ++ t) = (compare x y).then (compare s t)

variable {f : α → Bytes}

theorem OrdCode.compare_eq (hf : OrdCode f) (x y : α) : compare (f x) (f y) = compare x y := by
  have h := hf x y [] []
  rwa [append_nil, append_nil, compare_nil_nil, Ordering.then_eq] at h

/-- Codes delimit themselves: what follows a code is determined with it. -/
theorem OrdCode.append_inj [Std.LawfulEqOrd α] (hf : OrdCode f) {x y : α} {s t : Bytes}
    (h : f x ++ s = f y ++ t) : x = y ∧ s = t := by
  have hc := hf x y s t
  rw [h, compare_same] at hc
  obtain ⟨hxy, hst⟩ := Ordering.then_eq_eq.mp hc.symm
  exact ⟨Std.LawfulEqCmp.eq_of_compare hxy, Std.LawfulEqCmp.eq_of_compare hst⟩

/-- A code starts exactly what begins with it, and the rest goes on. -/
theorem OrdCode.prefix_iff [Std.LawfulEqOrd α] (hf : OrdCode f) {x y : α} {s t : Bytes} :
    f x ++ s <+: f y ++ t ↔ x = y ∧ s <+: t := by
  constructor
  · rintro ⟨u, hu⟩
    rw [append_assoc] at hu
    obtain ⟨hxy, hst⟩ := hf.append_inj hu
    exact ⟨hxy, u, hst⟩
  · rintro ⟨rfl, u, rfl⟩
    exact ⟨u, append_assoc _ _ _⟩

theorem OrdCode.injective [Std.LawfulEqOrd α] (hf : OrdCode f) : Function.Injective f := by
  intro x y h
  exact (hf.append_inj (s := []) (t := []) (by rw [h])).1

/-- A type compared as another one is encoded as it. -/
theorem OrdCode.comp [Ord β] (hf : OrdCode f) (g : β → α)
    (hg : ∀ x y, compare (g x) (g y) = compare x y) : OrdCode (f ∘ g) := by
  intro x y s t
  rw [← hg x y]
  exact hf (g x) (g y) s t

end OrdCode

/-! ## Big-endian integers -/

/-- The `n` low bytes of `x`, most significant first. -/
def beBytes : Nat → Nat → Bytes
  | 0, _ => []
  | n + 1, x => UInt8.ofNat (x / 256 ^ n) :: beBytes n (x % 256 ^ n)

@[simp] theorem beBytes_length (n x : Nat) : (beBytes n x).length = n := by
  induction n generalizing x with
  | zero => rfl
  | succ n ih => simp [beBytes, ih]

/-- Comparing quotients and then remainders compares the numbers. -/
theorem compare_div_then_mod (x y d : Nat) (hd : 0 < d) :
    (compare (x / d) (y / d)).then (compare (x % d) (y % d)) = compare x y := by
  have hx := Nat.div_add_mod x d
  have hy := Nat.div_add_mod y d
  have hxm := Nat.mod_lt x hd
  have hym := Nat.mod_lt y hd
  have hmono : ∀ {a b}, a < b → d * a + d ≤ d * b := fun h => Nat.mul_le_mul_left d h
  rcases Nat.lt_trichotomy (x / d) (y / d) with hq | hq | hq
  · have hlt : x < y := by have := hmono hq; omega
    rw [Nat.compare_eq_lt.mpr hq, Nat.compare_eq_lt.mpr hlt]
    rfl
  · rw [hq, compare_same, Ordering.eq_then]
    rw [hq] at hx
    rcases Nat.lt_trichotomy (x % d) (y % d) with hr | hr | hr
    · rw [Nat.compare_eq_lt.mpr hr, Nat.compare_eq_lt.mpr (by omega)]
    · rw [Nat.compare_eq_eq.mpr hr, Nat.compare_eq_eq.mpr (by omega)]
    · rw [Nat.compare_eq_gt.mpr hr, Nat.compare_eq_gt.mpr (by omega)]
  · have hlt : y < x := by have := hmono hq; omega
    rw [Nat.compare_eq_gt.mpr hq, Nat.compare_eq_gt.mpr hlt]
    rfl

theorem compare_beBytes (n : Nat) {x y : Nat} (hx : x < 256 ^ n) (hy : y < 256 ^ n) (s t : Bytes) :
    compare (beBytes n x ++ s) (beBytes n y ++ t) = (compare x y).then (compare s t) := by
  induction n generalizing x y with
  | zero =>
    have : x = y := by rw [Nat.pow_zero] at hx hy; omega
    subst this
    rw [Nat.compare_eq_eq.mpr rfl]
    rfl
  | succ n ih =>
    have hpos : 0 < 256 ^ n := Nat.pow_pos (by decide)
    have hbyte : ∀ z, z < 256 ^ (n + 1) → (UInt8.ofNat (z / 256 ^ n)).toNat = z / 256 ^ n := by
      intro z hz
      have : z / 256 ^ n < 256 := Nat.div_lt_of_lt_mul (by rwa [Nat.pow_succ] at hz)
      simpa [UInt8.toNat_ofNat'] using this
    rw [beBytes, beBytes, cons_append, cons_append, compare_cons_cons,
      ih (Nat.mod_lt _ hpos) (Nat.mod_lt _ hpos), UInt8.compare_eq_toNat_compare_toNat, hbyte x hx, hbyte y hy,
      ← Ordering.then_assoc, compare_div_then_mod _ _ _ hpos]

/-- A bounded number, written big-endian, is an order code of whatever it is the rank of. -/
theorem ordCode_beBytes {α : Type} [Ord α] (n : Nat) (rank : α → Nat) (hlt : ∀ x, rank x < 256 ^ n)
    (hrank : ∀ x y, compare (rank x) (rank y) = compare x y) : OrdCode fun x => beBytes n (rank x) := by
  intro x y s t
  rw [← hrank x y]
  exact compare_beBytes n (hlt x) (hlt y) s t

/-- The number a big-endian byte list writes. -/
def beValue (bs : Bytes) : Nat := bs.foldl (fun acc b => acc * 256 + b.toNat) 0

theorem foldl_beBytes (n x acc : Nat) (hx : x < 256 ^ n) :
    (beBytes n x).foldl (fun acc b => acc * 256 + b.toNat) acc = acc * 256 ^ n + x := by
  induction n generalizing x acc with
  | zero =>
    rw [Nat.pow_zero] at hx
    rw [beBytes, foldl_nil, Nat.pow_zero]
    omega
  | succ n ih =>
    have hpos : 0 < 256 ^ n := Nat.pow_pos (by decide)
    have hdiv := Nat.div_add_mod x (256 ^ n)
    have hq : x / 256 ^ n < 256 := Nat.div_lt_of_lt_mul (by rwa [Nat.pow_succ] at hx)
    have hbyte : (UInt8.ofNat (x / 256 ^ n)).toNat = x / 256 ^ n := by
      simpa [UInt8.toNat_ofNat'] using hq
    rw [beBytes, foldl_cons, ih _ _ (Nat.mod_lt _ hpos), hbyte, Nat.pow_succ]
    calc (acc * 256 + x / 256 ^ n) * 256 ^ n + x % 256 ^ n
        = acc * (256 ^ n * 256) + (256 ^ n * (x / 256 ^ n) + x % 256 ^ n) := by ring
      _ = acc * (256 ^ n * 256) + x := by rw [hdiv]

@[simp] theorem beValue_beBytes {n x : Nat} (hx : x < 256 ^ n) : beValue (beBytes n x) = x := by
  rw [beValue, foldl_beBytes n x 0 hx]
  omega

theorem foldl_digits (bs : Bytes) (acc : Nat) :
    bs.foldl (fun acc b => acc * 256 + b.toNat) acc = acc * 256 ^ bs.length + beValue bs := by
  induction bs generalizing acc with
  | nil => simp [beValue]
  | cons b bs ih =>
    rw [beValue, foldl_cons, foldl_cons, ih, ih (0 * 256 + b.toNat), length_cons, Nat.pow_succ]
    ring

theorem beValue_cons (b : UInt8) (bs : Bytes) : beValue (b :: bs) = b.toNat * 256 ^ bs.length + beValue bs := by
  rw [beValue, foldl_cons, foldl_digits, Nat.zero_mul, Nat.zero_add]

theorem beValue_lt (bs : Bytes) : beValue bs < 256 ^ bs.length := by
  induction bs with
  | nil => decide
  | cons b bs ih =>
    have hb : b.toNat + 1 ≤ 256 := b.toNat_lt
    have hmul : (b.toNat + 1) * 256 ^ bs.length ≤ 256 * 256 ^ bs.length := Nat.mul_le_mul_right _ hb
    rw [beValue_cons, length_cons, Nat.pow_succ]
    rw [Nat.add_mul] at hmul
    omega

/-- Every byte list is the code of the number it writes. -/
theorem beBytes_beValue (bs : Bytes) : beBytes bs.length (beValue bs) = bs := by
  induction bs with
  | nil => rfl
  | cons b bs ih =>
    have hlt := beValue_lt bs
    have hpos : 0 < 256 ^ bs.length := Nat.pow_pos (by decide)
    have hdiv : beValue (b :: bs) / 256 ^ bs.length = b.toNat := by
      rw [beValue_cons, Nat.mul_comm, Nat.mul_add_div hpos, Nat.div_eq_of_lt hlt, Nat.add_zero]
    have hmod : beValue (b :: bs) % 256 ^ bs.length = beValue bs := by
      rw [beValue_cons, Nat.mul_comm, Nat.mul_add_mod, Nat.mod_eq_of_lt hlt]
    rw [length_cons, beBytes, hdiv, hmod, ih, UInt8.ofNat_toNat]

/-! ## Scanning a sorted key list by prefix -/

/-- Between a prefix and a key that starts with it, every key starts with it. -/
theorem prefix_of_between {p k k' : Bytes} (hpk : compare p k ≠ .gt) (hkk : compare k k' ≠ .gt)
    (hp : p <+: k') : p <+: k := by
  induction p generalizing k k' with
  | nil => exact nil_prefix
  | cons b p ih =>
    obtain ⟨t, rfl⟩ := hp
    cases k with
    | nil => exact absurd (compare_cons_nil b p) hpk
    | cons c k =>
      rw [cons_append] at hkk
      rw [compare_cons_cons] at hpk hkk
      have hbc : compare b c ≠ .gt := by
        intro h; rw [h] at hpk; exact hpk rfl
      have hcb : compare c b ≠ .gt := by
        intro h; rw [h] at hkk; exact hkk rfl
      have heq : b = c := by
        rw [UInt8.compare_eq_toNat_compare_toNat, Nat.compare_ne_gt] at hbc hcb
        exact UInt8.toNat_inj.mp (Nat.le_antisymm hbc hcb)
      subst heq
      rw [compare_same] at hpk hkk
      exact cons_prefix_cons.mpr ⟨rfl, ih hpk hkk (prefix_append p t)⟩

/-- A prefix compares at most equal to what it starts. -/
theorem compare_prefix {p k : Bytes} (h : p <+: k) : compare p k ≠ .gt := by
  obtain ⟨t, rfl⟩ := h
  have : compare (p ++ []) (p ++ t) = compare [] t := compare_append_left p [] t
  rw [append_nil] at this
  rw [this]
  cases t <;> exact nofun

variable {γ : Type}

/-- The keys from `p` on, taken while they start with `p`, are the keys that start with `p`. -/
theorem takeWhile_prefix_eq_filter (p : Bytes) (key : γ → Bytes) (l : List γ)
    (hs : l.Pairwise fun x y => compare (key x) (key y) = .lt) :
    (l.filter fun x => compare p (key x) != .gt).takeWhile (fun x => p.isPrefixOf (key x)) =
      l.filter fun x => p.isPrefixOf (key x) := by
  induction l with
  | nil => rfl
  | cons x l ih =>
    obtain ⟨hx, hl⟩ := pairwise_cons.mp hs
    by_cases hp : p <+: key x
    · have hpb : p.isPrefixOf (key x) = true := isPrefixOf_iff_prefix.mpr hp
      have hge : (compare p (key x) != .gt) = true := by simpa using compare_prefix hp
      simp only [filter_cons, hge, hpb, if_true, takeWhile_cons, ih hl]
    · have hpb : p.isPrefixOf (key x) = false :=
        Bool.eq_false_iff.mpr fun h => hp ( isPrefixOf_iff_prefix.mp h)
      by_cases hge : (compare p (key x) != .gt) = true
      · -- past the prefix: nothing later starts with it
        have hnone : ∀ y ∈ l, p.isPrefixOf (key y) = false := by
          intro y hy
          by_contra h
          have hy' : p <+: key y := isPrefixOf_iff_prefix.mp (by simpa using h)
          exact hp (prefix_of_between (by simpa using hge) (by rw [hx y hy]; exact nofun) hy')
        simp only [filter_cons, hge, if_true, takeWhile_cons, hpb, Bool.false_eq_true, if_false]
        exact (filter_eq_nil_iff.mpr fun y hy => by simp [hnone y hy]).symm
      · simp only [filter_cons, hge, hpb, Bool.false_eq_true, if_false]
        exact ih hl

end Corium.Lib
