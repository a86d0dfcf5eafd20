/-
Libet/SliceOrder.lean

`Slice::compare`, and the operators that use it.

`memcmp` reads the bytes as `unsigned char`, so `compare` is the lexicographic order of
these.  The smaller size goes through an `int`: where it does not fit, `memcmp` is
told to read too much or too little (`compare_exact`).
-/
import Mathlib.Algebra.Order.Ring.Int
import Libet.CInt

namespace Libet

/-! ### The functions -/

/-- The first difference of two byte strings. -/
def firstDiff : List UInt8 → List UInt8 → Ordering
  | x :: a, y :: b => if x = y then firstDiff a b else if x.toNat < y.toNat then .lt else .gt
  | _, _ => .eq

/-- `memcmp`.  Only the sign of what it returns is specified, so this is an
`Ordering`; reading past the end is undefined. -/
def memcmp (a b : List UInt8) (n : Nat) : Option Ordering :=
  if n ≤ a.length ∧ n ≤ b.length then some (firstDiff (a.take n) (b.take n)) else none

/-- `Slice::compare` for slices with these bytes. -/
def compareSlices (p : Platform) (a b : List UInt8) : Option Ordering :=
  let sz := a.length
  let bsz := b.length
  let minLen := toInt32 (if sz < bsz then sz else bsz : Nat)
  (memcmp a b (toSize p minLen)).map fun r =>
    if r = .eq then
      if sz < bsz then .lt
      else if sz > bsz then .gt
      else r
    else r

/-- `operator==`. -/
def sameSlices (a b : List UInt8) : Option Bool :=
  if a.length = b.length then (memcmp a b a.length).map (· == .eq) else some false

/-- The order of the bytes, as unsigned numbers. -/
def byteOrder (a b : List UInt8) : Ordering :=
  if a.map UInt8.toNat < b.map UInt8.toNat then .lt
  else if b.map UInt8.toNat < a.map UInt8.toNat then .gt
  else .eq

/-! ### Where the size fits -/

variable {p : Platform} {a b : List UInt8} {m n k : Nat}

theorem byteOrder_cons_self (x : UInt8) (a b : List UInt8) :
    byteOrder (x :: a) (x :: b) = byteOrder a b := by
  simp only [byteOrder, List.map_cons, List.cons_lt_cons_iff, Nat.lt_irrefl, true_and, false_or]

theorem byteOrder_cons_of_ne {x y : UInt8} (h : x ≠ y) (a b : List UInt8) :
    byteOrder (x :: a) (y :: b) = if x.toNat < y.toNat then .lt else .gt := by
  have hne : x.toNat ≠ y.toNat := fun heq => h (UInt8.toNat_inj.mp heq)
  simp only [byteOrder, List.map_cons, List.cons_lt_cons_iff, hne, hne.symm, false_and, or_false]
  split
  · rfl
  · rw [if_pos (by omega)]

/-- Behind a common part the rest decides. -/
theorem byteOrder_eq (hm : k ≤ a.length) (hn : k ≤ b.length) :
    byteOrder a b = (firstDiff (a.take k) (b.take k)).then (byteOrder (a.drop k) (b.drop k)) := by
  induction k generalizing a b with
  | zero => rfl
  | succ k ih =>
      obtain ⟨x, a, rfl⟩ := List.exists_cons_of_length_pos (Nat.zero_lt_of_lt hm)
      obtain ⟨y, b, rfl⟩ := List.exists_cons_of_length_pos (Nat.zero_lt_of_lt hn)
      rw [List.take_succ_cons, List.take_succ_cons, List.drop_succ_cons, List.drop_succ_cons,
        firstDiff]
      by_cases hxy : x = y
      · subst hxy
        rw [if_pos rfl, byteOrder_cons_self]
        exact ih (Nat.le_of_succ_le_succ hm) (Nat.le_of_succ_le_succ hn)
      · rw [if_neg hxy, byteOrder_cons_of_ne hxy]
        split <;> rfl

/-- One slice ends: the longer one is greater. -/
theorem byteOrder_of_nil (h : a = [] ∨ b = []) :
    byteOrder a b =
      if a.length < b.length then .lt else if a.length > b.length then .gt else .eq := by
  cases a <;> cases b <;> simp_all [byteOrder]

theorem ite_lt_eq_min (m n : Nat) : (if m < n then m else n) = min m n := by
  rw [Nat.min_def]
  split <;> split <;> omega

/-- The order of the bytes: the first difference decides, and then the sizes. -/
theorem byteOrder_sizes (a b : List UInt8) :
    byteOrder a b =
      (firstDiff (a.take (min a.length b.length)) (b.take (min a.length b.length))).then
        (if a.length < b.length then .lt else if a.length > b.length then .gt else .eq) := by
  have hnil : a.drop (min a.length b.length) = [] ∨ b.drop (min a.length b.length) = [] := by
    rw [List.drop_eq_nil_iff, List.drop_eq_nil_iff]
    omega
  have hlt : a.length - min a.length b.length < b.length - min a.length b.length ↔
      a.length < b.length := by omega
  have hgt : b.length - min a.length b.length < a.length - min a.length b.length ↔
      b.length < a.length := by omega
  rw [byteOrder_eq (Nat.min_le_left a.length b.length) (Nat.min_le_right _ _)]
  simp only [byteOrder_of_nil hnil, List.length_drop, gt_iff_lt, hlt, hgt]

/-- With the right size `compare` is the order of the bytes. -/
theorem compareSlices_of_fits
    (h : toSize p (toInt32 (min a.length b.length : Nat)) = min a.length b.length) :
    compareSlices p a b = some (byteOrder a b) := by
  rw [compareSlices, ite_lt_eq_min, h, memcmp,
    if_pos ⟨Nat.min_le_left _ _, Nat.min_le_right _ _⟩, byteOrder_sizes, Option.map_some]
  cases firstDiff (a.take (min a.length b.length)) (b.take (min a.length b.length)) with
  | lt => rfl
  | gt => rfl
  | eq => simp only [if_true, Ordering.eq_then]

/-- `==` is the same order, whatever the sizes. -/
theorem sameSlices_eq (a b : List UInt8) : sameSlices a b = some (byteOrder a b == .eq) := by
  rw [sameSlices, byteOrder_sizes]
  by_cases heq : a.length = b.length
  · rw [if_pos heq, memcmp, if_pos ⟨Nat.le_refl _, heq.le⟩, Option.map_some, heq, Nat.min_self,
      if_neg (Nat.lt_irrefl _), if_neg (Nat.lt_irrefl _), Ordering.then_eq]
  · rw [if_neg heq]
    have hsizes : (if a.length < b.length then Ordering.lt
        else if a.length > b.length then .gt else .eq) ≠ .eq := by
      split
      · decide
      · rw [if_pos (by omega)]
        decide
    refine congrArg some (beq_eq_false_iff_ne.mpr fun h => ?_).symm
    exact hsizes (Ordering.then_eq_eq.mp h).2

/-! ### Where it does not -/

/-- A large size does not come through the `int`. -/
theorem toSize_toInt32_ne (hk : 2 ^ 31 ≤ k) (hlt : k < 2 ^ (p.sizeBits - 1)) :
    toSize p (toInt32 k) ≠ k := by
  intro heq
  have hlow : -(2 ^ 31 : Int) ≤ toInt32 k := Int.le_bmod (by decide)
  have hhigh : toInt32 k < 2 ^ 31 := Int.bmod_lt (by decide)
  generalize toInt32 k = r at *
  cases p <;> simp only [toSize, Platform.sizeBits] at heq hlt <;> omega

theorem firstDiff_self (a : List UInt8) : firstDiff a a = .eq := by
  induction a with
  | nil => rfl
  | cons x a ih => rw [firstDiff, if_pos rfl, ih]

/-- Zeros, and a one at `k`. -/
def oneAt (k m : Nat) : List UInt8 := List.replicate k 0 ++ 1 :: List.replicate (m - k - 1) 0

theorem length_oneAt (h : k < m) : (oneAt k m).length = m := by
  rw [oneAt, List.length_append, List.length_cons, List.length_replicate, List.length_replicate]
  omega

theorem take_oneAt (k m : Nat) : (oneAt k m).take k = List.replicate k 0 := by
  rw [oneAt, List.take_append_of_le_length (by rw [List.length_replicate]),
    List.take_of_length_le (by rw [List.length_replicate])]

theorem drop_oneAt (k m : Nat) : (oneAt k m).drop k = 1 :: List.replicate (m - k - 1) 0 := by
  have hlen : (List.replicate k (0 : UInt8)).length = k := List.length_replicate
  rw [oneAt, List.drop_append_of_le_length hlen.ge, List.drop_of_length_le hlen.le, List.nil_append]

/-- The order finds the one. -/
theorem byteOrder_oneAt (hm : k < m) (hn : k < n) :
    byteOrder (oneAt k m) (List.replicate n 0) = .gt ∧
      byteOrder (List.replicate m 0) (oneAt k n) = .lt := by
  have hzeros (j : Nat) (hj : k < j) : (List.replicate j (0 : UInt8)).take k = List.replicate k 0 ∧
      (List.replicate j (0 : UInt8)).drop k = 0 :: List.replicate (j - k - 1) 0 := by
    obtain ⟨i, rfl⟩ := Nat.exists_eq_add_of_lt hj
    rw [List.take_replicate, List.drop_replicate, Nat.min_eq_left (by omega)]
    refine ⟨rfl, ?_⟩
    rw [← List.replicate_succ]
    congr 1
    omega
  constructor
  · rw [byteOrder_eq (k := k) (by rw [length_oneAt hm]; omega) (by rw [List.length_replicate]; omega),
      take_oneAt, drop_oneAt, (hzeros n hn).1, (hzeros n hn).2, firstDiff_self,
      byteOrder_cons_of_ne (by decide)]
    rfl
  · rw [byteOrder_eq (k := k) (by rw [List.length_replicate]; omega) (by rw [length_oneAt hn]; omega),
      take_oneAt, drop_oneAt, (hzeros m hm).1, (hzeros m hm).2, firstDiff_self,
      byteOrder_cons_of_ne (by decide)]
    rfl

/-- Where the bytes that are read are the same, the sizes decide. -/
theorem compareSlices_of_take (hk : toSize p (toInt32 (min a.length b.length : Nat)) = k)
    (ha : k ≤ a.length) (hb : k ≤ b.length) (htake : a.take k = b.take k) :
    compareSlices p a b = some
      (if a.length < b.length then .lt else if a.length > b.length then .gt else .eq) := by
  rw [compareSlices, ite_lt_eq_min, hk, memcmp, if_pos ⟨ha, hb⟩, htake, firstDiff_self]
  rfl

/-- **When `compare` compares.**  For slices of two sizes it is the order of the bytes,
whatever they are, exactly if the smaller size fits in an `int`; `==` agrees with that
order at all sizes. -/
theorem compare_exact (hm : m < 2 ^ (p.sizeBits - 1)) (hn : n < 2 ^ (p.sizeBits - 1)) :
    ((∀ a b : List UInt8, a.length = m → b.length = n →
      compareSlices p a b = some (byteOrder a b)) ↔ min m n < 2 ^ 31) ∧
    ∀ a b, sameSlices a b = some (byteOrder a b == .eq) := by
  refine ⟨⟨?_, ?_⟩, sameSlices_eq⟩
  · intro h
    by_contra hge
    have hmin : min m n < 2 ^ (p.sizeBits - 1) := by omega
    have hne := toSize_toInt32_ne (by omega) hmin
    rcases Nat.lt_or_gt_of_ne hne with hless | hmore
    · -- a difference behind what is read, against the sizes
      generalize hk : toSize p (toInt32 (min m n : Nat)) = k at hless
      have hkm : k < m := by omega
      have hkn : k < n := by omega
      have hlen (j : Nat) : (List.replicate j (0 : UInt8)).length = j := List.length_replicate
      have htake (j : Nat) (hj : k < j) : (List.replicate j (0 : UInt8)).take k =
          List.replicate k 0 := by rw [List.take_replicate, Nat.min_eq_left hj.le]
      rcases Nat.lt_or_ge n m with hnm | hmn
      · have hread := compareSlices_of_take (p := p) (k := k) (a := List.replicate m 0)
          (b := oneAt k n) (by rw [hlen, length_oneAt hkn]; exact hk) (by rw [hlen]; omega)
          (by rw [length_oneAt hkn]; omega) (by rw [htake m hkm, take_oneAt])
        rw [h _ _ (hlen m) (length_oneAt hkn), (byteOrder_oneAt hkm hkn).2, hlen, length_oneAt hkn,
          if_neg (by omega), if_pos hnm] at hread
        exact absurd hread (by decide)
      · have hread := compareSlices_of_take (p := p) (k := k) (a := oneAt k m)
          (b := List.replicate n 0) (by rw [hlen, length_oneAt hkm]; exact hk)
          (by rw [length_oneAt hkm]; omega) (by rw [hlen]; omega) (by rw [htake n hkn, take_oneAt])
        rw [h _ _ (length_oneAt hkm) (hlen n), (byteOrder_oneAt hkm hkn).1, hlen, length_oneAt hkm,
          if_neg (show ¬m > n by omega)] at hread
        split at hread <;> exact absurd hread (by decide)
    · -- the slice that ends first is read past its end
      have hread := h (List.replicate m 0) (List.replicate n 0) List.length_replicate
        List.length_replicate
      rw [compareSlices, ite_lt_eq_min, List.length_replicate, List.length_replicate, memcmp,
        List.length_replicate, List.length_replicate, if_neg (by omega)] at hread
      cases hread
  · rintro hlt a b rfl rfl
    apply compareSlices_of_fits
    rw [toInt32_of_lt hlt, toSize_natCast p (by omega)]

/-- Bytes above 127 are the greater ones. -/
theorem compare_exact_high : compareSlices .x64 [65, 66, 67] [65, 200] = some .lt :=
  ((compare_exact (p := .x64) (m := 3) (n := 2) (by decide) (by decide)).1.mpr (by decide)
    [65, 66, 67] [65, 200] rfl rfl).trans (by decide)

end Libet
