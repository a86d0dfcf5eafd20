/-
Libet/MultiBase.lean

`MultiBase::AllocBase` (`EventBase.cpp`), which `TcpServer` and `HandleAccept` ask for
a base.

The counter `m_id` is an `atomic<int>`, so calls of several threads are in the order of
their increments; it wraps, and `c % m_bases.size()` is taken in `size_t`, where a
negative `c` is a large number.  The bases take turns until the counter wraps; behind
that they do so only if `m_bases.size()` divides `2 ^ 32`
(`allocBase_round_robin`).
-/
import Mathlib.Data.Int.CardIntervalMod
import Mathlib.Data.Nat.Prime.Basic
import Mathlib.Algebra.Order.Ring.Int
import Libet.CInt

namespace Libet

/-- The counter, and how many bases there are. -/
structure MultiBase where
  id : Int
  size : Nat
  deriving DecidableEq, Repr

namespace MultiBase

/-- The constructor. -/
def new (sz : Nat) : MultiBase := ⟨0, sz⟩

/-- `AllocBase`: the index of the base, and what is left behind. -/
def allocBase (p : Platform) (m : MultiBase) : Nat × MultiBase :=
  (toSize p m.id % m.size, { m with id := toInt32 (m.id + 1) })

/-- What the next calls return. -/
def allocs (p : Platform) (m : MultiBase) : Nat → List Nat
  | 0 => []
  | k + 1 => (m.allocBase p).1 :: (m.allocBase p).2.allocs p k

theorem allocs_succ (p : Platform) (m : MultiBase) (k : Nat) :
    m.allocs p (k + 1) = (m.allocBase p).1 :: (m.allocBase p).2.allocs p k := rfl

end MultiBase

variable {p : Platform} {sz k b : Nat}

/-- The base that call `k` gets. -/
def baseTurn (p : Platform) (sz k : Nat) : Nat := toSize p (toInt32 k) % sz

theorem toInt32_toInt32_add (n d : Int) : toInt32 (toInt32 n + d) = toInt32 (n + d) :=
  Int.bmod_add_bmod

/-- The calls take the turns one after the other. -/
theorem allocs_eq_turns (p : Platform) (sz j k : Nat) :
    MultiBase.allocs p ⟨toInt32 j, sz⟩ k = (List.range k).map fun i => baseTurn p sz (j + i) := by
  induction k generalizing j with
  | zero => rfl
  | succ k ih =>
      have hnext : (MultiBase.allocBase p ⟨toInt32 j, sz⟩).2 = ⟨toInt32 (j + 1 : Nat), sz⟩ := by
        exact congrArg (MultiBase.mk · sz) (by rw [toInt32_toInt32_add, Nat.cast_succ])
      have hfirst : (MultiBase.allocBase p ⟨toInt32 j, sz⟩).1 = baseTurn p sz (j + 0) := by
        rw [Nat.add_zero, baseTurn, MultiBase.allocBase]
      calc MultiBase.allocs p ⟨toInt32 j, sz⟩ (k + 1)
          = baseTurn p sz (j + 0) :: (List.range k).map fun i => baseTurn p sz (j + 1 + i) := by
            rw [MultiBase.allocs_succ, hnext, ih, hfirst]
        _ = (List.range (k + 1)).map fun i => baseTurn p sz (j + i) := by
            rw [List.range_succ_eq_map, List.map_cons, List.map_map]
            refine congrArg (List.cons _) (List.map_congr_left fun i _ => ?_)
            rw [Function.comp_apply, Nat.add_assoc, Nat.add_comm 1]

theorem allocs_new (p : Platform) (sz k : Nat) :
    (MultiBase.new sz).allocs p k = (List.range k).map (baseTurn p sz) := by
  have h := allocs_eq_turns p sz 0 k
  simp only [Nat.zero_add] at h
  exact h

/-! ### Where the counter has not wrapped, and where it has -/

theorem baseTurn_of_lt (h : k < 2 ^ 31) : baseTurn p sz k = k % sz := by
  rw [baseTurn, toInt32_of_lt h, toSize_natCast p (by omega)]

theorem dvd_two_pow_sizeBits (p : Platform) : 2 ^ 32 ∣ 2 ^ p.sizeBits := by
  cases p
  · exact dvd_refl _
  · exact pow_dvd_pow 2 (by decide)

/-- The conversions keep the residue. -/
theorem baseTurn_of_dvd (h : sz ∣ 2 ^ 32) : baseTurn p sz k = k % sz := by
  have hpow : ((2 ^ 32 : Nat) : Int) ∣ (2 : Int) ^ p.sizeBits := by
    exact_mod_cast dvd_two_pow_sizeBits p
  have hsz : (sz : Int) ∣ ((2 ^ 32 : Nat) : Int) := Int.natCast_dvd_natCast.mpr h
  have hsize : (toSize p (toInt32 k) : Int) = toInt32 k % 2 ^ p.sizeBits :=
    Int.toNat_of_nonneg (Int.emod_nonneg _ (by positivity))
  have hmod : (toSize p (toInt32 k) : Int) % sz = k % sz := by
    calc (toSize p (toInt32 k) : Int) % sz
        = toInt32 k % sz := by rw [hsize, Int.emod_emod_of_dvd _ (hsz.trans hpow)]
      _ = k % sz := by
          rw [toInt32, ← Int.emod_emod_of_dvd _ hsz, Int.bmod_emod, Int.emod_emod_of_dvd _ hsz]
  exact_mod_cast hmod

/-- The last call before the counter is zero again. -/
theorem baseTurn_last (p : Platform) (sz : Nat) :
    baseTurn p sz (2 ^ 32 - 1) = (2 ^ p.sizeBits - 1) % sz := by
  cases p <;> rfl

theorem baseTurn_wrapped (p : Platform) (sz : Nat) : baseTurn p sz (2 ^ 32) = 0 := by
  have h : toSize p (toInt32 (2 ^ 32 : Nat)) = 0 := by cases p <;> rfl
  rw [baseTurn, h, Nat.zero_mod]

/-- A small divisor of the size of a `size_t` is a small power of two. -/
theorem dvd_of_dvd_sizeBits (hlt : sz < 2 ^ 31) (h : sz ∣ 2 ^ p.sizeBits) : sz ∣ 2 ^ 32 := by
  obtain ⟨j, -, rfl⟩ := (Nat.dvd_prime_pow Nat.prime_two).mp h
  have hj : j < 31 := (Nat.pow_lt_pow_iff_right (by decide)).mp hlt
  exact pow_dvd_pow 2 (by omega)

/-- The bases take turns for ever exactly if the wrap does not show. -/
theorem turns_iff_dvd (p : Platform) (hlt : sz < 2 ^ 31) :
    (∀ k, baseTurn p sz (k + 1) = (baseTurn p sz k + 1) % sz) ↔ sz ∣ 2 ^ 32 := by
  constructor
  · intro h
    have hlast := h (2 ^ 32 - 1)
    rw [baseTurn_last, show 2 ^ 32 - 1 + 1 = 2 ^ 32 by decide, baseTurn_wrapped, Nat.mod_add_mod,
      Nat.sub_add_cancel Nat.one_le_two_pow] at hlast
    exact dvd_of_dvd_sizeBits hlt (Nat.dvd_of_mod_eq_zero hlast.symm)
  · intro h k
    rw [baseTurn_of_dvd h, baseTurn_of_dvd h, Nat.mod_add_mod]

/-! ### Shares -/

/-- How often a base has its turn, as long as they are taken in order. -/
theorem count_turns (h : ∀ i < k, baseTurn p sz i = i % sz) (hb : b < sz) :
    ((List.range k).map (baseTurn p sz)).count b = k / sz + if b < k % sz then 1 else 0 := by
  have hcount : ((List.range k).map (baseTurn p sz)).count b = Nat.count (· ≡ b [MOD sz]) k := by
    induction k with
    | zero => rfl
    | succ k ih =>
        have hlast : baseTurn p sz k = k % sz := h k (Nat.lt_succ_self k)
        rw [List.range_succ, List.map_append, List.count_append, Nat.count_succ,
          ih fun i hi => h i (Nat.lt_succ_of_lt hi), List.map_singleton, List.count_singleton,
          hlast]
        refine congrArg _ (if_congr ?_ rfl rfl)
        rw [beq_iff_eq, Nat.ModEq, Nat.mod_eq_of_lt hb]
  rw [hcount, Nat.count_modEq_card k (Nat.zero_lt_of_lt hb) b, Nat.mod_eq_of_lt hb]

/-- The bases take turns: while the counter has not wrapped each has its share, and
this goes on for ever exactly if the number of bases divides `2 ^ 32`. -/
theorem allocBase_round_robin (p : Platform) (hlt : sz < 2 ^ 31) :
    (∀ k b, k ≤ 2 ^ 31 ∨ sz ∣ 2 ^ 32 → b < sz →
      ((MultiBase.new sz).allocs p k).count b = k / sz + if b < k % sz then 1 else 0) ∧
    ((∀ k, baseTurn p sz (k + 1) = (baseTurn p sz k + 1) % sz) ↔ sz ∣ 2 ^ 32) := by
  refine ⟨fun k b hk hb => ?_, turns_iff_dvd p hlt⟩
  rw [allocs_new]
  refine count_turns (fun i hi => ?_) hb
  rcases hk with hk | hdvd
  · exact baseTurn_of_lt (hi.trans_le hk)
  · exact baseTurn_of_dvd hdvd

/-- Three bases: the counter wraps to one that has just had its turn. -/
theorem allocBase_round_robin_three :
    ((MultiBase.new 3).allocs .x64 7).count 0 = 3 ∧
      ¬∀ k, baseTurn .x64 3 (k + 1) = (baseTurn .x64 3 k + 1) % 3 := by
  have h := @allocBase_round_robin 3 .x64 (by decide)
  exact ⟨h.1 7 0 (Or.inl (by decide)) (by decide), fun hk => absurd (h.2.mp hk) (by decide)⟩

end Libet
