/-
Libet/Lib/Cells.lean

Arrays of a fixed number of cells, with every index checked.

`get` and `set` outside the array end with the index as an error, so a
computation that comes to `.ok` has stayed inside all the arrays it works on.
`write` stores a list from an index on; `upTo` reads from an index up to the
first cell that holds a given value, as one reads a terminated string.
-/
import Mathlib.Data.List.Basic
import Mathlib.Logic.Function.Basic

universe u

/-- An array of `n` cells. -/
abbrev Cells (n : Nat) (β : Type*) := Fin n → β

namespace Cells

variable {n : Nat} {β : Type*}

/-! ### Operations -/

def get (a : Cells n β) (i : Nat) : Except Nat β :=
  if h : i < n then .ok (a ⟨i, h⟩) else .error i

def set (a : Cells n β) (i : Nat) (x : β) : Except Nat (Cells n β) :=
  if h : i < n then .ok (Function.update a ⟨i, h⟩ x) else .error i

/-- The elements of a list are stored from `i` on. -/
def write (a : Cells n β) (i : Nat) : List β → Except Nat (Cells n β)
  | [] => .ok a
  | x :: xs => do
      let a ← a.set i x
      write a (i + 1) xs

/-- What the cells from `i` on hold up to the first `z`. -/
def upTo [DecidableEq β] (z : β) (a : Cells n β) (i : Nat) : Except Nat (List β) :=
  if h : i < n then
    if a ⟨i, h⟩ = z then .ok []
    else do return a ⟨i, h⟩ :: (← upTo z a (i + 1))
  else .error i
termination_by n - i

/-! ### Inside and outside -/

variable {a : Cells n β} {i e : Nat} {x : β} {xs : List β}

theorem ok_bind {ε : Type*} {α γ : Type u} (x : α) (f : α → Except ε γ) :
    (Except.ok x >>= f) = f x := rfl

theorem get_ok (h : i < n) : a.get i = .ok (a ⟨i, h⟩) := dif_pos h

theorem get_error (h : n ≤ i) : a.get i = .error i := dif_neg (Nat.not_lt.mpr h)

theorem set_ok (h : i < n) : a.set i x = .ok (Function.update a ⟨i, h⟩ x) := dif_pos h

theorem set_error (h : n ≤ i) : a.set i x = .error i := dif_neg (Nat.not_lt.mpr h)

/-- What is read was inside. -/
theorem lt_of_get (h : a.get i = .ok x) : i < n := by
  by_contra hi
  rw [get_error (Nat.le_of_not_lt hi)] at h
  cases h

/-- What a store leaves: the cell stored into, and the others. -/
theorem get_of_set {b : Cells n β} (h : a.set i x = .ok b) (j : Nat) :
    b.get j = if j = i then .ok x else a.get j := by
  by_cases hi : i < n
  · rw [set_ok hi] at h
    obtain rfl := Except.ok.inj h
    by_cases hji : j = i
    · subst hji
      rw [if_pos rfl, get_ok hi, Function.update_self]
    · rw [if_neg hji]
      by_cases hj : j < n
      · have hne : (⟨j, hj⟩ : Fin n) ≠ ⟨i, hi⟩ := fun heq => hji (congrArg Fin.val heq)
        rw [get_ok hj, get_ok hj, Function.update_of_ne hne]
      · rw [get_error (Nat.le_of_not_lt hj), get_error (Nat.le_of_not_lt hj)]
  · rw [set_error (Nat.le_of_not_lt hi)] at h
    cases h

/-- A list that fits is stored, and the other cells keep what they hold. -/
theorem write_ok (a : Cells n β) (i : Nat) (xs : List β) (h : i + xs.length ≤ n) :
    ∃ b, a.write i xs = .ok b ∧
      ∀ j, b.get j = if j < i then a.get j else (xs[j - i]?).elim (a.get j) .ok := by
  induction xs generalizing a i with
  | nil =>
      refine ⟨a, rfl, fun j => ?_⟩
      split <;> rfl
  | cons x xs ih =>
      rw [List.length_cons] at h
      have hset := set_ok (a := a) (x := x) (show i < n by omega)
      obtain ⟨b, hb, hget⟩ := ih (Function.update a ⟨i, by omega⟩ x) (i + 1) (by omega)
      refine ⟨b, ?_, fun j => ?_⟩
      · rw [write, hset, ok_bind]
        exact hb
      · rw [hget, get_of_set hset]
        rcases Nat.lt_trichotomy j i with hj | rfl | hj
        · -- in front of the list
          rw [if_pos (by omega), if_pos hj, if_neg (by omega)]
        · -- the first element
          rw [if_pos (by omega), if_neg (Nat.lt_irrefl j), if_pos rfl, Nat.sub_self]
          rfl
        · have hsub : j - i = (j - (i + 1)) + 1 := by omega
          rw [if_neg (by omega), if_neg (by omega), if_neg (by omega), hsub,
            List.getElem?_cons_succ]

/-- A list that does not fit ends at the first index behind the array. -/
theorem write_error (hi : i ≤ n) (h : n < i + xs.length) : a.write i xs = .error n := by
  induction xs generalizing a i with
  | nil =>
      rw [List.length_nil] at h
      omega
  | cons x xs ih =>
      rw [List.length_cons] at h
      rw [write]
      rcases Nat.eq_or_lt_of_le hi with rfl | hlt
      · rw [set_error (Nat.le_refl i)]
        rfl
      · rw [set_ok hlt, ok_bind]
        exact ih hlt (by omega)

/-- Where there is a terminator, reading stops inside. -/
theorem upTo_ok [DecidableEq β] {z : β} (hi : i ≤ e) (hz : a.get e = .ok z) :
    ∃ l, a.upTo z i = .ok l := by
  have he := lt_of_get hz
  induction hd : e - i generalizing i with
  | zero =>
      obtain rfl : i = e := by omega
      rw [get_ok he] at hz
      rw [upTo, dif_pos he, if_pos (Except.ok.inj hz)]
      exact ⟨[], rfl⟩
  | succ d ih =>
      obtain ⟨l, hl⟩ := ih (show i + 1 ≤ e by omega) (by omega)
      rw [upTo, dif_pos (show i < n by omega), hl]
      split
      · exact ⟨[], rfl⟩
      · exact ⟨_, rfl⟩

/-- Reading takes what stands in front of the terminator. -/
theorem upTo_eq [DecidableEq β] {z : β} (hxs : ∀ j c, xs[j]? = some c → a.get (i + j) = .ok c ∧ c ≠ z)
    (hz : a.get (i + xs.length) = .ok z) : a.upTo z i = .ok xs := by
  induction xs generalizing i with
  | nil =>
      have hz : a.get i = .ok z := hz
      have hi := lt_of_get hz
      rw [get_ok hi] at hz
      rw [upTo, dif_pos hi, if_pos (Except.ok.inj hz)]
  | cons x xs ih =>
      obtain ⟨hx, hne⟩ := hxs 0 x rfl
      have hx : a.get i = .ok x := hx
      have hi := lt_of_get hx
      rw [get_ok hi] at hx
      have hrest : a.upTo z (i + 1) = .ok xs := by
        refine ih (fun j c hc => ?_) ?_
        · have hnext := hxs (j + 1) c hc
          rwa [show i + (j + 1) = i + 1 + j by omega] at hnext
        · rwa [List.length_cons, show i + (xs.length + 1) = i + 1 + xs.length by omega] at hz
      rw [upTo, dif_pos hi, Except.ok.inj hx, if_neg hne, hrest]
      rfl

end Cells
