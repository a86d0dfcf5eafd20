/-
Libet/SafeQueue.lean

`SafeQueue` (`Threads.h`, `Threads.cpp`).

Every member function runs under the mutex of the queue, so each is one step:
`push` takes a task unless the queue is full or has been told to exit, and
`pop_wait`, once it has waited, takes the front task if there is one.
-/
import Mathlib.Data.List.Basic

namespace Libet

/-- `struct SafeQueue`; `capacity = 0` means unbounded. -/
structure SafeQueue (α : Type*) where
  items : List α
  capacity : Nat
  exited : Bool
  deriving DecidableEq, Repr

namespace SafeQueue

variable {α : Type*} (q : SafeQueue α) (v : α)

/-- `SafeQueue::SafeQueue`. -/
def new (capacity : Nat) : SafeQueue α := ⟨[], capacity, false⟩

/-- `push`. -/
def push : Bool × SafeQueue α :=
  if q.exited ∨ q.capacity ≠ 0 ∧ q.capacity ≤ q.items.length then (false, q)
  else (true, { q with items := q.items ++ [v] })

/-- `wait_ready` returns at once, or as soon as this holds. -/
def Ready : Prop := q.exited ∨ q.items ≠ []

instance : Decidable q.Ready := inferInstanceAs (Decidable (_ ∨ _))

/-- `pop_wait` behind `wait_ready`: the task, if there is one. -/
def popWait : Option α × SafeQueue α :=
  match q.items with
  | [] => (none, q)
  | v :: rest => (some v, { q with items := rest })

/-- `exit`. -/
def exit : SafeQueue α := { q with exited := true }

variable {q v}

/-- What a `push` does. -/
theorem push_cases : q.push v = (false, q) ∨
    q.push v = (true, { q with items := q.items ++ [v] }) := by
  simp only [push]
  split
  · exact Or.inl rfl
  · exact Or.inr rfl

/-- A queue without a capacity takes everything. -/
theorem push_unbounded (hcap : q.capacity = 0) (hexit : q.exited = false) :
    q.push v = (true, { q with items := q.items ++ [v] }) := by
  apply if_neg
  simp [hcap, hexit]

/-- What a `pop_wait` does. -/
theorem popWait_cases : q.items = [] ∧ q.popWait = (none, q) ∨
    ∃ v rest, q.items = v :: rest ∧ q.popWait = (some v, { q with items := rest }) := by
  cases h : q.items with
  | nil => exact Or.inl ⟨rfl, by simp only [popWait, h]⟩
  | cons v rest => exact Or.inr ⟨v, rest, rfl, by simp only [popWait, h]⟩

end SafeQueue

end Libet
