/-
Libet/Lib/Heap.lean

A heap of blocks, as `new[]` and `delete[]` see it.

A block is a list of cells at an address; `alloc` takes an address that was
never used before, and `free`, `load` and `store` fail on a block that is not
there, or outside its bounds.  `none` is what a program with undefined behaviour
gets.

`Frame h h' p p'` says that the owner of the block `p` (or of none) has turned
the heap `h` into `h'`, and now owns `p'`: nobody else's block is touched,
nothing that was owned is left behind, and what is owned now was owned before or
is new.  Frames compose (`Frame.trans`), and what somebody else owns survives
them (`Frame.block_other`).
-/
import Mathlib.Data.List.Basic
import Mathlib.Logic.Function.Basic

/-- Blocks at addresses below `next`. -/
structure Heap (β : Type*) where
  block : Nat → Option (List β)
  next : Nat
  fresh : ∀ p, next ≤ p → block p = none

namespace Heap

variable {β : Type*}

/-! ### Operations -/

def empty : Heap β := ⟨fun _ => none, 0, fun _ _ => rfl⟩

/-- `xs` written over `ys` from position `off` on. -/
def splice (ys : List β) (off : Nat) (xs : List β) : List β :=
  ys.take off ++ xs ++ ys.drop (off + xs.length)

/-- A new block with the given cells. -/
def alloc (h : Heap β) (xs : List β) : Nat × Heap β :=
  (h.next, { block := Function.update h.block h.next (some xs)
             next := h.next + 1
             fresh := fun p hp => by
               rw [Function.update_of_ne (Nat.ne_of_gt hp)]
               exact h.fresh p (Nat.le_of_succ_le hp) })

/-- The block at `p` goes. -/
def free (h : Heap β) (p : Nat) : Option (Heap β) :=
  match h.block p with
  | none => none
  | some _ => some
      { block := Function.update h.block p none
        next := h.next
        fresh := fun q hq => by
          rw [Function.update_apply]
          split
          · rfl
          · exact h.fresh q hq }

/-- `n` cells of the block at `p`, from position `off` on. -/
def load (h : Heap β) (p off n : Nat) : Option (List β) :=
  match h.block p with
  | none => none
  | some ys => if off + n ≤ ys.length then some ((ys.drop off).take n) else none

/-- The cells of the block at `p` from position `off` on become `xs`. -/
def store (h : Heap β) (p off : Nat) (xs : List β) : Option (Heap β) :=
  match hp : h.block p with
  | none => none
  | some ys =>
      if off + xs.length ≤ ys.length then some
        { block := Function.update h.block p (some (splice ys off xs))
          next := h.next
          fresh := fun q hq => by
            rw [Function.update_of_ne]
            · exact h.fresh q hq
            · rintro rfl
              rw [h.fresh q hq] at hp
              cases hp }
      else none

/-! ### What they do -/

variable {h h' h'' : Heap β} {p : Nat} {ys : List β}

theorem block_alloc (h : Heap β) (xs : List β) :
    (h.alloc xs).2.block = Function.update h.block (h.alloc xs).1 (some xs) := rfl

theorem alloc_fresh (h : Heap β) (xs : List β) : h.block (h.alloc xs).1 = none :=
  h.fresh h.next (Nat.le_refl _)

theorem free_some (hp : h.block p = some ys) :
    ∃ h', h.free p = some h' ∧ h'.block = Function.update h.block p none := by
  simp only [free, hp]
  exact ⟨_, rfl, rfl⟩

theorem load_some (hp : h.block p = some ys) {off n : Nat} (hn : off + n ≤ ys.length) :
    h.load p off n = some ((ys.drop off).take n) := by
  simp only [load, hp, if_pos hn]

theorem store_some (hp : h.block p = some ys) {off : Nat} {xs : List β}
    (hn : off + xs.length ≤ ys.length) :
    ∃ h', h.store p off xs = some h' ∧
      h'.block = Function.update h.block p (some (splice ys off xs)) := by
  rw [store]
  split
  · rename_i heq
    rw [hp] at heq
    cases heq
  · rename_i zs heq
    obtain rfl : ys = zs := Option.some.inj (hp.symm.trans heq)
    rw [if_pos hn]
    exact ⟨_, rfl, rfl⟩

/-! ### Pointers that may be null -/

/-- The block a pointer points to. -/
def pointee (h : Heap β) (o : Option Nat) : Option (List β) := o.bind h.block

/-- A pointer that is not null points to a block. -/
def Alive (h : Heap β) (o : Option Nat) : Prop := ∀ p, o = some p → (h.block p).isSome

/-- `delete[]`. -/
def delete (h : Heap β) : Option Nat → Option (Heap β)
  | none => some h
  | some p => h.free p

/-- `n` cells behind a pointer; nothing is read through null. -/
def read (h : Heap β) (o : Option Nat) (off n : Nat) : Option (List β) :=
  match o with
  | none => if n = 0 then some [] else none
  | some p => h.load p off n

/-- `xs` is copied behind a pointer; nothing is written through null. -/
def write (h : Heap β) (o : Option Nat) (off : Nat) (xs : List β) : Option (Heap β) :=
  match o with
  | none => if xs = [] then some h else none
  | some p => h.store p off xs

variable {o : Option Nat}

theorem Alive.pointee (ha : h.Alive o) : o = none ∧ h.pointee o = none ∨
    ∃ p ys, o = some p ∧ h.block p = some ys ∧ h.pointee o = some ys := by
  cases o with
  | none => exact Or.inl ⟨rfl, rfl⟩
  | some p =>
      obtain ⟨ys, hys⟩ := Option.isSome_iff_exists.mp (ha p rfl)
      exact Or.inr ⟨p, ys, rfl, hys, hys⟩

theorem alive_none (h : Heap β) : h.Alive none := by
  intro p hp
  cases hp

/-! ### Frames -/

/-- The owner of `p` has turned `h` into `h'` and owns `p'` now. -/
structure Frame (h h' : Heap β) (p p' : Option Nat) : Prop where
  other : ∀ q, p ≠ some q → p' ≠ some q → h'.block q = h.block q
  gone : ∀ q, p = some q → p' ≠ some q → h'.block q = none
  new : ∀ q, p' = some q → p = some q ∨ h.block q = none

namespace Frame

variable {o o' o'' : Option Nat}

theorem refl (h : Heap β) (o : Option Nat) : Frame h h o o :=
  ⟨fun _ _ _ => rfl, fun _ hq hne => absurd hq hne, fun _ hq => Or.inl hq⟩

theorem trans (hf : Frame h h' o o') (hf' : Frame h' h'' o' o'') : Frame h h'' o o'' where
  other := by
    intro q hq hq''
    by_cases hq' : o' = some q
    · -- the block was new in between
      rw [hf'.gone q hq' hq'']
      exact ((hf.new q hq').resolve_left hq).symm
    · rw [hf'.other q hq' hq'', hf.other q hq hq']
  gone := by
    intro q hq hq''
    by_cases hq' : o' = some q
    · exact hf'.gone q hq' hq''
    · rw [hf'.other q hq' hq'', hf.gone q hq hq']
  new := by
    intro q hq''
    by_cases hq' : o' = some q
    · exact hf.new q hq'
    · have hnone := (hf'.new q hq'').resolve_left hq'
      by_cases hq : o = some q
      · exact Or.inl hq
      · rw [hf.other q hq hq'] at hnone
        exact Or.inr hnone

/-- What somebody else owns is untouched, and not taken. -/
theorem block_other (hf : Frame h h' o o') {q : Nat} (hq : o ≠ some q)
    (hsome : (h.block q).isSome) : h'.block q = h.block q ∧ o' ≠ some q := by
  have hne : o' ≠ some q := by
    intro hq'
    rw [(hf.new q hq').resolve_left hq] at hsome
    cases hsome
  exact ⟨hf.other q hq hne, hne⟩

/-- A block that is there is owned, or was there and is somebody else's. -/
theorem owned (hf : Frame h h' o o') {q : Nat} (hsome : (h'.block q).isSome) :
    o' = some q ∨ o ≠ some q ∧ (h.block q).isSome := by
  by_cases hq' : o' = some q
  · exact Or.inl hq'
  · right
    by_cases hq : o = some q
    · rw [hf.gone q hq hq'] at hsome
      cases hsome
    · rw [hf.other q hq hq'] at hsome
      exact ⟨hq, hsome⟩

theorem alloc (h : Heap β) (xs : List β) :
    Frame h (h.alloc xs).2 none (some (h.alloc xs).1) where
  other := by
    intro q _ hq
    rw [block_alloc, Function.update_of_ne]
    rintro rfl
    exact hq rfl
  gone := by
    intro q hq
    cases hq
  new := by
    intro q hq
    obtain rfl := Option.some.inj hq
    exact Or.inr (alloc_fresh h xs)

theorem of_update {x : Option (List β)} (hb : h'.block = Function.update h.block p x) :
    Frame h h' (some p) (some p) where
  other := by
    intro q hq _
    rw [hb, Function.update_of_ne]
    rintro rfl
    exact hq rfl
  gone _ hq hne := absurd hq hne
  new _ hq := Or.inl hq

theorem of_free (hb : h'.block = Function.update h.block p none) :
    Frame h h' (some p) none where
  other := by
    intro q hq _
    rw [hb, Function.update_of_ne]
    rintro rfl
    exact hq rfl
  gone := by
    intro q hq _
    obtain rfl := Option.some.inj hq
    rw [hb, Function.update_self]
  new := by
    intro q hq
    cases hq

/-- A new block takes the place of an old one, which is deleted last. -/
theorem replace (hf : Frame h h' none o') (hf' : Frame h' h'' o none) : Frame h h'' o o' where
  other := by
    intro q hq hq'
    rw [hf'.other q hq (fun hn => by cases hn), hf.other q (fun hn => by cases hn) hq']
  gone := by
    intro q hq _
    exact hf'.gone q hq fun hn => by cases hn
  new := by
    intro q hq'
    exact Or.inr ((hf.new q hq').resolve_left fun hn => by cases hn)

/-- A pointer of somebody else points where it did. -/
theorem alive_other (hf : Frame h h' o o') {r : Option Nat} (ha : h.Alive r)
    (hr : ∀ q, r = some q → o ≠ some q) : h'.Alive r ∧ h'.pointee r = h.pointee r := by
  cases r with
  | none => exact ⟨alive_none h', rfl⟩
  | some q =>
      have hq := (hf.block_other (hr q rfl) (ha q rfl)).1
      refine ⟨?_, hq⟩
      intro q' hq'
      obtain rfl := Option.some.inj hq'
      rw [hq]
      exact ha q rfl

end Frame

/-! ### What they do through a pointer -/

theorem delete_spec (ha : h.Alive o) : ∃ h', h.delete o = some h' ∧ Frame h h' o none := by
  rcases ha.pointee with ⟨rfl, -⟩ | ⟨p, ys, rfl, hp, -⟩
  · exact ⟨h, rfl, .refl h none⟩
  · obtain ⟨h', hfree, hb⟩ := free_some hp
    exact ⟨h', hfree, .of_free hb⟩

theorem read_spec (ha : h.Alive o) {off n : Nat}
    (hn : off + n ≤ ((h.pointee o).getD []).length) :
    h.read o off n = some ((((h.pointee o).getD []).drop off).take n) := by
  rcases ha.pointee with ⟨rfl, hnull⟩ | ⟨p, ys, rfl, hp, hys⟩
  · rw [hnull] at hn ⊢
    have h0 : n = 0 := Nat.eq_zero_of_add_eq_zero_left (Nat.le_zero.mp hn)
    simp only [read, h0, if_true, List.take_zero]
  · rw [hys] at hn ⊢
    exact load_some hp hn

theorem write_spec (ha : h.Alive o) {off : Nat} {xs : List β}
    (hn : off + xs.length ≤ ((h.pointee o).getD []).length) :
    ∃ h', h.write o off xs = some h' ∧ h'.Alive o ∧ Frame h h' o o ∧
      h'.pointee o = (h.pointee o).map fun ys => splice ys off xs := by
  rcases ha.pointee with ⟨rfl, hnull⟩ | ⟨p, ys, rfl, hp, hys⟩
  · rw [hnull] at hn ⊢
    have h0 : xs = [] :=
      List.length_eq_zero_iff.mp (Nat.eq_zero_of_add_eq_zero_left (Nat.le_zero.mp hn))
    exact ⟨h, by simp only [write, h0, if_true], alive_none h, .refl h none, rfl⟩
  · rw [hys] at hn ⊢
    obtain ⟨h', hstore, hb⟩ := store_some hp hn
    have hself : h'.block p = some (splice ys off xs) := by
      rw [hb, Function.update_self]
    refine ⟨h', hstore, ?_, .of_update hb, hself⟩
    intro q hq
    obtain rfl := Option.some.inj hq
    rw [hself]
    rfl

end Heap
