/-
Libet/Lib/Cursor.lean

A list that is walked by a cursor while its elements come and go.

The cursor is the element it points at, or `none` at the end; `rest l cur` is
what lies in front of it.  Everything follows from one picture: the list is
`l₁ ++ r`, the cursor is the head of `r`, and `r` is the rest (`eq_append_rest`
and, for lists without duplicates, `rest_append_head?`).

* `rest_next` — stepping on drops the first element of the rest;
* `rest_concat` — an element added at the end comes last, unless the walk is
  over;
* `rest_remove` — taking an element out takes it out of the rest, provided the
  cursor steps off an element that is taken out under it.
-/
import Mathlib.Data.List.Basic
import Mathlib.Data.List.Nodup

namespace Cursor

variable {α : Type*} [DecidableEq α]

/-- What lies in front of the cursor. -/
def rest (l : List α) : Option α → List α
  | none => []
  | some x => l.dropWhile (· ≠ x)

/-- The element behind `x`. -/
def next (l : List α) (x : α) : Option α := (l.dropWhile (· ≠ x)).tail.head?

/-- The cursor is at the end or at an element of the list. -/
def Valid (l : List α) (cur : Option α) : Prop := ∀ x, cur = some x → x ∈ l

variable {l l₁ l₂ : List α} {cur : Option α} {x y : α}

@[simp] theorem rest_none (l : List α) : rest l none = [] := rfl

theorem dropWhile_ne_append (h : x ∉ l₁) : (l₁ ++ x :: l₂).dropWhile (· ≠ x) = x :: l₂ := by
  induction l₁ with
  | nil => simp
  | cons y ys ih =>
      rw [List.mem_cons, not_or] at h
      rw [List.cons_append, List.dropWhile_cons_of_pos (by simpa using Ne.symm h.1)]
      exact ih h.2

/-- The rest of a list in two parts, with the cursor where they meet. -/
theorem rest_append_head? (h : (l₁ ++ l₂).Nodup) : rest (l₁ ++ l₂) l₂.head? = l₂ := by
  cases l₂ with
  | nil => rfl
  | cons x xs =>
      apply dropWhile_ne_append
      intro hx
      exact (List.disjoint_of_nodup_append h) hx List.mem_cons_self

/-- The list is what lies behind the cursor and the rest, and the cursor is the
head of the rest. -/
theorem eq_append_rest (h : Valid l cur) :
    (∃ l₁, l = l₁ ++ rest l cur) ∧ cur = (rest l cur).head? := by
  cases cur with
  | none => exact ⟨⟨l, (List.append_nil l).symm⟩, rfl⟩
  | some x =>
      obtain ⟨l₁, l₂, hl, hx⟩ := List.eq_append_cons_of_mem (h x rfl)
      have hr : rest l (some x) = x :: l₂ := by
        rw [hl]
        exact dropWhile_ne_append hx
      rw [hr]
      exact ⟨⟨l₁, hl⟩, rfl⟩

theorem rest_sublist (h : Valid l cur) : (rest l cur).Sublist l := by
  obtain ⟨⟨l₁, hl⟩, -⟩ := eq_append_rest h
  have hsub := List.sublist_append_right l₁ (rest l cur)
  rwa [← hl] at hsub

/-- A cursor that is not at the end is at the first element of the rest. -/
theorem rest_some (h : Valid l (some x)) : ∃ r, rest l (some x) = x :: r :=
  List.head?_eq_some_iff.mp (eq_append_rest h).2.symm

/-- The walk begins with the whole list in front. -/
theorem rest_head? (h : l.Nodup) : rest l l.head? = l :=
  show rest ([] ++ l) l.head? = l from rest_append_head? h

omit [DecidableEq α] in
theorem valid_head? (l : List α) : Valid l l.head? := fun _ h => List.mem_of_mem_head? h

omit [DecidableEq α] in
theorem valid_none (l : List α) : Valid l none := fun _ h => nomatch h

/-- `next` is the head of what lies behind `x`. -/
theorem next_append (h : x ∉ l₁) : next (l₁ ++ x :: l₂) x = l₂.head? := by
  rw [next, dropWhile_ne_append h]
  rfl

theorem valid_next (l : List α) (x : α) : Valid l (next l x) := by
  intro y hy
  have hmem := List.mem_of_mem_head? hy
  exact (List.dropWhile_sublist _).subset (List.mem_of_mem_tail hmem)

/-- **Stepping on.** -/
theorem rest_next (hl : l.Nodup) (h : Valid l (some x)) :
    rest l (next l x) = (rest l (some x)).tail := by
  obtain ⟨l₁, l₂, rfl, hx⟩ := List.eq_append_cons_of_mem (h x rfl)
  rw [next_append hx, rest, dropWhile_ne_append hx, List.tail_cons]
  rw [show l₁ ++ x :: l₂ = (l₁ ++ [x]) ++ l₂ by simp] at hl ⊢
  exact rest_append_head? hl

/-- **An element is added at the end.** -/
theorem rest_concat (hl : (l ++ [y]).Nodup) (h : Valid l cur) :
    rest (l ++ [y]) cur = if cur = none then [] else rest l cur ++ [y] := by
  obtain ⟨⟨l₁, hl₁⟩, hcur⟩ := eq_append_rest h
  cases cur with
  | none => rfl
  | some x =>
      obtain ⟨r, hr⟩ := rest_some h
      rw [if_neg (by simp), hr]
      rw [hr] at hl₁
      subst hl₁
      rw [List.append_assoc] at hl ⊢
      show rest (l₁ ++ (x :: r ++ [y])) (x :: r ++ [y]).head? = _
      exact rest_append_head? hl

omit [DecidableEq α] in
theorem valid_concat (h : Valid l cur) : Valid (l ++ [y]) cur :=
  fun x hx => List.mem_append_left _ (h x hx)

/-- The cursor after `y` is taken out: it steps off `y`. -/
def skip (l : List α) (y : α) (cur : Option α) : Option α :=
  if cur = some y then next l y else cur

/-- The cursor stays the head of the rest when an element is taken out. -/
theorem skip_eq (hl : l.Nodup) (h : Valid l cur) :
    skip l y cur = ((rest l cur).filter (· ≠ y)).head? := by
  cases cur with
  | none => rfl
  | some x =>
      obtain ⟨⟨l₁, hl₁⟩, -⟩ := eq_append_rest h
      obtain ⟨r, hr⟩ := rest_some h
      rw [hr] at hl₁ ⊢
      subst hl₁
      by_cases hxy : x = y
      · subst hxy
        have hx : x ∉ l₁ := fun hx => List.disjoint_of_nodup_append hl hx List.mem_cons_self
        have hr' : r.filter (· ≠ x) = r := by
          apply List.filter_eq_self.mpr
          intro z hz
          have hxr := (List.nodup_cons.mp (List.nodup_append.mp hl).2.1).1
          exact decide_eq_true fun he => hxr (he ▸ hz)
        rw [skip, if_pos rfl, next_append hx, List.filter_cons_of_neg (by simp), hr']
      · rw [skip, if_neg (by simpa using hxy), List.filter_cons_of_pos (by simpa using hxy)]
        rfl

/-- **An element is taken out.** -/
theorem rest_remove (hl : l.Nodup) (h : Valid l cur) :
    rest (l.filter (· ≠ y)) (skip l y cur) = (rest l cur).filter (· ≠ y) := by
  obtain ⟨⟨l₁, hl₁⟩, -⟩ := eq_append_rest h
  rw [skip_eq hl h]
  have hf : l.filter (· ≠ y) = l₁.filter (· ≠ y) ++ (rest l cur).filter (· ≠ y) := by
    rw [← List.filter_append, ← hl₁]
  rw [hf]
  apply rest_append_head?
  rw [← hf]
  exact hl.filter _

theorem valid_remove (hl : l.Nodup) (h : Valid l cur) :
    Valid (l.filter (· ≠ y)) (skip l y cur) := by
  intro x hx
  rw [skip_eq hl h] at hx
  exact ((rest_sublist h).filter _).subset (List.mem_of_mem_head? hx)

end Cursor
