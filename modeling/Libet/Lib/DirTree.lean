/-
Libet/Lib/DirTree.lean

Trees of directories.

A directory is named by the list of names on the way to it from the root, and a tree
is a finite set of such lists that holds the root and, with a directory, its parent.
`make` adds one directory whose parent is there, unless `deny` refuses it; `ensure`
adds it if it is missing.  `Extends deny t d t'` says that `t'` is `t` with the
directories on the way to `d`, as far as they can be made; going down one name at a
time keeps it (`Extends.ensure`), going on behind a failure does too
(`Extends.beyond`), and `Extends.free_iff` says when the way has been completed.

Names are anything with decidable equality.
-/
import Mathlib.Data.Finset.Insert
import Mathlib.Data.List.Infix

/-- A set of directories with the root in it, closed under taking the parent. -/
structure DirTree (ν : Type*) [DecidableEq ν] where
  dirs : Finset (List ν)
  root_mem : [] ∈ dirs
  parent_mem : ∀ d ∈ dirs, d.dropLast ∈ dirs

namespace DirTree

variable {ν : Type*} [DecidableEq ν] {t t' : DirTree ν} {d q : List ν} {x : ν}

/-! ### Operations -/

/-- The directory is there. -/
def Has (t : DirTree ν) (d : List ν) : Prop := d ∈ t.dirs

instance (t : DirTree ν) (d : List ν) : Decidable (t.Has d) :=
  inferInstanceAs (Decidable (d ∈ t.dirs))

/-- Only the root. -/
def root : DirTree ν where
  dirs := {[]}
  root_mem := Finset.mem_singleton_self _
  parent_mem d hd := by
    rw [Finset.mem_singleton.mp hd]
    exact Finset.mem_singleton_self _

/-- A directory is added to its parent. -/
def add (t : DirTree ν) (d : List ν) (h : t.Has d.dropLast) : DirTree ν where
  dirs := insert d t.dirs
  root_mem := Finset.mem_insert_of_mem t.root_mem
  parent_mem q hq := by
    rcases Finset.mem_insert.mp hq with rfl | hq
    · exact Finset.mem_insert_of_mem h
    · exact Finset.mem_insert_of_mem (t.parent_mem q hq)

/-- One directory is made; it must not be there, its parent must, and it must not be
refused. -/
def make (deny : List ν → Bool) (t : DirTree ν) (d : List ν) : Bool × DirTree ν :=
  if h : t.Has d.dropLast ∧ ¬ t.Has d ∧ deny d = false then (true, t.add d h.1) else (false, t)

/-- One directory is made if it is missing. -/
def ensure (deny : List ν → Bool) (t : DirTree ν) (d : List ν) : Bool × DirTree ν :=
  if t.Has d then (true, t) else t.make deny d

/-! ### What a tree holds -/

theorem has_nil (t : DirTree ν) : t.Has [] := t.root_mem

theorem has_add {h : t.Has d.dropLast} : (t.add d h).Has q ↔ q = d ∨ t.Has q :=
  Finset.mem_insert

/-- With a directory everything on the way to it is there. -/
theorem Has.of_prefix (h : t.Has d) (hq : q <+: d) : t.Has q := by
  induction d using List.reverseRecOn with
  | nil => exact List.prefix_nil.mp hq ▸ t.has_nil
  | append_singleton d x ih =>
      rcases List.prefix_concat_iff.mp hq with rfl | hq
      · exact h
      · have hparent := t.parent_mem _ h
        rw [List.dropLast_concat] at hparent
        exact ih hparent hq

/-! ### The directories on the way -/

/-- Nothing that is missing on the way to `d` is refused. -/
def Free (deny : List ν → Bool) (t : DirTree ν) (d : List ν) : Prop :=
  ∀ q, q <+: d → ¬ t.Has q → deny q = false

variable {deny : List ν → Bool}

theorem Free.of_prefix (h : Free deny t d) (hq : q <+: d) : Free deny t q :=
  fun r hr => h r (hr.trans hq)

theorem Has.free (h : t.Has d) : Free deny t d :=
  fun _ hq hno => absurd (h.of_prefix hq) hno

theorem free_concat : Free deny t (d ++ [x]) ↔
    Free deny t d ∧ (¬ t.Has (d ++ [x]) → deny (d ++ [x]) = false) := by
  constructor
  · intro h
    exact ⟨h.of_prefix (List.prefix_append _ _), h _ (List.prefix_refl _)⟩
  · rintro ⟨h, hlast⟩ q hq hno
    rcases List.prefix_concat_iff.mp hq with rfl | hq
    · exact hlast hno
    · exact h q hq hno

/-- `t'` is `t` with the directories on the way to `d` that can be made. -/
def Extends (deny : List ν → Bool) (t : DirTree ν) (d : List ν) (t' : DirTree ν) : Prop :=
  ∀ q, t'.Has q ↔ t.Has q ∨ q <+: d ∧ Free deny t q

namespace Extends

theorem nil : Extends deny t [] t := by
  intro q
  constructor
  · exact Or.inl
  · rintro (h | ⟨hq, -⟩)
    · exact h
    · exact List.prefix_nil.mp hq ▸ t.has_nil

/-- The way has been completed exactly if nothing on it is refused. -/
theorem free_iff (h : Extends deny t d t') : t'.Has d ↔ Free deny t d := by
  rw [h]
  constructor
  · rintro (hd | ⟨-, hfree⟩)
    · exact hd.free
    · exact hfree
  · exact fun hfree => Or.inr ⟨List.prefix_refl _, hfree⟩

/-- Behind a directory that cannot be made there is nothing more to make. -/
theorem beyond (h : Extends deny t d t') (hno : ¬ t'.Has d) (e : List ν) :
    Extends deny t (d ++ e) t' := by
  intro q
  rw [h]
  apply or_congr_right
  constructor
  · rintro ⟨hq, hfree⟩
    exact ⟨hq.trans (List.prefix_append _ _), hfree⟩
  · rintro ⟨hq, hfree⟩
    rcases List.prefix_or_prefix_of_prefix hq (List.prefix_append d e) with hqd | hdq
    · exact ⟨hqd, hfree⟩
    · exact absurd (h.free_iff.mpr (hfree.of_prefix hdq)) hno

/-- A directory on which the way has been tried is not made now either. -/
theorem make_again (h : Extends deny t d t') (hno : ¬ t'.Has d) : t'.make deny d = (false, t') := by
  rw [make]
  refine dif_neg ?_
  rintro ⟨hparent, -, hdeny⟩
  rw [h.free_iff] at hno
  apply hno
  rcases List.eq_nil_or_concat d with rfl | ⟨d', x, rfl⟩
  · exact t.has_nil.free
  · rw [List.concat_eq_append, List.dropLast_concat] at hparent
    rw [List.concat_eq_append] at hdeny ⊢
    have hfree : Free deny t d' := by
      rcases (h d').mp hparent with hd | ⟨-, hfree⟩
      · exact hd.free
      · exact hfree
    exact free_concat.mpr ⟨hfree, fun _ => hdeny⟩

/-- **One name further down.** -/
theorem ensure (h : Extends deny t d t') :
    Extends deny t (d ++ [x]) (t'.ensure deny (d ++ [x])).2 := by
  have hself : t'.Has (d ++ [x]) ↔ t.Has (d ++ [x]) := by
    rw [h]
    refine or_iff_left ?_
    rintro ⟨hq, -⟩
    have hlen := hq.length_le
    rw [List.length_append, List.length_singleton] at hlen
    omega
  have hway : ∀ q, q <+: d ++ [x] ∧ Free deny t q ↔
      q <+: d ∧ Free deny t q ∨ q = d ++ [x] ∧ Free deny t (d ++ [x]) := by
    intro q
    rw [List.prefix_concat_iff]
    constructor
    · rintro ⟨rfl | hq, hfree⟩
      · exact Or.inr ⟨rfl, hfree⟩
      · exact Or.inl ⟨hq, hfree⟩
    · rintro (⟨hq, hfree⟩ | ⟨rfl, hfree⟩)
      · exact ⟨Or.inr hq, hfree⟩
      · exact ⟨Or.inl rfl, hfree⟩
  intro q
  rw [hway, ← or_assoc, ← h]
  rw [DirTree.ensure]
  split
  · -- it is there, and so was it before
    rename_i hhas
    refine (or_iff_left_of_imp ?_).symm
    rintro ⟨rfl, -⟩
    exact hhas
  · rename_i hno
    rw [make]
    split
    · rename_i hmake
      rw [has_add, or_comm]
      apply or_congr_right
      rw [List.dropLast_concat] at hmake
      obtain ⟨hparent, -, hdeny⟩ := hmake
      have hfree := (h d).mp hparent
      refine (and_iff_left ?_).symm
      refine free_concat.mpr ⟨?_, fun _ => hdeny⟩
      rcases hfree with hd | ⟨-, hfree⟩
      · exact hd.free
      · exact hfree
    · rename_i hmake
      refine (or_iff_left ?_).symm
      rintro ⟨-, hfree⟩
      rw [free_concat] at hfree
      apply hmake
      rw [List.dropLast_concat]
      exact ⟨h.free_iff.mpr hfree.1, hno, hfree.2 fun hd => hno (hself.mpr hd)⟩

end Extends

/-- What `ensure` answers is whether the directory is there then. -/
theorem ensure_fst : (t.ensure deny d).1 = true ↔ (t.ensure deny d).2.Has d := by
  rw [ensure]
  split
  · rename_i h
    exact iff_of_true rfl h
  · rename_i hno
    rw [make]
    split
    · rename_i hmake
      exact iff_of_true rfl (has_add (h := hmake.1).mpr (Or.inl rfl))
    · exact iff_of_false Bool.false_ne_true hno

end DirTree
