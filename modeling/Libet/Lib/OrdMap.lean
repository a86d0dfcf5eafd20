/-
Libet/Lib/OrdMap.lean

Ordered maps as strictly sorted association lists.

The sortedness is a field of the structure, so every map that can be written
down has distinct keys in increasing order, and its first entry is the one with
the least key.  `Has m k v` is the membership relation all lemmas speak about;
`set` overwrites, `insert` keeps an existing entry.
-/
import Mathlib.Data.List.Basic
import Mathlib.Data.List.Nodup
import Mathlib.Order.Lattice

variable {κ α : Type*} [LinearOrder κ]

/-- A finite map with its entries in increasing order of their keys. -/
structure OrdMap (κ α : Type*) [LinearOrder κ] where
  entries : List (κ × α)
  sorted : entries.Pairwise fun x y => x.1 < y.1

namespace OrdMap

/-! ### Operations -/

def empty : OrdMap κ α := ⟨[], List.Pairwise.nil⟩

instance : Inhabited (OrdMap κ α) := ⟨empty⟩

/-- `(k, v)` is an entry. -/
def Has (m : OrdMap κ α) (k : κ) (v : α) : Prop := (k, v) ∈ m.entries

instance [DecidableEq α] (m : OrdMap κ α) (k : κ) (v : α) : Decidable (m.Has k v) :=
  inferInstanceAs (Decidable ((k, v) ∈ m.entries))

def keys (m : OrdMap κ α) : List κ := m.entries.map Prod.fst

def isEmpty (m : OrdMap κ α) : Bool := m.entries.isEmpty

/-- The entry with the least key. -/
def first? (m : OrdMap κ α) : Option (κ × α) := m.entries.head?

def find? (m : OrdMap κ α) (k : κ) : Option α :=
  (m.entries.find? fun x => x.1 = k).map Prod.snd

/-- The least key above `k`. -/
def nextKey? (m : OrdMap κ α) (k : κ) : Option κ :=
  (m.entries.find? fun x => k < x.1).map Prod.fst

/-- Remove the entry at `k`, if any. -/
def erase (m : OrdMap κ α) (k : κ) : OrdMap κ α :=
  ⟨m.entries.filter fun x => x.1 ≠ k, m.sorted.sublist List.filter_sublist⟩

/-- Place `(k, v)` before the first greater key, replacing an entry at `k`. -/
def setEntries (k : κ) (v : α) : List (κ × α) → List (κ × α)
  | [] => [(k, v)]
  | x :: xs =>
      if k < x.1 then (k, v) :: x :: xs
      else if k = x.1 then (k, v) :: xs
      else x :: setEntries k v xs

theorem mem_setEntries {k : κ} {v : α} {l : List (κ × α)}
    (hl : l.Pairwise fun x y => x.1 < y.1) (x : κ × α) :
    x ∈ setEntries k v l ↔ x = (k, v) ∨ (x.1 ≠ k ∧ x ∈ l) := by
  induction l with
  | nil => simp [setEntries]
  | cons y ys ih =>
      have hy : ∀ {z}, z ∈ ys → y.1 < z.1 := fun hz => List.rel_of_pairwise_cons hl hz
      rw [setEntries]
      split
      · rename_i hlt
        simp only [List.mem_cons]
        constructor
        · rintro (rfl | rfl | hx)
          · exact Or.inl rfl
          · exact Or.inr ⟨hlt.ne', Or.inl rfl⟩
          · exact Or.inr ⟨(hlt.trans (hy hx)).ne', Or.inr hx⟩
        · rintro (rfl | ⟨-, hx⟩)
          · exact Or.inl rfl
          · exact Or.inr hx
      · split
        · rename_i heq
          simp only [List.mem_cons]
          constructor
          · rintro (rfl | hx)
            · exact Or.inl rfl
            · exact Or.inr ⟨heq ▸ (hy hx).ne', Or.inr hx⟩
          · rintro (rfl | ⟨hne, rfl | hx⟩)
            · exact Or.inl rfl
            · exact absurd heq.symm hne
            · exact Or.inr hx
        · rename_i hnlt hne
          simp only [List.mem_cons, ih hl.of_cons]
          constructor
          · rintro (rfl | rfl | ⟨hx, hm⟩)
            · exact Or.inr ⟨fun h => hne h.symm, Or.inl rfl⟩
            · exact Or.inl rfl
            · exact Or.inr ⟨hx, Or.inr hm⟩
          · rintro (rfl | ⟨hx, rfl | hm⟩)
            · exact Or.inr (Or.inl rfl)
            · exact Or.inl rfl
            · exact Or.inr (Or.inr ⟨hx, hm⟩)

theorem setEntries_sorted {k : κ} {v : α} {l : List (κ × α)}
    (hl : l.Pairwise fun x y => x.1 < y.1) :
    (setEntries k v l).Pairwise fun x y => x.1 < y.1 := by
  induction l with
  | nil => exact List.pairwise_singleton _ _
  | cons y ys ih =>
      have hy : ∀ {z}, z ∈ ys → y.1 < z.1 := fun hz => List.rel_of_pairwise_cons hl hz
      rw [setEntries]
      split
      · rename_i hlt
        refine List.pairwise_cons.mpr ⟨fun z hz => ?_, hl⟩
        rcases List.mem_cons.mp hz with rfl | hz
        · exact hlt
        · exact hlt.trans (hy hz)
      · split
        · rename_i heq
          exact List.pairwise_cons.mpr ⟨fun z hz => heq ▸ hy hz, hl.of_cons⟩
        · rename_i hnlt hne
          refine List.pairwise_cons.mpr ⟨fun z hz => ?_, ih hl.of_cons⟩
          rcases (mem_setEntries hl.of_cons z).mp hz with rfl | ⟨-, hz⟩
          · exact lt_of_le_of_ne (not_lt.mp hnlt) (fun h => hne h.symm)
          · exact hy hz

theorem setEntries_perm {k : κ} {v : α} {l : List (κ × α)} (h : ∀ x ∈ l, x.1 ≠ k) :
    (setEntries k v l).Perm ((k, v) :: l) := by
  induction l with
  | nil => exact List.Perm.refl _
  | cons y ys ih =>
      rw [setEntries]
      split
      · exact List.Perm.refl _
      · rw [if_neg fun heq => h y List.mem_cons_self heq.symm]
        exact ((ih fun x hx => h x (List.mem_cons_of_mem _ hx)).cons y).trans (List.Perm.swap _ _ _)

/-- Make `v` the value at `k`. -/
def set (m : OrdMap κ α) (k : κ) (v : α) : OrdMap κ α :=
  ⟨setEntries k v m.entries, setEntries_sorted m.sorted⟩

/-- Add `(k, v)` unless there is an entry at `k`. -/
def insert (m : OrdMap κ α) (k : κ) (v : α) : OrdMap κ α :=
  if (m.find? k).isSome then m else m.set k v

/-! ### Membership -/

variable {m : OrdMap κ α} {k k' : κ} {v v' : α}

theorem keys_nodup (m : OrdMap κ α) : m.keys.Nodup := by
  rw [keys, List.Nodup, List.pairwise_map]
  exact m.sorted.imp fun h => h.ne

/-- A key has one value. -/
theorem Has.unique (h : m.Has k v) (h' : m.Has k v') : v = v' :=
  congrArg Prod.snd (List.inj_on_of_nodup_map m.keys_nodup h h' rfl)

theorem find?_eq_some : m.find? k = some v ↔ m.Has k v := by
  constructor
  · intro h
    obtain ⟨x, hx, rfl⟩ := Option.map_eq_some_iff.mp h
    have hk : x.1 = k := by simpa using List.find?_some hx
    subst hk
    exact List.mem_of_find?_eq_some hx
  · intro h
    have hsome : (m.entries.find? fun x => x.1 = k).isSome :=
      List.find?_isSome.mpr ⟨_, h, by simp⟩
    obtain ⟨x, hx⟩ := Option.isSome_iff_exists.mp hsome
    have hk : x.1 = k := by simpa using List.find?_some hx
    have hxm : m.Has k x.2 := hk ▸ List.mem_of_find?_eq_some hx
    rw [find?, hx, Option.map_some, hxm.unique h]

theorem find?_eq_none : m.find? k = none ↔ ∀ v, ¬ m.Has k v := by
  constructor
  · intro h v hv
    rw [find?_eq_some.mpr hv] at h
    cases h
  · intro h
    cases hf : m.find? k with
    | none => rfl
    | some v => exact absurd (find?_eq_some.mp hf) (h v)

@[simp] theorem not_has_empty : ¬ (empty : OrdMap κ α).Has k v :=
  List.not_mem_nil

theorem has_set : (m.set k v).Has k' v' ↔ (k' = k ∧ v' = v) ∨ (k' ≠ k ∧ m.Has k' v') := by
  rw [Has, set, mem_setEntries m.sorted, Prod.mk.injEq]
  rfl

theorem find?_set (m : OrdMap κ α) (k k' : κ) (v : α) :
    (m.set k v).find? k' = if k' = k then some v else m.find? k' := by
  split
  · rename_i h
    exact find?_eq_some.mpr (has_set.mpr (Or.inl ⟨h, rfl⟩))
  · rename_i h
    apply Option.ext
    intro v'
    rw [find?_eq_some, find?_eq_some, has_set]
    simp [h]

theorem has_erase : (m.erase k).Has k' v' ↔ k' ≠ k ∧ m.Has k' v' := by
  simp only [Has, erase, List.mem_filter, decide_eq_true_eq]
  exact and_comm

/-- At a fresh key `insert` is `set`. -/
theorem insert_of_fresh (h : ∀ v, ¬ m.Has k v) : m.insert k v = m.set k v := by
  rw [insert, find?_eq_none.mpr h]
  rfl

theorem first?_has (h : m.first? = some (k, v)) : m.Has k v :=
  List.mem_of_mem_head? h

/-- The first entry has the least key. -/
theorem first?_le (h : m.first? = some (k, v)) (h' : m.Has k' v') : k ≤ k' := by
  obtain ⟨rest, he⟩ := List.head?_eq_some_iff.mp h
  have hs := m.sorted
  simp only [Has] at h'
  rw [he] at hs h'
  rcases List.mem_cons.mp h' with hk | hk
  · exact (congrArg Prod.fst hk).ge
  · exact (List.rel_of_pairwise_cons hs hk).le

/-- Without the first entry the others are left. -/
theorem first?_entries (h : m.first? = some (k, v)) :
    ∃ rest, m.entries = (k, v) :: rest ∧ (m.erase k).entries = rest ∧ ∀ e ∈ rest, e.1 ≠ k := by
  obtain ⟨rest, hrest⟩ := List.head?_eq_some_iff.mp h
  have hne : ∀ e ∈ rest, e.1 ≠ k := by
    intro e he
    have hsorted := m.sorted
    rw [hrest] at hsorted
    exact (List.rel_of_pairwise_cons hsorted he).ne'
  refine ⟨rest, hrest, ?_, hne⟩
  show m.entries.filter _ = rest
  rw [hrest, List.filter_cons_of_neg (by simp)]
  exact List.filter_eq_self.mpr fun e he => decide_eq_true (hne e he)

theorem first?_eq_none (h : m.first? = none) : ¬ m.Has k v := by
  rw [first?, List.head?_eq_none_iff] at h
  rw [Has, h]
  exact List.not_mem_nil

theorem mem_keys : k ∈ m.keys ↔ ∃ v, m.Has k v := by
  simp [keys, Has]

/-- The key behind an entry. -/
theorem nextKey?_of_entries {pre post : List (κ × α)} (h : m.entries = pre ++ (k, v) :: post) :
    m.nextKey? k = post.head?.map Prod.fst := by
  have hs := m.sorted
  rw [h, List.pairwise_append, List.pairwise_cons] at hs
  obtain ⟨-, ⟨hpost, -⟩, hpre⟩ := hs
  have hskip : pre.find? (fun x => k < x.1) = none := by
    rw [List.find?_eq_none]
    intro x hx
    have hlt : x.1 < k := hpre x hx (k, v) List.mem_cons_self
    simpa using hlt.le
  rw [nextKey?, h, List.find?_append, hskip, Option.none_or,
    List.find?_cons_of_neg (by simp)]
  cases post with
  | nil => rfl
  | cons y post =>
      rw [List.find?_cons_of_pos (by simpa using hpost y List.mem_cons_self)]
      rfl

end OrdMap
