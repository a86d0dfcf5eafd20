/-
Libet/Lib/Framing.lean

Incremental decoding of a stream of frames.

A `Framing` looks at the bytes received so far and either wants more, gives
up, or cuts one item off the front.  The two `append` laws say that an answer
never changes when more bytes arrive; only `more` may turn into something
else.  `drain` cuts off as many items as the bytes hold.

The result that makes stream reassembly independent of how the stream is cut
is `drain_append`: draining `d ++ x` is draining `d`, keeping what is left,
and draining again once `x` has arrived behind it.
-/
import Mathlib.Data.List.Basic

variable {α μ : Type*}

/-- What a decoder answers on the bytes received so far. -/
inductive Parse (μ : Type*)
  /-- no complete item yet -/
  | more
  /-- the bytes can never become an item -/
  | bad
  /-- the first `n` elements are the item `m` -/
  | item (n : Nat) (m : μ)
  deriving DecidableEq, Repr

/-- A decoder whose answers are stable under more input. -/
structure Framing (α μ : Type*) where
  /-- look at the front of the input -/
  parse : List α → Parse μ
  item_pos : ∀ {d n m}, parse d = .item n m → 0 < n
  item_le : ∀ {d n m}, parse d = .item n m → n ≤ d.length
  item_append : ∀ {d n m} (x), parse d = .item n m → parse (d ++ x) = .item n m
  bad_append : ∀ {d} (x), parse d = .bad → parse (d ++ x) = .bad

/-- Outcome of draining: the items with the offset of their frame in the
stream, the input left over, and whether the decoder gave up. -/
structure Drained (α μ : Type*) where
  items : List (Nat × μ)
  rest : List α
  failed : Bool
  deriving DecidableEq, Repr

namespace Drained

/-- Put items in front of an outcome. -/
def prepend (items : List (Nat × μ)) (r : Drained α μ) : Drained α μ :=
  { r with items := items ++ r.items }

@[simp] theorem prepend_items (l : List (Nat × μ)) (r : Drained α μ) :
    (r.prepend l).items = l ++ r.items := rfl

@[simp] theorem prepend_rest (l : List (Nat × μ)) (r : Drained α μ) :
    (r.prepend l).rest = r.rest := rfl

@[simp] theorem prepend_failed (l : List (Nat × μ)) (r : Drained α μ) :
    (r.prepend l).failed = r.failed := rfl

@[simp] theorem prepend_nil (r : Drained α μ) : r.prepend [] = r := rfl

theorem prepend_prepend (l l' : List (Nat × μ)) (r : Drained α μ) :
    (r.prepend l').prepend l = r.prepend (l ++ l') := by
  simp [prepend]

end Drained

namespace Framing

variable (F : Framing α μ)

/-- Cut items off the front of `d`, which starts at offset `off` of the
stream, until the decoder wants more or gives up. -/
def drain (off : Nat) (d : List α) : Drained α μ :=
  match _h : F.parse d with
  | .more => ⟨[], d, false⟩
  | .bad => ⟨[], d, true⟩
  | .item n m => (drain (off + n) (d.drop n)).prepend [(off, m)]
termination_by d.length
decreasing_by
  have h0 := F.item_pos _h
  have h1 := F.item_le _h
  simp only [List.length_drop]
  omega

variable {F} {off n : Nat} {d : List α} {m : μ}

theorem drain_more (h : F.parse d = .more) : F.drain off d = ⟨[], d, false⟩ := by
  rw [drain]
  split <;> simp_all

theorem drain_bad (h : F.parse d = .bad) : F.drain off d = ⟨[], d, true⟩ := by
  rw [drain]
  split <;> simp_all

theorem drain_item (h : F.parse d = .item n m) :
    F.drain off d = (F.drain (off + n) (d.drop n)).prepend [(off, m)] := by
  rw [drain]
  split <;> simp_all

variable (F)

/-- What a drain leaves over makes the decoder give up if it gave up, and
otherwise want more. -/
theorem parse_rest (off : Nat) (d : List α) :
    F.parse (F.drain off d).rest =
      bif (F.drain off d).failed then .bad else .more := by
  induction off, d using drain.induct F with
  | case1 off d h => rw [drain_more h]; exact h
  | case2 off d h => rw [drain_bad h]; exact h
  | case3 off d n m h ih => rw [drain_item h]; exact ih

/-- The input left over is a suffix of the input. -/
theorem drain_rest_suffix (off : Nat) (d : List α) : (F.drain off d).rest <:+ d := by
  induction off, d using drain.induct F with
  | case1 off d h => simp only [drain_more h, List.suffix_rfl]
  | case2 off d h => simp only [drain_bad h, List.suffix_rfl]
  | case3 off d n m h ih =>
      rw [drain_item h, Drained.prepend_rest]
      exact ih.trans (List.drop_suffix n d)

/-- No item starts before the input does. -/
theorem off_le_of_mem_drain {off : Nat} {d : List α} {x : Nat × μ}
    (h : x ∈ (F.drain off d).items) : off ≤ x.1 := by
  induction off, d using drain.induct F with
  | case1 off d hp => rw [drain_more hp] at h; cases h
  | case2 off d hp => rw [drain_bad hp] at h; cases h
  | case3 off d n m hp ih =>
      rw [drain_item hp, Drained.prepend_items, List.singleton_append,
        List.mem_cons] at h
      rcases h with rfl | h
      · exact Nat.le_refl _
      · exact Nat.le_trans (Nat.le_add_right _ _) (ih h)

/-- Draining what a drain left over adds no item. -/
theorem drain_rest (off off' : Nat) (d : List α) :
    F.drain off' (F.drain off d).rest =
      ⟨[], (F.drain off d).rest, (F.drain off d).failed⟩ := by
  have h := F.parse_rest off d
  cases hf : (F.drain off d).failed with
  | false => exact drain_more (by simpa [hf] using h)
  | true => exact drain_bad (by simpa [hf] using h)

/-- **Draining is incremental.**  Draining `d ++ x` gives the items of `d`,
and then those of what `d` left over with `x` behind it. -/
theorem drain_append (off : Nat) (d x : List α) :
    F.drain off (d ++ x) =
      (F.drain (off + (d.length - (F.drain off d).rest.length))
        ((F.drain off d).rest ++ x)).prepend (F.drain off d).items := by
  induction off, d using drain.induct F with
  | case1 off d h => rw [drain_more h]; simp
  | case2 off d h => rw [drain_bad h]; simp
  | case3 off d n m h ih =>
      have hle : n ≤ d.length := F.item_le h
      have hrest : (F.drain (off + n) (d.drop n)).rest.length ≤ (d.drop n).length :=
        (F.drain_rest_suffix _ _).length_le
      rw [List.length_drop] at hrest
      have hoff : off + (d.length - (F.drain (off + n) (d.drop n)).rest.length)
          = off + n + ((d.drop n).length
              - (F.drain (off + n) (d.drop n)).rest.length) := by
        rw [List.length_drop]; omega
      rw [drain_item (F.item_append x h), List.drop_append_of_le_length hle, ih,
        Drained.prepend_prepend, drain_item h, Drained.prepend_rest,
        Drained.prepend_items, hoff]

/-- Once the decoder has given up, more input changes nothing. -/
theorem drain_append_failed (off : Nat) (d x : List α)
    (h : (F.drain off d).failed = true) :
    F.drain off (d ++ x) =
      ⟨(F.drain off d).items, (F.drain off d).rest ++ x, true⟩ := by
  have hbad : F.parse ((F.drain off d).rest ++ x) = .bad :=
    F.bad_append x (by rw [F.parse_rest, h]; rfl)
  rw [drain_append, drain_bad hbad]
  simp [Drained.prepend]

end Framing
