/-
Libet/SliceSplit.lean

`Slice::split`, the inverse of joining.

The loop keeps the start `pb` of the next piece and pushes a piece at every
separator; the piece behind the last separator is pushed at the end, unless the
slice as a whole is empty.

`splitLoop_spec` says what the loop makes of the bytes it has not seen yet, for
any piece begun before them.  With it the pieces are those of `List.splitOn`
(`map_bytes_split`), and `split_join` collects what follows.
-/
import Libet.Codec

namespace Libet

/-! ### The function -/

/-- `Slice(const char* b, const char* e)`. -/
def Slice.ofEnds (b e : Nat) : Slice := ⟨b, e - b⟩

/-- The loop of `split`, `left` turns before `p` comes to `pe_`: the pieces, and
where the last one begins. -/
def splitLoop (data : List UInt8) (ch : UInt8) : Nat → Nat → Nat → List Slice → List Slice × Nat
  | 0, _, pb, r => (r, pb)
  | left + 1, p, pb, r =>
      if data[p]? = some ch then splitLoop data ch left (p + 1) (p + 1) (r ++ [.ofEnds pb p])
      else splitLoop data ch left (p + 1) pb r

/-- `Slice::split`; `data` is what the slice was cut from. -/
def Slice.split (s : Slice) (data : List UInt8) (ch : UInt8) : List Slice :=
  let r := splitLoop data ch s.size s.off s.off []
  if s.size ≠ 0 then r.1 ++ [.ofEnds r.2 (s.off + s.size)] else r.1

/-! ### Splitting a list -/

section Lists

variable {α : Type*} [DecidableEq α] {x : α} {l piece : List α}

theorem length_splitOn (x : α) (l : List α) : (l.splitOn x).length = l.count x + 1 := by
  induction l with
  | nil => rfl
  | cons y l ih =>
      rw [List.splitOn_cons_eq_if_modifyHead, List.count_cons]
      split
      · rw [List.length_cons, ih]
      · rw [List.length_modifyHead, ih, Nat.add_zero]

theorem not_mem_of_mem_splitOn (h : piece ∈ l.splitOn x) : x ∉ piece := by
  induction l generalizing piece with
  | nil =>
      rw [List.splitOn_nil, List.mem_singleton] at h
      rw [h]
      exact List.not_mem_nil
  | cons y l ih =>
      rw [List.splitOn_cons_eq_if_modifyHead] at h
      split at h
      · rcases List.mem_cons.mp h with rfl | h
        · exact List.not_mem_nil
        · exact ih h
      · rename_i hy
        obtain ⟨first, rest, hsplit⟩ := List.exists_cons_of_ne_nil (List.splitOn_ne_nil x l)
        rw [hsplit, List.modifyHead_cons, List.mem_cons] at h
        rcases h with rfl | h
        · -- the first piece is longer by `y`, which is not `x`
          rw [List.mem_cons, not_or]
          exact ⟨fun he => hy (by rw [he, beq_self_eq_true]),
            ih (by rw [hsplit]; exact List.mem_cons_self)⟩
        · exact ih (by rw [hsplit]; exact List.mem_cons_of_mem _ h)

end Lists

/-! ### The loop -/

/-- The slices follow one another from `b` on, each one byte behind the one before,
and the last one ends at `e`. -/
def Consecutive (b e : Nat) : List Slice → Prop
  | [] => b = e + 1
  | t :: ts => t.off = b ∧ Consecutive (b + t.size + 1) e ts

variable {data : List UInt8} {ch : UInt8} {s : Slice}

/-- The slice lies inside the bytes it was cut from. -/
def Slice.Within (s : Slice) (data : List UInt8) : Prop := s.off + s.size ≤ data.length

namespace Slice

@[simp] theorem ofEnds_self (data : List UInt8) (b : Nat) : (ofEnds b b).bytes data = [] := by
  simp [ofEnds, bytes]

/-- Two slices that follow one another. -/
theorem bytes_ofEnds_append (data : List UInt8) {b m e : Nat} (hbm : b ≤ m) (hme : m ≤ e) :
    (ofEnds b e).bytes data = (ofEnds b m).bytes data ++ (ofEnds m e).bytes data := by
  have hsum : e - b = (m - b) + (e - m) := by omega
  have hdrop : data.drop m = (data.drop b).drop (m - b) := by
    rw [List.drop_drop]
    congr 1
    omega
  simp only [bytes, ofEnds]
  rw [hsum, hdrop, List.take_add]

/-- A slice that begins with `c`. -/
theorem bytes_ofEnds_cons {b e : Nat} {c : UInt8} (hbe : b < e) (hc : data[b]? = some c) :
    (ofEnds b e).bytes data = c :: (ofEnds (b + 1) e).bytes data := by
  have hlt := (List.getElem?_eq_some_iff.mp hc).1
  have hone : (ofEnds b (b + 1)).bytes data = [c] := by
    simp only [bytes, ofEnds]
    rw [Nat.add_sub_cancel_left, List.drop_eq_getElem_cons hlt, List.take_succ_cons, List.take_zero,
      (List.getElem?_eq_some_iff.mp hc).2]
  rw [bytes_ofEnds_append data (Nat.le_succ b) hbe, hone, List.singleton_append]

end Slice

/-- **The loop.**  The bytes from `pb` up to `p` are a piece that has begun, without
a separator in it so far; what the loop makes of the bytes in front of it are the
pieces of all these bytes. -/
theorem splitLoop_spec (left p pb : Nat) (r : List Slice) (hpb : pb ≤ p)
    (hdata : p + left ≤ data.length) (hbegun : ch ∉ (Slice.ofEnds pb p).bytes data) :
    ∃ r' pb', splitLoop data ch left p pb r = (r ++ r', pb') ∧
      (r' ++ [Slice.ofEnds pb' (p + left)]).map (·.bytes data) =
        ((Slice.ofEnds pb (p + left)).bytes data).splitOn ch ∧
      Consecutive pb (p + left) (r' ++ [Slice.ofEnds pb' (p + left)]) := by
  induction left generalizing p pb r with
  | zero =>
      refine ⟨[], pb, ?_, ?_, rfl, ?_⟩
      · rw [splitLoop, List.append_nil]
      · exact (List.splitOn_eq_singleton hbegun).symm
      · show pb + (p - pb) + 1 = p + 1
        omega
  | succ left ih =>
      have hlt : p < data.length := by omega
      have hc : data[p]? = some data[p] := List.getElem?_eq_getElem hlt
      have hnext : p + (left + 1) = p + 1 + left := by omega
      have htail := Slice.bytes_ofEnds_cons (e := p + 1 + left) (by omega) hc
      have hbytes := Slice.bytes_ofEnds_append data hpb (show p ≤ p + 1 + left by omega)
      rw [splitLoop, hc, hnext]
      by_cases hch : data[p] = ch
      · -- the piece ends, and an empty one begins
        obtain ⟨r', pb', hloop, hmap, hcons⟩ := ih (p + 1) (p + 1)
          (r ++ [.ofEnds pb p]) (Nat.le_refl _) (by omega) (by simp)
        refine ⟨.ofEnds pb p :: r', pb', ?_, ?_, rfl, ?_⟩
        · rw [if_pos (congrArg some hch), hloop, List.append_assoc, List.singleton_append]
        · rw [hbytes, htail, hch, List.splitOn_append_cons_self_of_not_mem hbegun, List.cons_append,
            List.map_cons, hmap]
        · have hsize : pb + (Slice.ofEnds pb p).size + 1 = p + 1 := by
            show pb + (p - pb) + 1 = p + 1
            omega
          rw [hsize]
          exact hcons
      · -- the piece is one byte longer
        have hbegun' : ch ∉ (Slice.ofEnds pb (p + 1)).bytes data := by
          rw [Slice.bytes_ofEnds_append data hpb (Nat.le_succ p),
            Slice.bytes_ofEnds_cons (Nat.lt_succ_self p) hc, Slice.ofEnds_self, List.mem_append,
            List.mem_singleton, not_or]
          exact ⟨hbegun, fun heq => hch heq.symm⟩
        rw [if_neg fun h => hch (Option.some.inj h)]
        exact ih (p + 1) pb r (by omega) (by omega) hbegun'

/-! ### The pieces -/

/-- **The pieces of a slice that is not empty.** -/
theorem split_spec (ch : UInt8) (h : s.Within data) (hs : s.size ≠ 0) :
    (s.split data ch).map (·.bytes data) = (s.bytes data).splitOn ch ∧
      Consecutive s.off (s.off + s.size) (s.split data ch) := by
  obtain ⟨r', pb', hloop, hmap, hcons⟩ := splitLoop_spec s.size s.off s.off []
    (Nat.le_refl s.off) h (show ch ∉ _ by simp)
  have hself : Slice.ofEnds s.off (s.off + s.size) = s := by
    rw [Slice.ofEnds, Nat.add_sub_cancel_left]
  rw [hself] at hmap
  rw [Slice.split, hloop, List.nil_append, if_pos hs]
  exact ⟨hmap, hcons⟩

theorem split_empty (hs : s.size = 0) : s.split data ch = [] := by
  rw [Slice.split, hs, splitLoop, if_neg (not_not.mpr rfl)]

/-- Consecutive slices lie between the ends. -/
theorem Consecutive.inside {b e : Nat} {ts : List Slice} (h : Consecutive b e ts) :
    b ≤ e + 1 ∧ ∀ t ∈ ts, b ≤ t.off ∧ t.off + t.size ≤ e := by
  induction ts generalizing b with
  | nil =>
      have hb : b = e + 1 := h
      exact ⟨by omega, fun t ht => absurd ht List.not_mem_nil⟩
  | cons t ts ih =>
      obtain ⟨hoff, hrest⟩ := h
      obtain ⟨hle, hin⟩ := ih hrest
      refine ⟨by omega, fun t' ht' => ?_⟩
      rcases List.mem_cons.mp ht' with rfl | ht'
      · omega
      · have := hin t' ht'
        omega

/-- **`split` is the inverse of joining.**  For every slice and every separator: no
piece contains the separator, the pieces are sub-slices that follow one another, and
joined they are the bytes of the slice.  A slice that is not empty has one piece more
than it has separators, an empty one has none.  And splitting a join of byte strings
without the separator gives these byte strings back, unless it is that of none or
of a single empty one. -/
theorem split_join (data : List UInt8) (s : Slice) (ch : UInt8) (h : s.Within data) :
    (∀ t ∈ s.split data ch, ch ∉ t.bytes data) ∧
      (∀ t ∈ s.split data ch, s.off ≤ t.off ∧ t.off + t.size ≤ s.off + s.size) ∧
      [ch].intercalate ((s.split data ch).map (·.bytes data)) = s.bytes data ∧
      (s.size ≠ 0 → Consecutive s.off (s.off + s.size) (s.split data ch) ∧
        (s.split data ch).length = (s.bytes data).count ch + 1) ∧
      (s.size = 0 → s.split data ch = []) ∧
      ∀ pieces : List (List UInt8), pieces ≠ [] → pieces ≠ [[]] → (∀ l ∈ pieces, ch ∉ l) →
        s.bytes data = [ch].intercalate pieces →
          (s.split data ch).map (·.bytes data) = pieces := by
  by_cases hs : s.size = 0
  · have hnil : s.bytes data = [] := by rw [Slice.bytes, hs, List.take_zero]
    rw [split_empty hs, hnil]
    refine ⟨fun t ht => absurd ht List.not_mem_nil, fun t ht => absurd ht List.not_mem_nil, rfl,
      fun h0 => absurd hs h0, fun _ => rfl, fun pieces hne hne' _ hjoin => ?_⟩
    -- only the join of a single empty string is empty
    match pieces with
    | [] => exact absurd rfl hne
    | [l] =>
        rw [List.intercalate_singleton] at hjoin
        exact absurd (by rw [← hjoin]) hne'
    | l :: l' :: ls =>
        rw [List.intercalate_cons_cons] at hjoin
        have hlen := congrArg List.length hjoin
        simp only [List.length_nil, List.length_append, List.length_singleton] at hlen
        omega
  · obtain ⟨hmap, hcons⟩ := split_spec ch h hs
    have hlen := congrArg List.length hmap
    rw [List.length_map, length_splitOn] at hlen
    refine ⟨fun t ht => ?_, hcons.inside.2, ?_, fun _ => ⟨hcons, hlen⟩, fun h0 => absurd h0 hs,
      fun pieces hne _ hno hjoin => ?_⟩
    · have hmem : t.bytes data ∈ (s.bytes data).splitOn ch := by
        rw [← hmap]
        exact List.mem_map_of_mem ht
      exact not_mem_of_mem_splitOn hmem
    · rw [hmap]
      exact List.intercalate_splitOn ch
    · rw [hmap, hjoin]
      exact List.splitOn_intercalate ch hno hne

/-- `,a,,b` at a comma. -/
theorem split_join_commas :
    Slice.Within ⟨1, 5⟩ [9, 44, 97, 44, 44, 98, 9] ∧
      (Slice.split ⟨1, 5⟩ [9, 44, 97, 44, 44, 98, 9] 44).map
        (·.bytes [9, 44, 97, 44, 44, 98, 9]) = [[], [97], [], [98]] := by
  have hin : Slice.Within ⟨1, 5⟩ [9, 44, 97, 44, 44, 98, 9] := by
    show 6 ≤ 7
    decide
  exact ⟨hin, (split_join [9, 44, 97, 44, 44, 98, 9] ⟨1, 5⟩ 44 hin).2.2.2.2.2
    [[], [97], [], [98]] (by decide) (by decide) (by decide) rfl⟩

end Libet
