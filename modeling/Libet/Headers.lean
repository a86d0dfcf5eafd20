/-
Libet/Headers.lean

Which headers `LengthCodec::TryDecode` gets wrong.

Read as a number the four header bytes range over `0 .. 2^32`.  Only `4 .. 2^20`
start a frame.  Above that, up to `2^31`, the answer is an error.  The rest
slips through:

* `1`, `2`, `3` are accepted although the frame is shorter than its own header,
  and the slice length `len - 4` wraps around (`tryDecode_inside_iff`);
* `0` and the negative `int`s are answered with `0`, "partial message", for
  every amount of further input (`honest_iff`).
-/
import Libet.Codec
import Mathlib.Data.Nat.Cast.Basic

namespace Libet

variable {p : Platform} {data : List UInt8} {msg : Slice}

/-! ### Accepted messages lie inside the input -/

/-- The answer `r` with the slice `msg` describes a message inside `data`. -/
structure Inside (data : List UInt8) (r : Int) (msg : Slice) : Prop where
  header_le : 4 ≤ r
  le_size : r ≤ data.length
  off_eq : msg.off = 4
  size_eq : (msg.size : Int) = r - 4
  bytes_eq : msg.bytes data = (data.take r.toNat).drop 4
  consume_ok : ∀ b : Buffer, b.WF → b.content = data →
    (b.consume r.toNat).b ≤ (b.consume r.toNat).e

/-- A header of at least four is honoured. -/
theorem inside_of_header (h : 4 ≤ ntohl data) (h1 : ntohl data ≤ 2 ^ 20)
    (h2 : ntohl data ≤ data.length) :
    Inside data (ntohl data) ⟨4, toSize p (ntohl data - 4)⟩ := by
  have hsize : toSize p ((ntohl data : Int) - 4) = ntohl data - 4 := by
    have := toSize_natCast p (show ntohl data - 4 < 2 ^ 32 by omega)
    rwa [Nat.cast_sub h] at this
  refine ⟨by omega, by omega, rfl, ?_, ?_, ?_⟩
  · rw [hsize, Nat.cast_sub h]; rfl
  · rw [hsize, Slice.bytes, Int.toNat_natCast, List.drop_take]
  · intro b hb hc
    have hlen : ntohl data ≤ b.size := by
      rw [← Buffer.content_length hb, hc]; exact h2
    exact (Buffer.wf_consume hb (by simpa using hlen)).b_le_e

/-- **When an accepted message lies inside the input.**  For every input,
`TryDecode` accepts only a message that covers exactly the bytes behind a
header of at least four, unless the header is `1`, `2` or `3` with at least one
byte behind it. -/
theorem tryDecode_inside_iff (p : Platform) (data : List UInt8) (msg : Slice) :
    (0 < (tryDecode p data msg).1 →
      Inside data (tryDecode p data msg).1 (tryDecode p data msg).2) ↔
    ¬ (4 < data.length ∧ 1 ≤ ntohl data ∧ ntohl data ≤ 3) := by
  constructor
  · rintro hin ⟨h4, h1, h3⟩
    -- the short header is accepted, so the answer is the header itself
    have heq := @tryDecode_fit p _ msg h4 (by omega) (by omega)
    have hle := (hin (by rw [heq]; simp only; omega)).header_le
    rw [heq] at hle
    simp only at hle
    omega
  · intro hno hpos
    obtain ⟨h4, h1, ho, hw, heq⟩ := tryDecode_pos hpos
    rw [heq]
    exact inside_of_header (by omega) ho hw

/-- Five bytes, of which the header claims one. -/
theorem tryDecode_short_header :
    ¬ ∀ (p : Platform) (data : List UInt8) (msg : Slice),
      0 < (tryDecode p data msg).1 →
        Inside data (tryDecode p data msg).1 (tryDecode p data msg).2 := by
  intro h
  have hle := (h .x64 [0, 0, 0, 1, 0] Slice.empty (by decide)).header_le
  exact absurd hle (by decide)

/-! ### A partial message can be completed -/

/-- The header if the bytes of it that have not arrived were zero. -/
def headerSoFar (d : List UInt8) : Nat :=
  ntohl (d ++ List.replicate (4 - d.length) 0)

/-- The answer to `d` is what `Codec.h` says: "partial message" only for a
prefix of some accepted input, and an error for a header that starts no frame
once the decoder has looked at it. -/
structure Honest (p : Platform) (d : List UInt8) (msg : Slice) : Prop where
  partial_completes : (tryDecode p d msg).1 = 0 →
    ∃ x, 0 < (tryDecode p (d ++ x) msg).1
  bad_rejected : 4 < d.length → ¬ (4 ≤ ntohl d ∧ ntohl d ≤ 2 ^ 20) →
    (tryDecode p d msg).1 < 0

/-- The bytes that have arrived can still start a frame: with up to four bytes
the header, as far as it is known, is not over-long and not zero; with more, it
is at least four and not negative as an `int`.  (The last case, a negative
header with as many bytes in the buffer as it stands for as a `size_t`, is out
of reach of a real buffer.) -/
def CanStart (p : Platform) (d : List UInt8) : Prop :=
  (d.length ≤ 4 → headerSoFar d ≤ 2 ^ 20 ∧ (d.length = 4 → headerSoFar d ≠ 0)) ∧
  (4 < d.length → 4 ≤ ntohl d ∧
    (ntohl d < 2 ^ 31 ∨ toSize p (toInt32 (ntohl d)) ≤ d.length))

/-- The missing header bytes only add to the header. -/
theorem headerSoFar_le {d x : List UInt8} (h : 4 ≤ (d ++ x).length) :
    headerSoFar d ≤ ntohl (d ++ x) := by
  match d, x with
  | [], _ :: _ :: _ :: _ :: _ => simp [headerSoFar, ntohl]
  | [_], _ :: _ :: _ :: _ => simp [headerSoFar, ntohl]; omega
  | [_, _], _ :: _ :: _ => simp [headerSoFar, ntohl]; omega
  | [_, _, _], _ :: _ => simp [headerSoFar, ntohl]
  | _ :: _ :: _ :: _ :: d, x =>
      simp only [headerSoFar]
      rw [ntohl_append (by simp), ntohl_append (by simp)]
  | [], [] | [], [_] | [], [_, _] | [], [_, _, _] => simp at h
  | [_], [] | [_], [_] | [_], [_, _] => simp at h
  | [_, _], [] | [_, _], [_] => simp at h
  | [_, _, _], [] => simp at h

theorem headerSoFar_of_four {d : List UInt8} (h : 4 ≤ d.length) :
    headerSoFar d = ntohl d :=
  ntohl_append h _

/-- Fewer than four bytes of a header that is not yet over-long complete to a
header that starts a frame. -/
theorem exists_header {d : List UInt8} (h : d.length < 4)
    (h1 : headerSoFar d ≤ 2 ^ 20) :
    ∃ y, (d ++ y).length = 4 ∧ 1 ≤ ntohl (d ++ y) ∧ ntohl (d ++ y) ≤ 2 ^ 20 := by
  by_cases h0 : headerSoFar d = 0
  · -- nothing but zeros so far: the last byte makes it a header of four
    refine ⟨List.replicate (3 - d.length) 0 ++ [4], ?_, ?_⟩
    · simp only [List.length_append, List.length_replicate, List.length_singleton]
      omega
    · rcases d with - | ⟨a, - | ⟨b, - | ⟨c, - | ⟨_, _⟩⟩⟩⟩
      · simp [ntohl]
      · simp [headerSoFar, ntohl] at h0 ⊢; omega
      · simp [headerSoFar, ntohl] at h0 ⊢; omega
      · simp [headerSoFar, ntohl] at h0 ⊢; omega
      · simp only [List.length_cons] at h; omega
  · refine ⟨List.replicate (4 - d.length) 0, ?_, ?_, h1⟩
    · simp only [List.length_append, List.length_replicate]
      omega
    · exact Nat.one_le_iff_ne_zero.mpr h0

/-- A header in range is accepted once enough bytes are behind it. -/
theorem exists_accepted {d : List UInt8} (h : 4 ≤ d.length)
    (h1 : 1 ≤ ntohl d) (h2 : ntohl d ≤ 2 ^ 20) :
    ∃ x, 0 < (tryDecode p (d ++ x) msg).1 := by
  have hn := ntohl_append h (List.replicate (ntohl d) 0)
  have hl : (d ++ List.replicate (ntohl d) 0).length = d.length + ntohl d := by
    rw [List.length_append, List.length_replicate]
  refine ⟨List.replicate (ntohl d) 0, ?_⟩
  rw [tryDecode_fit (by omega) (by rw [hn]; exact h2) (by rw [hn, hl]; omega), hn]
  simp only
  omega

/-- An accepted extension shows that the header can start a frame. -/
theorem headerSoFar_of_accepted {d x : List UInt8}
    (h : 0 < (tryDecode p (d ++ x) msg).1) :
    headerSoFar d ≤ 2 ^ 20 ∧ (d.length = 4 → headerSoFar d ≠ 0) := by
  obtain ⟨h4, h1, h2, -, -⟩ := tryDecode_pos h
  refine ⟨(headerSoFar_le (Nat.le_of_lt h4)).trans h2, fun hd => ?_⟩
  rw [headerSoFar_of_four hd.ge, ← ntohl_append hd.ge x]
  omega

/-- **When "partial message" is honest.**  For every input the answer means
what `Codec.h` says if and only if the bytes can still start a frame. -/
theorem honest_iff (p : Platform) (d : List UInt8) (msg : Slice) :
    Honest p d msg ↔ CanStart p d := by
  constructor
  · intro hh
    refine ⟨fun hs => ?_, fun hl => ?_⟩
    · obtain ⟨x, hx⟩ := hh.partial_completes (by rw [tryDecode_short hs])
      exact headerSoFar_of_accepted hx
    · by_cases hr : 4 ≤ ntohl d ∧ ntohl d ≤ 2 ^ 20
      · exact ⟨hr.1, Or.inl (by omega)⟩
      · rcases (tryDecode_neg (hh.bad_rejected hl hr)).2 with ⟨ho, hs⟩ | ⟨hs, hw⟩
        · exact ⟨by omega, Or.inl hs⟩
        · exact ⟨by omega, Or.inr hw⟩
  · rintro ⟨hshort, hlong⟩
    constructor
    · intro h0
      rcases Nat.lt_trichotomy d.length 4 with hs | hs | hl
      · obtain ⟨y, hy, h1, h2⟩ := exists_header hs (hshort hs.le).1
        obtain ⟨x, hx⟩ := @exists_accepted p msg _ hy.ge h1 h2
        exact ⟨y ++ x, by rwa [← List.append_assoc]⟩
      · obtain ⟨h2, h1⟩ := hshort hs.le
        rw [headerSoFar_of_four hs.ge] at h1 h2
        exact exists_accepted hs.ge (Nat.one_le_iff_ne_zero.mpr (h1 hs)) h2
      · obtain ⟨h1, hc⟩ := hlong hl
        rcases hc with hs | hw
        · rcases Nat.lt_or_ge (2 ^ 20) (ntohl d) with ho | ho
          · rw [tryDecode_over hl ho hs] at h0; exact absurd h0 (by simp)
          · exact exists_accepted hl.le (by omega) ho
        · have hs : 2 ^ 31 ≤ ntohl d ∨ ntohl d < 2 ^ 31 := by omega
          have hlt := ntohl_lt d
          rcases hs with hs | hs
          · rw [tryDecode_neg_fit hl hs hw] at h0; simp only at h0; omega
          · rcases Nat.lt_or_ge (2 ^ 20) (ntohl d) with ho | ho
            · rw [tryDecode_over hl ho hs] at h0; exact absurd h0 (by simp)
            · exact exists_accepted hl.le (by omega) ho
    · intro hl hbad
      obtain ⟨h1, hc⟩ := hlong hl
      have hlt := ntohl_lt d
      rcases Nat.lt_or_ge (ntohl d) (2 ^ 31) with hs | hs
      · rw [tryDecode_over hl (by omega) hs]; simp
      · rw [tryDecode_neg_fit hl hs (by omega)]; simp only; omega

/-- A header of zero is a dead state: five zero bytes are "partial", and stay
so whatever follows. -/
theorem tryDecode_zero_header :
    ¬ ∀ (p : Platform) (d : List UInt8) (msg : Slice), Honest p d msg := by
  intro h
  obtain ⟨x, hx⟩ := (h .x64 [0, 0, 0, 0, 0] Slice.empty).partial_completes (by decide)
  obtain ⟨-, h1, -⟩ := tryDecode_pos hx
  rw [ntohl_append (by decide)] at h1
  exact absurd h1 (by decide)

end Libet
