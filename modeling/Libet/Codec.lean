/-
Libet/Codec.lean

`Codec.h` / `Codec.cpp`: `LengthCodec`, the frame format of a message.

A frame is a four-byte length in network order, counting itself, followed by
the message.  `tryDecode` answers as `Codec.h` documents: a positive count of
scanned bytes with the message, `0` for a partial message, a negative number
for an error.  The length passes through `ntohl`, a signed `int`, a comparison
with the unsigned `data.size()` and the unsigned length of the `Slice`; these
conversions are written out, for both widths of `size_t` the project is built
for.

The decoder's answers are stable under more input, so it is a `Framing`
(`lengthFraming`), and the `TryDecode` / `consume` loop of `TcpConn::OnMsg` on
a byte string is its `drain` (`decodeLoop`).
-/
import Libet.Buffer
import Libet.CInt
import Libet.Lib.Framing

namespace Libet

/-! ### Slices -/

/-- A `Slice` of the bytes it was cut from: where it begins and its `size()`. -/
structure Slice where
  off : Nat
  size : Nat
  deriving DecidableEq, Repr

/-- `Slice::Slice()`, which points at the empty string. -/
def Slice.empty : Slice := ⟨0, 0⟩

/-- The bytes of `data` that a slice covers. -/
def Slice.bytes (s : Slice) (data : List UInt8) : List UInt8 :=
  (data.drop s.off).take s.size

/-! ### The codec -/

/-- `ntohl(*(int32_t*)data)`: the first four bytes in network order. -/
def ntohl : List UInt8 → Nat
  | b₀ :: b₁ :: b₂ :: b₃ :: _ =>
      b₀.toNat * 2 ^ 24 + b₁.toNat * 2 ^ 16 + b₂.toNat * 2 ^ 8 + b₃.toNat
  | _ => 0

/-- The bytes that `appendValue(htonl(v))` appends. -/
def htonl (v : Nat) : List UInt8 :=
  [UInt8.ofNat (v / 2 ^ 24), UInt8.ofNat (v / 2 ^ 16), UInt8.ofNat (v / 2 ^ 8),
    UInt8.ofNat v]

/-- `LengthCodec::TryDecode`: the returned `int` and the message slice, which
is left as it was unless a message is found. -/
def tryDecode (p : Platform) (data : List UInt8) (msg : Slice) : Int × Slice :=
  if data.length ≤ 4 then (0, msg)
  else
    let len := toInt32 (ntohl data)
    if len > 1024 * 1024 then (-1, msg)
    -- the comparison is one of `size_t`s: a negative `len` wraps around
    else if data.length ≥ toSize p len then (len, ⟨4, toSize p (len - 4)⟩)
    else (0, msg)

/-- The bytes `LengthCodec::Encode` appends for a message. -/
def frame (msg : List UInt8) : List UInt8 :=
  htonl (toUInt32 (4 + toInt32 msg.length)) ++ msg

/-- `LengthCodec::Encode`. -/
def encode (msg : List UInt8) (buf : Buffer) : Buffer :=
  (buf.append (htonl (toUInt32 (4 + toInt32 msg.length)))).append msg

theorem wf_encode {buf : Buffer} (h : buf.WF) (msg : List UInt8) :
    (encode msg buf).WF :=
  Buffer.wf_append (Buffer.wf_append h _) _

theorem content_encode {buf : Buffer} (h : buf.WF) (msg : List UInt8) :
    (encode msg buf).content = buf.content ++ frame msg := by
  rw [encode, Buffer.content_append (Buffer.wf_append h _),
    Buffer.content_append h, frame, List.append_assoc]

/-! ### Headers -/

theorem ntohl_lt (data : List UInt8) : ntohl data < 2 ^ 32 := by
  unfold ntohl
  split
  · rename_i b₀ b₁ b₂ b₃ _
    have h0 := b₀.toNat_lt
    have h1 := b₁.toNat_lt
    have h2 := b₂.toNat_lt
    have h3 := b₃.toNat_lt
    omega
  · decide

/-- The header is in the first four bytes. -/
theorem ntohl_append {data : List UInt8} (h : 4 ≤ data.length)
    (x : List UInt8) : ntohl (data ++ x) = ntohl data := by
  match data, h with
  | _ :: _ :: _ :: _ :: _, _ => rfl

@[simp] theorem htonl_length (v : Nat) : (htonl v).length = 4 := rfl

/-- `ntohl` undoes `htonl`. -/
theorem ntohl_htonl {v : Nat} (h : v < 2 ^ 32) (x : List UInt8) :
    ntohl (htonl v ++ x) = v := by
  simp only [htonl, List.cons_append, List.nil_append, ntohl, UInt8.toNat_ofNat']
  omega

/-- The header of an accepted message counts the frame. -/
theorem ntohl_frame {msg : List UInt8} (h : 4 + msg.length < 2 ^ 31)
    (x : List UInt8) : ntohl (frame msg ++ x) = 4 + msg.length := by
  have hv : toUInt32 (4 + toInt32 msg.length) = 4 + msg.length := by
    rw [toInt32_of_lt (by omega), toUInt32]
    omega
  rw [frame, hv, List.append_assoc, ntohl_htonl (by omega)]

@[simp] theorem frame_length (msg : List UInt8) :
    (frame msg).length = 4 + msg.length := by
  simp [frame]

/-! ### What `TryDecode` answers -/

section Answers

variable {p : Platform} {data : List UInt8} {msg : Slice}

/-- Up to four bytes the header is not looked at. -/
theorem tryDecode_short (h : data.length ≤ 4) :
    tryDecode p data msg = (0, msg) := by
  simp [tryDecode, h]

theorem tryDecode_over (h : 4 < data.length) (h1 : 2 ^ 20 < ntohl data)
    (h2 : ntohl data < 2 ^ 31) : tryDecode p data msg = (-1, msg) := by
  have hlen : toInt32 (ntohl data) > 1024 * 1024 := by
    rw [toInt32_of_lt h2]; omega
  simp only [tryDecode, if_neg (Nat.not_le.mpr h), if_pos hlen]

theorem tryDecode_fit (h : 4 < data.length) (h1 : ntohl data ≤ 2 ^ 20)
    (h2 : ntohl data ≤ data.length) :
    tryDecode p data msg =
      (↑(ntohl data), ⟨4, toSize p (ntohl data - 4)⟩) := by
  have hlen : ¬ ((ntohl data : Int) > 1024 * 1024) := by omega
  have hfit : data.length ≥ toSize p (ntohl data) := by
    rw [toSize_natCast p (by omega)]; exact h2
  simp only [tryDecode, if_neg (Nat.not_le.mpr h),
    toInt32_of_lt (show ntohl data < 2 ^ 31 by omega), if_neg hlen, if_pos hfit]

theorem tryDecode_wait (h : 4 < data.length) (h1 : ntohl data ≤ 2 ^ 20)
    (h2 : data.length < ntohl data) : tryDecode p data msg = (0, msg) := by
  have hlen : ¬ ((ntohl data : Int) > 1024 * 1024) := by omega
  have hfit : ¬ data.length ≥ toSize p (ntohl data) := by
    rw [toSize_natCast p (by omega)]; omega
  simp only [tryDecode, if_neg (Nat.not_le.mpr h),
    toInt32_of_lt (show ntohl data < 2 ^ 31 by omega), if_neg hlen, if_neg hfit]

/-- A header that is negative as an `int` passes the test for over-long
frames; compared as a `size_t` it exceeds any buffer short of it. -/
theorem tryDecode_neg_wait (h : 4 < data.length) (h1 : 2 ^ 31 ≤ ntohl data)
    (h2 : data.length < toSize p (toInt32 (ntohl data))) :
    tryDecode p data msg = (0, msg) := by
  have hneg := toInt32_of_ge h1 (ntohl_lt data)
  have hlt := ntohl_lt data
  have hlen : ¬ (toInt32 (ntohl data) > 1024 * 1024) := by omega
  simp only [tryDecode, if_neg (Nat.not_le.mpr h), if_neg hlen,
    if_neg (Nat.not_le.mpr h2)]

theorem tryDecode_neg_fit (h : 4 < data.length) (h1 : 2 ^ 31 ≤ ntohl data)
    (h2 : toSize p (toInt32 (ntohl data)) ≤ data.length) :
    tryDecode p data msg = ((ntohl data : Int) - 2 ^ 32,
      ⟨4, toSize p (toInt32 (ntohl data) - 4)⟩) := by
  have hneg := toInt32_of_ge h1 (ntohl_lt data)
  have hlt := ntohl_lt data
  have hlen : ¬ (toInt32 (ntohl data) > 1024 * 1024) := by omega
  simp only [tryDecode, if_neg (Nat.not_le.mpr h), if_neg hlen, if_pos h2]
  rw [hneg]

/-- **Inversion of a positive answer**: the header is in range, the frame has
arrived, and the answer is the header. -/
theorem tryDecode_pos (h : 0 < (tryDecode p data msg).1) :
    4 < data.length ∧ 1 ≤ ntohl data ∧ ntohl data ≤ 2 ^ 20 ∧
      ntohl data ≤ data.length ∧
      tryDecode p data msg = (↑(ntohl data), ⟨4, toSize p (ntohl data - 4)⟩) := by
  have hlt := ntohl_lt data
  rcases Nat.lt_or_ge 4 data.length with h4 | h4
  case inr => rw [tryDecode_short h4] at h; exact absurd h (by simp)
  -- by the sign of the header as an `int`
  rcases Nat.lt_or_ge (ntohl data) (2 ^ 31) with hs | hs
  · rcases Nat.lt_or_ge (2 ^ 20) (ntohl data) with ho | ho
    · rw [tryDecode_over h4 ho hs] at h; exact absurd h (by simp)
    · rcases Nat.lt_or_ge data.length (ntohl data) with hw | hw
      · rw [tryDecode_wait h4 ho hw] at h; exact absurd h (by simp)
      · have heq := @tryDecode_fit p _ msg h4 ho hw
        rw [heq] at h
        exact ⟨h4, by simp only at h; omega, ho, hw, heq⟩
  · rcases Nat.lt_or_ge data.length (toSize p (toInt32 (ntohl data))) with hw | hw
    · rw [tryDecode_neg_wait h4 hs hw] at h; exact absurd h (by simp)
    · rw [tryDecode_neg_fit h4 hs hw] at h; simp only at h; omega

/-- **Inversion of a negative answer**: the header is over-long, or negative
with more bytes in the buffer than it stands for as a `size_t`. -/
theorem tryDecode_neg (h : (tryDecode p data msg).1 < 0) :
    4 < data.length ∧
      ((2 ^ 20 < ntohl data ∧ ntohl data < 2 ^ 31) ∨
        (2 ^ 31 ≤ ntohl data ∧ toSize p (toInt32 (ntohl data)) ≤ data.length)) := by
  rcases Nat.lt_or_ge 4 data.length with h4 | h4
  case inr => rw [tryDecode_short h4] at h; exact absurd h (by simp)
  refine ⟨h4, ?_⟩
  rcases Nat.lt_or_ge (ntohl data) (2 ^ 31) with hs | hs
  · rcases Nat.lt_or_ge (2 ^ 20) (ntohl data) with ho | ho
    · exact Or.inl ⟨ho, hs⟩
    · rcases Nat.lt_or_ge data.length (ntohl data) with hw | hw
      · rw [tryDecode_wait h4 ho hw] at h; exact absurd h (by simp)
      · rw [tryDecode_fit h4 ho hw] at h; simp only at h; omega
  · rcases Nat.lt_or_ge data.length (toSize p (toInt32 (ntohl data))) with hw | hw
    · rw [tryDecode_neg_wait h4 hs hw] at h; exact absurd h (by simp)
    · exact Or.inr ⟨hs, hw⟩

/-- More input does not change a positive answer. -/
theorem tryDecode_append_pos (x : List UInt8) (h : 0 < (tryDecode p data msg).1) :
    tryDecode p (data ++ x) msg = tryDecode p data msg := by
  obtain ⟨h4, -, ho, hw, heq⟩ := tryDecode_pos h
  have hn := ntohl_append (Nat.le_of_lt h4) x
  rw [heq, tryDecode_fit (by rw [List.length_append]; omega) (by rw [hn]; exact ho)
    (by rw [hn, List.length_append]; omega), hn]

/-- More input does not make an error go away. -/
theorem tryDecode_append_neg (x : List UInt8) (h : (tryDecode p data msg).1 < 0) :
    (tryDecode p (data ++ x) msg).1 < 0 := by
  obtain ⟨h4, hc⟩ := tryDecode_neg h
  have hn := ntohl_append (Nat.le_of_lt h4) x
  have h4' : 4 < (data ++ x).length := by rw [List.length_append]; omega
  rcases hc with ⟨ho, hs⟩ | ⟨hs, hw⟩
  · rw [tryDecode_over h4' (by rw [hn]; exact ho) (by rw [hn]; exact hs)]
    simp
  · have hlt := ntohl_lt data
    rw [tryDecode_neg_fit h4' (by rw [hn]; exact hs)
      (by rw [hn, List.length_append]; omega), hn]
    simp only
    omega

end Answers

/-! ### The codec as a framing -/

/-- One look of the `OnMsg` loop at the input. -/
def lengthParse (p : Platform) (data : List UInt8) : Parse Slice :=
  let r := tryDecode p data Slice.empty
  if r.1 < 0 then .bad
  else if 0 < r.1 then .item r.1.toNat r.2
  else .more

theorem lengthParse_item {p : Platform} {data : List UInt8} {n : Nat} {m : Slice}
    (h : lengthParse p data = .item n m) :
    tryDecode p data Slice.empty = (↑n, m) ∧ 0 < n := by
  unfold lengthParse at h
  dsimp only at h
  split at h
  · cases h
  · split at h
    · rename_i hpos
      simp only [Parse.item.injEq] at h
      obtain ⟨rfl, rfl⟩ := h
      have hn := Int.toNat_of_nonneg (Int.le_of_lt hpos)
      exact ⟨Prod.ext hn.symm rfl, by omega⟩
    · cases h

theorem lengthParse_bad {p : Platform} {data : List UInt8} :
    lengthParse p data = .bad ↔ (tryDecode p data Slice.empty).1 < 0 := by
  unfold lengthParse
  dsimp only
  split
  · simp [*]
  · split <;> simp [*]

theorem lengthParse_of_pos {p : Platform} {data : List UInt8}
    (h : 0 < (tryDecode p data Slice.empty).1) :
    lengthParse p data = .item (tryDecode p data Slice.empty).1.toNat
      (tryDecode p data Slice.empty).2 := by
  unfold lengthParse
  dsimp only
  rw [if_neg (by omega), if_pos h]

theorem lengthParse_of_zero {p : Platform} {data : List UInt8}
    (hneg : ¬ (tryDecode p data Slice.empty).1 < 0)
    (hpos : ¬ 0 < (tryDecode p data Slice.empty).1) : lengthParse p data = .more := by
  unfold lengthParse
  dsimp only
  rw [if_neg hneg, if_neg hpos]

@[simp] theorem lengthParse_nil (p : Platform) : lengthParse p [] = .more := by
  refine lengthParse_of_zero ?_ ?_ <;> simp [tryDecode]

/-- `LengthCodec` as an incremental decoder. -/
def lengthFraming (p : Platform) : Framing UInt8 Slice where
  parse := lengthParse p
  item_pos h := (lengthParse_item h).2
  item_le h := by
    obtain ⟨heq, hpos⟩ := lengthParse_item h
    obtain ⟨-, -, -, hle, heq'⟩ :=
      tryDecode_pos (show 0 < (tryDecode _ _ _).1 by rw [heq]; simpa using hpos)
    rw [heq, Prod.mk.injEq] at heq'
    omega
  item_append {d _ _} x h := by
    obtain ⟨heq, hpos⟩ := lengthParse_item h
    have hpos' : 0 < (tryDecode p d Slice.empty).1 := by rw [heq]; simpa using hpos
    rw [← h, lengthParse, lengthParse, tryDecode_append_pos x hpos']
  bad_append x h := lengthParse_bad.mpr (tryDecode_append_neg x (lengthParse_bad.mp h))

/-- The slice of a message begins behind the header, and unless its length has
wrapped around it ends with the frame. -/
theorem slice_of_item {p : Platform} {data : List UInt8} {n : Nat} {m : Slice}
    (h : lengthParse p data = .item n m) :
    m.off = 4 ∧ (m.size ≤ 2 ^ 20 → 4 + m.size = n) := by
  obtain ⟨heq, hpos⟩ := lengthParse_item h
  obtain ⟨-, h1, ho, -, heq'⟩ :=
    tryDecode_pos (show 0 < (tryDecode p data Slice.empty).1 by rw [heq]; simpa using hpos)
  rw [heq, Prod.mk.injEq] at heq'
  obtain ⟨hn, rfl⟩ := heq'
  refine ⟨rfl, fun hsize => ?_⟩
  rw [← hn] at hsize ⊢
  cases p <;> simp only [toSize, Platform.sizeBits] at hsize ⊢ <;> omega

/-- A message whose slice has not wrapped around lies inside the input, behind
its header. -/
theorem inside_of_mem_drain {p : Platform} {off : Nat} {d : List UInt8} {x : Nat × Slice}
    (h : x ∈ ((lengthFraming p).drain off d).items) (hsize : x.2.size ≤ 2 ^ 20) :
    x.2.off = 4 ∧ x.1 - off + 4 + x.2.size ≤ d.length := by
  induction off, d using Framing.drain.induct (lengthFraming p) with
  | case1 off d hp => rw [Framing.drain_more hp] at h; cases h
  | case2 off d hp => rw [Framing.drain_bad hp] at h; cases h
  | case3 off d n m hp ih =>
      rw [Framing.drain_item hp, Drained.prepend_items, List.singleton_append,
        List.mem_cons] at h
      have hn : n ≤ d.length := Framing.item_le _ hp
      rcases h with rfl | h
      · -- the first message begins the input
        obtain ⟨h4, hend⟩ := slice_of_item hp
        have := hend hsize
        exact ⟨h4, by simp only at *; omega⟩
      · -- a later one lies in what the first has left
        obtain ⟨h4, hle⟩ := ih h
        have hoff := Framing.off_le_of_mem_drain _ h
        rw [List.length_drop] at hle
        exact ⟨h4, by omega⟩

/-- The `TryDecode` / `consume` loop of `OnMsg` run once over `stream`, whose
first byte is number `off` of the connection: the messages with the offsets of
their frames, the bytes not consumed, and whether `TryDecode` reported an
error. -/
def decodeLoop (p : Platform) (off : Nat) (stream : List UInt8) : Drained UInt8 Slice :=
  (lengthFraming p).drain off stream

end Libet
