/-
Libet/Buffer.lean

`Buffer.h` / `Buffer.cpp`: the byte buffer behind `m_input` and `m_output`.

The storage `buf_` holds `cap_` bytes, of which those from `b_` up to `e_` are
the content.  Bytes leave at `b_` (`consume`) and arrive at `e_` (`append`, or
`makeRoom` / `recv` / `addSize`); the storage moves its content to the front or
is reallocated when the room behind `e_` runs out.  Sizes are exact numbers;
`size_t` subtractions such as `e_ - b_` are those of the source as long as
`b_ ≤ e_ ≤ cap_`, which `Buffer.Valid` says and every operation keeps; `WF` adds
that `exp_` is positive, as it is unless `setSuggestSize` is given 0.

What the rest of the development uses is that `content` behaves like a list:
`append` concatenates, `consume` drops, `absorb` moves, and nothing else
changes it.
-/
import Mathlib.Data.List.Basic

namespace Libet

/-- `struct Buffer`.  `buf = none` is the null pointer. -/
structure Buffer where
  buf : Option (List UInt8)
  b : Nat
  e : Nat
  cap : Nat
  exp : Nat
  deriving DecidableEq, Repr

/-- `memcpy(s + pos, p, p.size())`. -/
def overwrite (s : List UInt8) (pos : Nat) (p : List UInt8) : List UInt8 :=
  s.take pos ++ p ++ s.drop (pos + p.length)

/-- `new char[n]`; the values are unspecified and nobody reads them. -/
def newChars (n : Nat) : List UInt8 := List.replicate n 0

namespace Buffer

/-! ### The operations -/

/-- `Buffer::Buffer()`. -/
def new : Buffer := ⟨none, 0, 0, 0, 512⟩

/-- The bytes `buf_` points to. -/
def storage (x : Buffer) : List UInt8 := x.buf.getD []

def size (x : Buffer) : Nat := x.e - x.b

def empty (x : Buffer) : Bool := x.e == x.b

/-- Room behind the content. -/
def space (x : Buffer) : Nat := x.cap - x.e

/-- The bytes from `begin()` to `end()`. -/
def content (x : Buffer) : List UInt8 := (x.storage.drop x.b).take x.size

def clear (x : Buffer) : Buffer :=
  { x with buf := none, cap := 0, b := 0, e := 0 }

def moveHead (x : Buffer) : Buffer :=
  { x with buf := x.buf.map fun s => overwrite s 0 x.content
           e := x.e - x.b, b := 0 }

def expand (x : Buffer) (len : Nat) : Buffer :=
  let ncap := max x.exp (max (2 * x.cap) (x.size + len))
  { x with buf := some (overwrite (newChars ncap) 0 x.content)
           e := x.e - x.b, b := 0, cap := ncap }

/-- `makeRoom(size_t len)`. -/
def makeRoomFor (x : Buffer) (len : Nat) : Buffer :=
  if x.e + len ≤ x.cap then x
  -- the content moves to the front where half of the capacity is enough for it
  else if x.size + len < x.cap / 2 then x.moveHead
  else x.expand len

/-- `makeRoom()`. -/
def makeRoom (x : Buffer) : Buffer :=
  if x.space < x.exp then x.expand 0 else x

def addSize (x : Buffer) (len : Nat) : Buffer := { x with e := x.e + len }

/-- Write `p` at `end()`, as `recv` and the `memcpy` of `append` do. -/
def writeEnd (x : Buffer) (p : List UInt8) : Buffer :=
  { x with buf := x.buf.map fun s => overwrite s x.e p }

/-- `append(const char*, size_t)`: `allocRoom`, then copy to where the end
was. -/
def append (x : Buffer) (p : List UInt8) : Buffer :=
  ((x.makeRoomFor p.length).writeEnd p).addSize p.length

def consume (x : Buffer) (len : Nat) : Buffer :=
  let y := { x with b := x.b + len }
  if y.e = y.b then y.clear else y

/-- `absorb(buf)` for a `buf` that is not the buffer itself: the absorbing
buffer and the absorbed one afterwards. -/
def absorb (x buf : Buffer) : Buffer × Buffer :=
  if x.size = 0 then ({ buf with exp := x.exp }, { x with exp := buf.exp })
  else (x.append buf.content, buf.clear)

/-- `copyFrom(b)`: everything is copied, and the storage is a new one that holds
the content. -/
def copyFrom (b : Buffer) : Buffer :=
  { b with buf := b.buf.map fun _ => overwrite (newChars b.cap) b.b b.content }

/-! ### Well-formedness -/

/-- What holds of every buffer the operations build. -/
structure Valid (x : Buffer) : Prop where
  b_le_e : x.b ≤ x.e
  e_le_cap : x.e ≤ x.cap
  storage_length : x.storage.length = x.cap
  null_iff : x.buf = none ↔ x.cap = 0

/-- The same, and `makeRoom()` makes room for something. -/
structure WF (x : Buffer) : Prop where
  b_le_e : x.b ≤ x.e
  e_le_cap : x.e ≤ x.cap
  storage_length : x.storage.length = x.cap
  null_iff : x.buf = none ↔ x.cap = 0
  exp_pos : 0 < x.exp

theorem wf_new : WF new := ⟨by decide, by decide, rfl, by decide, by decide⟩

theorem WF.valid {x : Buffer} (h : x.WF) : x.Valid :=
  ⟨h.b_le_e, h.e_le_cap, h.storage_length, h.null_iff⟩

theorem Valid.wf {x : Buffer} (h : x.Valid) (hexp : 0 < x.exp) : x.WF :=
  ⟨h.b_le_e, h.e_le_cap, h.storage_length, h.null_iff, hexp⟩

@[simp] theorem content_new : new.content = [] := rfl

variable {x y : Buffer}

theorem Valid.content_length (h : x.Valid) : x.content.length = x.size := by
  have h1 := h.b_le_e
  have h2 := h.e_le_cap
  have h3 := h.storage_length
  simp only [content, size, List.length_take, List.length_drop]
  omega

theorem content_length (h : x.WF) : x.content.length = x.size := h.valid.content_length

theorem content_length_le (x : Buffer) : x.content.length ≤ x.size := by
  simp only [content, List.length_take]
  omega

theorem size_consume_le (x : Buffer) (len : Nat) : (x.consume len).size ≤ x.size := by
  simp only [consume, size]
  split
  · simp only [clear]; omega
  · simp only; omega

theorem size_consume_lt {len : Nat} (hx : 0 < x.size) (hlen : 0 < len) :
    (x.consume len).size < x.size := by
  rw [size] at hx
  simp only [consume, size]
  split
  · simp only [clear]; omega
  · simp only; omega

theorem Valid.size_eq_zero_iff (h : x.Valid) : x.size = 0 ↔ x.content = [] := by
  rw [← h.content_length, List.length_eq_zero_iff]

theorem size_eq_zero_iff (h : x.WF) : x.size = 0 ↔ x.content = [] := h.valid.size_eq_zero_iff

theorem empty_iff (h : x.WF) : x.empty = true ↔ x.content = [] := by
  have h1 := h.b_le_e
  rw [← size_eq_zero_iff h, empty, size, beq_iff_eq]
  omega

theorem valid_clear (x : Buffer) : x.clear.Valid :=
  ⟨Nat.le_refl _, Nat.le_refl _, rfl, by simp [clear]⟩

@[simp] theorem content_clear (x : Buffer) : x.clear.content = [] := by
  simp [clear, content, storage]

/-- Copying `p` to the front of a storage that holds it. -/
theorem overwrite_zero_take (s p : List UInt8) :
    (overwrite s 0 p).take p.length = p := by
  simp [overwrite]

theorem length_overwrite {s p : List UInt8} {pos : Nat}
    (h : pos + p.length ≤ s.length) : (overwrite s pos p).length = s.length := by
  simp only [overwrite, List.length_append, List.length_take, List.length_drop]
  omega

/-- Writing at the end of the content extends it. -/
theorem take_drop_overwrite {s p : List UInt8} {b e : Nat} (hbe : b ≤ e)
    (he : e ≤ s.length) :
    ((overwrite s e p).drop b).take (e + p.length - b)
      = (s.drop b).take (e - b) ++ p := by
  have hlen : (s.take e).length = e := by simp [he]
  rw [overwrite, List.append_assoc,
    List.drop_append_of_le_length (by rw [hlen]; exact hbe), List.drop_take,
    ← List.append_assoc]
  -- what is in front of the rest of the storage has the length that is taken
  have hpre : ((s.drop b).take (e - b) ++ p).length = e + p.length - b := by
    simp only [List.length_append, List.length_take, List.length_drop]
    omega
  rw [← hpre, List.take_left']
  rfl

theorem Valid.moveHead (h : x.Valid) :
    x.moveHead.Valid ∧ x.moveHead.content = x.content := by
  have h1 := h.b_le_e
  have h2 := h.e_le_cap
  have h3 := h.storage_length
  have hc := h.content_length
  cases hb : x.buf with
  | none =>
      -- no storage, so nothing to move
      have hcap : x.cap = 0 := by simpa [storage, hb] using h3.symm
      refine ⟨⟨Nat.zero_le _, ?_, ?_, by simp [Buffer.moveHead, hb, hcap]⟩, ?_⟩
      · simp only [Buffer.moveHead]; omega
      · simp [Buffer.moveHead, storage, hb, hcap]
      · simp [Buffer.moveHead, content, storage, hb]
  | some s =>
      have hs : s.length = x.cap := by simpa [storage, hb] using h3
      have hfit : 0 + x.content.length ≤ s.length := by
        rw [hc, size]; omega
      refine ⟨⟨Nat.zero_le _, ?_, ?_, ?_⟩, ?_⟩
      · simp only [Buffer.moveHead]; omega
      · simpa [Buffer.moveHead, storage, hb, hs] using length_overwrite hfit
      · simpa [Buffer.moveHead] using h.null_iff
      · have := overwrite_zero_take s x.content
        rw [hc, size] at this
        simpa [Buffer.moveHead, storage, hb, content, size] using this

theorem Valid.expand (h : x.Valid) (len : Nat) (hpos : 0 < (x.expand len).cap) :
    (x.expand len).Valid ∧ (x.expand len).content = x.content := by
  have h1 := h.b_le_e
  have hc := h.content_length
  have hsize : x.size + len ≤ (x.expand len).cap := by
    simp only [Buffer.expand]; omega
  have hfit : 0 + x.content.length ≤ (newChars (x.expand len).cap).length := by
    rw [hc, newChars, List.length_replicate]; omega
  refine ⟨⟨Nat.zero_le _, ?_, ?_, ?_⟩, ?_⟩
  · have : (x.expand len).e = x.size := rfl
    omega
  · have hlen := length_overwrite hfit
    simp only [newChars, List.length_replicate] at hlen
    exact hlen
  · have hsome : (x.expand len).buf ≠ none := fun hn => by cases hn
    exact ⟨fun hn => absurd hn hsome, fun h0 => absurd h0 (Nat.ne_of_gt hpos)⟩
  · have := overwrite_zero_take (newChars (x.expand len).cap) x.content
    rw [hc, size] at this
    simpa [Buffer.expand, storage, content, size] using this

theorem Valid.makeRoomFor (h : x.Valid) (len : Nat) :
    (x.makeRoomFor len).Valid ∧ (x.makeRoomFor len).content = x.content ∧
      len ≤ (x.makeRoomFor len).space := by
  have h1 := h.b_le_e
  have h2 := h.e_le_cap
  simp only [Buffer.makeRoomFor]
  split
  · rename_i hroom
    exact ⟨h, rfl, by rw [space]; omega⟩
  · split
    · rename_i hmove
      refine ⟨h.moveHead.1, h.moveHead.2, ?_⟩
      simp only [space, Buffer.moveHead]
      rw [size] at hmove
      omega
    · rename_i hroom _
      -- it did not fit, so `len` is positive
      have hexp := h.expand len (by simp only [Buffer.expand, size]; omega)
      refine ⟨hexp.1, hexp.2, ?_⟩
      simp only [space, Buffer.expand, size]
      omega

theorem Valid.makeRoom (h : x.Valid) :
    x.makeRoom.Valid ∧ x.makeRoom.content = x.content := by
  simp only [Buffer.makeRoom]
  split
  · rename_i hroom
    exact h.expand 0 (by simp only [Buffer.expand]; omega)
  · exact ⟨h, rfl⟩

theorem exp_makeRoomFor (x : Buffer) (len : Nat) : (x.makeRoomFor len).exp = x.exp := by
  simp only [makeRoomFor]
  split
  · rfl
  · split <;> rfl

theorem exp_makeRoom (x : Buffer) : x.makeRoom.exp = x.exp := by
  simp only [makeRoom]
  split <;> rfl

/-- `makeRoom()` always leaves room for at least one byte. -/
theorem makeRoom_spec (h : x.WF) :
    x.makeRoom.WF ∧ x.makeRoom.content = x.content ∧ 0 < x.makeRoom.space := by
  have h1 := h.b_le_e
  have h2 := h.e_le_cap
  have h3 := h.exp_pos
  obtain ⟨hvalid, hc⟩ := h.valid.makeRoom
  refine ⟨hvalid.wf (by rw [exp_makeRoom]; exact h3), hc, ?_⟩
  simp only [makeRoom]
  split
  · simp only [space, expand, size]
    omega
  · rename_i hroom
    omega

/-- Bytes written into the room and counted in extend the content. -/
theorem Valid.fill (h : x.Valid) {p : List UInt8} (hp : p.length ≤ x.space) :
    ((x.writeEnd p).addSize p.length).Valid ∧
      ((x.writeEnd p).addSize p.length).content = x.content ++ p := by
  have h1 := h.b_le_e
  have h2 := h.e_le_cap
  have h3 := h.storage_length
  rw [space] at hp
  cases hb : x.buf with
  | none =>
      have hcap : x.cap = 0 := by simpa [storage, hb] using h3.symm
      obtain rfl : p = [] := List.length_eq_zero_iff.mp (by omega)
      refine ⟨⟨h1, h2, ?_, by simp [writeEnd, addSize, hb, hcap]⟩, ?_⟩
      · simp [writeEnd, addSize, storage, hb, hcap]
      · simp [writeEnd, addSize, content, storage, hb]
  | some s =>
      have hs : s.length = x.cap := by simpa [storage, hb] using h3
      refine ⟨⟨?_, ?_, ?_, ?_⟩, ?_⟩
      · simp only [writeEnd, addSize]; omega
      · simp only [writeEnd, addSize]; omega
      · have hfit : x.e + p.length ≤ s.length := by omega
        simpa [writeEnd, addSize, storage, hb, hs] using length_overwrite hfit
      · simpa [writeEnd, addSize] using h.null_iff
      · have := take_drop_overwrite (s := s) (p := p) h1 (by omega)
        simpa [writeEnd, addSize, content, storage, hb, size] using this

theorem writeEnd_addSize_spec (h : x.WF) {p : List UInt8}
    (hp : p.length ≤ x.space) :
    ((x.writeEnd p).addSize p.length).WF ∧
      ((x.writeEnd p).addSize p.length).content = x.content ++ p :=
  ⟨(h.valid.fill hp).1.wf h.exp_pos, (h.valid.fill hp).2⟩

theorem Valid.append (h : x.Valid) (p : List UInt8) :
    (x.append p).Valid ∧ (x.append p).content = x.content ++ p := by
  obtain ⟨hvalid, hc, hroom⟩ := h.makeRoomFor p.length
  obtain ⟨hvalid', hc'⟩ := hvalid.fill hroom
  exact ⟨hvalid', by rw [Buffer.append, hc', hc]⟩

theorem wf_append (h : x.WF) (p : List UInt8) : (x.append p).WF :=
  (h.valid.append p).1.wf (by
    show 0 < (x.makeRoomFor p.length).exp
    rw [exp_makeRoomFor]
    exact h.exp_pos)

/-- **`append` concatenates.** -/
theorem content_append (h : x.WF) (p : List UInt8) :
    (x.append p).content = x.content ++ p :=
  (h.valid.append p).2

theorem Valid.consume (h : x.Valid) {len : Nat} (hlen : len ≤ x.size) :
    (x.consume len).Valid := by
  rw [size] at hlen
  have h1 := h.b_le_e
  simp only [Buffer.consume]
  split
  · exact valid_clear _
  · exact ⟨by dsimp only; omega, h.e_le_cap, h.storage_length, h.null_iff⟩

theorem exp_consume (x : Buffer) (len : Nat) : (x.consume len).exp = x.exp := by
  simp only [consume]
  split <;> rfl

theorem wf_consume (h : x.WF) {len : Nat} (hlen : len ≤ x.size) :
    (x.consume len).WF :=
  (h.valid.consume hlen).wf (by rw [exp_consume]; exact h.exp_pos)

/-- **`consume` drops.** -/
theorem content_consume (x : Buffer) (len : Nat) :
    (x.consume len).content = x.content.drop len := by
  have hdrop : x.content.drop len
      = (x.storage.drop (x.b + len)).take (x.e - (x.b + len)) := by
    rw [content, List.drop_take, List.drop_drop, size, Nat.sub_sub]
  rw [hdrop, consume]
  split
  · rename_i heq
    dsimp only at heq
    -- the last byte is gone, and `clear` has released the storage
    rw [content_clear, heq, Nat.sub_self, List.take_zero]
  · rfl

theorem Valid.absorb (hx : x.Valid) (hy : y.Valid) :
    (x.absorb y).1.Valid ∧ (x.absorb y).2.Valid := by
  simp only [Buffer.absorb]
  split
  · exact ⟨⟨hy.b_le_e, hy.e_le_cap, hy.storage_length, hy.null_iff⟩,
      ⟨hx.b_le_e, hx.e_le_cap, hx.storage_length, hx.null_iff⟩⟩
  · exact ⟨(hx.append _).1, valid_clear y⟩

theorem Valid.content_absorb (hx : x.Valid) :
    (x.absorb y).1.content = x.content ++ y.content ∧
      (x.absorb y).2.content = [] := by
  simp only [Buffer.absorb]
  split
  · -- an empty buffer swaps, and so takes the storage of the other one
    rename_i h0
    have hnil : x.content = [] := hx.size_eq_zero_iff.mp h0
    refine ⟨?_, hnil⟩
    rw [hnil, List.nil_append]
    rfl
  · exact ⟨(hx.append _).2, content_clear y⟩

theorem exp_absorb (x y : Buffer) :
    (x.absorb y).1.exp = x.exp ∧ (x.absorb y).2.exp = y.exp := by
  simp only [absorb]
  split
  · exact ⟨rfl, rfl⟩
  · exact ⟨exp_makeRoomFor x y.content.length, rfl⟩

theorem wf_absorb (hx : x.WF) (hy : y.WF) :
    (x.absorb y).1.WF ∧ (x.absorb y).2.WF :=
  ⟨(hx.valid.absorb hy.valid).1.wf (by rw [(exp_absorb x y).1]; exact hx.exp_pos),
    (hx.valid.absorb hy.valid).2.wf (by rw [(exp_absorb x y).2]; exact hy.exp_pos)⟩

/-- **`absorb` moves**: the argument's bytes go behind the buffer's own, and
the argument is left empty. -/
theorem content_absorb (hx : x.WF) :
    (x.absorb y).1.content = x.content ++ y.content ∧
      (x.absorb y).2.content = [] :=
  hx.valid.content_absorb

/-- **A copy has the same content.** -/
theorem Valid.copyFrom (h : x.Valid) :
    x.copyFrom.Valid ∧ x.copyFrom.content = x.content := by
  have h1 := h.b_le_e
  have h2 := h.e_le_cap
  have h3 := h.storage_length
  have hc := h.content_length
  cases hb : x.buf with
  | none =>
      have heq : x.copyFrom = x := by
        simp only [Buffer.copyFrom, hb, Option.map_none]
        rw [← hb]
      rw [heq]
      exact ⟨h, rfl⟩
  | some s =>
      have hnew : (newChars x.cap).length = x.cap := List.length_replicate
      refine ⟨⟨h1, h2, ?_, ?_⟩, ?_⟩
      · have hfit : x.b + x.content.length ≤ (newChars x.cap).length := by
          rw [hc, size, hnew]; omega
        simpa [Buffer.copyFrom, storage, hb, hnew] using length_overwrite hfit
      · simpa [Buffer.copyFrom] using h.null_iff
      · -- the content is written at `b_`, where it was
        have := take_drop_overwrite (s := newChars x.cap) (p := x.content) (Nat.le_refl x.b)
          (by rw [hnew]; omega)
        rw [hc, size, Nat.sub_self, List.take_zero, List.nil_append,
          show x.b + (x.e - x.b) - x.b = x.e - x.b from Nat.add_sub_cancel_left ..] at this
        simpa [Buffer.copyFrom, storage, hb, content, size] using this

end Buffer

/-- A buffer that comes with the proof that it is well formed. -/
abbrev WFBuffer := { x : Buffer // x.WF }

end Libet
