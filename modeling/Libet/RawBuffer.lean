/-
Libet/RawBuffer.lean

`Buffer` as it lies in memory.

A `RawBuffer` is the struct of `Buffer.h`: a pointer, which may be null, and four
numbers.  Its member functions work on a heap with `new[]` and `delete[]`; they
return `none` where the source would read or write outside a block, use a freed
one or free it twice.  Every function does to the buffer that the struct stands
for (`view`) what the function of `Libet.Buffer` does, never fails on a valid
one, and touches no block but its own (`Does`).
-/
import Libet.Buffer
import Libet.Lib.Heap

namespace Libet

/-- The heap that `Buffer`s live on. -/
abbrev Mem := Heap UInt8

/-- `struct Buffer`. -/
structure RawBuffer where
  buf : Option Nat
  b : Nat
  e : Nat
  cap : Nat
  exp : Nat
  deriving DecidableEq, Repr

namespace RawBuffer

/-! ### The operations -/

/-- `Buffer::Buffer()`. -/
def new : RawBuffer := ⟨none, 0, 0, 0, 512⟩

def size (c : RawBuffer) : Nat := c.e - c.b

def space (c : RawBuffer) : Nat := c.cap - c.e

/-- The bytes from `begin()` to `end()`. -/
def bytes (m : Mem) (c : RawBuffer) : Option (List UInt8) := m.read c.buf c.b c.size

def clear (m : Mem) (c : RawBuffer) : Option (Mem × RawBuffer) := do
  let m ← m.delete c.buf
  return (m, { c with buf := none, cap := 0, b := 0, e := 0 })

def moveHead (m : Mem) (c : RawBuffer) : Option (Mem × RawBuffer) := do
  let content ← c.bytes m
  let m ← m.write c.buf 0 content
  return (m, { c with e := c.e - c.b, b := 0 })

def expand (m : Mem) (c : RawBuffer) (len : Nat) : Option (Mem × RawBuffer) := do
  let ncap := max c.exp (max (2 * c.cap) (c.size + len))
  let (p, m) := m.alloc (newChars ncap)
  let content ← c.bytes m
  let m ← m.write (some p) 0 content
  let m ← m.delete c.buf
  return (m, { buf := some p, b := 0, e := c.e - c.b, cap := ncap, exp := c.exp })

/-- `makeRoom(size_t len)`. -/
def makeRoomFor (m : Mem) (c : RawBuffer) (len : Nat) : Option (Mem × RawBuffer) :=
  if c.e + len ≤ c.cap then some (m, c)
  else if c.size + len < c.cap / 2 then c.moveHead m
  else c.expand m len

/-- `makeRoom()`. -/
def makeRoom (m : Mem) (c : RawBuffer) : Option (Mem × RawBuffer) :=
  if c.space < c.exp then c.expand m 0 else some (m, c)

/-- `p` is written at `end()` and counted in with `addSize`. -/
def fill (m : Mem) (c : RawBuffer) (p : List UInt8) : Option (Mem × RawBuffer) := do
  let m ← m.write c.buf c.e p
  return (m, { c with e := c.e + p.length })

/-- `append(const char*, size_t)`: `allocRoom`, and `memcpy` to where the end
was. -/
def append (m : Mem) (c : RawBuffer) (p : List UInt8) : Option (Mem × RawBuffer) := do
  let (m, c) ← c.makeRoomFor m p.length
  c.fill m p

def consume (m : Mem) (c : RawBuffer) (len : Nat) : Option (Mem × RawBuffer) :=
  let c := { c with b := c.b + len }
  if c.e = c.b then c.clear m else some (m, c)

/-- `copyFrom(b)` into a struct without storage. -/
def copyFrom (m : Mem) (b : RawBuffer) : Option (Mem × RawBuffer) :=
  match b.buf with
  | none => some (m, b)
  | some _ => do
      let (p, m) := m.alloc (newChars b.cap)
      let content ← b.bytes m
      let m ← m.write (some p) b.b content
      return (m, { b with buf := some p })

/-- `operator=(b)` for a `b` that is another buffer. -/
def assign (m : Mem) (c b : RawBuffer) : Option (Mem × RawBuffer) := do
  let m ← m.delete c.buf
  copyFrom m b

/-- `absorb(buf)` for a `buf` that is another buffer: the struct bytes are
swapped, and the `exp_` swapped back, or the content is appended. -/
def absorb (m : Mem) (c buf : RawBuffer) : Option (Mem × RawBuffer × RawBuffer) :=
  if c.size = 0 then some (m, { buf with exp := c.exp }, { c with exp := buf.exp })
  else do
    let content ← buf.bytes m
    let (m, c) ← c.append m content
    let (m, buf) ← buf.clear m
    return (m, c, buf)

/-! ### The buffer that a struct stands for -/

def view (m : Mem) (c : RawBuffer) : Buffer := ⟨m.pointee c.buf, c.b, c.e, c.cap, c.exp⟩

/-- The result of a member function called on `c`: it has not failed, the struct
stands for `x` now, and no block but its own was touched. -/
def Does (m : Mem) (c : RawBuffer) (r : Option (Mem × RawBuffer)) (x : Buffer) : Prop :=
  ∃ m' c', r = some (m', c') ∧ m'.Alive c'.buf ∧ c'.view m' = x ∧
    Heap.Frame m m' c.buf c'.buf

variable {m m' : Mem} {c c' b : RawBuffer} {x : Buffer} {p : List UInt8} {len : Nat}

theorem Does.refl (ha : m.Alive c.buf) : Does m c (some (m, c)) (c.view m) :=
  ⟨m, c, rfl, ha, rfl, .refl m c.buf⟩

/-- A call after a call. -/
theorem Does.bind {r : Option (Mem × RawBuffer)} {f : Mem × RawBuffer → Option (Mem × RawBuffer)}
    {y : Buffer} (hr : Does m c r x)
    (hf : ∀ m' c', m'.Alive c'.buf → c'.view m' = x → Does m' c' (f (m', c')) y) :
    Does m c (r >>= f) y := by
  obtain ⟨m', c', rfl, ha, hv, hframe⟩ := hr
  obtain ⟨m'', c'', hr', ha', hv', hframe'⟩ := hf m' c' ha hv
  exact ⟨m'', c'', hr', ha', hv', hframe.trans hframe'⟩

theorem bytes_spec (ha : m.Alive c.buf) (hv : (c.view m).Valid) :
    c.bytes m = some (c.view m).content := by
  have h1 := hv.b_le_e
  have h2 := hv.e_le_cap
  have h3 := hv.storage_length
  apply Heap.read_spec ha
  show c.b + (c.e - c.b) ≤ (c.view m).storage.length
  rw [h3]
  simp only [view] at h1 h2 ⊢
  omega

theorem clear_does (ha : m.Alive c.buf) : Does m c (c.clear m) (c.view m).clear := by
  obtain ⟨m', hdel, hframe⟩ := Heap.delete_spec ha
  refine ⟨m', { c with buf := none, cap := 0, b := 0, e := 0 }, ?_, Heap.alive_none m', rfl,
    hframe⟩
  simp only [clear, hdel]
  rfl

theorem moveHead_does (ha : m.Alive c.buf) (hv : (c.view m).Valid) :
    Does m c (c.moveHead m) (c.view m).moveHead := by
  have h1 := hv.b_le_e
  have h2 := hv.e_le_cap
  have hfit : 0 + (c.view m).content.length ≤ ((m.pointee c.buf).getD []).length := by
    show 0 + (c.view m).content.length ≤ (c.view m).storage.length
    rw [hv.content_length, hv.storage_length]
    simp only [Buffer.size]
    omega
  obtain ⟨m', hwrite, ha', hframe, hp⟩ := Heap.write_spec ha hfit
  refine ⟨m', { c with e := c.e - c.b, b := 0 }, ?_, ha', ?_, hframe⟩
  · simp only [moveHead, bytes_spec ha hv, Option.bind_eq_bind, Option.bind_some, hwrite]
    rfl
  · simp only [view, hp]
    rfl

/-- Memory for a new block, with `content` at position `off` of it. -/
theorem alloc_write (m : Mem) {n off : Nat} {content : List UInt8}
    (hfit : off + content.length ≤ n) :
    ∃ m', (m.alloc (newChars n)).2.write (some (m.alloc (newChars n)).1) off content = some m' ∧
      m'.Alive (some (m.alloc (newChars n)).1) ∧
      Heap.Frame m m' none (some (m.alloc (newChars n)).1) ∧
      m'.pointee (some (m.alloc (newChars n)).1) = some (overwrite (newChars n) off content) := by
  have hblock : (m.alloc (newChars n)).2.block (m.alloc (newChars n)).1 = some (newChars n) := by
    rw [Heap.block_alloc, Function.update_self]
  have ha : (m.alloc (newChars n)).2.Alive (some (m.alloc (newChars n)).1) := by
    intro q hq
    obtain rfl := Option.some.inj hq
    rw [hblock]
    rfl
  have hp : (m.alloc (newChars n)).2.pointee (some (m.alloc (newChars n)).1) =
      some (newChars n) := hblock
  have hroom : off + content.length ≤
      (((m.alloc (newChars n)).2.pointee (some (m.alloc (newChars n)).1)).getD []).length := by
    rw [hp]
    show off + content.length ≤ (newChars n).length
    rw [newChars, List.length_replicate]
    exact hfit
  obtain ⟨m', hwrite, ha', hframe, hp'⟩ := Heap.write_spec ha hroom
  refine ⟨m', hwrite, ha', (Heap.Frame.alloc m _).trans hframe, ?_⟩
  rw [hp', hp]
  rfl

/-- A struct that is not looked at is as it was after an allocation. -/
theorem bytes_alloc (ha : m.Alive c.buf) (hv : (c.view m).Valid) (xs : List UInt8) :
    c.bytes (m.alloc xs).2 = some (c.view m).content ∧ (m.alloc xs).2.Alive c.buf := by
  obtain ⟨ha', hp⟩ := (Heap.Frame.alloc m xs).alive_other ha fun _ _ hn => by cases hn
  have heq : c.view (m.alloc xs).2 = c.view m := by
    simp only [view, hp]
  refine ⟨?_, ha'⟩
  rw [bytes_spec ha' (heq ▸ hv), heq]

theorem expand_does (ha : m.Alive c.buf) (hv : (c.view m).Valid) (len : Nat) :
    Does m c (c.expand m len) ((c.view m).expand len) := by
  obtain ⟨n, hn⟩ : ∃ n, n = max c.exp (max (2 * c.cap) (c.size + len)) := ⟨_, rfl⟩
  have hfit : 0 + (c.view m).content.length ≤ n := by
    rw [hv.content_length]
    show 0 + c.size ≤ n
    omega
  obtain ⟨m₁, hwrite, ha₁, hframe₁, hp₁⟩ := alloc_write m hfit
  obtain ⟨hbytes, -⟩ := bytes_alloc ha hv (newChars n)
  -- the old block is still there when the new one is filled, and is another one
  obtain ⟨hold, -⟩ := hframe₁.alive_other ha fun _ _ hnull => by cases hnull
  obtain ⟨m₂, hdel, hframe₂⟩ := Heap.delete_spec hold
  have hne : ∀ q, some (m.alloc (newChars n)).1 = some q → c.buf ≠ some q := by
    intro q hq hbuf
    obtain rfl := Option.some.inj hq
    have hsome := ha _ hbuf
    rw [Heap.alloc_fresh] at hsome
    cases hsome
  obtain ⟨ha₂, hp₂⟩ := hframe₂.alive_other ha₁ hne
  refine ⟨m₂, ⟨some (m.alloc (newChars n)).1, 0, c.e - c.b, n, c.exp⟩, ?_, ha₂, ?_,
    hframe₁.replace hframe₂⟩
  · simp only [expand, ← hn, hbytes, hwrite, hdel, Option.bind_eq_bind, Option.bind_some]
    rfl
  · rw [view, hp₂, hp₁, hn]
    rfl

theorem makeRoomFor_does (ha : m.Alive c.buf) (hv : (c.view m).Valid) (len : Nat) :
    Does m c (c.makeRoomFor m len) ((c.view m).makeRoomFor len) := by
  show Does m c (if c.e + len ≤ c.cap then some (m, c)
      else if c.size + len < c.cap / 2 then c.moveHead m else c.expand m len)
    (if c.e + len ≤ c.cap then c.view m
      else if c.size + len < c.cap / 2 then (c.view m).moveHead else (c.view m).expand len)
  split
  · exact .refl ha
  · split
    · exact moveHead_does ha hv
    · exact expand_does ha hv len

theorem makeRoom_does (ha : m.Alive c.buf) (hv : (c.view m).Valid) :
    Does m c (c.makeRoom m) (c.view m).makeRoom := by
  show Does m c (if c.space < c.exp then c.expand m 0 else some (m, c))
    (if c.space < c.exp then (c.view m).expand 0 else c.view m)
  split
  · exact expand_does ha hv 0
  · exact .refl ha

theorem fill_does (ha : m.Alive c.buf) (hv : (c.view m).Valid) (hp : p.length ≤ c.space) :
    Does m c (c.fill m p) (((c.view m).writeEnd p).addSize p.length) := by
  have h2 : c.e ≤ c.cap := hv.e_le_cap
  rw [space] at hp
  have hfit : c.e + p.length ≤ ((m.pointee c.buf).getD []).length := by
    show c.e + p.length ≤ (c.view m).storage.length
    rw [hv.storage_length]
    show c.e + p.length ≤ c.cap
    omega
  obtain ⟨m', hwrite, ha', hframe, hptr⟩ := Heap.write_spec ha hfit
  refine ⟨m', { c with e := c.e + p.length }, ?_, ha', ?_, hframe⟩
  · simp only [fill, hwrite]
    rfl
  · simp only [view, hptr]
    rfl

theorem append_does (ha : m.Alive c.buf) (hv : (c.view m).Valid) (p : List UInt8) :
    Does m c (c.append m p) ((c.view m).append p) := by
  refine Does.bind (makeRoomFor_does ha hv p.length) fun m' c' ha' heq => ?_
  obtain ⟨hv', -, hroom⟩ := hv.makeRoomFor p.length
  rw [← heq] at hv' hroom
  have hfill := fill_does ha' hv' hroom
  rw [heq] at hfill
  exact hfill

theorem consume_does (ha : m.Alive c.buf) (len : Nat) :
    Does m c (c.consume m len) ((c.view m).consume len) := by
  show Does m c (if c.e = c.b + len then clear m { c with b := c.b + len }
      else some (m, { c with b := c.b + len }))
    (if c.e = c.b + len then Buffer.clear { c.view m with b := c.b + len }
      else { c.view m with b := c.b + len })
  split
  · exact clear_does (c := { c with b := c.b + len }) ha
  · exact .refl (c := { c with b := c.b + len }) ha

/-- A copy has a block of its own. -/
theorem copyFrom_does (ha : m.Alive b.buf) (hv : (b.view m).Valid) :
    ∃ m' c', copyFrom m b = some (m', c') ∧ m'.Alive c'.buf ∧
      c'.view m' = (b.view m).copyFrom ∧ Heap.Frame m m' none c'.buf := by
  cases hbuf : b.buf with
  | none =>
      refine ⟨m, b, ?_, ha, ?_, ?_⟩
      · simp only [copyFrom, hbuf]
      · simp only [view, hbuf]
        rfl
      · rw [hbuf]
        exact .refl m none
  | some q =>
      have hfit : b.b + (b.view m).content.length ≤ b.cap := by
        have h1 : b.b ≤ b.e := hv.b_le_e
        have h2 : b.e ≤ b.cap := hv.e_le_cap
        rw [hv.content_length]
        show b.b + (b.e - b.b) ≤ b.cap
        omega
      obtain ⟨m', hwrite, ha', hframe, hp'⟩ := alloc_write m hfit
      obtain ⟨hbytes, -⟩ := bytes_alloc ha hv (newChars b.cap)
      obtain ⟨ys, hys⟩ := Option.isSome_iff_exists.mp (ha q hbuf)
      refine ⟨m', { b with buf := some (m.alloc (newChars b.cap)).1 }, ?_, ha', ?_, hframe⟩
      · simp only [copyFrom, hbuf, hbytes, hwrite, Option.bind_eq_bind, Option.bind_some]
        rfl
      · have hptr : m.pointee b.buf = some ys := by
          rw [hbuf]
          exact hys
        simp only [view, hp', Buffer.copyFrom, hptr, Option.map_some]

theorem assign_does (ha : m.Alive c.buf) (hb : m.Alive b.buf) (hv : (b.view m).Valid)
    (hne : ∀ q, b.buf = some q → c.buf ≠ some q) :
    Does m c (assign m c b) (b.view m).copyFrom := by
  obtain ⟨m₁, hdel, hframe⟩ := Heap.delete_spec ha
  -- deleting one block leaves the other
  obtain ⟨hb₁, hp⟩ := hframe.alive_other hb hne
  have heq : b.view m₁ = b.view m := by
    simp only [view, hp]
  obtain ⟨m₂, c', hcopy, ha₂, hv₂, hframe₂⟩ := copyFrom_does hb₁ (heq ▸ hv)
  refine ⟨m₂, c', ?_, ha₂, heq ▸ hv₂, hframe.trans hframe₂⟩
  simp only [assign, hdel, Option.bind_eq_bind, Option.bind_some, hcopy]

end RawBuffer

end Libet
