/-
Libet/BufferRuns.lean

Any number of `Buffer`s on one heap.

The buffers are named by an arbitrary type; each operation is a call of a member
function, a construction or a destruction.  What a buffer is for is a list of
bytes and the number `exp_` (`ByteList`), and `listStep` says in these terms
what an operation does.

`buffers_refine`: a run of operations, in any order, that keeps to the contract
of `addSize` and `consume` never reads or writes outside a block, never uses a
freed one and frees none twice; it does to the contents exactly what `listStep`
does; and no two buffers ever share storage, so that copies are independent, nor
is any storage lost.
-/
import Libet.Lib.Exec
import Libet.RawBuffer
import Mathlib.Logic.Equiv.Basic

namespace Libet

/-! ### The machine -/

/-- The heap and the buffers that exist. -/
structure Buffers (ι : Type) where
  mem : Mem
  obj : ι → Option RawBuffer

/-- An operation.  All forms of `append`, and `allocRoom` with the bytes written
behind it, come down to `append(const char*, size_t)`; the bytes are not those
of the buffer itself. -/
inductive BufferOp (ι : Type)
  /-- `Buffer i;` -/
  | construct (i : ι)
  /-- `Buffer i(j);` -/
  | copy (i j : ι)
  /-- `~Buffer` -/
  | destroy (i : ι)
  | append (i : ι) (p : List UInt8)
  /-- `makeRoom(len)` -/
  | makeRoomFor (i : ι) (len : Nat)
  /-- `makeRoom()` -/
  | makeRoom (i : ι)
  /-- `p` is written at `end()`, then `addSize` -/
  | fill (i : ι) (p : List UInt8)
  | consume (i : ι) (len : Nat)
  /-- `i.absorb(j)` -/
  | absorb (i j : ι)
  | clear (i : ι)
  /-- `i = j` -/
  | assign (i j : ι)
  | setSuggestSize (i : ι) (sz : Nat)
  deriving DecidableEq, Repr

namespace Buffers

variable {ι : Type}

/-- No buffer yet. -/
def init : Buffers ι := ⟨Heap.empty, fun _ => none⟩

variable [DecidableEq ι]

def put (s : Buffers ι) (m : Mem) (i : ι) (o : Option RawBuffer) : Buffers ι :=
  ⟨m, Function.update s.obj i o⟩

/-- A member function is called on buffer `i`. -/
def call (s : Buffers ι) (i : ι) (f : Mem → RawBuffer → Option (Mem × RawBuffer)) :
    Option (Buffers ι) := do
  let c ← s.obj i
  let (m, c) ← f s.mem c
  return s.put m i (some c)

theorem call_eq {s : Buffers ι} {i : ι} {f : Mem → RawBuffer → Option (Mem × RawBuffer)}
    {c c' : RawBuffer} {m : Mem} (hc : s.obj i = some c) (hf : f s.mem c = some (m, c')) :
    s.call i f = some (s.put m i (some c')) := by
  simp only [call, hc, hf, Option.bind_eq_bind, Option.bind_some]
  rfl

end Buffers

section Machine

variable {ι : Type} [DecidableEq ι]

/-- One operation. -/
def bufferStep (s : Buffers ι) : BufferOp ι → Option (Buffers ι)
  | .construct i => some (s.put s.mem i (some .new))
  | .copy i j => do
      let b ← s.obj j
      let (m, c) ← RawBuffer.copyFrom s.mem b
      return s.put m i (some c)
  | .destroy i => do
      let c ← s.obj i
      let m ← s.mem.delete c.buf
      return s.put m i none
  | .append i p => s.call i fun m c => c.append m p
  | .makeRoomFor i len => s.call i fun m c => c.makeRoomFor m len
  | .makeRoom i => s.call i fun m c => c.makeRoom m
  | .fill i p => s.call i fun m c => c.fill m p
  | .consume i len => s.call i fun m c => c.consume m len
  | .absorb i j => do
      let c ← s.obj i
      let b ← s.obj j
      -- `if (&buf != this)`
      if i = j then return s
      let (m, c, b) ← c.absorb s.mem b
      return ⟨m, Function.update (Function.update s.obj i (some c)) j (some b)⟩
  | .clear i => s.call i fun m c => c.clear m
  | .assign i j => do
      let c ← s.obj i
      let b ← s.obj j
      -- `if (this == &b)`
      if i = j then return s
      let (m, c) ← c.assign s.mem b
      return s.put m i (some c)
  | .setSuggestSize i sz => s.call i fun m c => some (m, { c with exp := sz })

/-- What a caller must keep to: buffers are constructed once and used while they
exist, `addSize` counts in no more than there is room for, and `consume` takes no
more than there is. -/
def Buffers.Allows (s : Buffers ι) : BufferOp ι → Prop
  | .construct i => s.obj i = none
  | .copy i j => s.obj i = none ∧ (s.obj j).isSome
  | .fill i p => ∃ c ∈ s.obj i, p.length ≤ c.space
  | .consume i len => ∃ c ∈ s.obj i, len ≤ c.size
  | .absorb i j | .assign i j => (s.obj i).isSome ∧ (s.obj j).isSome
  | .destroy i | .append i _ | .makeRoomFor i _ | .makeRoom i | .clear i
  | .setSuggestSize i _ => (s.obj i).isSome

instance (s : Buffers ι) : (op : BufferOp ι) → Decidable (s.Allows op)
  | .construct i => inferInstanceAs (Decidable (s.obj i = none))
  | .copy i j => inferInstanceAs (Decidable (s.obj i = none ∧ (s.obj j).isSome))
  | .fill i p => inferInstanceAs (Decidable (∃ c ∈ s.obj i, p.length ≤ c.space))
  | .consume i len => inferInstanceAs (Decidable (∃ c ∈ s.obj i, len ≤ c.size))
  | .absorb i j | .assign i j =>
      inferInstanceAs (Decidable ((s.obj i).isSome ∧ (s.obj j).isSome))
  | .destroy i | .append i _ | .makeRoomFor i _ | .makeRoom i | .clear i
  | .setSuggestSize i _ => inferInstanceAs (Decidable ((s.obj i).isSome))

/-! ### Lists of bytes -/

/-- What a buffer is for. -/
structure ByteList where
  bytes : List UInt8
  exp : Nat
  deriving DecidableEq, Repr

/-- An operation on the lists. -/
def listStep (t : ι → Option ByteList) : BufferOp ι → ι → Option ByteList
  | .construct i => Function.update t i (some ⟨[], 512⟩)
  | .copy i j => Function.update t i (t j)
  | .destroy i => Function.update t i none
  | .append i p | .fill i p =>
      Function.update t i ((t i).map fun x => { x with bytes := x.bytes ++ p })
  | .makeRoomFor _ _ | .makeRoom _ => t
  | .consume i len =>
      Function.update t i ((t i).map fun x => { x with bytes := x.bytes.drop len })
  | .absorb i j =>
      if i = j then t
      else
        Function.update
          (Function.update t i ((t i).map fun x =>
            { x with bytes := x.bytes ++ ((t j).map ByteList.bytes).getD [] }))
          j ((t j).map fun y => { y with bytes := [] })
  | .clear i => Function.update t i ((t i).map fun x => { x with bytes := [] })
  | .assign i j => if i = j then t else Function.update t i (t j)
  | .setSuggestSize i sz => Function.update t i ((t i).map fun x => { x with exp := sz })

end Machine

/-! ### The invariant -/

namespace Buffers

variable {ι : Type}

/-- The block of a buffer, if there is a buffer and it has one. -/
def owner (o : Option RawBuffer) : Option Nat := o.bind RawBuffer.buf

/-- The lists the buffers stand for. -/
def lists (s : Buffers ι) (i : ι) : Option ByteList :=
  (s.obj i).map fun c => ⟨(c.view s.mem).content, c.exp⟩

end Buffers

open Buffers

/-- What holds of the buffers and the heap together. -/
structure BuffersOk {ι : Type} (s : Buffers ι) : Prop where
  alive : ∀ {i c}, s.obj i = some c → s.mem.Alive c.buf
  valid : ∀ {i c}, s.obj i = some c → (c.view s.mem).Valid
  /-- no two buffers share storage -/
  apart : ∀ {i j p}, owner (s.obj i) = some p → owner (s.obj j) = some p → i = j
  /-- no storage is lost -/
  owned : ∀ p, (s.mem.block p).isSome → ∃ i, owner (s.obj i) = some p

section Invariant

variable {ι : Type} {s s' : Buffers ι} {i j : ι} {c b : RawBuffer} {m : Mem} {x : Buffer}

theorem buffersOk_init : BuffersOk (Buffers.init : Buffers ι) where
  alive h := by cases h
  valid h := by cases h
  apart h := by cases h
  owned p h := by cases h

theorem lists_eq (h : s.obj i = some c) : s.lists i = some ⟨(c.view s.mem).content, c.exp⟩ := by
  rw [lists, h, Option.map_some]

namespace BuffersOk

theorem bounds (h : BuffersOk s) (hc : s.obj i = some c) :
    c.b ≤ c.e ∧ c.e ≤ c.cap ∧ (c.buf = none ↔ c.cap = 0) := by
  have hv := h.valid hc
  refine ⟨hv.b_le_e, hv.e_le_cap, ?_⟩
  rw [← show (c.view s.mem).cap = c.cap from rfl, ← hv.null_iff]
  show c.buf = none ↔ s.mem.pointee c.buf = none
  rcases (h.alive hc).pointee with ⟨hnull, hptr⟩ | ⟨p, ys, hbuf, -, hptr⟩
  · exact iff_of_true hnull hptr
  · rw [hptr, hbuf]
    simp only [reduceCtorEq]

variable [DecidableEq ι]

/-- Buffer `i` changes, is constructed or is destroyed. -/
theorem put (h : BuffersOk s) {o : Option RawBuffer}
    (hframe : Heap.Frame s.mem m (owner (s.obj i)) (owner o))
    (hnew : ∀ c, o = some c → m.Alive c.buf ∧ (c.view m).Valid) :
    BuffersOk (s.put m i o) ∧
      (s.put m i o).lists =
        Function.update s.lists i (o.map fun c => ⟨(c.view m).content, c.exp⟩) := by
  -- what the other buffers own is not the block of `i`
  have hother : ∀ {j c}, j ≠ i → s.obj j = some c →
      m.Alive c.buf ∧ m.pointee c.buf = s.mem.pointee c.buf := by
    intro j c hj hc
    apply hframe.alive_other (h.alive hc)
    intro q hq hi
    exact hj (h.apart (by rw [hc]; exact hq) hi)
  have hview : ∀ {j c}, j ≠ i → s.obj j = some c → c.view m = c.view s.mem := by
    intro j c hj hc
    rw [RawBuffer.view, (hother hj hc).2]
    rfl
  -- nor is it what `i` owns now
  have hapart : ∀ {j p}, j ≠ i → owner (s.obj j) = some p → owner o ≠ some p := by
    intro j p hj hp
    obtain ⟨c, hc, hbuf⟩ := Option.bind_eq_some_iff.mp hp
    refine (hframe.block_other ?_ (h.alive hc p hbuf)).2
    intro hi
    exact hj (h.apart hp hi)
  have hself : (s.put m i o).obj i = o := Function.update_self ..
  have hne : ∀ {j}, j ≠ i → (s.put m i o).obj j = s.obj j := fun hj =>
    Function.update_of_ne hj ..
  refine ⟨⟨?_, ?_, ?_, ?_⟩, ?_⟩
  · intro j c hc
    by_cases hj : j = i
    · rw [hj, hself] at hc
      exact (hnew c hc).1
    · rw [hne hj] at hc
      exact (hother hj hc).1
  · intro j c hc
    by_cases hj : j = i
    · rw [hj, hself] at hc
      exact (hnew c hc).2
    · rw [hne hj] at hc
      show (c.view m).Valid
      rw [hview hj hc]
      exact h.valid hc
  · intro j k p hj hk
    by_cases hji : j = i <;> by_cases hki : k = i
    · rw [hji, hki]
    · rw [hji, hself] at hj
      rw [hne hki] at hk
      exact absurd hj (hapart hki hk)
    · rw [hki, hself] at hk
      rw [hne hji] at hj
      exact absurd hk (hapart hji hj)
    · rw [hne hji] at hj
      rw [hne hki] at hk
      exact h.apart hj hk
  · intro p hp
    rcases hframe.owned hp with hown | ⟨hold, hp⟩
    · exact ⟨i, by rw [hself]; exact hown⟩
    · obtain ⟨j, hj⟩ := h.owned p hp
      have hji : j ≠ i := by
        rintro rfl
        exact hold hj
      exact ⟨j, by rw [hne hji]; exact hj⟩
  · funext j
    by_cases hj : j = i
    · rw [hj, Function.update_self, lists, hself]
      rfl
    · rw [Function.update_of_ne hj, lists, hne hj, lists]
      cases hc : s.obj j with
      | none => rfl
      | some c =>
          rw [Option.map_some, Option.map_some, ← hview hj hc]
          rfl

/-- A member function is called. -/
theorem call (h : BuffersOk s) (hc : s.obj i = some c)
    {f : Mem → RawBuffer → Option (Mem × RawBuffer)}
    (hf : RawBuffer.Does s.mem c (f s.mem c) x) (hx : x.Valid) :
    ∃ m' c', f s.mem c = some (m', c') ∧ c'.view m' = x ∧ BuffersOk (s.put m' i (some c')) ∧
      (s.put m' i (some c')).lists = Function.update s.lists i (some ⟨x.content, x.exp⟩) := by
  obtain ⟨m', c', hres, ha, rfl, hframe⟩ := hf
  obtain ⟨hok, hlists⟩ := h.put (i := i) (o := some c') (by rw [hc]; exact hframe) (by
    intro c'' hc''
    obtain rfl := Option.some.inj hc''
    exact ⟨ha, hx⟩)
  exact ⟨m', c', hres, rfl, hok, hlists⟩

theorem step_call (h : BuffersOk s) (hi : (s.obj i).isSome)
    {f : Mem → RawBuffer → Option (Mem × RawBuffer)} {g : Buffer → Buffer}
    {k : ByteList → ByteList}
    (hf : ∀ c, s.obj i = some c → s.mem.Alive c.buf → (c.view s.mem).Valid →
      RawBuffer.Does s.mem c (f s.mem c) (g (c.view s.mem)) ∧ (g (c.view s.mem)).Valid ∧
        ByteList.mk (g (c.view s.mem)).content (g (c.view s.mem)).exp =
          k ⟨(c.view s.mem).content, (c.view s.mem).exp⟩) :
    ∃ s', s.call i f = some s' ∧ BuffersOk s' ∧
      s'.lists = Function.update s.lists i ((s.lists i).map k) := by
  obtain ⟨c, hc⟩ := Option.isSome_iff_exists.mp hi
  obtain ⟨hdoes, hvalid, hk⟩ := hf c hc (h.alive hc) (h.valid hc)
  obtain ⟨m', c', hres, -, hok, hlists⟩ := h.call hc hdoes hvalid
  refine ⟨_, call_eq hc hres, hok, ?_⟩
  rw [hlists, hk, lists_eq hc]
  rfl

/-- Two buffers swap everything but their `exp_`. -/
theorem swap (h : BuffersOk s) (hij : i ≠ j) (hi : s.obj i = some c) (hj : s.obj j = some b) :
    BuffersOk (⟨s.mem, Function.update (Function.update s.obj i (some { b with exp := c.exp })) j
      (some { c with exp := b.exp })⟩ : Buffers ι) := by
  obtain ⟨obj, hobj⟩ : ∃ obj, obj = Function.update
    (Function.update s.obj i (some { b with exp := c.exp })) j (some { c with exp := b.exp }) :=
    ⟨_, rfl⟩
  rw [← hobj]
  -- up to `exp_`, every buffer is the one at the other place
  have hswap : ∀ k c', obj k = some c' →
      ∃ c₀ sz, s.obj (Equiv.swap i j k) = some c₀ ∧ c' = { c₀ with exp := sz } := by
    intro k c' hc'
    rw [hobj] at hc'
    by_cases hkj : k = j
    · subst hkj
      rw [Function.update_self] at hc'
      exact ⟨c, b.exp, by rw [Equiv.swap_apply_right]; exact hi, (Option.some.inj hc').symm⟩
    · rw [Function.update_of_ne hkj] at hc'
      by_cases hki : k = i
      · subst hki
        rw [Function.update_self] at hc'
        exact ⟨b, c.exp, by rw [Equiv.swap_apply_left]; exact hj, (Option.some.inj hc').symm⟩
      · rw [Function.update_of_ne hki] at hc'
        exact ⟨c', c'.exp, by rw [Equiv.swap_apply_of_ne_of_ne hki hkj]; exact hc', rfl⟩
  have howner : ∀ k, owner (obj k) = owner (s.obj (Equiv.swap i j k)) := by
    intro k
    rw [hobj]
    by_cases hkj : k = j
    · subst hkj
      rw [Function.update_self, Equiv.swap_apply_right, hi]
      rfl
    · rw [Function.update_of_ne hkj]
      by_cases hki : k = i
      · subst hki
        rw [Function.update_self, Equiv.swap_apply_left, hj]
        rfl
      · rw [Function.update_of_ne hki, Equiv.swap_apply_of_ne_of_ne hki hkj]
  refine ⟨?_, ?_, ?_, ?_⟩
  · intro k c' hc'
    obtain ⟨c₀, sz, hc₀, rfl⟩ := hswap k c' hc'
    have ha := h.alive hc₀
    exact ha
  · intro k c' hc'
    obtain ⟨c₀, sz, hc₀, rfl⟩ := hswap k c' hc'
    have hv := h.valid hc₀
    exact ⟨hv.b_le_e, hv.e_le_cap, hv.storage_length, hv.null_iff⟩
  · intro k l p hk hl
    rw [howner] at hk hl
    exact (Equiv.swap i j).injective (h.apart hk hl)
  · intro p hp
    obtain ⟨k, hk⟩ := h.owned p hp
    exact ⟨Equiv.swap i j k, by rw [howner, Equiv.swap_apply_self]; exact hk⟩

theorem step_absorb (h : BuffersOk s) (hi : (s.obj i).isSome) (hj : (s.obj j).isSome) :
    ∃ s', bufferStep s (.absorb i j) = some s' ∧ BuffersOk s' ∧
      s'.lists = listStep s.lists (.absorb i j) := by
  obtain ⟨c, hc⟩ := Option.isSome_iff_exists.mp hi
  obtain ⟨b, hb⟩ := Option.isSome_iff_exists.mp hj
  simp only [bufferStep, listStep, hc, hb, Option.bind_eq_bind, Option.bind_some]
  split
  · exact ⟨s, rfl, h, rfl⟩
  rename_i hij
  have hlists : listStep s.lists (.absorb i j) = Function.update
      (Function.update s.lists i
        (some ⟨(c.view s.mem).content ++ (b.view s.mem).content, c.exp⟩)) j
      (some ⟨[], b.exp⟩) := by
    simp only [listStep, if_neg hij, lists_eq hc, lists_eq hb, Option.map_some, Option.getD_some]
  simp only [listStep, if_neg hij] at hlists
  rw [hlists]
  by_cases h0 : c.size = 0
  · -- an empty buffer takes the struct of the other one, and gives it its own
    refine ⟨_, ?_, h.swap hij hc hb, ?_⟩
    · simp only [RawBuffer.absorb, if_pos h0]
      rfl
    · have hnil : (c.view s.mem).content = [] := (h.valid hc).size_eq_zero_iff.mp h0
      funext k
      simp only [lists, Function.update_apply]
      by_cases hkj : k = j
      · simp only [if_pos hkj, Option.map_some]
        exact congrArg (fun l => some (ByteList.mk l b.exp)) hnil
      · by_cases hki : k = i
        · simp only [if_neg hkj, if_pos hki, Option.map_some, hnil, List.nil_append]
          rfl
        · simp only [if_neg hkj, if_neg hki]
  · -- the bytes are appended, then the argument is cleared
    obtain ⟨m₁, c₁, happend, -, hok₁, hlists₁⟩ := h.call hc
      (f := fun m c => c.append m (b.view s.mem).content)
      (RawBuffer.append_does (h.alive hc) (h.valid hc) (b.view s.mem).content)
      ((h.valid hc).append _).1
    have happend' : c.append s.mem (b.view s.mem).content = some (m₁, c₁) := happend
    have hb₁ : (s.put m₁ i (some c₁)).obj j = some b := by
      rw [← hb]
      exact Function.update_of_ne (Ne.symm hij) ..
    obtain ⟨m₂, b₂, hclear, -, hok₂, hlists₂⟩ := hok₁.call hb₁
      (f := fun m c => c.clear m) (RawBuffer.clear_does (hok₁.alive hb₁)) (Buffer.valid_clear _)
    refine ⟨_, ?_, hok₂, ?_⟩
    · have hclear' : b.clear m₁ = some (m₂, b₂) := hclear
      simp only [RawBuffer.absorb, if_neg h0, RawBuffer.bytes_spec (h.alive hb) (h.valid hb),
        happend', hclear', Option.bind_eq_bind, Option.bind_some]
      rfl
    · rw [hlists₂, hlists₁, Buffer.content_clear, ((h.valid hc).append _).2]
      congr 2
      rw [show ((c.view s.mem).append (b.view s.mem).content).exp = c.exp from
        Buffer.exp_makeRoomFor (c.view s.mem) _]

theorem step_assign (h : BuffersOk s) (hi : (s.obj i).isSome) (hj : (s.obj j).isSome) :
    ∃ s', bufferStep s (.assign i j) = some s' ∧ BuffersOk s' ∧
      s'.lists = listStep s.lists (.assign i j) := by
  obtain ⟨c, hc⟩ := Option.isSome_iff_exists.mp hi
  obtain ⟨b, hb⟩ := Option.isSome_iff_exists.mp hj
  simp only [bufferStep, listStep, hc, hb, Option.bind_eq_bind, Option.bind_some]
  split
  · exact ⟨s, rfl, h, rfl⟩
  rename_i hij
  have hne : ∀ q, b.buf = some q → c.buf ≠ some q := by
    intro q hq hcq
    exact hij (h.apart (by rw [hc]; exact hcq) (by rw [hb]; exact hq))
  obtain ⟨m', c', hres, -, hok, hlists⟩ := h.call hc (f := fun m c => c.assign m b)
    (RawBuffer.assign_does (h.alive hc) (h.alive hb) (h.valid hb) hne) (h.valid hb).copyFrom.1
  have hres' : c.assign s.mem b = some (m', c') := hres
  refine ⟨_, ?_, hok, ?_⟩
  · simp only [hres', Option.bind_some]
    rfl
  · rw [hlists, (h.valid hb).copyFrom.2, lists_eq hb]
    rfl

theorem step_copy (h : BuffersOk s) (hi : s.obj i = none) (hj : (s.obj j).isSome) :
    ∃ s', bufferStep s (.copy i j) = some s' ∧ BuffersOk s' ∧
      s'.lists = listStep s.lists (.copy i j) := by
  obtain ⟨b, hb⟩ := Option.isSome_iff_exists.mp hj
  obtain ⟨m', c', hres, ha, hview, hframe⟩ := RawBuffer.copyFrom_does (h.alive hb) (h.valid hb)
  have hcopy := (h.valid hb).copyFrom
  rw [← hview] at hcopy
  obtain ⟨hok, hlists⟩ := h.put (i := i) (o := some c') (by rw [hi]; exact hframe) (by
    intro c'' hc''
    obtain rfl := Option.some.inj hc''
    exact ⟨ha, hcopy.1⟩)
  refine ⟨s.put m' i (some c'), ?_, hok, ?_⟩
  · simp only [bufferStep, hb, hres, Option.bind_eq_bind, Option.bind_some]
    rfl
  · have hexp : c'.exp = b.exp := congrArg Buffer.exp hview
    simp only [listStep, hlists, lists_eq hb, Option.map_some, hcopy.2, hexp]

theorem step_destroy (h : BuffersOk s) (hi : (s.obj i).isSome) :
    ∃ s', bufferStep s (.destroy i) = some s' ∧ BuffersOk s' ∧
      s'.lists = listStep s.lists (.destroy i) := by
  obtain ⟨c, hc⟩ := Option.isSome_iff_exists.mp hi
  obtain ⟨m', hdel, hframe⟩ := Heap.delete_spec (h.alive hc)
  obtain ⟨hok, hlists⟩ := h.put (i := i) (o := none) (by rw [hc]; exact hframe) (by
    intro c' hc'
    cases hc')
  refine ⟨s.put m' i none, ?_, hok, hlists⟩
  simp only [bufferStep, hc, hdel, Option.bind_eq_bind, Option.bind_some]
  rfl

/-- A member function that leaves the list alone. -/
theorem step_room (h : BuffersOk s) (hi : (s.obj i).isSome)
    {f : Mem → RawBuffer → Option (Mem × RawBuffer)} {g : Buffer → Buffer}
    (hf : ∀ c, s.obj i = some c → s.mem.Alive c.buf → (c.view s.mem).Valid →
      RawBuffer.Does s.mem c (f s.mem c) (g (c.view s.mem)) ∧ (g (c.view s.mem)).Valid ∧
        (g (c.view s.mem)).content = (c.view s.mem).content ∧
        (g (c.view s.mem)).exp = (c.view s.mem).exp) :
    ∃ s', s.call i f = some s' ∧ BuffersOk s' ∧ s'.lists = s.lists := by
  obtain ⟨s', hcall, hok, hlists⟩ := h.step_call (k := id) hi fun c hc ha hv => by
    obtain ⟨hdoes, hvalid, hcontent, hexp⟩ := hf c hc ha hv
    exact ⟨hdoes, hvalid, by rw [hcontent, hexp]; rfl⟩
  refine ⟨s', hcall, hok, ?_⟩
  rw [hlists, Option.map_id, id, Function.update_eq_self]

/-- **Every allowed operation succeeds and does what it does to the lists.** -/
theorem step {op : BufferOp ι} (ha : s.Allows op) (h : BuffersOk s) :
    ∃ s', bufferStep s op = some s' ∧ BuffersOk s' ∧ s'.lists = listStep s.lists op := by
  cases op with
  | construct i =>
      have hi : s.obj i = none := ha
      obtain ⟨hok, hlists⟩ := h.put (i := i) (o := some .new) (m := s.mem)
        (by rw [hi]; exact .refl s.mem none) (by
        intro c hc
        obtain rfl := Option.some.inj hc
        exact ⟨Heap.alive_none s.mem, Buffer.wf_new.valid⟩)
      exact ⟨_, rfl, hok, hlists⟩
  | copy i j => exact h.step_copy ha.1 ha.2
  | destroy i => exact h.step_destroy ha
  | append i p =>
      refine h.step_call (f := fun m c => c.append m p) (g := fun x => x.append p)
        (k := fun x => { x with bytes := x.bytes ++ p }) ha fun c _ hc hv => ?_
      refine ⟨RawBuffer.append_does hc hv p, (hv.append p).1, ?_⟩
      rw [(hv.append p).2]
      exact congrArg _ (Buffer.exp_makeRoomFor (c.view s.mem) p.length)
  | makeRoomFor i len =>
      refine h.step_room (f := fun m c => c.makeRoomFor m len) (g := fun x => x.makeRoomFor len)
        ha fun c _ hc hv => ?_
      obtain ⟨hvalid, hcontent, -⟩ := hv.makeRoomFor len
      exact ⟨RawBuffer.makeRoomFor_does hc hv len, hvalid, hcontent, Buffer.exp_makeRoomFor _ len⟩
  | makeRoom i =>
      refine h.step_room (f := fun m c => c.makeRoom m) (g := Buffer.makeRoom)
        ha fun c _ hc hv => ?_
      exact ⟨RawBuffer.makeRoom_does hc hv, hv.makeRoom.1, hv.makeRoom.2, Buffer.exp_makeRoom _⟩
  | fill i p =>
      obtain ⟨c₀, hc₀, hp⟩ := ha
      refine h.step_call (f := fun m c => c.fill m p)
        (g := fun x => (x.writeEnd p).addSize p.length)
        (k := fun x => { x with bytes := x.bytes ++ p }) (by rw [hc₀]; rfl)
        fun c hobj hc hv => ?_
      obtain rfl : c₀ = c := Option.some.inj (hc₀.symm.trans hobj)
      refine ⟨RawBuffer.fill_does hc hv hp, (hv.fill hp).1, ?_⟩
      rw [(hv.fill hp).2]
      rfl
  | consume i len =>
      obtain ⟨c₀, hc₀, hlen⟩ := ha
      refine h.step_call (f := fun m c => c.consume m len) (g := fun x => x.consume len)
        (k := fun x => { x with bytes := x.bytes.drop len }) (by rw [hc₀]; rfl)
        fun c hobj hc hv => ?_
      obtain rfl : c₀ = c := Option.some.inj (hc₀.symm.trans hobj)
      refine ⟨RawBuffer.consume_does hc len, hv.consume hlen, ?_⟩
      rw [Buffer.content_consume, Buffer.exp_consume]
  | absorb i j => exact h.step_absorb ha.1 ha.2
  | clear i =>
      refine h.step_call (f := fun m c => c.clear m) (g := Buffer.clear)
        (k := fun x => { x with bytes := [] }) ha fun c _ hc _ => ?_
      refine ⟨RawBuffer.clear_does hc, Buffer.valid_clear _, ?_⟩
      rw [Buffer.content_clear]
      rfl
  | assign i j => exact h.step_assign ha.1 ha.2
  | setSuggestSize i sz =>
      refine h.step_call (f := fun m c => some (m, { c with exp := sz }))
        (g := fun x => { x with exp := sz }) (k := fun x => { x with exp := sz })
        ha fun c _ hc hv => ?_
      exact ⟨⟨s.mem, { c with exp := sz }, rfl, hc, rfl, .refl s.mem c.buf⟩,
        ⟨hv.b_le_e, hv.e_le_cap, hv.storage_length, hv.null_iff⟩, rfl⟩

/-- `makeRoom(len)` leaves room for `len` bytes. -/
theorem space_makeRoomFor (h : BuffersOk s) {len : Nat}
    (hstep : bufferStep s (.makeRoomFor i len) = some s') (hc : s'.obj i = some c) :
    len ≤ c.space := by
  cases hobj : s.obj i with
  | none =>
      simp only [bufferStep, Buffers.call, hobj, Option.bind_eq_bind, Option.bind_none] at hstep
      cases hstep
  | some c₀ =>
      have hv := h.valid hobj
      obtain ⟨m', c', hres, -, hview, -⟩ :=
        RawBuffer.makeRoomFor_does (h.alive hobj) hv len
      have hcall := call_eq (f := fun m c => c.makeRoomFor m len) hobj hres
      obtain rfl := Option.some.inj (hcall.symm.trans hstep)
      have hself : (s.put m' i (some c')).obj i = some c' := Function.update_self ..
      obtain rfl : c' = c := Option.some.inj (hself.symm.trans hc)
      have hroom := (hv.makeRoomFor len).2.2
      rw [← hview] at hroom
      exact hroom

end BuffersOk

/-! ### Runs -/

variable [DecidableEq ι]

/-- **`Buffer` refines a list of bytes.**  Take any sequence of operations on any
number of buffers that keeps to what `Buffers.Allows`.  It is carried out to its
end without touching memory that is not there; then `b_ ≤ e_ ≤ cap_` holds of
every buffer, and `buf_` is null if and only if `cap_` is 0; the contents are
those of the list model; and `makeRoom(len)` leaves room for `len` bytes. -/
theorem buffers_refine {ops : List (BufferOp ι)}
    (h : Exec.Respects bufferStep Buffers.Allows Buffers.init ops) :
    ∃ s, Exec.exec bufferStep Buffers.init ops = some s ∧ BuffersOk s ∧
      (∀ i c, s.obj i = some c →
        c.b ≤ c.e ∧ c.e ≤ c.cap ∧ (c.buf = none ↔ c.cap = 0)) ∧
      s.lists = ops.foldl listStep (fun _ => none) ∧
      ∀ i len s' c, bufferStep s (.makeRoomFor i len) = some s' → s'.obj i = some c →
        len ≤ c.space := by
  obtain ⟨s, hrun, hok, hlists⟩ := Exec.simulate
    (R := fun s t => BuffersOk s ∧ s.lists = t) (f := listStep)
    (fun s op t ha hr => by
      obtain ⟨s', hstep, hok, hlists⟩ := hr.1.step ha
      exact ⟨s', hstep, hok, by rw [hlists, hr.2]⟩)
    h (t := fun _ => none) ⟨buffersOk_init, rfl⟩
  exact ⟨s, hrun, hok, fun i c hc => hok.bounds hc, hlists,
    fun i len s' c hstep hc => hok.space_makeRoomFor hstep hc⟩

/-- A buffer is copied while it holds an unfinished message; both go on, and one
absorbs the other, which is empty and still owns storage. -/
theorem buffers_refine_copy :
    ∃ s : Buffers Nat, Exec.exec bufferStep Buffers.init
        [.construct 0, .setSuggestSize 0 2, .append 0 [1, 2, 3], .copy 1 0, .consume 0 2,
          .append 0 [4, 5, 6], .append 1 [9], .construct 2, .setSuggestSize 2 8, .makeRoom 2,
          .absorb 2 1, .assign 1 0, .makeRoom 0, .fill 0 [7, 8], .absorb 1 2] = some s ∧
      s.lists 0 = some ⟨[3, 4, 5, 6, 7, 8], 2⟩ ∧
      s.lists 1 = some ⟨[3, 4, 5, 6, 1, 2, 3, 9], 2⟩ ∧ s.lists 2 = some ⟨[], 8⟩ := by
  have hallowed : Exec.Respects bufferStep Buffers.Allows (Buffers.init : Buffers Nat)
      [.construct 0, .setSuggestSize 0 2, .append 0 [1, 2, 3], .copy 1 0, .consume 0 2,
        .append 0 [4, 5, 6], .append 1 [9], .construct 2, .setSuggestSize 2 8, .makeRoom 2,
        .absorb 2 1, .assign 1 0, .makeRoom 0, .fill 0 [7, 8], .absorb 1 2] := by
    decide +kernel
  obtain ⟨s, hrun, -, -, hlists, -⟩ := buffers_refine hallowed
  refine ⟨s, hrun, ?_, ?_, ?_⟩
  · rw [hlists]
    decide +kernel
  · rw [hlists]
    decide +kernel
  · rw [hlists]
    decide +kernel

end Invariant

end Libet
