/-
Libet/RecvRoom.lean

The room that `HandleRead` gives to `recv`.

Each turn of its loop calls `m_input.makeRoom()` and hands `m_input.space()` to
`recv`; a result of 0 is taken for the end of the connection.  So `recv` must
never be asked for 0 bytes, whatever was done to the buffers before: `m_input` is
public, and anything that a buffer can do may be done to it.

`makeRoom()` does its part (`makesRoom_of_run`).  It leaves room for at least one
byte if no `exp_` is 0, and for `exp_` bytes where `setSuggestSize` has no part in
it: a storage, once there, is not smaller than `exp_` then, and a reallocation at
least doubles it.  But the length that `recv` takes is an `int`, and a room of
4 GiB becomes 0.  `recvSafe_iff` says when that does not happen.  Below 4 GiB the
turns are those of the `readLoop` of `Libet.TcpConn` (`view_of_turn`).
-/
import Libet.BufferRuns
import Libet.TcpConn

namespace Libet

/-! ### `recv` -/

/-- What `recv(fd, buf, len, 0)` returns, for a length that is an `int`.  Into some
room, 0 means that the peer has closed; 0 bytes are answered with 0 while there are
data; and no more bytes arrive than were asked for, where a negative length counts
as the unsigned number it stands for. -/
structure RecvContract (recvCall : Int → List RecvResult → RecvResult) : Prop where
  closed : ∀ {len script}, -2 ^ 31 ≤ len → len < 2 ^ 31 → len ≠ 0 →
    recvCall len script = .closed → script.head? = some .closed
  empty : ∀ b bs rest, recvCall 0 (.data b bs :: rest) = .closed
  bounded : ∀ {len script b bs}, recvCall len script = .data b bs →
    (b :: bs).length ≤ toUInt32 len

theorem toInt32_range (n : Int) : -2 ^ 31 ≤ toInt32 n ∧ toInt32 n < 2 ^ 31 := by
  simp only [toInt32, Int.bmod_def]
  omega

/-- A number that becomes 0 as an `int`. -/
theorem toInt32_eq_zero_iff (n : Nat) : toInt32 n = 0 ↔ 2 ^ 32 ∣ n := by
  simp only [toInt32, Int.bmod_def]
  omega

theorem toUInt32_toInt32 (n : Nat) : toUInt32 (toInt32 n) = n % 2 ^ 32 := by
  simp only [toUInt32, toInt32, Int.bmod_def]
  omega

/-- The `recv` of the scripts. -/
def scriptRecv (len : Int) (script : List RecvResult) : RecvResult :=
  (recv (toUInt32 len) script).1

/-- Into some room the script's `recv` returns 0 only if the peer has closed. -/
theorem closed_of_recv {space : Nat} {script : List RecvResult} (hspace : space ≠ 0)
    (h : (recv space script).1 = .closed) : script.head? = some .closed := by
  unfold recv at h
  split at h
  · cases h
  · rw [if_neg hspace] at h
    split at h <;> cases h
  · exact congrArg some h

theorem recvContract_scriptRecv : RecvContract scriptRecv where
  closed hmin hmax hne h := by
    refine closed_of_recv ?_ h
    simp only [toUInt32]
    omega
  empty b bs rest := rfl
  bounded {len script b bs} h := (burst_recv_data (Prod.ext h rfl)).2

/-! ### The machine -/

variable {ι : Type} [DecidableEq ι]

/-- `makeRoom()` on buffer `i`, and the buffer then. -/
def roomOf (s : Buffers ι) (i : ι) : Option (Buffers ι × RawBuffer) := do
  let s ← bufferStep s (.makeRoom i)
  let c ← s.obj i
  return (s, c)

/-- What happens to the buffers. -/
inductive InputLabel (ι : Type)
  /-- an operation on them, anywhere in the program -/
  | op (o : BufferOp ι)
  /-- a turn of the loop of `HandleRead` with the descriptor open, on a connection
  whose `m_input` is buffer `i`; `script` is what its socket has to say -/
  | recv (i : ι) (script : List RecvResult)

def inputStep (recvCall : Int → List RecvResult → RecvResult) (s : Buffers ι) :
    InputLabel ι → Option (Buffers ι)
  | .op o => bufferStep s o
  | .recv i script => do
      let (s, c) ← roomOf s i
      -- `space()` is converted to the `int` that `recv` takes
      match recvCall (toInt32 c.space) script with
      | .data b bs => bufferStep s (.fill i (b :: bs))
      | _ => return s

/-- `setSuggestSize` is only given positive values. -/
def BufferOp.Positive : BufferOp ι → Prop
  | .setSuggestSize _ sz => 0 < sz
  | _ => True

instance : (op : BufferOp ι) → Decidable op.Positive
  | .setSuggestSize _ sz => inferInstanceAs (Decidable (0 < sz))
  | .construct _ | .copy _ _ | .destroy _ | .append _ _ | .makeRoomFor _ _ | .makeRoom _
  | .fill _ _ | .consume _ _ | .absorb _ _ | .clear _ | .assign _ _ =>
      inferInstanceAs (Decidable True)

/-- What the buffers' users must keep to. -/
def InputAllows (s : Buffers ι) : InputLabel ι → Prop
  | .op o => s.Allows o ∧ o.Positive
  | .recv i _ => (s.obj i).isSome

instance (s : Buffers ι) : (a : InputLabel ι) → Decidable (InputAllows s a)
  | .op o => inferInstanceAs (Decidable (s.Allows o ∧ o.Positive))
  | .recv i _ => inferInstanceAs (Decidable ((s.obj i).isSome))

/-! ### What the operations do to `cap_` and `exp_` -/

/-- `exp_` stays, and the storage is kept, given up or replaced by one that is
neither smaller than before nor smaller than `exp_`. -/
def Buffer.Resizes (x y : Buffer) : Prop :=
  y.exp = x.exp ∧ (y.cap = x.cap ∨ y.cap = 0 ∨ x.exp ≤ y.cap ∧ x.cap ≤ y.cap)

namespace Buffer

theorem resizes_expand (x : Buffer) (len : Nat) : x.Resizes (x.expand len) := by
  refine ⟨rfl, Or.inr (Or.inr ⟨?_, ?_⟩)⟩
  · simp only [expand]
    omega
  · simp only [expand]
    omega

theorem resizes_makeRoomFor (x : Buffer) (len : Nat) : x.Resizes (x.makeRoomFor len) := by
  rw [makeRoomFor]
  split
  · exact ⟨rfl, Or.inl rfl⟩
  · split
    · exact ⟨rfl, Or.inl rfl⟩
    · exact resizes_expand x len

theorem resizes_makeRoom (x : Buffer) : x.Resizes x.makeRoom := by
  rw [makeRoom]
  split
  · exact resizes_expand x 0
  · exact ⟨rfl, Or.inl rfl⟩

theorem resizes_append (x : Buffer) (p : List UInt8) : x.Resizes (x.append p) := by
  have h := resizes_makeRoomFor x p.length
  exact h

theorem resizes_clear (x : Buffer) : x.Resizes x.clear := ⟨rfl, Or.inr (Or.inl rfl)⟩

theorem resizes_consume (x : Buffer) (len : Nat) : x.Resizes (x.consume len) := by
  rw [consume]
  split
  · exact ⟨rfl, Or.inr (Or.inl rfl)⟩
  · exact ⟨rfl, Or.inl rfl⟩

end Buffer

/-- A property of `cap_` and `exp_` that all operations keep, where `setSuggestSize`
is given what `A` allows. -/
structure Stable (A : Nat → Prop) (P : Nat → Nat → Prop) : Prop where
  new : P 0 512
  released : ∀ {cap exp}, P cap exp → P 0 exp
  grown : ∀ {cap exp n}, P cap exp → exp ≤ n → cap ≤ n → P n exp
  swapped : ∀ {cap exp cap' exp'}, P cap exp → P cap' exp' → P cap exp'
  suggested : ∀ {cap exp sz}, P cap exp → A sz → P cap sz

/-- What is done to the buffers of `S` involves no other, and gives them no `exp_`
but those that `A` allows. -/
def BufferOp.Within (S : Set ι) (A : Nat → Prop) : BufferOp ι → Prop
  | .copy i j | .assign i j => i ∈ S → j ∈ S
  | .absorb i j => i ∈ S ↔ j ∈ S
  | .setSuggestSize i sz => i ∈ S → A sz
  | _ => True

/-- `P` holds of every buffer in `S`. -/
def Numbers (S : Set ι) (P : Nat → Nat → Prop) (s : Buffers ι) : Prop :=
  ∀ i ∈ S, ∀ c, s.obj i = some c → P c.cap c.exp

variable {S : Set ι} {A : Nat → Prop} {P : Nat → Nat → Prop} {s s' : Buffers ι} {i j : ι}
  {c b : RawBuffer}

theorem Stable.resized (hP : Stable A P) {x y : Buffer} (h : x.Resizes y) (hx : P x.cap x.exp) :
    P y.cap y.exp := by
  obtain ⟨hexp, hcap | hcap | ⟨hexp', hcap⟩⟩ := h
  · rw [hexp, hcap]
    exact hx
  · rw [hexp, hcap]
    exact hP.released hx
  · rw [hexp]
    exact hP.grown hx hexp' hcap

namespace Numbers

theorem put (h : Numbers S P s) {m : Mem} {o : Option RawBuffer}
    (hnew : i ∈ S → ∀ c, o = some c → P c.cap c.exp) : Numbers S P (s.put m i o) := by
  intro k hk c hc
  simp only [Buffers.put, Function.update_apply] at hc
  split at hc
  · rename_i hki
    rw [hki] at hk
    exact hnew hk c hc
  · exact h k hk c hc

/-- A member function that resizes its buffer. -/
theorem call (hP : Stable A P) (h : Numbers S P s)
    {f : Mem → RawBuffer → Option (Mem × RawBuffer)} {g : Buffer → Buffer}
    (hf : ∀ c, s.obj i = some c → RawBuffer.Does s.mem c (f s.mem c) (g (c.view s.mem)))
    (hg : ∀ x : Buffer, x.Resizes (g x)) (hstep : s.call i f = some s') : Numbers S P s' := by
  obtain ⟨c, hc, hrest⟩ := Option.bind_eq_some_iff.mp hstep
  obtain ⟨m', c', hres, -, hview, -⟩ := hf c hc
  rw [hres] at hrest
  obtain rfl := Option.some.inj hrest
  refine h.put fun hi c'' hc'' => ?_
  obtain rfl := Option.some.inj hc''
  have hresized := hg (c.view s.mem)
  rw [← hview] at hresized
  exact hP.resized hresized (h i hi c hc)

omit [DecidableEq ι] in
/-- A copy has the numbers of what it was copied from. -/
theorem copied (h : Numbers S P s) (hj : j ∈ S) (hb : s.obj j = some b) {m m' : Mem}
    {c' : RawBuffer} {r : Option (Mem × RawBuffer)} (hr : r = some (m', c'))
    (hview : c'.view m' = (b.view m).copyFrom) {m₁ : Mem} {c₁ : RawBuffer}
    (hr' : r = some (m₁, c₁)) : P c₁.cap c₁.exp := by
  obtain ⟨rfl, rfl⟩ := Prod.mk.inj (Option.some.inj (hr.symm.trans hr'))
  have hcap : c'.cap = b.cap := congrArg Buffer.cap hview
  have hexp : c'.exp = b.exp := congrArg Buffer.exp hview
  rw [hcap, hexp]
  exact h j hj b hb

omit [DecidableEq ι] in
/-- An empty buffer takes the storage of the other and keeps its `exp_`; else it
grows, and the other gives its storage up. -/
theorem absorbed (hP : Stable A P) (hok : BuffersOk s) (hnc : P c.cap c.exp) (hnb : P b.cap b.exp)
    (hc : s.obj i = some c) {m' : Mem} {c' b' : RawBuffer}
    (habsorb : c.absorb s.mem b = some (m', c', b')) :
    P c'.cap c'.exp ∧ P b'.cap b'.exp := by
  rw [RawBuffer.absorb] at habsorb
  split at habsorb
  · obtain ⟨-, heq⟩ := Prod.mk.inj (Option.some.inj habsorb)
    obtain ⟨rfl, rfl⟩ := Prod.mk.inj heq
    exact ⟨hP.swapped hnb hnc, hP.swapped hnc hnb⟩
  · obtain ⟨content, -, hrest⟩ := Option.bind_eq_some_iff.mp habsorb
    obtain ⟨⟨m₁, c₁⟩, happend, hrest⟩ := Option.bind_eq_some_iff.mp hrest
    obtain ⟨⟨m₂, b₂⟩, hclear, hrest⟩ := Option.bind_eq_some_iff.mp hrest
    obtain ⟨m₃, -, hcleared⟩ := Option.bind_eq_some_iff.mp hclear
    obtain ⟨-, heq⟩ := Prod.mk.inj (Option.some.inj hrest)
    obtain ⟨rfl, rfl⟩ := Prod.mk.inj heq
    obtain ⟨-, rfl⟩ := Prod.mk.inj (Option.some.inj hcleared)
    refine ⟨?_, hP.released hnb⟩
    obtain ⟨m₄, c₂, hres, -, hview, -⟩ :=
      RawBuffer.append_does (hok.alive hc) (hok.valid hc) content
    obtain ⟨-, rfl⟩ := Prod.mk.inj (Option.some.inj (hres.symm.trans happend))
    have hresized := Buffer.resizes_append (c.view s.mem) content
    rw [← hview] at hresized
    exact hP.resized hresized hnc

theorem copy (h : Numbers S P s) (hok : BuffersOk s) (hin : i ∈ S → j ∈ S)
    (hstep : bufferStep s (.copy i j) = some s') : Numbers S P s' := by
  obtain ⟨b, hb, hrest⟩ := Option.bind_eq_some_iff.mp hstep
  obtain ⟨⟨m', c'⟩, hcopy, hrest⟩ := Option.bind_eq_some_iff.mp hrest
  obtain ⟨m₁, c₁, hres, -, hview, -⟩ := RawBuffer.copyFrom_does (hok.alive hb) (hok.valid hb)
  obtain rfl := Option.some.inj hrest
  refine h.put fun hi c hc => ?_
  obtain rfl := Option.some.inj hc
  exact h.copied (hin hi) hb hres hview hcopy

theorem assign (h : Numbers S P s) (hok : BuffersOk s) (hin : i ∈ S → j ∈ S)
    (hstep : bufferStep s (.assign i j) = some s') : Numbers S P s' := by
  obtain ⟨c, hc, hrest⟩ := Option.bind_eq_some_iff.mp hstep
  obtain ⟨b, hb, hrest⟩ := Option.bind_eq_some_iff.mp hrest
  split at hrest
  · obtain rfl := Option.some.inj hrest
    exact h
  · rename_i hij
    obtain ⟨⟨m', c'⟩, hassign, hrest⟩ := Option.bind_eq_some_iff.mp hrest
    obtain rfl := Option.some.inj hrest
    have hne : ∀ q, b.buf = some q → c.buf ≠ some q := by
      intro q hq hcq
      exact hij (hok.apart (by rw [hc]; exact hcq) (by rw [hb]; exact hq))
    obtain ⟨m₁, c₁, hres, -, hview, -⟩ :=
      RawBuffer.assign_does (hok.alive hc) (hok.alive hb) (hok.valid hb) hne
    refine h.put fun hi c'' hc'' => ?_
    obtain rfl := Option.some.inj hc''
    exact h.copied (hin hi) hb hres hview hassign

theorem absorb (hP : Stable A P) (h : Numbers S P s) (hok : BuffersOk s) (hin : i ∈ S ↔ j ∈ S)
    (hstep : bufferStep s (.absorb i j) = some s') : Numbers S P s' := by
  obtain ⟨c, hc, hrest⟩ := Option.bind_eq_some_iff.mp hstep
  obtain ⟨b, hb, hrest⟩ := Option.bind_eq_some_iff.mp hrest
  split at hrest
  · obtain rfl := Option.some.inj hrest
    exact h
  · obtain ⟨⟨m', c', b'⟩, habsorb, hrest⟩ := Option.bind_eq_some_iff.mp hrest
    obtain rfl := Option.some.inj hrest
    -- of the two, both are in `S` or none is
    have hboth : i ∈ S → P c'.cap c'.exp ∧ P b'.cap b'.exp := fun hi =>
      absorbed hP hok (h i hi c hc) (h j (hin.mp hi) b hb) hc habsorb
    intro k hk d hd
    simp only [Function.update_apply] at hd
    split at hd
    · rename_i hkj
      rw [hkj] at hk
      obtain rfl := Option.some.inj hd
      exact (hboth (hin.mpr hk)).2
    · split at hd
      · rename_i hki
        rw [hki] at hk
        obtain rfl := Option.some.inj hd
        exact (hboth hk).1
      · exact h k hk d hd

/-- **Every operation keeps a stable property.** -/
theorem step (hP : Stable A P) (hok : BuffersOk s) {op : BufferOp ι} (ha : s.Allows op)
    (hin : op.Within S A) (h : Numbers S P s) (hstep : bufferStep s op = some s') :
    Numbers S P s' := by
  cases op with
  | construct i =>
      obtain rfl := Option.some.inj hstep
      refine h.put fun _ c hc => ?_
      obtain rfl := Option.some.inj hc
      exact hP.new
  | copy i j => exact h.copy hok hin hstep
  | destroy i =>
      obtain ⟨c, hc, hrest⟩ := Option.bind_eq_some_iff.mp hstep
      obtain ⟨m', hdel, hrest⟩ := Option.bind_eq_some_iff.mp hrest
      obtain rfl := Option.some.inj hrest
      exact h.put fun _ c hc => by cases hc
  | append i p =>
      exact call hP h (f := fun m c => c.append m p) (g := fun x => x.append p)
        (fun c hc => RawBuffer.append_does (hok.alive hc) (hok.valid hc) p)
        (fun x => Buffer.resizes_append x p) hstep
  | makeRoomFor i len =>
      exact call hP h (f := fun m c => c.makeRoomFor m len) (g := fun x => x.makeRoomFor len)
        (fun c hc => RawBuffer.makeRoomFor_does (hok.alive hc) (hok.valid hc) len)
        (fun x => Buffer.resizes_makeRoomFor x len) hstep
  | makeRoom i =>
      exact call hP h (f := fun m c => c.makeRoom m)
        (fun c hc => RawBuffer.makeRoom_does (hok.alive hc) (hok.valid hc))
        Buffer.resizes_makeRoom hstep
  | fill i p =>
      obtain ⟨c₀, hc₀, hp⟩ := ha
      refine call hP h (f := fun m c => c.fill m p)
        (g := fun x => (x.writeEnd p).addSize p.length) (fun c hc => ?_)
        (fun x => ⟨rfl, Or.inl rfl⟩) hstep
      obtain rfl : c₀ = c := Option.some.inj (hc₀.symm.trans hc)
      exact RawBuffer.fill_does (hok.alive hc) (hok.valid hc) hp
  | consume i len =>
      exact call hP h (f := fun m c => c.consume m len) (g := fun x => x.consume len)
        (fun c hc => RawBuffer.consume_does (hok.alive hc) len)
        (fun x => Buffer.resizes_consume x len) hstep
  | absorb i j => exact absorb hP h hok hin hstep
  | clear i =>
      exact call hP h (f := fun m c => c.clear m)
        (fun c hc => RawBuffer.clear_does (hok.alive hc)) Buffer.resizes_clear hstep
  | assign i j => exact h.assign hok hin hstep
  | setSuggestSize i sz =>
      obtain ⟨c, hc, hrest⟩ := Option.bind_eq_some_iff.mp hstep
      obtain rfl := Option.some.inj hrest
      refine h.put fun hi c' hc' => ?_
      obtain rfl := Option.some.inj hc'
      exact hP.suggested (h i hi c hc) (hin hi)

end Numbers

/-! ### The room that there is then -/

/-- No `exp_` becomes 0. -/
theorem stable_pos : Stable (0 < ·) (fun _ exp => 0 < exp) where
  new := by decide
  released h := h
  grown h _ _ := h
  swapped _ h := h
  suggested _ h := h

/-- Without `setSuggestSize`, `exp_` is 512 everywhere, and a storage that is
there is not smaller. -/
theorem stable_suggest :
    Stable (fun _ => False) (fun cap exp => exp = 512 ∧ (cap = 0 ∨ exp ≤ cap)) where
  new := ⟨rfl, Or.inl rfl⟩
  released h := ⟨h.1, Or.inl rfl⟩
  grown h hexp _ := ⟨h.1, Or.inr hexp⟩
  swapped h h' := ⟨h'.1, by rw [h'.1, ← h.1]; exact h.2⟩
  suggested _ h := h.elim

/-- The room that `makeRoom()` leaves: that which there is, if it is at least
`exp_`, and else that of a storage twice as large, or of `exp_` bytes. -/
def RawBuffer.roomMade (c : RawBuffer) : Nat :=
  if c.exp ≤ c.space then c.space else max c.exp (2 * c.cap) - c.size

theorem RawBuffer.roomMade_pos (he : c.e ≤ c.cap) (hexp : 0 < c.exp) : 0 < c.roomMade := by
  rw [roomMade]
  split
  · simp only [space] at *
    omega
  · simp only [size]
    omega

theorem RawBuffer.exp_le_roomMade (he : c.e ≤ c.cap) (hcap : c.cap = 0 ∨ c.exp ≤ c.cap) :
    c.exp ≤ c.roomMade := by
  rw [roomMade]
  split
  · simp only [space] at *
    omega
  · simp only [size]
    omega

theorem Buffer.Valid.space_makeRoom {x : Buffer} (hv : x.Valid) :
    x.makeRoom.space = if x.exp ≤ x.space then x.space else max x.exp (2 * x.cap) - x.size := by
  have h1 := hv.b_le_e
  have h2 := hv.e_le_cap
  rw [Buffer.makeRoom]
  split
  · rename_i hroom
    rw [if_neg (Nat.not_le.mpr hroom)]
    simp only [Buffer.space, Buffer.expand, Buffer.size]
    omega
  · rename_i hroom
    rw [if_pos (Nat.not_lt.mp hroom)]

/-- `makeRoom()` on a buffer that exists. -/
theorem roomOf_spec (hok : BuffersOk s) (hc : s.obj i = some c) :
    ∃ s' c', roomOf s i = some (s', c') ∧ bufferStep s (.makeRoom i) = some s' ∧
      s'.obj i = some c' ∧ BuffersOk s' ∧ c'.space = c.roomMade ∧
      c'.view s'.mem = (c.view s.mem).makeRoom := by
  have hv := hok.valid hc
  obtain ⟨m', c', hres, hview, hok', -⟩ := hok.call hc (f := fun m c => c.makeRoom m)
    (RawBuffer.makeRoom_does (hok.alive hc) hv) hv.makeRoom.1
  have hstep : bufferStep s (.makeRoom i) = some (s.put m' i (some c')) :=
    Buffers.call_eq (f := fun m c => c.makeRoom m) hc hres
  have hself : (s.put m' i (some c')).obj i = some c' := Function.update_self ..
  refine ⟨_, c', ?_, hstep, hself, hok', ?_, hview⟩
  · simp only [roomOf, hstep, hself, Option.bind_eq_bind, Option.bind_some]
    rfl
  · have hspace := hv.space_makeRoom
    rw [← hview] at hspace
    exact hspace

/-! ### Steps and runs -/

/-- The same for a label. -/
def InputLabel.Within (S : Set ι) (A : Nat → Prop) : InputLabel ι → Prop
  | .op o => o.Within S A
  | .recv _ _ => True

omit [DecidableEq ι] in
theorem BufferOp.Positive.within {op : BufferOp ι} (h : op.Positive) :
    op.Within Set.univ (0 < ·) := by
  cases op with
  | setSuggestSize i sz => exact fun _ => h
  | copy i j => exact fun _ => Set.mem_univ j
  | assign i j => exact fun _ => Set.mem_univ j
  | absorb i j => exact iff_of_true (Set.mem_univ i) (Set.mem_univ j)
  | _ => exact trivial

omit [DecidableEq ι] in
/-- `InputAllows` keeps `exp_` positive in all buffers. -/
theorem InputAllows.within {a : InputLabel ι} (h : InputAllows s a) :
    a.Within Set.univ (0 < ·) := by
  cases a with
  | op o => exact h.2.within
  | recv i script => exact trivial

variable {recvCall : Int → List RecvResult → RecvResult} {a : InputLabel ι}
  {script : List RecvResult}

/-- A turn of `HandleRead`, once there is room. -/
theorem inputStep_recv (hroom : roomOf s i = some (s', c)) :
    inputStep recvCall s (.recv i script) =
      match recvCall (toInt32 c.space) script with
      | .data b bs => bufferStep s' (.fill i (b :: bs))
      | _ => some s' := by
  simp only [inputStep, hroom, Option.bind_eq_bind, Option.bind_some]
  rfl

/-- **What a step does.**  It can be taken, and keeps every stable property. -/
theorem inputStep_spec (hrecv : RecvContract recvCall) (hok : BuffersOk s)
    (ha : InputAllows s a) :
    ∃ s', inputStep recvCall s a = some s' ∧ BuffersOk s' ∧
      ∀ {S : Set ι} {A : Nat → Prop} {P : Nat → Nat → Prop}, Stable A P → a.Within S A →
        Numbers S P s → Numbers S P s' := by
  cases a with
  | op o =>
      obtain ⟨s', hstep, hok', -⟩ := hok.step ha.1
      exact ⟨s', hstep, hok', fun hP hin h => h.step hP hok ha.1 hin hstep⟩
  | recv i script =>
      obtain ⟨c, hc⟩ := Option.isSome_iff_exists.mp ha
      obtain ⟨s₁, c₁, hroom, hmake, hc₁, hok₁, -, -⟩ := roomOf_spec hok hc
      have hmade : ∀ {S : Set ι} {A : Nat → Prop} {P : Nat → Nat → Prop}, Stable A P →
          Numbers S P s → Numbers S P s₁ := fun hP h =>
        h.step hP hok (show s.Allows (.makeRoom i) from ha) trivial hmake
      rw [inputStep_recv hroom]
      cases hres : recvCall (toInt32 c₁.space) script with
      | data b bs =>
          -- what has arrived fits into the room
          have hfill : s₁.Allows (.fill i (b :: bs)) :=
            ⟨c₁, hc₁, Nat.le_trans (hrecv.bounded hres) (by
              rw [toUInt32_toInt32]
              exact Nat.mod_le ..)⟩
          obtain ⟨s', hstep, hok', -⟩ := hok₁.step hfill
          exact ⟨s', hstep, hok', fun hP _ h => (hmade hP h).step hP hok₁ hfill trivial hstep⟩
      | wouldBlock => exact ⟨s₁, rfl, hok₁, fun hP _ h => hmade hP h⟩
      | closed => exact ⟨s₁, rfl, hok₁, fun hP _ h => hmade hP h⟩
      | error => exact ⟨s₁, rfl, hok₁, fun hP _ h => hmade hP h⟩

/-- The same, of a step that was taken. -/
theorem kept_of_inputStep (hrecv : RecvContract recvCall) (hok : BuffersOk s)
    (ha : InputAllows s a) (hstep : inputStep recvCall s a = some s') (hP : Stable A P)
    (hin : a.Within S A) (h : Numbers S P s) : BuffersOk s' ∧ Numbers S P s' := by
  obtain ⟨t, ht, hok', hkeep⟩ := inputStep_spec hrecv hok ha
  obtain rfl : t = s' := Option.some.inj (ht.symm.trans hstep)
  exact ⟨hok', hkeep hP hin h⟩

omit [DecidableEq ι] in
theorem numbers_init : Numbers S P (Buffers.init : Buffers ι) := by
  intro i _ c hc
  cases hc

/-- **What a run does.**  It gets to its end, and keeps what is stable. -/
theorem inputRun_spec (hrecv : RecvContract recvCall) {ops : List (InputLabel ι)}
    (h : Exec.Respects (inputStep recvCall) InputAllows Buffers.init ops) :
    ∃ s, Exec.exec (inputStep recvCall) Buffers.init ops = some s ∧ BuffersOk s ∧
      ∀ {S : Set ι} {A : Nat → Prop} {P : Nat → Nat → Prop}, Stable A P →
        Exec.Along (inputStep recvCall) (fun _ a _ => a.Within S A) Buffers.init ops →
          Numbers S P s := by
  obtain ⟨s, hrun, hok⟩ := Exec.simulate (R := fun s _ => BuffersOk s) (f := fun _ _ => ())
    (fun s a _ ha hok => by
      obtain ⟨s', hstep, hok', -⟩ := inputStep_spec hrecv hok ha
      exact ⟨s', hstep, hok'⟩)
    h (t := ()) buffersOk_init
  refine ⟨s, hrun, hok, fun {S A P} hP hin => ?_⟩
  have hkept := Exec.invariant_along (I := fun s => BuffersOk s ∧ Numbers S P s)
    (fun s a s' hstep hg hi => kept_of_inputStep hrecv hi.1 hg.1 hstep hP hg.2 hi.2)
    (h.along.and hin) hrun ⟨buffersOk_init, numbers_init⟩
  exact hkept.2

/-! ### The loop of `HandleRead` -/

theorem fill_spec (hok : BuffersOk s) (hc : s.obj i = some c) {p : List UInt8}
    (hp : p.length ≤ c.space) :
    ∃ s' c', bufferStep s (.fill i p) = some s' ∧ s'.obj i = some c' ∧
      c'.view s'.mem = ((c.view s.mem).writeEnd p).addSize p.length := by
  have hv := hok.valid hc
  obtain ⟨m', c', hres, hview, -, -⟩ := hok.call hc (f := fun m c => c.fill m p)
    (RawBuffer.fill_does (hok.alive hc) hv hp) (hv.fill hp).1
  exact ⟨_, c', Buffers.call_eq (f := fun m c => c.fill m p) hc hres, Function.update_self ..,
    hview⟩

/-- **A turn here is a turn of `readLoop`**, with the `recv` of the scripts and a room
of less than 4 GiB: `m_input` is the same buffer afterwards. -/
theorem view_of_turn {w : World} {k : ConnId} (hok : BuffersOk s) (hc : s.obj i = some c)
    (hinput : c.view s.mem = (w.con k).input) (hlt : c.roomMade < 2 ^ 32) :
    ∃ s' c', inputStep scriptRecv s (.recv i script) = some s' ∧ s'.obj i = some c' ∧
      c'.view s'.mem =
        match recv ((makeRoomInput k w).con k).input.space script with
        | (.data b bs, rest) =>
            ((addInput k (b :: bs) (setRecvs k rest (makeRoomInput k w))).con k).input
        | _ => ((makeRoomInput k w).con k).input := by
  obtain ⟨s₁, c₁, hroom, -, hc₁, hok₁, hspace, hview⟩ := roomOf_spec hok hc
  have hmade : ((makeRoomInput k w).con k).input = c₁.view s₁.mem := by
    rw [hview, hinput]
    simp only [makeRoomInput, World.set, Function.update_self]
  have hlen : toUInt32 (toInt32 c₁.space) = c₁.space := by
    rw [toUInt32_toInt32, hspace]
    exact Nat.mod_eq_of_lt hlt
  have hrecv : scriptRecv (toInt32 c₁.space) script = (recv c₁.space script).1 := by
    rw [scriptRecv, hlen]
  rw [inputStep_recv hroom, hrecv, show ((makeRoomInput k w).con k).input.space = c₁.space by
    rw [hmade]
    rfl]
  rcases hres : recv c₁.space script with ⟨_ | _ | _ | _, rest⟩
  · rename_i b bs
    obtain ⟨s', c', hstep, hc', hview'⟩ := fill_spec hok₁ hc₁ (burst_recv_data hres).2
    refine ⟨s', c', hstep, hc', ?_⟩
    rw [hview', ← hmade]
    simp only [addInput, setRecvs, World.set, Function.update_self]
  · exact ⟨s₁, c₁, rfl, hc₁, hmade.symm⟩
  · exact ⟨s₁, c₁, rfl, hc₁, hmade.symm⟩
  · exact ⟨s₁, c₁, rfl, hc₁, hmade.symm⟩

/-! ### `recv` is asked for something -/

/-- `makeRoom()` makes room for `n` bytes in buffer `i`. -/
def MakesRoom (s : Buffers ι) (i : ι) (n : Nat) : Prop :=
  ∃ s' c, roomOf s i = some (s', c) ∧ n ≤ c.space

theorem makesRoom_of_le (hok : BuffersOk s) (hc : s.obj i = some c) {n : Nat}
    (hn : n ≤ c.roomMade) : MakesRoom s i n := by
  obtain ⟨s', c', hroom, -, -, -, hspace, -⟩ := roomOf_spec hok hc
  exact ⟨s', c', hroom, by rw [hspace]; exact hn⟩

/-- When `recv` returns 0 for this length, the peer has closed. -/
def Reliable (recvCall : Int → List RecvResult → RecvResult) (len : Int) : Prop :=
  ∀ script, recvCall len script = .closed → script.head? = some .closed

/-- `recv` lies about a length of 0 only. -/
theorem reliable_iff (hrecv : RecvContract recvCall) {len : Int} (hmin : -2 ^ 31 ≤ len)
    (hmax : len < 2 ^ 31) : Reliable recvCall len ↔ len ≠ 0 := by
  constructor
  · rintro hreliable rfl
    have hclosed := hreliable _ (hrecv.empty 0 [] [])
    cases hclosed
  · exact fun hne script h => hrecv.closed hmin hmax hne h

/-- In this turn of the loop `recv` gets a buffer that is not empty, and can be
believed. -/
def TurnSafe (recvCall : Int → List RecvResult → RecvResult) (s : Buffers ι) : InputLabel ι → Prop
  | .op _ => True
  | .recv i _ => ∃ s' c, roomOf s i = some (s', c) ∧ toInt32 c.space ≠ 0 ∧
      Reliable recvCall (toInt32 c.space)

/-- The room that `makeRoom()` leaves is not a multiple of 4 GiB. -/
def RoomFits (s : Buffers ι) : InputLabel ι → Prop
  | .op _ => True
  | .recv i _ => ∀ c ∈ s.obj i, ¬ 2 ^ 32 ∣ c.roomMade

instance (s : Buffers ι) : (a : InputLabel ι) → Decidable (RoomFits s a)
  | .op _ => inferInstanceAs (Decidable True)
  | .recv i _ => inferInstanceAs (Decidable (∀ c ∈ s.obj i, ¬ 2 ^ 32 ∣ c.roomMade))

/-- **One turn.** -/
theorem turnSafe_iff (hrecv : RecvContract recvCall) (hok : BuffersOk s) (ha : InputAllows s a) :
    TurnSafe recvCall s a ↔ RoomFits s a := by
  cases a with
  | op o => exact Iff.rfl
  | recv i script =>
      obtain ⟨c, hc⟩ := Option.isSome_iff_exists.mp ha
      obtain ⟨s₁, c₁, hroom, -, -, -, hspace, -⟩ := roomOf_spec hok hc
      have hlen : toInt32 c₁.space ≠ 0 ↔ ¬ 2 ^ 32 ∣ c.roomMade := by
        rw [← hspace]
        exact not_congr (toInt32_eq_zero_iff c₁.space)
      constructor
      · rintro ⟨s₂, c₂, hroom₂, hne, -⟩ c' hc'
        obtain rfl : c = c' := Option.some.inj (hc.symm.trans hc')
        obtain ⟨-, rfl⟩ := Prod.mk.inj (Option.some.inj (hroom.symm.trans hroom₂))
        exact hlen.mp hne
      · intro hfits
        have hne := hlen.mpr (hfits c hc)
        obtain ⟨hmin, hmax⟩ := toInt32_range c₁.space
        exact ⟨s₁, c₁, hroom, hne, (reliable_iff hrecv hmin hmax).mpr hne⟩

omit [DecidableEq ι] in
/-- A room of less than 4 GiB fits. -/
theorem roomFits_of_lt (hok : BuffersOk s) (hpos : Numbers Set.univ (fun _ exp => 0 < exp) s)
    (hlt : ∀ i c, s.obj i = some c → c.roomMade < 2 ^ 32) (a : InputLabel ι) : RoomFits s a := by
  cases a with
  | op o => exact trivial
  | recv i script =>
      intro c hc hdvd
      have hroom := RawBuffer.roomMade_pos (hok.bounds hc).2.1 (hpos i (Set.mem_univ i) c hc)
      exact absurd (Nat.le_of_dvd hroom hdvd) (Nat.not_le.mpr (hlt i c hc))

/-- The run gets to its end.  There, `makeRoom()` makes room for a byte in every
buffer, and for `exp_` bytes in those of a set that `setSuggestSize` has not been
called on, nor on one that they were copied from or have absorbed or were absorbed
by.  And in each turn of `HandleRead` on the way `recv` is asked for something, so
that its 0 is the peer's. -/
def RecvSafe (recvCall : Int → List RecvResult → RecvResult) (ops : List (InputLabel ι)) :
    Prop :=
  (∃ s, Exec.exec (inputStep recvCall) Buffers.init ops = some s ∧
    (∀ i c, s.obj i = some c → MakesRoom s i 1) ∧
    ∀ S : Set ι, (∀ a ∈ ops, a.Within S fun _ => False) →
      ∀ i ∈ S, ∀ c, s.obj i = some c → MakesRoom s i c.exp) ∧
  Exec.Along (inputStep recvCall) (fun s a _ => TurnSafe recvCall s a) Buffers.init ops

/-- **`makeRoom()` always makes room.** -/
theorem makesRoom_of_run (hrecv : RecvContract recvCall) {ops : List (InputLabel ι)}
    (h : Exec.Respects (inputStep recvCall) InputAllows Buffers.init ops) :
    ∃ s, Exec.exec (inputStep recvCall) Buffers.init ops = some s ∧
      (∀ i c, s.obj i = some c → MakesRoom s i 1) ∧
      ∀ S : Set ι, (∀ a ∈ ops, a.Within S fun _ => False) →
        ∀ i ∈ S, ∀ c, s.obj i = some c → MakesRoom s i c.exp := by
  obtain ⟨s, hrun, hok, hnumbers⟩ := inputRun_spec hrecv h
  have hpos := hnumbers stable_pos (h.along.imp fun _ _ _ _ ha => ha.within)
  refine ⟨s, hrun, ?_, ?_⟩
  · intro i c hc
    have he := (hok.bounds hc).2.1
    exact makesRoom_of_le hok hc (RawBuffer.roomMade_pos he (hpos i (Set.mem_univ i) c hc))
  · intro S hS i hi c hc
    have he := (hok.bounds hc).2.1
    have hcap := (hnumbers stable_suggest (Exec.along_of_mem _ hS) i hi c hc).2
    exact makesRoom_of_le hok hc (RawBuffer.exp_le_roomMade he hcap)

/-- **When `recv` is given a buffer.**  In every run of operations on any number of
buffers and of turns of `HandleRead`, `makeRoom()` makes room for a byte, and for
`exp_` bytes where `setSuggestSize` is not involved.  `recv` is asked for something
each time, and its 0 can be believed, exactly if no turn of the run finds an
`m_input` for which the room that `makeRoom()` leaves is a multiple of 4 GiB. -/
theorem recvSafe_iff (hrecv : RecvContract recvCall) {ops : List (InputLabel ι)}
    (h : Exec.Respects (inputStep recvCall) InputAllows Buffers.init ops) :
    RecvSafe recvCall ops ↔
      Exec.Along (inputStep recvCall) (fun s a _ => RoomFits s a) Buffers.init ops := by
  have hturns := Exec.along_iff_of (I := fun s : Buffers ι => BuffersOk s)
    (B := fun s a _ => InputAllows s a) (G := fun s a _ => TurnSafe recvCall s a)
    (H := fun s a _ => RoomFits s a) ?_ ?_ h.along buffersOk_init
  · rw [← hturns]
    exact and_iff_right (makesRoom_of_run hrecv h)
  · intro s a s' hstep ha _ hok
    obtain ⟨t, ht, hok', -⟩ := inputStep_spec hrecv hok ha
    obtain rfl : t = s' := Option.some.inj (ht.symm.trans hstep)
    exact hok'
  · intro s a s' _ ha hok
    exact turnSafe_iff hrecv hok ha

/-- A buffer with room for two bytes is filled up; another absorbs it, which is empty
and has `exp_` 512; both receive again. -/
theorem recvSafe_absorb :
    RecvSafe scriptRecv
      [.op (.construct 0), .op (.setSuggestSize 0 2), .recv 0 [.data 1 [2, 3]], .op (.construct 1),
        .op (.absorb 1 0), .recv 1 [.data 3 []], .recv 0 [.closed]] := by
  refine (recvSafe_iff (ι := Nat) recvContract_scriptRecv ?_).mpr ?_
  · decide +kernel
  · decide +kernel

/-- `setSuggestSize(4294967296)`, which is not 0 as a `size_t`. -/
def suggest4GiB : List (InputLabel Nat) :=
  [.op (.construct 0), .op (.setSuggestSize 0 (2 ^ 32))]

/-- **Into a room of 4 GiB `recv` is asked for 0 bytes**, when the peer has sent
one. -/
theorem not_recvSafe :
    Exec.Respects (inputStep scriptRecv) InputAllows Buffers.init
        (suggest4GiB ++ [.recv 0 [.data 7 []]]) ∧
      ¬ RecvSafe scriptRecv (suggest4GiB ++ [.recv 0 [.data 7 []]]) := by
  have hstart : Exec.Respects (inputStep scriptRecv) InputAllows Buffers.init suggest4GiB := by
    decide +kernel
  obtain ⟨s, hrun, hok, -⟩ := inputRun_spec recvContract_scriptRecv hstart
  have hobj : s.obj 0 = some ⟨none, 0, 0, 0, 2 ^ 32⟩ := by
    obtain rfl := Option.some.inj hrun
    rfl
  have hallowed : InputAllows s (.recv 0 [.data 7 []]) := by
    show (s.obj 0).isSome
    rw [hobj]
    rfl
  refine ⟨hstart.append hrun ⟨hallowed, fun _ _ => trivial⟩, ?_⟩
  rintro ⟨-, hturns⟩
  obtain ⟨s', hstep, -⟩ := inputStep_spec recvContract_scriptRecv hok hallowed
  have hturn := (hturns.of_append hrun s' hstep).1
  have hfits := (turnSafe_iff recvContract_scriptRecv hok hallowed).mp hturn
  exact hfits _ hobj (by decide)

end Libet
