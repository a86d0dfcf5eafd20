/-
Libet/BufferCap.lean

How large the storage of a receive buffer gets.

`HandleRead` calls `makeRoom()` and adds what `recv` has written; `OnMsg`
consumes messages; others append.  Before it grows, `append` looks whether
moving the content to the front of the storage is enough.  `makeRoom()` does
not: when fewer than `exp_` bytes are free behind the content it doubles the
storage, however much is free in front of it.  A connection that always holds a
byte of an unfinished message never gets its storage back, and it grows with the
traffic.

`cap_bounded_iff`: the storage stays within a constant factor of what is ever
buffered exactly if no `makeRoom()` grows it past the point at which moving the
content would have done (`late_growth_avoidable`).
-/
import Libet.Buffer
import Libet.Lib.Exec

namespace Libet

/-! ### The operations -/

/-- What `HandleRead` and `OnMsg` do with a buffer. -/
inductive CapOp
  /-- `makeRoom()`, and `addSize` for the bytes that arrived -/
  | recv (p : List UInt8)
  | consume (len : Nat)
  | append (p : List UInt8)
  deriving DecidableEq, Repr

/-- One operation; `addSize` counts in no more than there is room for, and
`consume` takes no more than there is. -/
def capStep (x : Buffer) : CapOp → Option Buffer
  | .recv p =>
      if p.length ≤ x.makeRoom.space then
        some ((x.makeRoom.writeEnd p).addSize p.length)
      else none
  | .consume len => if len ≤ x.size then some (x.consume len) else none
  | .append p => some (x.append p)

/-- A new buffer, after `setSuggestSize`. -/
def Buffer.ofExp (exp : Nat) : Buffer := { Buffer.new with exp := exp }

/-- `makeRoom()` is about to grow a storage of more than `2 (M + exp_) + 1`
bytes. -/
def LateGrowth (M : Nat) (x : Buffer) : CapOp → Prop
  | .recv _ => x.space < x.exp ∧ 2 * (M + x.exp) + 1 < x.cap
  | _ => False

instance (M : Nat) (x : Buffer) : (op : CapOp) → Decidable (LateGrowth M x op)
  | .recv _ => inferInstanceAs (Decidable (_ ∧ _))
  | .consume _ | .append _ => inferInstanceAs (Decidable False)

variable {M exp : Nat} {x x' : Buffer} {op : CapOp}

/-! ### What an operation does to the storage -/

namespace Buffer

theorem valid_ofExp (exp : Nat) : (ofExp exp).Valid :=
  ⟨Nat.le_refl _, Nat.le_refl _, rfl, iff_of_true rfl rfl⟩

theorem cap_makeRoom (x : Buffer) :
    x.makeRoom.cap = if x.space < x.exp then max x.exp (max (2 * x.cap) x.size) else x.cap := by
  simp only [makeRoom]
  split
  · rfl
  · rfl

theorem cap_consume_le (x : Buffer) (len : Nat) : (x.consume len).cap ≤ x.cap := by
  simp only [consume]
  split
  · exact Nat.zero_le _
  · exact Nat.le_refl _

/-- `append` grows only when the content and the new bytes need half of the
storage. -/
theorem cap_append_le (x : Buffer) (p : List UInt8) :
    (x.append p).cap ≤ max x.cap (max x.exp (4 * (x.size + p.length) + 2)) := by
  show (x.makeRoomFor p.length).cap ≤ _
  simp only [makeRoomFor]
  split
  · exact Nat.le_max_left ..
  · split
    · exact Nat.le_max_left ..
    · simp only [expand]
      omega

end Buffer

/-- Where `makeRoom()` grows late, moving the content to the front would have
left room for `exp_` bytes, and `append` would have moved it. -/
theorem late_growth_avoidable (hv : x.Valid) (hM : x.size ≤ M) (hlate : LateGrowth M x op) :
    x.exp ≤ x.moveHead.space ∧ x.makeRoomFor x.exp = x.moveHead := by
  have h1 := hv.b_le_e
  have h2 := hv.e_le_cap
  cases op with
  | recv p =>
      obtain ⟨hspace, hcap⟩ := hlate
      simp only [Buffer.space] at hspace
      have hhalf : x.size + x.exp < x.cap / 2 := by omega
      constructor
      · simp only [Buffer.space, Buffer.moveHead]
        simp only [Buffer.size] at hhalf
        omega
      · rw [Buffer.makeRoomFor, if_neg (by omega), if_pos hhalf]
  | consume len => exact hlate.elim
  | append p => exact hlate.elim

/-! ### The bound -/

/-- What every operation keeps, as long as the bound holds. -/
structure CapOk (M exp : Nat) (x : Buffer) : Prop where
  valid : x.Valid
  exp_eq : x.exp = exp
  size_le : x.size ≤ M
  cap_le : x.cap ≤ 4 * (M + exp) + 2

theorem valid_of_capStep (hstep : capStep x op = some x') (hv : x.Valid) :
    x'.Valid ∧ x'.exp = x.exp := by
  cases op with
  | recv p =>
      simp only [capStep] at hstep
      split at hstep
      · rename_i hp
        cases hstep
        exact ⟨(hv.makeRoom.1.fill hp).1, Buffer.exp_makeRoom x⟩
      · cases hstep
  | consume len =>
      simp only [capStep] at hstep
      split at hstep
      · rename_i hlen
        cases hstep
        exact ⟨hv.consume hlen, Buffer.exp_consume x len⟩
      · cases hstep
  | append p =>
      cases hstep
      exact ⟨(hv.append p).1, Buffer.exp_makeRoomFor x p.length⟩

theorem size_append (hv : x.Valid) (p : List UInt8) :
    (x.append p).size = x.size + p.length := by
  rw [← (hv.append p).1.content_length, (hv.append p).2, List.length_append, hv.content_length]

/-- **One operation and the bound.** -/
theorem cap_step_iff (hstep : capStep x op = some x') (hM : x'.size ≤ M) (h : CapOk M exp x) :
    x'.cap ≤ 4 * (M + exp) + 2 ↔ ¬ LateGrowth M x op := by
  have hexp := h.exp_eq
  have hsize := h.size_le
  have hcap := h.cap_le
  cases op with
  | recv p =>
      have hcap' : x'.cap = x.makeRoom.cap := by
        simp only [capStep] at hstep
        split at hstep <;> cases hstep
        rfl
      rw [hcap', Buffer.cap_makeRoom, LateGrowth]
      split
      · omega
      · rename_i hroom
        exact iff_of_true hcap fun hlate => hroom hlate.1
  | consume len =>
      have hle : x'.cap ≤ x.cap := by
        simp only [capStep] at hstep
        split at hstep <;> cases hstep
        exact Buffer.cap_consume_le x len
      exact iff_of_true (Nat.le_trans hle hcap) id
  | append p =>
      cases hstep
      have hle := Buffer.cap_append_le x p
      rw [size_append h.valid] at hM
      exact iff_of_true (by omega) id

/-- **The storage is bounded by what is buffered, exactly if `makeRoom()` never
grows it late.**  Take any run of these operations in which there are never more
than `M` bytes in the buffer, those of an `append` included.  Its storage never
has more than `4 (M + exp_) + 2` bytes if and only if no `makeRoom()` of the run
is called with fewer than `exp_` bytes free behind the content while the storage
has more than `2 (M + exp_) + 1` bytes. -/
theorem cap_bounded_iff {ops : List CapOp}
    (hM : Exec.Along capStep (fun _ _ x' => x'.size ≤ M) (Buffer.ofExp exp) ops) :
    Exec.Along capStep (fun _ _ x' => x'.cap ≤ 4 * (M + exp) + 2) (Buffer.ofExp exp) ops ↔
      Exec.Along capStep (fun x op _ => ¬ LateGrowth M x op) (Buffer.ofExp exp) ops := by
  refine Exec.along_iff_of (I := CapOk M exp) ?_ ?_ hM
    ⟨Buffer.valid_ofExp exp, rfl, Nat.zero_le _, Nat.zero_le _⟩
  · intro x op x' hstep hM hcap h
    obtain ⟨hv, hexp⟩ := valid_of_capStep hstep h.valid
    exact ⟨hv, hexp.trans h.exp_eq, hM, hcap⟩
  · intro x op x' hstep hM h
    exact cap_step_iff hstep hM h

/-- A message of three bytes in two pieces, and an `append`. -/
theorem cap_bounded_small :
    Exec.Along capStep (fun _ _ x' => x'.cap ≤ 4 * (3 + 2) + 2) (Buffer.ofExp 2)
      [.recv [1, 2], .recv [3], .consume 2, .append [4, 5], .consume 3] :=
  (cap_bounded_iff (by decide)).mpr (by decide)

/-- A burst of 512 bytes, and the `makeRoom()` before the `recv` that finds
nothing more. -/
def burst512 : List CapOp := [.recv (List.replicate 512 0), .recv []]

/-- Ten bursts of 512 bytes, of which one byte stays behind each time. -/
def tenBursts : List CapOp :=
  burst512 ++ .consume 511 :: (List.replicate 9 (burst512 ++ [.consume 512])).flatten

/-- **A buffer that never holds more than 513 bytes gets 8192 bytes of storage.** -/
theorem not_cap_bounded :
    ¬ ∀ (M exp : Nat) (ops : List CapOp),
      Exec.Along capStep (fun _ _ x' => x'.size ≤ M) (Buffer.ofExp exp) ops →
      Exec.Along capStep (fun _ _ x' => x'.cap ≤ 4 * (M + exp) + 2) (Buffer.ofExp exp) ops := by
  intro hall
  have hsize : Exec.Along capStep (fun _ _ x' => x'.size ≤ 513) (Buffer.ofExp 512) tenBursts := by
    decide +kernel
  have hgrown : ¬ Exec.Along capStep (fun _ _ x' => x'.cap ≤ 4 * (513 + 512) + 2)
      (Buffer.ofExp 512) tenBursts := by
    decide +kernel
  exact hgrown (hall 513 512 tenBursts hsize)

/-! ### No bound at all -/

/-- A run with never more than `M` bytes in the buffer leads from `x` to one with
a single byte in it and a storage of at least `n` bytes. -/
def Grows (M : Nat) (x : Buffer) (n : Nat) : Prop :=
  ∃ ops y, Exec.exec capStep x ops = some y ∧
    Exec.Along capStep (fun _ _ z => z.size ≤ M) x ops ∧
    y.Valid ∧ y.size = 1 ∧ y.exp = x.exp ∧ n ≤ y.cap

namespace Grows

variable {n : Nat}

theorem done (hv : x.Valid) (hsize : x.size = 1) (hn : n ≤ x.cap) : Grows M x n :=
  ⟨[], x, rfl, trivial, hv, hsize, rfl, hn⟩

theorem step (hstep : capStep x op = some x') (hv : x.Valid) (hM : x'.size ≤ M)
    (h : Grows M x' n) : Grows M x n := by
  obtain ⟨ops, y, hrun, halong, hvalid, hsize, hexp, hn⟩ := h
  refine ⟨op :: ops, y, ?_, ?_, hvalid, hsize, hexp.trans (valid_of_capStep hstep hv).2, hn⟩
  · rw [Exec.exec_cons, hstep]
    exact hrun
  · intro z hz
    obtain rfl := Option.some.inj (hstep.symm.trans hz)
    exact ⟨hM, halong⟩

theorem bind {m : Nat} (h : Grows M x m)
    (hnext : ∀ y, y.Valid → y.size = 1 → y.exp = x.exp → m ≤ y.cap → Grows M y n) :
    Grows M x n := by
  obtain ⟨ops, y, hrun, halong, hvalid, hsize, hexp, hm⟩ := h
  obtain ⟨ops', y', hrun', halong', hvalid', hsize', hexp', hn⟩ := hnext y hvalid hsize hexp hm
  refine ⟨ops ++ ops', y', ?_, halong.append hrun halong', hvalid', hsize', hexp'.trans hexp, hn⟩
  rw [Exec.exec_append, hrun]
  exact hrun'

end Grows

theorem capStep_recv {p : List UInt8} (hp : p.length ≤ x.makeRoom.space) :
    capStep x (.recv p) = some ((x.makeRoom.writeEnd p).addSize p.length) := by
  simp only [capStep]
  rw [if_pos hp]

theorem size_recv (hv : x.Valid) {p : List UInt8} (hp : p.length ≤ x.makeRoom.space) :
    ((x.makeRoom.writeEnd p).addSize p.length).size = x.size + p.length := by
  rw [← (hv.makeRoom.1.fill hp).1.content_length, (hv.makeRoom.1.fill hp).2, List.length_append,
    hv.makeRoom.2, hv.content_length]

/-- With fewer than `exp_` bytes free, `makeRoom()` doubles the storage, whatever
`recv` finds. -/
theorem grows_of_full (hv : x.Valid) (hsize : x.size = 1) (hroom : x.space < x.exp) :
    Grows (x.exp + 1) x (2 * x.cap) := by
  have hfit : ([] : List UInt8).length ≤ x.makeRoom.space := Nat.zero_le _
  have hstep := capStep_recv hfit
  have hsize' := (size_recv hv hfit).trans hsize
  refine .step hstep hv ?_ (.done (valid_of_capStep hstep hv).1 hsize' ?_)
  · rw [hsize']
    exact Nat.succ_le_succ (Nat.zero_le _)
  · show 2 * x.cap ≤ x.makeRoom.cap
    rw [Buffer.cap_makeRoom, if_pos hroom]
    omega

/-- A burst of `exp_` bytes is received and consumed, and the byte in front of it
moves on. -/
theorem grows_of_burst {n : Nat} (hv : x.Valid) (hsize : x.size = 1) (hroom : x.exp ≤ x.space)
    (h : ∀ y, y.Valid → y.size = 1 → y.exp = x.exp → y.cap = x.cap →
      y.space = x.space - x.exp → Grows (x.exp + 1) y n) : Grows (x.exp + 1) x n := by
  have hsame : x.makeRoom = x := if_neg (Nat.not_lt.mpr hroom)
  have hlen : (List.replicate x.exp (0 : UInt8)).length = x.exp := List.length_replicate
  have hfit : (List.replicate x.exp (0 : UInt8)).length ≤ x.makeRoom.space := by
    rw [hsame, hlen]
    exact hroom
  obtain ⟨y, hy⟩ : ∃ y, y = (x.makeRoom.writeEnd (List.replicate x.exp 0)).addSize
    (List.replicate x.exp (0 : UInt8)).length := ⟨_, rfl⟩
  have hrecv : capStep x (.recv (List.replicate x.exp 0)) = some y := by
    rw [hy]
    exact capStep_recv hfit
  have hysize : y.size = x.exp + 1 := by
    rw [hy, size_recv hv hfit, hsize, hlen, Nat.add_comm]
  obtain ⟨hyv, hyexp⟩ := valid_of_capStep hrecv hv
  have hye : y.e = x.e + x.exp ∧ y.b = x.b ∧ y.cap = x.cap := by
    rw [hy, hsame, hlen]
    exact ⟨rfl, rfl, rfl⟩
  -- the byte that stays behind keeps the storage
  have hconsume : capStep y (.consume x.exp) = some { y with b := y.b + x.exp } := by
    simp only [capStep]
    rw [if_pos (by omega), Buffer.consume, if_neg]
    simp only [Buffer.size] at hysize
    show y.e ≠ y.b + x.exp
    omega
  have hzsize : Buffer.size { y with b := y.b + x.exp } = 1 := by
    simp only [Buffer.size] at hysize ⊢
    omega
  have hzv := (valid_of_capStep hconsume hyv).1
  refine .step hrecv hv (Nat.le_of_eq hysize)
    (.step hconsume hyv ?_ (h _ hzv hzsize hyexp hye.2.2 ?_))
  · rw [hzsize]
    exact Nat.succ_le_succ (Nat.zero_le _)
  · simp only [Buffer.space, hye.1, hye.2.2]
    omega

theorem grows_double (n : Nat) : ∀ x : Buffer, x.space = n → x.Valid → x.size = 1 →
    0 < x.exp → Grows (x.exp + 1) x (2 * x.cap) := by
  induction n using Nat.strongRecOn with
  | ind n ih =>
      intro x hn hv hsize hexp
      by_cases hroom : x.space < x.exp
      · exact grows_of_full hv hsize hroom
      · have hroom : x.exp ≤ x.space := Nat.not_lt.mp hroom
        apply grows_of_burst hv hsize hroom
        intro y hyv hysize hyexp hycap hyspace
        have hdouble := ih y.space (by omega) y rfl hyv hysize (by omega)
        rw [hyexp, hycap] at hdouble
        exact hdouble

/-- **The storage grows without limit.**  Whatever positive `exp_` is, traffic
that never has more than `exp_ + 1` bytes in the buffer gets the storage beyond
any size. -/
theorem cap_unbounded (hexp : 0 < exp) (n : Nat) :
    ∃ ops y, Exec.exec capStep (Buffer.ofExp exp) ops = some y ∧
      Exec.Along capStep (fun _ _ z => z.size ≤ exp + 1) (Buffer.ofExp exp) ops ∧ n ≤ y.cap := by
  have hv := Buffer.valid_ofExp exp
  -- the first byte arrives, and never leaves
  have hfit : [(0 : UInt8)].length ≤ (Buffer.ofExp exp).makeRoom.space := by
    have hroom : (Buffer.ofExp exp).makeRoom = (Buffer.ofExp exp).expand 0 := if_pos hexp
    rw [hroom]
    show 1 ≤ max exp (max (2 * 0) (0 - 0 + 0)) - (0 - 0)
    omega
  have hstep := capStep_recv hfit
  have hsize := size_recv hv hfit
  obtain ⟨hv', hexp'⟩ := valid_of_capStep hstep hv
  have hgrows : ∀ k, Grows (exp + 1) (Buffer.ofExp exp) (2 ^ k) := by
    intro k
    induction k with
    | zero =>
        refine .step hstep hv ?_ (.done hv' hsize ?_)
        · rw [hsize]
          show 0 + 1 ≤ exp + 1
          omega
        · have h1 := hv'.b_le_e
          have h2 := hv'.e_le_cap
          have h3 : Buffer.size _ = 1 := hsize
          simp only [Buffer.size] at h3
          omega
    | succ k ih =>
        refine ih.bind fun y hyv hysize hyexp hycap => ?_
        have hyexp : y.exp = exp := hyexp
        have hdouble := grows_double y.space y rfl hyv hysize (by omega)
        rw [hyexp] at hdouble
        refine hdouble.bind fun z hzv hzsize _ hzcap => .done hzv hzsize ?_
        rw [Nat.pow_succ]
        omega
  obtain ⟨ops, y, hrun, halong, -, -, -, hn⟩ := hgrows n
  exact ⟨ops, y, hrun, halong, Nat.le_trans (Nat.le_of_lt Nat.lt_two_pow_self) hn⟩

/-- With the default size, more storage than there are addresses, for a few bytes. -/
theorem cap_unbounded_default :
    ∃ ops y, Exec.exec capStep (Buffer.ofExp Buffer.new.exp) ops = some y ∧
      Exec.Along capStep (fun _ _ z => z.size ≤ Buffer.new.exp + 1)
        (Buffer.ofExp Buffer.new.exp) ops ∧ UInt64.size ≤ y.cap :=
  cap_unbounded (by decide) _

end Libet
