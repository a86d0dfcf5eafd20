/-
Libet/ThreadPool.lean

`ThreadPool` (`Threads.h`, `Threads.cpp`).

A `ThreadPool` is one `SafeQueue` with the threads of `QueueWait` around it: each of
its own threads loops on `pop_wait` until the queue has exited, and whoever calls
`addTask` calls `push`.

The tasks are taken in the order in which `addTask` accepted them (`QueueLog`).  Once
`exit` has set `exit_`, every step of a thread brings the pool closer to its end
(`WaitState.rank`), and as long as there is somebody left who can go on without being
woken for no reason, somebody does: so `join` returns (`shutsDown_of_run`).  A thread
that is inside `pop_wait` by then may take one task more; what is behind that in the
queue is never run.
-/
import Libet.CInt
import Libet.QueueWait
import Mathlib.Algebra.Group.Action.Defs
import Mathlib.Algebra.Order.BigOperators.Group.Finset
import Mathlib.Data.Fintype.Card

namespace Libet

open WaitState

/-- `ThreadPool::ThreadPool` with `n` threads. -/
def ThreadPool.new (p : Platform) (n : Nat) (P Task : Type*) (maxWaiting : Int) :
    WaitState n P Task :=
  WaitState.init (toSize p maxWaiting)

variable {n : Nat} {P α : Type*} {s s' : WaitState n P α} {i : Fin n} {v : α}

/-! ### What is observed -/

/-- What happens to a task. -/
inductive QueueEvent (n : Nat) (P α : Type*)
  /-- the `push` of `p` has taken it -/
  | accepted (p : P) (v : α)
  /-- and here it has not -/
  | refused (p : P) (v : α)
  /-- thread `i` has popped it -/
  | taken (i : Fin n) (v : α)
  deriving DecidableEq, Repr

namespace QueueEvent

def acceptedOf : QueueEvent n P α → Option α
  | .accepted _ v => some v
  | _ => none

def takenOf : QueueEvent n P α → Option α
  | .taken _ v => some v
  | _ => none

def takenBy (i : Fin n) : QueueEvent n P α → Option α
  | .taken j v => if j = i then some v else none
  | _ => none

end QueueEvent

/-- The events of one step. -/
def queueEvents (s : WaitState n P α) : WaitLabel n P α → List (QueueEvent n P α)
  | .consume i =>
      match s.consumers i with
      | .popping => (s.queue.popWait.1.map (.taken i)).toList
      | _ => []
  | .produce p =>
      match s.producers p with
      | .pushing v => if (s.queue.push v).1 then [.accepted p v] else [.refused p v]
      | _ => []
  | _ => []

/-! ### How far it is to the end -/

/-- The consumer is inside `pop_wait`. -/
def ConsumerPoint.inPopWait : ConsumerPoint α → Bool
  | .top | .running _ | .finished => false
  | _ => true

/-- How many steps the consumer has at most before it, once `exit_` is set. -/
def ConsumerPoint.rank : ConsumerPoint α → Nat
  | .finished => 0
  | .top => 1
  | .running _ => 2
  | .popping => 3
  | .entered | .testing => 4
  | .locking | .woken _ => 5
  | .blocked => 6
  | .waiting => 7

/-- How many steps the producer has at most before it in its `push`. -/
def ProducerPoint.rank : ProducerPoint α → Nat
  | .outside _ => 0
  | .notifying => 1
  | .pushing _ => 2
  | .locking _ => 3

/-- How many steps of `exit` are left. -/
def ExitPoint.rank : ExitPoint → Nat
  | .done => 0
  | .notified => 1
  | .locked => 2
  | .stored => 3
  | .before => 4

/-- How many steps there are at most if nobody calls `push` again. -/
def WaitState.rank [Fintype P] (s : WaitState n P α) : Nat :=
  ∑ i, (s.consumers i).rank + ∑ p, (s.producers p).rank + s.exiter.rank

theorem ConsumerPoint.inPopWait_iff {c : ConsumerPoint α} : c.inPopWait = true ↔ 3 ≤ c.rank := by
  cases c <;> simp [ConsumerPoint.inPopWait, ConsumerPoint.rank]

/-- The step begins a new `push`. -/
def WaitLabel.isCall : WaitLabel n P α → Bool
  | .call .. => true
  | _ => false

/-- The step wakes a consumer without a notification. -/
def WaitLabel.isWake : WaitLabel n P α → Bool
  | .wake .. => true
  | _ => false

/-- Nobody can go on, short of a new `push` and of a wakeup without a notification. -/
def WaitState.Stuck [DecidableEq P] (s : WaitState n P α) : Prop :=
  ∀ a, a.isCall = false → a.isWake = false → waitStep s a = none

/-! ### What a step does -/

/-- A thread leaves the mutex alone, takes it while it is free, or gives it back; `b` and
`b'` say whether the thread is in a section before and behind the step. -/
def MovesMutex (x : Holder n P) (b b' : Bool) (m m' : Option (Holder n P)) : Prop :=
  m' = m ∧ b' = b ∨ m = none ∧ m' = some x ∧ b' = true ∨ b = true ∧ m' = none ∧ b' = false

/-- **What a consumer does.**  Once the queue has exited it gets closer to its end.  It
takes the first task, or leaves the queue alone. -/
theorem consumeStep_cases (hstep : consumeStep s i = some s') :
    ∃ c m q, s' = { s with queue := q, mutex := m }.setConsumer i c ∧
      MovesMutex (.consumer i) (s.consumers i).inSection c.inSection s.mutex m ∧
      (s.queue.exited = true → c.rank < (s.consumers i).rank) ∧
      (q = s.queue ∧ queueEvents s (.consume i) = [] ∨
        ∃ v rest, s.queue.items = v :: rest ∧ q = { s.queue with items := rest } ∧
          (s.consumers i).inPopWait = true ∧ c.inPopWait = false ∧
          queueEvents s (.consume i) = [.taken i v]) := by
  unfold consumeStep at hstep
  rw [queueEvents]
  split at hstep
  case h_1 hpoint =>
    cases hstep
    rw [hpoint]
    refine ⟨_, _, _, rfl, Or.inl ⟨rfl, ?_⟩, fun hexit => ?_, Or.inl ⟨rfl, rfl⟩⟩
    · split <;> rfl
    · rw [if_pos hexit]
      exact Nat.one_pos
  case h_2 hpoint =>
    split at hstep <;> cases hstep
    rename_i hfree
    rw [hpoint]
    exact ⟨_, _, _, rfl, Or.inr (Or.inl ⟨hfree, rfl, rfl⟩),
      fun _ => Nat.lt_succ_self 4, Or.inl ⟨rfl, rfl⟩⟩
  case h_3 hpoint =>
    cases hstep
    rw [hpoint]
    refine ⟨_, _, _, rfl, Or.inl ⟨rfl, ?_⟩, fun hexit => ?_, Or.inl ⟨rfl, rfl⟩⟩
    · split <;> rfl
    · have hready : s.queue.Ready := Or.inl hexit
      rw [if_pos hready]
      exact Nat.lt_succ_self 3
  case h_4 hpoint =>
    cases hstep
    rw [hpoint]
    refine ⟨_, _, _, rfl, Or.inl ⟨rfl, ?_⟩, fun hexit => ?_, Or.inl ⟨rfl, rfl⟩⟩
    · split <;> rfl
    · have hready : s.queue.Ready := Or.inl hexit
      rw [if_pos hready]
      exact Nat.lt_succ_self 3
  case h_5 hpoint =>
    cases hstep
    rw [hpoint]
    exact ⟨_, _, _, rfl, Or.inr (Or.inr ⟨rfl, rfl, rfl⟩),
      fun _ => Nat.lt_succ_self 6, Or.inl ⟨rfl, rfl⟩⟩
  case h_6 => cases hstep
  case h_7 timedOut hpoint =>
    split at hstep <;> cases hstep
    rename_i hfree
    rw [hpoint]
    refine ⟨_, _, _, rfl, Or.inr (Or.inl ⟨hfree, rfl, ?_⟩), fun _ => ?_, Or.inl ⟨rfl, rfl⟩⟩
    · cases timedOut <;> rfl
    · cases timedOut with
      | false => exact Nat.lt_succ_self 4
      | true => exact show 3 < 5 by decide
  case h_8 hpoint =>
    rw [hpoint]
    rcases SafeQueue.popWait_cases (q := s.queue) with ⟨-, heq⟩ | ⟨v, rest, hitems, heq⟩
    · rw [heq] at hstep ⊢
      cases hstep
      exact ⟨_, _, _, rfl, Or.inr (Or.inr ⟨rfl, rfl, rfl⟩),
        fun _ => show 1 < 3 by decide, Or.inl ⟨rfl, rfl⟩⟩
    · rw [heq] at hstep ⊢
      cases hstep
      exact ⟨_, _, _, rfl, Or.inr (Or.inr ⟨rfl, rfl, rfl⟩),
        fun _ => Nat.lt_succ_self 2,
        Or.inr ⟨v, rest, hitems, rfl, rfl, rfl, rfl⟩⟩
  case h_9 hpoint =>
    cases hstep
    rw [hpoint]
    exact ⟨_, _, _, rfl, Or.inl ⟨rfl, rfl⟩, fun _ => Nat.lt_succ_self 1,
      Or.inl ⟨rfl, rfl⟩⟩
  case h_10 => cases hstep

section Producers

variable [DecidableEq P] {p : P}

/-- **What a producer does.**  It gets closer to the end of its `push`, and appends its
task or leaves the queue alone; a queue that has exited it leaves alone. -/
theorem produceStep_cases (hstep : produceStep s p = some s') :
    ∃ c m q, s' = { s with queue := q, mutex := m }.setProducer p c ∧
      MovesMutex (.producer p) (s.producers p).inSection c.inSection s.mutex m ∧
      c.rank < (s.producers p).rank ∧
      (q = s.queue ∧ (queueEvents s (.produce p) = [] ∨
          ∃ v, queueEvents s (.produce p) = [.refused p v]) ∨
        ∃ v, s.queue.exited = false ∧ q = { s.queue with items := s.queue.items ++ [v] } ∧
          queueEvents s (.produce p) = [.accepted p v]) := by
  unfold produceStep at hstep
  rw [queueEvents]
  split at hstep
  case h_1 hpoint =>
    split at hstep <;> cases hstep
    rename_i hfree
    rw [hpoint]
    exact ⟨_, _, _, rfl, Or.inr (Or.inl ⟨hfree, rfl, rfl⟩), Nat.lt_succ_self 2,
      Or.inl ⟨rfl, Or.inl rfl⟩⟩
  case h_2 v hpoint =>
    rw [hpoint]
    dsimp only
    by_cases hexit : s.queue.exited = true
    · have heq : s.queue.push v = (false, s.queue) := if_pos (Or.inl hexit)
      rw [heq] at hstep ⊢
      cases hstep
      exact ⟨_, _, _, rfl, Or.inr (Or.inr ⟨rfl, rfl, rfl⟩), show 0 < 2 by decide,
        Or.inl ⟨rfl, Or.inr ⟨v, rfl⟩⟩⟩
    · rcases SafeQueue.push_cases (q := s.queue) (v := v) with heq | heq
      · rw [heq] at hstep ⊢
        cases hstep
        exact ⟨_, _, _, rfl, Or.inr (Or.inr ⟨rfl, rfl, rfl⟩), show 0 < 2 by decide,
          Or.inl ⟨rfl, Or.inr ⟨v, rfl⟩⟩⟩
      · rw [heq] at hstep ⊢
        cases hstep
        exact ⟨_, _, _, rfl, Or.inr (Or.inr ⟨rfl, rfl, rfl⟩), Nat.lt_succ_self 1,
          Or.inr ⟨v, Bool.eq_false_of_not_eq_true hexit, rfl, rfl⟩⟩
  case h_3 => cases hstep

/-- **What a step is.** -/
theorem waitStep_cases {a : WaitLabel n P α} (hstep : waitStep s a = some s') :
    (∃ i, a = .consume i ∧ consumeStep s i = some s') ∨
      (∃ i b, a = .wake i b ∧ s.consumers i = .blocked ∧ s' = s.setConsumer i (.woken b)) ∨
      (∃ p v last, a = .call p v ∧ s.producers p = .outside last ∧
        s' = s.setProducer p (.locking v)) ∨
      (∃ p, a = .produce p ∧ produceStep s p = some s') ∨
      (∃ p i, a = .notifyOne p (some i) ∧ s.producers p = .notifying ∧ s.consumers i = .blocked ∧
        s' = (s.setProducer p (.outside (some true))).setConsumer i (.woken false)) ∨
      (∃ p, a = .notifyOne p none ∧ s.producers p = .notifying ∧
        s' = s.setProducer p (.outside (some true))) ∨
      (a = .exit ∧ exitStep s = some s') := by
  cases a with
  | consume i => exact Or.inl ⟨i, rfl, hstep⟩
  | wake i b =>
      simp only [waitStep] at hstep
      split at hstep <;> cases hstep
      rename_i hpoint
      exact Or.inr (Or.inl ⟨i, b, rfl, hpoint, rfl⟩)
  | call p v =>
      simp only [waitStep] at hstep
      split at hstep <;> cases hstep
      rename_i last hpoint
      exact Or.inr (Or.inr (Or.inl ⟨p, v, last, rfl, hpoint, rfl⟩))
  | produce p => exact Or.inr (Or.inr (Or.inr (Or.inl ⟨p, rfl, hstep⟩)))
  | notifyOne p i =>
      right; right; right; right
      cases i with
      | some i =>
          simp only [waitStep] at hstep
          split at hstep <;> cases hstep
          rename_i hp hi
          exact Or.inl ⟨p, i, rfl, hp, hi, rfl⟩
      | none =>
          simp only [waitStep] at hstep
          split at hstep
          · split at hstep <;> cases hstep
            rename_i hp _
            exact Or.inr (Or.inl ⟨p, rfl, hp, rfl⟩)
          · cases hstep
  | exit => exact Or.inr (Or.inr (Or.inr (Or.inr (Or.inr (Or.inr ⟨rfl, hstep⟩)))))

omit [DecidableEq P] in
/-- What `exit` does: its next point, the mutex, and what it tells the others. -/
theorem exitStep_cases (hstep : exitStep s = some s') :
    s' = { s with queue := s.queue.exit, exiter := .stored } ∧ s.exiter = .before ∨
      s' = { s with mutex := some .exiter, exiter := .locked } ∧ s.exiter = .stored ∨
      s' = { s.notifyAll with exiter := .notified } ∧ s.exiter = .locked ∨
      s' = { s with mutex := none, exiter := .done } ∧ s.exiter = .notified := by
  unfold exitStep at hstep
  split at hstep
  case h_1 hpoint =>
    cases hstep
    exact Or.inl ⟨rfl, hpoint⟩
  case h_2 hpoint =>
    split at hstep <;> cases hstep
    exact Or.inr (Or.inl ⟨rfl, hpoint⟩)
  case h_3 hpoint =>
    cases hstep
    exact Or.inr (Or.inr (Or.inl ⟨rfl, hpoint⟩))
  case h_4 hpoint =>
    cases hstep
    exact Or.inr (Or.inr (Or.inr ⟨rfl, hpoint⟩))
  case h_5 => cases hstep

/-! ### The order of the tasks -/

/-- The tasks that were accepted, in order. -/
def acceptedItems (l : List (QueueEvent n P α)) : List α := l.filterMap QueueEvent.acceptedOf

/-- The tasks that were taken, in order. -/
def takenItems (l : List (QueueEvent n P α)) : List α := l.filterMap QueueEvent.takenOf

/-- The tasks that thread `i` has taken, in order. -/
def itemsTakenBy (i : Fin n) (l : List (QueueEvent n P α)) : List α :=
  l.filterMap (QueueEvent.takenBy i)

/-- **What a step does to the queue and tells of it.** -/
theorem queue_of_step {a : WaitLabel n P α} (hstep : waitStep s a = some s') :
    (s'.queue.items = s.queue.items ∧
        (queueEvents s a = [] ∨ ∃ p v, queueEvents s a = [.refused p v])) ∨
      (∃ p v, s.queue.exited = false ∧ s'.queue.items = s.queue.items ++ [v] ∧
        queueEvents s a = [.accepted p v]) ∨
      ∃ i v, s.queue.items = v :: s'.queue.items ∧ queueEvents s a = [.taken i v] ∧
        (s.consumers i).inPopWait = true ∧ (s'.consumers i).inPopWait = false := by
  rcases waitStep_cases hstep with ⟨i, rfl, hstep⟩ | ⟨i, b, rfl, -, rfl⟩ | ⟨p, v, -, rfl, -, rfl⟩ |
    ⟨p, rfl, hstep⟩ | ⟨p, i, rfl, -, -, rfl⟩ | ⟨p, rfl, -, rfl⟩ | ⟨rfl, hstep⟩
  · obtain ⟨c, m, q, rfl, -, -, ⟨rfl, hev⟩ | ⟨v, rest, hitems, rfl, hpop, hout, hev⟩⟩ :=
      consumeStep_cases hstep
    · exact Or.inl ⟨rfl, Or.inl hev⟩
    · refine Or.inr (Or.inr ⟨i, v, hitems, hev, hpop, ?_⟩)
      rw [setConsumer_self]
      exact hout
  · exact Or.inl ⟨rfl, Or.inl rfl⟩
  · exact Or.inl ⟨rfl, Or.inl rfl⟩
  · obtain ⟨c, m, q, rfl, -, -, ⟨rfl, hev | ⟨v, hev⟩⟩ | ⟨v, hexit, rfl, hev⟩⟩ :=
      produceStep_cases hstep
    · exact Or.inl ⟨rfl, Or.inl hev⟩
    · exact Or.inl ⟨rfl, Or.inr ⟨p, v, hev⟩⟩
    · exact Or.inr (Or.inl ⟨p, v, hexit, rfl, hev⟩)
  · exact Or.inl ⟨rfl, Or.inl rfl⟩
  · exact Or.inl ⟨rfl, Or.inl rfl⟩
  · rcases exitStep_cases hstep with ⟨rfl, -⟩ | ⟨rfl, -⟩ | ⟨rfl, -⟩ | ⟨rfl, -⟩ <;>
      exact Or.inl ⟨rfl, Or.inl rfl⟩

/-- What was accepted has been taken, in order, or is in the queue. -/
def QueueLog (s : WaitState n P α) (l : List (QueueEvent n P α)) : Prop :=
  acceptedItems l = takenItems l ++ s.queue.items

theorem QueueLog.step {a : WaitLabel n P α} {l : List (QueueEvent n P α)}
    (hstep : waitStep s a = some s') (h : QueueLog s l) : QueueLog s' (l ++ queueEvents s a) := by
  rw [QueueLog, acceptedItems, takenItems, List.filterMap_append, List.filterMap_append]
  rw [QueueLog, acceptedItems, takenItems] at h
  rcases queue_of_step hstep with ⟨hitems, hev | ⟨p, v, hev⟩⟩ | ⟨p, v, -, hitems, hev⟩ |
    ⟨i, v, hitems, hev, -, -⟩
  · rw [hev, hitems, h]
    simp
  · rw [hev, hitems, h]
    simp [List.filterMap_cons, QueueEvent.acceptedOf, QueueEvent.takenOf]
  · rw [hev, hitems, h]
    simp [QueueEvent.acceptedOf, QueueEvent.takenOf]
  · rw [hev, h, hitems]
    simp [QueueEvent.acceptedOf, QueueEvent.takenOf]

theorem queueLog_of_run {capacity : Nat} {as : List (WaitLabel n P α)}
    (hrun : Exec.exec waitStep (init capacity) as = some s) :
    QueueLog s (Exec.trace waitStep queueEvents (init capacity) as) :=
  Exec.history (fun _ _ _ _ hstep h => QueueLog.step hstep h) hrun rfl

/-! ### After `exit` -/

/-- `exit_` stays set. -/
theorem exited_of_waitStep {a : WaitLabel n P α} (hstep : waitStep s a = some s')
    (hexit : s.queue.exited = true) : s'.queue.exited = true := by
  rcases waitStep_cases hstep with ⟨i, rfl, hstep⟩ | ⟨i, b, rfl, -, rfl⟩ | ⟨p, v, -, rfl, -, rfl⟩ |
    ⟨p, rfl, hstep⟩ | ⟨p, i, rfl, -, -, rfl⟩ | ⟨p, rfl, -, rfl⟩ | ⟨rfl, hstep⟩
  · obtain ⟨c, m, q, rfl, -, -, ⟨rfl, -⟩ | ⟨v, rest, -, rfl, -⟩⟩ := consumeStep_cases hstep <;>
      exact hexit
  · exact hexit
  · exact hexit
  · obtain ⟨c, m, q, rfl, -, -, ⟨rfl, -⟩ | ⟨v, -, rfl, -⟩⟩ := produceStep_cases hstep <;>
      exact hexit
  · exact hexit
  · exact hexit
  · rcases exitStep_cases hstep with ⟨rfl, -⟩ | ⟨rfl, -⟩ | ⟨rfl, -⟩ | ⟨rfl, -⟩
    · rfl
    all_goals exact hexit

omit [DecidableEq P] in
theorem rank_setConsumer {c : ConsumerPoint α} (hc : c.rank ≤ (s.consumers i).rank) (j : Fin n) :
    ((s.setConsumer i c).consumers j).rank ≤ (s.consumers j).rank := by
  by_cases hji : j = i
  · subst hji
    rw [setConsumer_self]
    exact hc
  · rw [setConsumer_of_ne _ hji]

omit [DecidableEq P] in
theorem rank_notifyAll (s : WaitState n P α) (j : Fin n) :
    (s.notifyAll.consumers j).rank ≤ (s.consumers j).rank := by
  rcases s.notifyAll_consumers j with ⟨hb, heq⟩ | ⟨-, heq⟩
  · rw [heq, hb]
    exact Nat.le_succ 5
  · rw [heq]

/-- Once `exit_` is set no consumer goes back. -/
theorem rank_consumers_of_waitStep {a : WaitLabel n P α} (hstep : waitStep s a = some s')
    (hexit : s.queue.exited = true) (j : Fin n) :
    (s'.consumers j).rank ≤ (s.consumers j).rank := by
  rcases waitStep_cases hstep with ⟨i, rfl, hstep⟩ | ⟨i, b, rfl, hb, rfl⟩ | ⟨p, v, -, rfl, -, rfl⟩ |
    ⟨p, rfl, hstep⟩ | ⟨p, i, rfl, -, hb, rfl⟩ | ⟨p, rfl, -, rfl⟩ | ⟨rfl, hstep⟩
  · obtain ⟨c, m, q, rfl, -, hlt, -⟩ := consumeStep_cases hstep
    exact rank_setConsumer (s := { s with queue := q, mutex := m }) (hlt hexit).le j
  · refine rank_setConsumer ?_ j
    rw [hb]
    exact Nat.le_succ 5
  · exact Nat.le_refl _
  · obtain ⟨c, m, q, rfl, -⟩ := produceStep_cases hstep
    exact Nat.le_refl _
  · refine rank_setConsumer (s := s.setProducer p (.outside (some true))) ?_ j
    show _ ≤ (s.consumers i).rank
    rw [hb]
    exact Nat.le_succ 5
  · exact Nat.le_refl _
  · rcases exitStep_cases hstep with ⟨rfl, -⟩ | ⟨rfl, -⟩ | ⟨rfl, -⟩ | ⟨rfl, -⟩
    · exact Nat.le_refl _
    · exact Nat.le_refl _
    · exact rank_notifyAll s j
    · exact Nat.le_refl _

section Rank

variable [Fintype P]

omit [DecidableEq P] in
theorem rank_setConsumer_lt {q : SafeQueue α} {m : Option (Holder n P)} {c : ConsumerPoint α}
    (hc : c.rank < (s.consumers i).rank) :
    ({ s with queue := q, mutex := m }.setConsumer i c).rank < s.rank := by
  have hsum : ∑ j, (({ s with queue := q, mutex := m }.setConsumer i c).consumers j).rank <
      ∑ j, (s.consumers j).rank := by
    refine Finset.sum_lt_sum (fun j _ => ?_) ⟨i, Finset.mem_univ i, ?_⟩
    · exact rank_setConsumer (s := { s with queue := q, mutex := m }) hc.le j
    · rw [setConsumer_self]
      exact hc
  exact Nat.add_lt_add_right (Nat.add_lt_add_right hsum _) _

theorem rank_setProducer_lt {p : P} {q : SafeQueue α} {m : Option (Holder n P)}
    {c : ProducerPoint α} (hc : c.rank < (s.producers p).rank) :
    ({ s with queue := q, mutex := m }.setProducer p c).rank < s.rank := by
  have hsum : ∑ p', (({ s with queue := q, mutex := m }.setProducer p c).producers p').rank <
      ∑ p', (s.producers p').rank := by
    refine Finset.sum_lt_sum (fun p' _ => ?_) ⟨p, Finset.mem_univ p, ?_⟩
    · by_cases heq : p' = p
      · subst heq
        rw [setProducer_self]
        exact hc.le
      · rw [setProducer_of_ne _ heq]
    · rw [setProducer_self]
      exact hc
  exact Nat.add_lt_add_right (Nat.add_lt_add_left hsum _) _

/-- **Every step is one towards the end**, once `exit_` is set, except the beginning of
a new `push`. -/
theorem rank_of_waitStep {a : WaitLabel n P α} (hstep : waitStep s a = some s')
    (hexit : s.queue.exited = true) (hcall : a.isCall = false) : s'.rank < s.rank := by
  rcases waitStep_cases hstep with ⟨i, rfl, hstep⟩ | ⟨i, b, rfl, hb, rfl⟩ | ⟨p, v, -, rfl, -, -⟩ |
    ⟨p, rfl, hstep⟩ | ⟨p, i, rfl, hp, hb, rfl⟩ | ⟨p, rfl, hp, rfl⟩ | ⟨rfl, hstep⟩
  · obtain ⟨c, m, q, rfl, -, hlt, -⟩ := consumeStep_cases hstep
    exact rank_setConsumer_lt (hlt hexit)
  · apply rank_setConsumer_lt (q := s.queue) (m := s.mutex)
    rw [hb]
    exact Nat.lt_succ_self 5
  · cases hcall
  · obtain ⟨c, m, q, rfl, -, hlt, -⟩ := produceStep_cases hstep
    exact rank_setProducer_lt hlt
  · have hfirst : (s.setProducer p (.outside (some true))).rank < s.rank := by
      apply rank_setProducer_lt (q := s.queue) (m := s.mutex)
      rw [hp]
      exact Nat.one_pos
    have hsecond : (WaitState.rank ((s.setProducer p (.outside (some true))).setConsumer i
        (.woken false))) < (s.setProducer p (.outside (some true))).rank := by
      apply rank_setConsumer_lt (s := s.setProducer p (.outside (some true))) (q := s.queue)
        (m := s.mutex)
      show _ < (s.consumers i).rank
      rw [hb]
      exact Nat.lt_succ_self 5
    exact Nat.lt_trans hsecond hfirst
  · apply rank_setProducer_lt (q := s.queue) (m := s.mutex)
    rw [hp]
    exact Nat.one_pos
  · have hsum : ∑ j, (s.notifyAll.consumers j).rank ≤ ∑ j, (s.consumers j).rank :=
      Finset.sum_le_sum fun j _ => rank_notifyAll s j
    rcases exitStep_cases hstep with ⟨rfl, hx⟩ | ⟨rfl, hx⟩ | ⟨rfl, hx⟩ | ⟨rfl, hx⟩
    · simp [WaitState.rank, hx, ExitPoint.rank]
    · simp [WaitState.rank, hx, ExitPoint.rank]
    · have hlt : ExitPoint.notified.rank < s.exiter.rank := by
        rw [hx]
        exact Nat.lt_succ_self 1
      exact Nat.add_lt_add_of_le_of_lt (Nat.add_le_add_right hsum _) hlt
    · simp [WaitState.rank, hx, ExitPoint.rank]

omit [DecidableEq P] in
/-- No thread has more than seven steps before it, no `push` more than three. -/
theorem rank_le (hexit : s.exiter ≠ .before) : s.rank ≤ 7 * n + 3 * Fintype.card P + 3 := by
  have hcons : ∑ j, (s.consumers j).rank ≤ Finset.card (Finset.univ : Finset (Fin n)) • 7 := by
    refine Finset.sum_le_card_nsmul _ _ _ fun j _ => ?_
    cases s.consumers j <;> simp [ConsumerPoint.rank]
  have hprod : ∑ p, (s.producers p).rank ≤ Finset.card (Finset.univ : Finset P) • 3 := by
    refine Finset.sum_le_card_nsmul _ _ _ fun p _ => ?_
    cases s.producers p <;> simp [ProducerPoint.rank]
  have hx : s.exiter.rank ≤ 3 := by
    cases hpoint : s.exiter with
    | before => exact absurd hpoint hexit
    | stored | locked | notified | done => simp [ExitPoint.rank]
  rw [Finset.card_univ, Fintype.card_fin, smul_eq_mul] at hcons
  rw [Finset.card_univ, smul_eq_mul] at hprod
  rw [WaitState.rank]
  omega

end Rank

/-! ### Who has the mutex -/

omit [DecidableEq P] in
theorem MovesMutex.holder {x : Holder n P} {b b' : Bool} {m m' : Option (Holder n P)}
    (h : MovesMutex x b b' m m') (hheld : m = some x → b = true) (hx : m' = some x) :
    b' = true := by
  rcases h with ⟨rfl, rfl⟩ | ⟨-, -, htrue⟩ | ⟨-, hnone, -⟩
  · exact hheld hx
  · exact htrue
  · cases hnone.symm.trans hx

omit [DecidableEq P] in
/-- Whoever else has the mutex behind the step has had it before. -/
theorem MovesMutex.other {x y : Holder n P} {b b' : Bool} {m m' : Option (Holder n P)}
    (h : MovesMutex x b b' m m') (hne : y ≠ x) (hy : m' = some y) : m = some y := by
  rcases h with ⟨rfl, -⟩ | ⟨-, hsome, -⟩ | ⟨-, hnone, -⟩
  · exact hy
  · exact absurd (Option.some.inj (hy.symm.trans hsome)) hne
  · cases hnone.symm.trans hy

/-- Whoever has the mutex is in a section. -/
structure WaitState.Held (s : WaitState n P α) : Prop where
  consumer : ∀ i, s.mutex = some (.consumer i) → (s.consumers i).inSection = true
  producer : ∀ p, s.mutex = some (.producer p) → (s.producers p).inSection = true
  exiter : s.mutex = some .exiter → s.exiter.inSection = true

namespace WaitState.Held

omit [DecidableEq P] in
theorem setConsumer (h : s.Held) {c : ConsumerPoint α} {m : Option (Holder n P)}
    {q : SafeQueue α}
    (hm : MovesMutex (.consumer i) (s.consumers i).inSection c.inSection s.mutex m) :
    ({ s with queue := q, mutex := m }.setConsumer i c).Held := by
  constructor
  case consumer =>
    intro j hj
    by_cases hji : j = i
    · subst hji
      rw [setConsumer_self]
      exact hm.holder (h.consumer j) hj
    · rw [setConsumer_of_ne _ hji]
      exact h.consumer j (hm.other (fun heq => hji (Holder.consumer.inj heq)) hj)
  case producer => exact fun p hp => h.producer p (hm.other (by simp) hp)
  case exiter => exact fun hx => h.exiter (hm.other (by simp) hx)

theorem setProducer (h : s.Held) {p : P} {c : ProducerPoint α} {m : Option (Holder n P)}
    {q : SafeQueue α}
    (hm : MovesMutex (.producer p) (s.producers p).inSection c.inSection s.mutex m) :
    ({ s with queue := q, mutex := m }.setProducer p c).Held := by
  constructor
  case consumer => exact fun i hi => h.consumer i (hm.other (by simp) hi)
  case producer =>
    intro p' hp'
    by_cases heq : p' = p
    · subst heq
      rw [setProducer_self]
      exact hm.holder (h.producer p') hp'
    · rw [setProducer_of_ne _ heq]
      exact h.producer p' (hm.other (fun hx => heq (Holder.producer.inj hx)) hp')
  case exiter => exact fun hx => h.exiter (hm.other (by simp) hx)

theorem step {a : WaitLabel n P α} (h : s.Held) (hstep : waitStep s a = some s') : s'.Held := by
  rcases waitStep_cases hstep with ⟨i, rfl, hstep⟩ | ⟨i, b, rfl, hb, rfl⟩ |
    ⟨p, v, last, rfl, hp, rfl⟩ | ⟨p, rfl, hstep⟩ | ⟨p, i, rfl, hp, hb, rfl⟩ | ⟨p, rfl, hp, rfl⟩ |
    ⟨rfl, hstep⟩
  · obtain ⟨c, m, q, rfl, hm, -⟩ := consumeStep_cases hstep
    exact h.setConsumer hm
  · refine h.setConsumer (q := s.queue) (m := s.mutex) (Or.inl ⟨rfl, ?_⟩)
    rw [hb]
    rfl
  · refine h.setProducer (q := s.queue) (m := s.mutex) (Or.inl ⟨rfl, ?_⟩)
    rw [hp]
    rfl
  · obtain ⟨c, m, q, rfl, hm, -⟩ := produceStep_cases hstep
    exact h.setProducer hm
  · have hfirst : (s.setProducer p (.outside (some true))).Held := by
      refine h.setProducer (q := s.queue) (m := s.mutex) (Or.inl ⟨rfl, ?_⟩)
      rw [hp]
      rfl
    refine hfirst.setConsumer (q := s.queue) (m := s.mutex) (Or.inl ⟨rfl, ?_⟩)
    show _ = (s.consumers i).inSection
    rw [hb]
    rfl
  · refine h.setProducer (q := s.queue) (m := s.mutex) (Or.inl ⟨rfl, ?_⟩)
    rw [hp]
    rfl
  · rcases exitStep_cases hstep with ⟨rfl, hx⟩ | ⟨rfl, hx⟩ | ⟨rfl, hx⟩ | ⟨rfl, hx⟩
    · refine ⟨h.consumer, h.producer, fun hm => ?_⟩
      have hsection := h.exiter hm
      rw [hx] at hsection
      cases hsection
    · exact ⟨fun i hi => (by cases hi), fun p hp => (by cases hp), fun _ => rfl⟩
    · refine ⟨fun i hi => ?_, h.producer, fun _ => rfl⟩
      have hsection := h.consumer i hi
      rcases s.notifyAll_consumers i with ⟨hb, -⟩ | ⟨-, heq⟩
      · rw [hb] at hsection
        cases hsection
      · rw [show s.notifyAll.consumers i = _ from heq]
        exact hsection
    · exact ⟨fun i hi => (by cases hi), fun p hp => (by cases hp), fun hm => (by cases hm)⟩

end WaitState.Held

theorem held_of_run {capacity : Nat} {as : List (WaitLabel n P α)}
    (hrun : Exec.exec waitStep (init capacity) as = some s) : s.Held :=
  Exec.invariant (I := WaitState.Held) (fun _ _ _ hstep h => h.step hstep) hrun
    ⟨fun _ h => (by cases h), fun _ h => (by cases h), fun h => (by cases h)⟩

/-! ### Somebody can go on -/

namespace WaitState.Stuck

omit [DecidableEq P] in
/-- A consumer with the mutex can go on. -/
theorem consumeStep_ne_none (h : (s.consumers i).inSection = true) : consumeStep s i ≠ none := by
  intro hnone
  rw [consumeStep] at hnone
  cases hpoint : s.consumers i with
  | top | locking | blocked | woken | running | finished =>
      rw [hpoint] at h
      cases h
  | entered | testing | waiting =>
      rw [hpoint] at hnone
      cases hnone
  | popping =>
      rw [hpoint] at hnone
      rcases SafeQueue.popWait_cases (q := s.queue) with ⟨-, heq⟩ | ⟨v, rest, -, heq⟩
      · rw [heq] at hnone
        cases hnone
      · rw [heq] at hnone
        cases hnone

/-- Nor is a producer with the mutex held up. -/
theorem produceStep_ne_none {p : P} (hpoint : s.producers p = .pushing v) :
    produceStep s p ≠ none := by
  intro hnone
  simp only [produceStep, hpoint] at hnone
  rcases SafeQueue.push_cases (q := s.queue) (v := v) with heq | heq
  · rw [heq] at hnone
    cases hnone
  · rw [heq] at hnone
    cases hnone

/-- If nobody can go on then nobody has the mutex. -/
theorem mutex_free (h : s.Stuck) (hheld : s.Held) : s.mutex = none := by
  cases hm : s.mutex with
  | none => rfl
  | some x =>
      cases x with
      | consumer i =>
          exact absurd (h (.consume i) rfl rfl) (consumeStep_ne_none (hheld.consumer i hm))
      | producer p =>
          have hsection := hheld.producer p hm
          cases hpoint : s.producers p with
          | outside | locking | notifying =>
              rw [hpoint] at hsection
              cases hsection
          | pushing v => exact absurd (h (.produce p) rfl rfl) (produceStep_ne_none hpoint)
      | exiter =>
          have hsection := hheld.exiter hm
          have hnone : exitStep s = none := h .exit rfl rfl
          rw [exitStep] at hnone
          cases hpoint : s.exiter with
          | before | stored | done =>
              rw [hpoint] at hsection
              cases hsection
          | locked | notified =>
              rw [hpoint] at hnone
              cases hnone

theorem exiter_done (h : s.Stuck) (hfree : s.mutex = none) : s.exiter = .done := by
  have hnone : exitStep s = none := h .exit rfl rfl
  rw [exitStep] at hnone
  cases hpoint : s.exiter with
  | done => rfl
  | before | locked | notified =>
      rw [hpoint] at hnone
      cases hnone
  | stored =>
      rw [hpoint, hfree] at hnone
      cases hnone

theorem producer_outside (h : s.Stuck) (hfree : s.mutex = none) (p : P) :
    ∃ last, s.producers p = .outside last := by
  have hnone : produceStep s p = none := h (.produce p) rfl rfl
  cases hpoint : s.producers p with
  | outside last => exact ⟨last, rfl⟩
  | locking v =>
      rw [produceStep, hpoint, hfree] at hnone
      cases hnone
  | pushing v => exact absurd hnone (produceStep_ne_none hpoint)
  | notifying =>
      -- it notifies one of those who are blocked, or nobody
      by_cases hall : ∀ i, (s.consumers i).isBlocked = false
      · have hnobody : waitStep s (.notifyOne p none) = none := h _ rfl rfl
        simp only [waitStep, hpoint] at hnobody
        rw [if_pos hall] at hnobody
        cases hnobody
      · obtain ⟨i, hi⟩ := not_forall.mp hall
        have hone : waitStep s (.notifyOne p (some i)) = none := h _ rfl rfl
        have hb : s.consumers i = .blocked := by
          cases hc : s.consumers i with
          | blocked => rfl
          | top | locking | entered | testing | waiting | woken | popping | running | finished =>
              rw [hc] at hi
              exact absurd rfl hi
        simp only [waitStep, hpoint, hb] at hone
        cases hone

/-- With `exit` over, the consumers have finished. -/
theorem consumer_finished (h : s.Stuck) (hfree : s.mutex = none) (hinv : s.Inv)
    (hdone : s.exiter = .done) (i : Fin n) : s.consumers i = .finished := by
  have hnone : consumeStep s i = none := h (.consume i) rfl rfl
  cases hpoint : s.consumers i with
  | finished => rfl
  | top | running =>
      rw [consumeStep, hpoint] at hnone
      cases hnone
  | locking | woken =>
      rw [consumeStep, hpoint, hfree] at hnone
      cases hnone
  | entered | testing | waiting | popping =>
      exact absurd hnone (consumeStep_ne_none (by rw [hpoint]; rfl))
  | blocked =>
      have hnotify := hinv.blocked i hpoint
      rw [hdone] at hnotify
      cases hnotify

end WaitState.Stuck

/-! ### The pool shuts down -/

/-- What the threads have taken since `s`, and may still take. -/
structure LastTasks (s t : WaitState n P α) (l : List (QueueEvent n P α)) : Prop where
  exited : t.queue.exited = true
  closed : acceptedItems l = []
  last : ∀ i, (itemsTakenBy i l).length + (t.consumers i).inPopWait.toNat ≤
    (s.consumers i).inPopWait.toNat

theorem LastTasks.step {t t' : WaitState n P α} {a : WaitLabel n P α}
    {l : List (QueueEvent n P α)} (h : LastTasks s t l) (hstep : waitStep t a = some t') :
    LastTasks s t' (l ++ queueEvents t a) := by
  have hback : ∀ i, (t'.consumers i).inPopWait.toNat ≤ (t.consumers i).inPopWait.toNat := by
    intro i
    apply Bool.toNat_le_toNat
    intro hin
    rw [ConsumerPoint.inPopWait_iff] at hin ⊢
    exact hin.trans (rank_consumers_of_waitStep hstep h.exited i)
  refine ⟨exited_of_waitStep hstep h.exited, ?_, fun i => ?_⟩
  · rw [acceptedItems, List.filterMap_append, ← acceptedItems, h.closed, List.nil_append]
    rcases queue_of_step hstep with ⟨-, hev | ⟨p, v, hev⟩⟩ | ⟨p, v, hopen, -⟩ | ⟨i, v, -, hev, -⟩
    · rw [hev]
      rfl
    · rw [hev]
      rfl
    · exact absurd h.exited (by rw [hopen]; exact Bool.false_ne_true)
    · rw [hev]
      rfl
  · have hlast := h.last i
    have hle := hback i
    rw [itemsTakenBy, List.filterMap_append, ← itemsTakenBy, List.length_append]
    rcases queue_of_step hstep with ⟨-, hev | ⟨p, v, hev⟩⟩ | ⟨p, v, hopen, -⟩ |
      ⟨j, v, -, hev, hpop, hout⟩
    · rw [hev, List.filterMap_nil, List.length_nil]
      omega
    · rw [hev]
      show _ + 0 + _ ≤ _
      omega
    · exact absurd h.exited (by rw [hopen]; exact Bool.false_ne_true)
    · rw [hev]
      by_cases hji : j = i
      · -- that was the last task of the thread
        subst hji
        have hone : (QueueEvent.taken j v : QueueEvent n P α).takenBy j = some v := if_pos rfl
        rw [hpop] at hlast
        rw [hout, List.filterMap_cons_some hone]
        exact hlast
      · have hnone : (QueueEvent.taken j v : QueueEvent n P α).takenBy i = none := if_neg hji
        rw [List.filterMap_cons_none hnone]
        show _ + 0 + _ ≤ _
        omega

/-- How a pool shuts down that has told its queue to exit: `s` is a state from then on,
with the events `l` behind it, and the steps `bs` with the events `l'` lead to `t`. -/
structure ShutsDown [Fintype P] (s : WaitState n P α) (l : List (QueueEvent n P α))
    (bs : List (WaitLabel n P α)) (t : WaitState n P α) (l' : List (QueueEvent n P α)) :
    Prop where
  /-- `addTask` takes nothing any more -/
  closed : acceptedItems l' = []
  /-- a thread takes at most one task more, and none if it is not inside `pop_wait` -/
  last : ∀ i, (itemsTakenBy i l').length ≤ (s.consumers i).inPopWait.toNat
  /-- what was accepted is taken in that order, and the rest stays in the queue -/
  order : acceptedItems l = takenItems l ++ takenItems l' ++ t.queue.items
  /-- without new calls of `addTask` it is over after so many steps -/
  ends : (∀ b ∈ bs, b.isCall = false) → bs.length ≤ 7 * n + 3 * Fintype.card P + 3
  /-- and not before every thread has finished, so that `join` returns -/
  joined : t.Stuck → (∀ i, t.consumers i = .finished) ∧ t.exiter = .done ∧
    ∀ p, ∃ last, t.producers p = .outside last

/-- **The pool shuts down**, from every state in which `exit` has begun and whatever the
order in which its threads, those that add tasks and the one that calls `exit` go on. -/
theorem shutsDown_of_run [NeZero n] [Fintype P] {platform : Platform} {maxWaiting : Int}
    {as bs : List (WaitLabel n P α)} {t : WaitState n P α}
    (hrun : Exec.exec waitStep (ThreadPool.new platform n P α maxWaiting) as = some s)
    (hexit : s.exiter ≠ .before) (hbs : Exec.exec waitStep s bs = some t) :
    ShutsDown s (Exec.trace waitStep queueEvents (ThreadPool.new platform n P α maxWaiting) as)
      bs t (Exec.trace waitStep queueEvents s bs) := by
  have hexited : s.queue.exited = true := (inv_of_run hrun).exited hexit
  have hall : Exec.exec waitStep (ThreadPool.new platform n P α maxWaiting) (as ++ bs) = some t := by
    rw [Exec.exec_append, hrun]
    exact hbs
  have hlast : LastTasks s t (Exec.trace waitStep queueEvents s bs) :=
    Exec.history (fun _ _ _ _ hstep h => LastTasks.step h hstep) hbs
      ⟨hexited, rfl, fun i => Nat.le_of_eq (Nat.zero_add _)⟩
  constructor
  case closed => exact hlast.closed
  case last => exact fun i => (Nat.le_add_right _ _).trans (hlast.last i)
  case order =>
    have hlog : QueueLog t (Exec.trace waitStep queueEvents
        (ThreadPool.new platform n P α maxWaiting) (as ++ bs)) := queueLog_of_run hall
    rw [QueueLog, Exec.trace_append hrun, acceptedItems, takenItems, List.filterMap_append,
      List.filterMap_append, ← acceptedItems, ← acceptedItems, hlast.closed,
      List.append_nil] at hlog
    exact hlog
  case ends =>
    intro hcall
    have hle := Exec.length_add_rank_le WaitState.rank
      (I := fun s => s.queue.exited = true) (G := fun _ b _ => b.isCall = false)
      (fun _ _ _ hstep hb hi => ⟨exited_of_waitStep hstep hi, rank_of_waitStep hstep hi hb⟩)
      (Exec.along_of_mem s hcall) hbs hexited
    have hrank := rank_le hexit
    omega
  case joined =>
    intro hstuck
    have hfree := hstuck.mutex_free (held_of_run hall)
    have hdone := hstuck.exiter_done hfree
    exact ⟨hstuck.consumer_finished hfree (inv_of_run hall) hdone, hdone,
      hstuck.producer_outside hfree⟩

/-- Two threads and a queue for two tasks.  When `exit` begins, the first thread is in
`pop_wait` with a task in the queue and the second is running one; a task is refused, the
first thread takes the one that was left, and one more that was accepted is never run. -/
theorem shutsDown_of_run_two :
    ∃ s t : WaitState 2 Unit Nat,
      Exec.exec waitStep (ThreadPool.new .x64 2 Unit Nat 2)
        [.call () 1, .produce (), .produce (), .notifyOne () none, .consume 1, .consume 1,
          .consume 1, .consume 1, .consume 0, .call () 2, .produce (), .produce (),
          .notifyOne () none, .call () 3, .produce (), .produce (), .notifyOne () none,
          .exit] = some s ∧
      s.exiter ≠ .before ∧
      Exec.exec waitStep s
        [.call () 4, .produce (), .produce (), .consume 0, .consume 0, .consume 0, .exit, .exit,
          .exit, .consume 0, .consume 0, .consume 1, .consume 1] = some t ∧
      t.queue.items = [3] ∧
      ShutsDown s
        (Exec.trace waitStep queueEvents (ThreadPool.new .x64 2 Unit Nat 2)
          [.call () 1, .produce (), .produce (), .notifyOne () none, .consume 1, .consume 1,
            .consume 1, .consume 1, .consume 0, .call () 2, .produce (), .produce (),
            .notifyOne () none, .call () 3, .produce (), .produce (), .notifyOne () none,
            .exit])
        [.call () 4, .produce (), .produce (), .consume 0, .consume 0, .consume 0, .exit, .exit,
          .exit, .consume 0, .consume 0, .consume 1, .consume 1] t
        (Exec.trace waitStep queueEvents s
          [.call () 4, .produce (), .produce (), .consume 0, .consume 0, .consume 0, .exit, .exit,
            .exit, .consume 0, .consume 0, .consume 1, .consume 1]) :=
  ⟨_, _, rfl, by decide, rfl, rfl, shutsDown_of_run rfl (by decide) rfl⟩

end Producers

end Libet
