/-
Libet/QueueWait.lean

Waiting on a `SafeQueue`: the mutex, the condition variable, and the threads.

Consumers loop on `pop_wait` as the threads of the pools do, producers call
`push`, and one thread calls `exit`; each takes its own steps, in any order.  A
`wait` gives the mutex back and blocks in one step; a blocked consumer goes on
when it is notified, when its time is up, or for no reason, and then has to take
the mutex again.  `exit_` is atomic and stored without the mutex, and `push`
notifies after it has given the mutex back.

That no wakeup is lost is the invariant `WaitState.Inv`: a consumer that is about
to block has seen an empty queue and `exit_` unset, and holds the mutex since, so
nothing can have been pushed, and `exit` still has to notify.
-/
import Libet.Lib.Exec
import Libet.SafeQueue
import Mathlib.Algebra.GroupWithZero.Nat
import Mathlib.Data.Fin.Basic
import Mathlib.Logic.Function.Basic

namespace Libet

/-! ### The threads -/

/-- Where a consumer stands. -/
inductive ConsumerPoint (α : Type*)
  /-- at `while (!tasks_.exited())` -/
  | top
  /-- in `pop_wait`, before it has the mutex -/
  | locking
  /-- at the first test of `wait_ready` -/
  | entered
  /-- at the test of `ready_.wait` -/
  | testing
  /-- the test has failed -/
  | waiting
  /-- blocked in `ready_.wait`, and not notified -/
  | blocked
  /-- told to go on, and without the mutex -/
  | woken (timedOut : Bool)
  /-- behind `wait_ready` -/
  | popping
  /-- inside `task()` -/
  | running (task : α)
  | finished
  deriving DecidableEq, Repr

/-- The consumer holds the mutex. -/
def ConsumerPoint.inSection {α : Type*} : ConsumerPoint α → Bool
  | .entered | .testing | .waiting | .popping => true
  | _ => false

def ConsumerPoint.isBlocked {α : Type*} : ConsumerPoint α → Bool
  | .blocked => true
  | _ => false

/-- Where a producer stands. -/
inductive ProducerPoint (α : Type*)
  /-- not in `push`, and what the last one returned -/
  | outside (last : Option Bool)
  | locking (v : α)
  /-- in the section of `push` -/
  | pushing (v : α)
  /-- at `ready_.notify_one()` -/
  | notifying
  deriving DecidableEq, Repr

/-- The producer holds the mutex. -/
def ProducerPoint.inSection {α : Type*} : ProducerPoint α → Bool
  | .pushing _ => true
  | _ => false

/-- Where the thread that calls `exit` stands. -/
inductive ExitPoint
  | before
  /-- `exit_` is set -/
  | stored
  /-- it has the mutex -/
  | locked
  /-- `ready_.notify_all()` is done -/
  | notified
  | done
  deriving DecidableEq, Repr

/-- The thread that calls `exit` holds the mutex. -/
def ExitPoint.inSection : ExitPoint → Bool
  | .locked | .notified => true
  | _ => false

/-- `exit` has still to notify. -/
def ExitPoint.toNotify : ExitPoint → Bool
  | .before | .stored | .locked => true
  | _ => false

/-- Who holds the mutex. -/
inductive Holder (n : Nat) (P : Type*)
  | consumer (i : Fin n)
  | producer (p : P)
  | exiter
  deriving DecidableEq

/-- A queue with `n` consumers and the producers `P`. -/
structure WaitState (n : Nat) (P α : Type*) where
  queue : SafeQueue α
  mutex : Option (Holder n P)
  consumers : Fin n → ConsumerPoint α
  producers : P → ProducerPoint α
  exiter : ExitPoint

/-- The step of one of the threads. -/
inductive WaitLabel (n : Nat) (P α : Type*)
  /-- a consumer takes its next step -/
  | consume (i : Fin n)
  /-- a blocked consumer goes on without a notification -/
  | wake (i : Fin n) (timedOut : Bool)
  /-- a producer calls `push` -/
  | call (p : P) (v : α)
  /-- it takes its next step up to the notification -/
  | produce (p : P)
  /-- it notifies a blocked consumer, or nobody if nobody is blocked -/
  | notifyOne (p : P) (i : Option (Fin n))
  /-- the thread that calls `exit` takes its next step -/
  | exit

namespace WaitState

variable {n : Nat} {P α : Type*}

/-- The threads before their first steps. -/
def init (capacity : Nat) : WaitState n P α :=
  ⟨SafeQueue.new capacity, none, fun _ => .top, fun _ => .outside none, .before⟩

def setConsumer (s : WaitState n P α) (i : Fin n) (c : ConsumerPoint α) : WaitState n P α :=
  { s with consumers := Function.update s.consumers i c }

def setProducer [DecidableEq P] (s : WaitState n P α) (p : P) (c : ProducerPoint α) :
    WaitState n P α :=
  { s with producers := Function.update s.producers p c }

theorem setConsumer_self (s : WaitState n P α) (i : Fin n) (c : ConsumerPoint α) :
    (s.setConsumer i c).consumers i = c := Function.update_self ..

theorem setConsumer_of_ne (s : WaitState n P α) {i j : Fin n} (h : j ≠ i) (c : ConsumerPoint α) :
    (s.setConsumer i c).consumers j = s.consumers j := Function.update_of_ne h ..

theorem setProducer_self [DecidableEq P] (s : WaitState n P α) (p : P) (c : ProducerPoint α) :
    (s.setProducer p c).producers p = c := Function.update_self ..

theorem setProducer_of_ne [DecidableEq P] (s : WaitState n P α) {p p' : P} (h : p' ≠ p)
    (c : ProducerPoint α) : (s.setProducer p c).producers p' = s.producers p' :=
  Function.update_of_ne h ..

/-- Every consumer that is blocked is told to go on. -/
def notifyAll (s : WaitState n P α) : WaitState n P α :=
  { s with consumers := fun i =>
      match s.consumers i with
      | .blocked => .woken false
      | c => c }

/-- What `notify_all` does to a consumer. -/
theorem notifyAll_consumers (s : WaitState n P α) (i : Fin n) :
    s.consumers i = .blocked ∧ s.notifyAll.consumers i = .woken false ∨
      s.consumers i ≠ .blocked ∧ s.notifyAll.consumers i = s.consumers i := by
  rw [notifyAll]
  dsimp only
  split
  · rename_i hb
    exact Or.inl ⟨hb, rfl⟩
  · rename_i hb
    exact Or.inr ⟨hb, rfl⟩

end WaitState

open WaitState

section Machine

variable {n : Nat} {P α : Type*} [DecidableEq P]

/-- The next step of a consumer. -/
def consumeStep (s : WaitState n P α) (i : Fin n) : Option (WaitState n P α) :=
  match s.consumers i with
  | .top => some (s.setConsumer i (if s.queue.exited then .finished else .locking))
  | .locking =>
      match s.mutex with
      | none => some ({ s with mutex := some (.consumer i) }.setConsumer i .entered)
      | some _ => none
  | .entered => some (s.setConsumer i (if s.queue.Ready then .popping else .testing))
  | .testing => some (s.setConsumer i (if s.queue.Ready then .popping else .waiting))
  | .waiting => some ({ s with mutex := none }.setConsumer i .blocked)
  | .blocked => none
  | .woken timedOut =>
      match s.mutex with
      -- `wait_ready` tests again, unless the time is up
      | none => some ({ s with mutex := some (.consumer i) }.setConsumer i
          (if timedOut then .popping else .testing))
      | some _ => none
  | .popping =>
      match s.queue.popWait with
      | (some task, q) => some ({ s with queue := q, mutex := none }.setConsumer i (.running task))
      | (none, q) => some ({ s with queue := q, mutex := none }.setConsumer i .top)
  | .running _ => some (s.setConsumer i .top)
  | .finished => none

/-- The next step of a producer, up to the notification. -/
def produceStep (s : WaitState n P α) (p : P) : Option (WaitState n P α) :=
  match s.producers p with
  | .locking v =>
      match s.mutex with
      | none => some ({ s with mutex := some (.producer p) }.setProducer p (.pushing v))
      | some _ => none
  | .pushing v =>
      match s.queue.push v with
      | (true, q) => some ({ s with queue := q, mutex := none }.setProducer p .notifying)
      | (false, q) => some ({ s with queue := q, mutex := none }.setProducer p
          (.outside (some false)))
  | _ => none

/-- The next step of the thread that calls `exit`. -/
def exitStep (s : WaitState n P α) : Option (WaitState n P α) :=
  match s.exiter with
  | .before => some { s with queue := s.queue.exit, exiter := .stored }
  | .stored =>
      match s.mutex with
      | none => some { s with mutex := some .exiter, exiter := .locked }
      | some _ => none
  | .locked => some { s.notifyAll with exiter := .notified }
  | .notified => some { s with mutex := none, exiter := .done }
  | .done => none

/-- One step of one thread. -/
def waitStep (s : WaitState n P α) : WaitLabel n P α → Option (WaitState n P α)
  | .consume i => consumeStep s i
  | .wake i timedOut =>
      match s.consumers i with
      | .blocked => some (s.setConsumer i (.woken timedOut))
      | _ => none
  | .call p v =>
      match s.producers p with
      | .outside _ => some (s.setProducer p (.locking v))
      | _ => none
  | .produce p => produceStep s p
  | .notifyOne p (some i) =>
      match s.producers p, s.consumers i with
      | .notifying, .blocked =>
          some ((s.setProducer p (.outside (some true))).setConsumer i (.woken false))
      | _, _ => none
  | .notifyOne p none =>
      match s.producers p with
      | .notifying =>
          if ∀ i, (s.consumers i).isBlocked = false then
            some (s.setProducer p (.outside (some true)))
          else none
      | _ => none
  | .exit => exitStep s

end Machine

/-! ### The invariant -/

variable {n : Nat} {P α : Type*} {s s' : WaitState n P α} {i : Fin n} {v : α}

/-- The invariant of the queue and its threads. -/
structure WaitState.Inv (s : WaitState n P α) : Prop where
  /-- the mutex: at most one thread is in a section -/
  consumer : ∀ i, (s.consumers i).inSection = true → s.mutex = some (.consumer i)
  producer : ∀ p, (s.producers p).inSection = true → s.mutex = some (.producer p)
  exiter : s.exiter.inSection = true → s.mutex = some .exiter
  exited : s.exiter ≠ .before → s.queue.exited = true
  /-- who is about to block has seen nothing to go on for -/
  waiting : ∀ i, s.consumers i = .waiting →
    s.queue.items = [] ∧ (s.exiter = .before ∨ s.exiter = .stored)
  /-- who is blocked has `exit` before it -/
  blocked : ∀ i, s.consumers i = .blocked → s.exiter.toNotify = true
  /-- items have somebody to take them -/
  awake : s.queue.items ≠ [] →
    (∃ p, s.producers p = .notifying) ∨ ∃ i, s.consumers i ≠ .blocked
  capacity : s.queue.capacity ≠ 0 → s.queue.items.length ≤ s.queue.capacity

theorem inv_init [NeZero n] (capacity : Nat) : (init capacity : WaitState n P α).Inv where
  consumer _ h := by cases h
  producer _ h := by cases h
  exiter h := by cases h
  exited h := absurd rfl h
  waiting _ h := by cases h
  blocked _ h := by cases h
  awake h := absurd rfl h
  capacity _ := Nat.zero_le _

/-- A step of the thread `x`, which keeps the mutex as it is, takes it or gives it
back, leaves it to any other thread that has it. -/
theorem mutex_kept {m : Option (Holder n P)} {x y : Holder n P}
    (hm : m = s.mutex ∨ s.mutex = none ∨ s.mutex = some x) (hy : y ≠ x)
    (hmy : s.mutex = some y) : m = some y := by
  rcases hm with rfl | hfree | hheld
  · exact hmy
  · rw [hfree] at hmy
    cases hmy
  · exact absurd (Option.some.inj (hmy.symm.trans hheld)) hy

namespace WaitState.Inv

/-- **A step of one consumer.**  It keeps the mutex as it is, takes it or gives
it back; if it is about to block or blocks, the queue is empty and `exit` has
not got the mutex; of the queue it changes at most that items are taken. -/
theorem consume (h : s.Inv) (i : Fin n) {c : ConsumerPoint α} {m : Option (Holder n P)}
    {q : SafeQueue α}
    (hm : m = s.mutex ∨ s.mutex = none ∨ s.mutex = some (.consumer i))
    (hc : c.inSection = true → m = some (.consumer i))
    (hwait : c = .waiting ∨ c = .blocked →
      q.items = [] ∧ (s.exiter = .before ∨ s.exiter = .stored))
    (hq : q.exited = s.queue.exited ∧ q.capacity = s.queue.capacity ∧
      q.items <:+ s.queue.items) :
    ({ s with queue := q, mutex := m }.setConsumer i c).Inv := by
  obtain ⟨hexited, hcap, hitems⟩ := hq
  constructor
  case consumer =>
    intro j hj
    by_cases hji : j = i
    · subst hji
      rw [setConsumer_self] at hj
      exact hc hj
    · rw [setConsumer_of_ne _ hji] at hj
      exact mutex_kept hm (fun heq => hji (Holder.consumer.inj heq)) (h.consumer j hj)
  case producer =>
    exact fun p hp => mutex_kept hm (by simp) (h.producer p hp)
  case exiter =>
    exact fun he => mutex_kept hm (by simp) (h.exiter he)
  case exited =>
    exact fun he => hexited.trans (h.exited he)
  case waiting =>
    intro j hj
    by_cases hji : j = i
    · subst hji
      rw [setConsumer_self] at hj
      exact hwait (Or.inl hj)
    · rw [setConsumer_of_ne _ hji] at hj
      obtain ⟨hnil, he⟩ := h.waiting j hj
      rw [hnil] at hitems
      exact ⟨List.suffix_nil.mp hitems, he⟩
  case blocked =>
    intro j hj
    by_cases hji : j = i
    · subst hji
      rw [setConsumer_self] at hj
      rcases (hwait (Or.inr hj)).2 with he | he <;> simp only [setConsumer, he, ExitPoint.toNotify]
    · rw [setConsumer_of_ne _ hji] at hj
      exact h.blocked j hj
  case awake =>
    intro hne
    right
    refine ⟨i, ?_⟩
    rw [setConsumer_self]
    exact fun hblock => hne (hwait (Or.inr hblock)).1
  case capacity =>
    intro h0
    show q.items.length ≤ q.capacity
    rw [hcap]
    exact Nat.le_trans hitems.length_le (h.capacity (hcap ▸ h0))

theorem consumeStep (h : s.Inv) (hstep : consumeStep s i = some s') : s'.Inv := by
  have hsection : (s.consumers i).inSection = true → s.mutex = some (.consumer i) := h.consumer i
  have hsame : s.queue.exited = s.queue.exited ∧ s.queue.capacity = s.queue.capacity ∧
      s.queue.items <:+ s.queue.items := ⟨rfl, rfl, List.suffix_refl _⟩
  unfold Libet.consumeStep at hstep
  split at hstep
  case h_1 =>
    cases hstep
    refine h.consume i (Or.inl rfl) (fun hc => ?_) (fun hc => ?_) hsame
    · split at hc <;> cases hc
    · split at hc <;> rcases hc with hc | hc <;> cases hc
  case h_2 =>
    split at hstep <;> cases hstep
    rename_i hfree
    exact h.consume i (Or.inr (Or.inl hfree)) (fun _ => rfl)
      (fun hc => by rcases hc with hc | hc <;> cases hc) hsame
  case h_3 hpoint =>
    cases hstep
    rw [hpoint] at hsection
    refine h.consume i (Or.inl rfl) (fun _ => hsection rfl) (fun hc => ?_) hsame
    split at hc <;> rcases hc with hc | hc <;> cases hc
  case h_4 hpoint =>
    cases hstep
    rw [hpoint] at hsection
    refine h.consume i (Or.inl rfl) (fun _ => hsection rfl) (fun hc => ?_) hsame
    split at hc
    · rcases hc with hc | hc <;> cases hc
    · -- the test has failed: the queue is empty, and `exit` has not begun
      rename_i hready
      obtain ⟨hexit, hitems⟩ := not_or.mp hready
      refine ⟨not_not.mp hitems, Or.inl ?_⟩
      by_contra hbefore
      exact hexit (h.exited hbefore)
  case h_5 hpoint =>
    cases hstep
    rw [hpoint] at hsection
    exact h.consume i (Or.inr (Or.inr (hsection rfl))) (fun hc => by cases hc)
      (fun _ => h.waiting i hpoint) hsame
  case h_6 => cases hstep
  case h_7 =>
    split at hstep <;> cases hstep
    rename_i hfree
    refine h.consume i (Or.inr (Or.inl hfree)) (fun _ => rfl) (fun hc => ?_) hsame
    split at hc <;> rcases hc with hc | hc <;> cases hc
  case h_8 hpoint =>
    rw [hpoint] at hsection
    rcases SafeQueue.popWait_cases (q := s.queue) with ⟨hnil, heq⟩ | ⟨v, rest, hitems, heq⟩
    · rw [heq] at hstep
      cases hstep
      exact h.consume i (Or.inr (Or.inr (hsection rfl))) (fun hc => by cases hc)
        (fun hc => by rcases hc with hc | hc <;> cases hc) hsame
    · rw [heq] at hstep
      cases hstep
      refine h.consume i (Or.inr (Or.inr (hsection rfl))) (fun hc => by cases hc)
        (fun hc => by rcases hc with hc | hc <;> cases hc) ⟨rfl, rfl, ?_⟩
      rw [hitems]
      exact List.suffix_cons v rest
  case h_9 =>
    cases hstep
    exact h.consume i (Or.inl rfl) (fun hc => by cases hc)
      (fun hc => by rcases hc with hc | hc <;> cases hc) hsame
  case h_10 => cases hstep

/-- A step of the thread that calls `exit`. -/
theorem exitStep [NeZero n] (h : s.Inv) (hstep : exitStep s = some s') : s'.Inv := by
  unfold Libet.exitStep at hstep
  split at hstep
  case h_1 hbefore =>
    cases hstep
    exact ⟨h.consumer, h.producer, fun he => (by cases he), fun _ => rfl,
      fun i hi => ⟨(h.waiting i hi).1, Or.inr rfl⟩, fun _ _ => rfl, h.awake, h.capacity⟩
  case h_2 hstored =>
    split at hstep <;> cases hstep
    rename_i hfree
    have hheld : ∀ x, s.mutex ≠ some x := fun x hx => by rw [hfree] at hx; cases hx
    have hwait : ∀ i, s.consumers i ≠ .waiting := fun i hi =>
      hheld _ (h.consumer i (by rw [hi]; rfl))
    exact ⟨fun i hi => absurd (h.consumer i hi) (hheld _),
      fun p hp => absurd (h.producer p hp) (hheld _), fun _ => rfl,
      fun _ => h.exited (by rw [hstored]; exact fun he => (by cases he)),
      fun i hi => absurd hi (hwait i), fun _ _ => rfl, h.awake, h.capacity⟩
  case h_3 hlocked =>
    cases hstep
    have hheld : s.mutex = some .exiter := h.exiter (by rw [hlocked]; rfl)
    refine ⟨fun i hi => ?_, h.producer, fun _ => hheld,
      fun _ => h.exited (by rw [hlocked]; exact fun he => (by cases he)),
      fun i hi => ?_, fun i hi => ?_, fun _ => Or.inr ⟨0, fun hb => ?_⟩, h.capacity⟩
    · rcases s.notifyAll_consumers i with ⟨hb, heq⟩ | ⟨hb, heq⟩
      · rw [show s.notifyAll.consumers i = _ from heq] at hi; cases hi
      · exact h.consumer i (heq ▸ hi)
    · rcases s.notifyAll_consumers i with ⟨hb, heq⟩ | ⟨hb, heq⟩
      · cases heq.symm.trans hi
      · -- the exiting thread has the mutex
        have hwait := h.consumer i (by rw [heq.symm.trans hi]; rfl)
        rw [hheld] at hwait
        cases hwait
    · rcases s.notifyAll_consumers i with ⟨hb, heq⟩ | ⟨hb, heq⟩
      · cases heq.symm.trans hi
      · exact absurd (heq.symm.trans hi) hb
    · rcases s.notifyAll_consumers 0 with ⟨hb', heq⟩ | ⟨hb', heq⟩
      · cases heq.symm.trans hb
      · exact hb' (heq.symm.trans hb)
  case h_4 hnotified =>
    cases hstep
    have hheld : s.mutex = some .exiter := h.exiter (by rw [hnotified]; rfl)
    have hexit : s.exiter.toNotify ≠ true := by rw [hnotified]; exact Bool.false_ne_true
    refine ⟨fun i hi => ?_, fun p hp => ?_, fun he => (by cases he),
      fun _ => h.exited (by rw [hnotified]; exact fun he => (by cases he)), fun i hi => ?_,
      fun i hi => absurd (h.blocked i hi) hexit, h.awake, h.capacity⟩
    · cases hheld.symm.trans (h.consumer i hi)
    · cases hheld.symm.trans (h.producer p hp)
    · cases hheld.symm.trans (h.consumer i (by rw [show s.consumers i = _ from hi]; rfl))
  case h_5 => cases hstep

variable [DecidableEq P] {p : P}

/-- **A step of one producer.**  It changes the queue at most by an item at the
end, within the capacity, and then goes on to notify; when it has notified, a
consumer is awake. -/
theorem produce (h : s.Inv) (p : P) {c : ProducerPoint α} {m : Option (Holder n P)}
    {q : SafeQueue α} (hpoint : s.producers p = .notifying → ∃ i, s.consumers i ≠ .blocked)
    (hm : m = s.mutex ∨ s.mutex = none ∨ s.mutex = some (.producer p))
    (hc : c.inSection = true → m = some (.producer p))
    (hq : q = s.queue ∨ ∃ v, q = { s.queue with items := s.queue.items ++ [v] } ∧
      c = .notifying ∧ s.mutex = some (.producer p) ∧
      (s.queue.capacity ≠ 0 → s.queue.items.length < s.queue.capacity)) :
    ({ s with queue := q, mutex := m }.setProducer p c).Inv := by
  constructor
  case consumer =>
    exact fun j hj => mutex_kept hm (by simp) (h.consumer j hj)
  case producer =>
    intro p' hp'
    by_cases heq : p' = p
    · subst heq
      rw [setProducer_self] at hp'
      exact hc hp'
    · rw [setProducer_of_ne _ heq] at hp'
      exact mutex_kept hm (fun hx => heq (Holder.producer.inj hx)) (h.producer p' hp')
  case exiter =>
    exact fun he => mutex_kept hm (by simp) (h.exiter he)
  case exited =>
    intro he
    rcases hq with rfl | ⟨v, rfl, -⟩ <;> exact h.exited he
  case waiting =>
    intro j hj
    obtain ⟨hnil, he⟩ := h.waiting j hj
    rcases hq with rfl | ⟨v, rfl, -, hheld, -⟩
    · exact ⟨hnil, he⟩
    · -- nobody pushes while a consumer has the mutex
      have hcons := h.consumer j (by rw [show s.consumers j = .waiting from hj]; rfl)
      rw [hheld] at hcons
      cases hcons
  case blocked =>
    exact h.blocked
  case awake =>
    intro hne
    rcases hq with rfl | ⟨v, rfl, rfl, -⟩
    · rcases h.awake hne with ⟨p', hp'⟩ | hawake
      · by_cases heq : p' = p
        · exact Or.inr (hpoint (heq ▸ hp'))
        · refine Or.inl ⟨p', ?_⟩
          rw [setProducer_of_ne _ heq]
          exact hp'
      · exact Or.inr hawake
    · exact Or.inl ⟨p, setProducer_self ..⟩
  case capacity =>
    intro h0
    rcases hq with rfl | ⟨v, rfl, -, -, hroom⟩
    · exact h.capacity h0
    · have hlt := hroom h0
      show (s.queue.items ++ [v]).length ≤ s.queue.capacity
      rw [List.length_append]
      exact hlt

theorem produceStep (h : s.Inv) (hstep : produceStep s p = some s') : s'.Inv := by
  have hsection : (s.producers p).inSection = true → s.mutex = some (.producer p) := h.producer p
  unfold Libet.produceStep at hstep
  split at hstep
  case h_1 hpoint =>
    split at hstep <;> cases hstep
    rename_i hfree
    exact h.produce p (fun hn => by rw [hpoint] at hn; cases hn) (Or.inr (Or.inl hfree))
      (fun _ => rfl) (Or.inl rfl)
  case h_2 v hpoint =>
    rw [hpoint] at hsection
    have hnot : s.producers p = .notifying → ∃ i, s.consumers i ≠ .blocked :=
      fun hn => by rw [hpoint] at hn; cases hn
    by_cases hroom : s.queue.exited = true ∨
        s.queue.capacity ≠ 0 ∧ s.queue.capacity ≤ s.queue.items.length
    · rw [SafeQueue.push, if_pos hroom] at hstep
      cases hstep
      exact h.produce p hnot (Or.inr (Or.inr (hsection rfl))) (fun hc => by cases hc)
        (Or.inl rfl)
    · rw [SafeQueue.push, if_neg hroom] at hstep
      cases hstep
      refine h.produce p hnot (Or.inr (Or.inr (hsection rfl))) (fun hc => by cases hc)
        (Or.inr ⟨v, rfl, rfl, hsection rfl, fun h0 => ?_⟩)
      exact Nat.lt_of_not_le fun hle => hroom (Or.inr ⟨h0, hle⟩)
  case h_3 => cases hstep

/-- A producer notifies: somebody is awake then. -/
theorem notifyOne [NeZero n] (h : s.Inv) {i : Option (Fin n)}
    (hstep : waitStep s (.notifyOne p i) = some s') : s'.Inv := by
  cases i with
  | some i =>
      simp only [waitStep] at hstep
      split at hstep <;> cases hstep
      have hwoken : (s.setConsumer i (.woken false)).Inv :=
        h.consume i (Or.inl rfl) (fun hc => by cases hc)
          (fun hc => by rcases hc with hc | hc <;> cases hc) ⟨rfl, rfl, List.suffix_refl _⟩
      refine hwoken.produce p (fun _ => ⟨i, ?_⟩) (Or.inl rfl) (fun hc => by cases hc) (Or.inl rfl)
      rw [setConsumer_self]
      exact fun hc => by cases hc
  | none =>
      simp only [waitStep] at hstep
      split at hstep
      · split at hstep <;> cases hstep
        rename_i hall
        refine h.produce p (fun _ => ⟨0, fun hb => ?_⟩) (Or.inl rfl) (fun hc => by cases hc)
          (Or.inl rfl)
        have hfree := hall 0
        rw [hb] at hfree
        cases hfree
      · cases hstep

/-- **One step of one thread.** -/
theorem step [NeZero n] (h : s.Inv) {a : WaitLabel n P α} (hstep : waitStep s a = some s') :
    s'.Inv := by
  cases a with
  | consume i => exact h.consumeStep hstep
  | wake i timedOut =>
      simp only [waitStep] at hstep
      split at hstep <;> cases hstep
      exact h.consume i (Or.inl rfl) (fun hc => by cases hc)
        (fun hc => by rcases hc with hc | hc <;> cases hc) ⟨rfl, rfl, List.suffix_refl _⟩
  | call p v =>
      simp only [waitStep] at hstep
      split at hstep <;> cases hstep
      rename_i hpoint
      exact h.produce p (fun hn => by rw [hpoint] at hn; cases hn) (Or.inl rfl)
        (fun hc => by cases hc) (Or.inl rfl)
  | produce p => exact h.produceStep hstep
  | notifyOne p i => exact h.notifyOne hstep
  | exit => exact h.exitStep hstep

end WaitState.Inv

/-! ### No wakeup is lost -/

/-- Of the queue, a consumer changes at most that it takes the first item. -/
theorem queue_of_consumeStep (hstep : consumeStep s i = some s') :
    s'.queue.capacity = s.queue.capacity ∧
      (s'.queue.items = s.queue.items ∨ ∃ v, s.queue.items = v :: s'.queue.items) := by
  unfold consumeStep at hstep
  split at hstep
  case h_6 => cases hstep
  case h_10 => cases hstep
  case h_8 =>
    rcases SafeQueue.popWait_cases (q := s.queue) with ⟨hnil, heq⟩ | ⟨v, rest, hitems, heq⟩
    · rw [heq] at hstep
      cases hstep
      exact ⟨rfl, Or.inl rfl⟩
    · rw [heq] at hstep
      cases hstep
      exact ⟨rfl, Or.inr ⟨v, hitems⟩⟩
  case h_2 =>
    split at hstep <;> cases hstep
    exact ⟨rfl, Or.inl rfl⟩
  case h_7 =>
    split at hstep <;> cases hstep
    exact ⟨rfl, Or.inl rfl⟩
  all_goals
    cases hstep
    exact ⟨rfl, Or.inl rfl⟩

section Runs

variable [DecidableEq P]

/-- A producer that changes the queue goes on to notify. -/
theorem queue_of_produceStep {p : P} (hstep : produceStep s p = some s') :
    s'.queue.capacity = s.queue.capacity ∧
      (s'.queue.items = s.queue.items ∨
        s'.producers p = .notifying ∧ ∃ v, s'.queue.items = s.queue.items ++ [v]) := by
  unfold produceStep at hstep
  split at hstep
  case h_1 =>
    split at hstep <;> cases hstep
    exact ⟨rfl, Or.inl rfl⟩
  case h_2 v hpoint =>
    rcases SafeQueue.push_cases (q := s.queue) (v := v) with heq | heq
    · rw [heq] at hstep
      cases hstep
      exact ⟨rfl, Or.inl rfl⟩
    · rw [heq] at hstep
      cases hstep
      exact ⟨rfl, Or.inr ⟨setProducer_self .., v, rfl⟩⟩
  case h_3 => cases hstep

/-- **What a step does to the queue.**  The items change only when a consumer
takes the first one, or when a `push` appends one, which then goes on to notify
and to return `true`. -/
theorem queue_of_waitStep {a : WaitLabel n P α} (hstep : waitStep s a = some s') :
    s'.queue.capacity = s.queue.capacity ∧
      (s'.queue.items = s.queue.items ∨
        (∃ i v, a = .consume i ∧ s.queue.items = v :: s'.queue.items) ∨
        ∃ p v, a = .produce p ∧ s'.producers p = .notifying ∧
          s'.queue.items = s.queue.items ++ [v]) := by
  cases a with
  | consume i =>
      obtain ⟨hcap, hitems | ⟨v, hitems⟩⟩ := queue_of_consumeStep hstep
      · exact ⟨hcap, Or.inl hitems⟩
      · exact ⟨hcap, Or.inr (Or.inl ⟨i, v, rfl, hitems⟩)⟩
  | produce p =>
      obtain ⟨hcap, hitems | ⟨hpoint, v, hitems⟩⟩ := queue_of_produceStep hstep
      · exact ⟨hcap, Or.inl hitems⟩
      · exact ⟨hcap, Or.inr (Or.inr ⟨p, v, rfl, hpoint, hitems⟩)⟩
  | wake i timedOut =>
      simp only [waitStep] at hstep
      split at hstep <;> cases hstep
      exact ⟨rfl, Or.inl rfl⟩
  | call p v =>
      simp only [waitStep] at hstep
      split at hstep <;> cases hstep
      exact ⟨rfl, Or.inl rfl⟩
  | notifyOne p i =>
      cases i with
      | some i =>
          simp only [waitStep] at hstep
          split at hstep <;> cases hstep
          exact ⟨rfl, Or.inl rfl⟩
      | none =>
          simp only [waitStep] at hstep
          split at hstep
          · split at hstep <;> cases hstep
            exact ⟨rfl, Or.inl rfl⟩
          · cases hstep
  | exit =>
      simp only [waitStep, exitStep] at hstep
      split at hstep
      case h_2 =>
        split at hstep <;> cases hstep
        exact ⟨rfl, Or.inl rfl⟩
      case h_5 => cases hstep
      all_goals
        cases hstep
        exact ⟨rfl, Or.inl rfl⟩

/-- The capacity is what it was at first. -/
theorem capacity_of_run {capacity : Nat} {as : List (WaitLabel n P α)}
    (hrun : Exec.exec waitStep (init capacity) as = some s) : s.queue.capacity = capacity :=
  Exec.invariant (I := fun s : WaitState n P α => s.queue.capacity = capacity)
    (fun _ _ _ hstep hi => (queue_of_waitStep hstep).1.trans hi) hrun rfl

variable [NeZero n]

/-- **The run lemma.** -/
theorem inv_of_run {capacity : Nat} {as : List (WaitLabel n P α)}
    (hrun : Exec.exec waitStep (init capacity) as = some s) : s.Inv :=
  Exec.invariant (I := WaitState.Inv) (fun _ _ _ hstep hi => hi.step hstep) hrun
    (inv_init capacity)

/-- **No wakeup is lost.**  Take any number of producers, at least one consumer,
and any run of their steps and those of one `exit`.  There is never an item in
the queue with nobody inside `push` and every consumer blocked, and never a
blocked consumer once `exit` is done.  A `push` that returns `false`, which is
one that does not come to notify, leaves the items as they are, and a queue with
a capacity keeps to it. -/
theorem no_lost_wakeup {capacity : Nat} {as : List (WaitLabel n P α)}
    (hrun : Exec.exec waitStep (init capacity) as = some s) :
    ¬ (s.queue.items ≠ [] ∧ (∀ p, ∃ last, s.producers p = .outside last) ∧
        ∀ i, s.consumers i = .blocked) ∧
      ¬ (s.exiter = .done ∧ ∃ i, s.consumers i = .blocked) ∧
      (∀ p a s', (a = .produce p ∨ ∃ v, a = .call p v) → waitStep s a = some s' →
        s'.producers p ≠ .notifying → s'.queue.items = s.queue.items) ∧
      (0 < capacity → s.queue.items.length ≤ capacity) := by
  have hinv := inv_of_run hrun
  have hcap := capacity_of_run hrun
  refine ⟨?_, ?_, ?_, ?_⟩
  · rintro ⟨hne, hout, hall⟩
    rcases hinv.awake hne with ⟨p, hp⟩ | ⟨i, hi⟩
    · obtain ⟨last, hlast⟩ := hout p
      cases hp.symm.trans hlast
    · exact hi (hall i)
  · rintro ⟨hdone, i, hi⟩
    have hnotify := hinv.blocked i hi
    rw [hdone] at hnotify
    cases hnotify
  · intro p a s' ha hstep hpoint
    rcases (queue_of_waitStep hstep).2 with hitems | ⟨i, v, rfl, -⟩ | ⟨p', v, rfl, hp', -⟩
    · exact hitems
    · rcases ha with ha | ⟨v, ha⟩ <;> cases ha
    · rcases ha with ha | ⟨v, ha⟩
      · cases ha
        exact absurd hp' hpoint
      · cases ha
  · intro h0
    rw [← hcap] at h0 ⊢
    exact hinv.capacity (Nat.ne_of_gt h0)

end Runs

/-- The one consumer blocks; then a task is pushed, and the consumer notified. -/
def blockAndPush : List (WaitLabel 1 Unit Nat) :=
  [.consume 0, .consume 0, .consume 0, .consume 0, .consume 0, .call () 7, .produce (),
    .produce (), .notifyOne () (some 0)]

theorem no_lost_wakeup_one :
    (Exec.exec waitStep (init 1) blockAndPush).map (fun s => s.queue.items) = some [7] ∧
      ∀ s, Exec.exec waitStep (init 1) blockAndPush = some s →
        ¬ (s.queue.items ≠ [] ∧ (∀ p, ∃ last, s.producers p = .outside last) ∧
          ∀ i, s.consumers i = .blocked) :=
  ⟨rfl, fun _ hrun => (no_lost_wakeup hrun).1⟩

end Libet
